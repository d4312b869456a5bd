import LuaCore.Proofs.Token.Lexeme
import Mathlib.Data.List.Induction

namespace LuaCore

def Position.ofText (before : List Char) : Position :=
  ⟨1 + before.count '\n', 1 + (before.reverse.takeWhile (· != '\n')).length⟩

theorem Position.next_ofText (before : List Char) (c : Char) :
    (ofText before).next c = ofText (before ++ [c]) := by
  by_cases hc : c = '\n'
  · simp [Position.next, ofText, hc, List.count_append, Nat.add_assoc]
  · simp [Position.next, ofText, hc, List.count_append, Nat.add_assoc]

theorem Position.after_start (cs : List Char) : start.after cs = ofText cs := by
  induction cs using List.reverseRecOn with
  | nil => rfl
  | append_singleton cs c ih =>
    rw [after_append, ih, after_cons, after_nil, next_ofText]

structure Span where
  start : Nat
  stop : Nat

namespace Span

def text (s : Span) (cs : List Char) : List Char :=
  (cs.take s.stop).drop s.start

theorem text_of_drop {cs rest : List Char} {i : Nat} (text : List Char)
    (h : cs.drop i = text ++ rest) :
    (Span.mk i (i + text.length)).text cs = text := by
  show (cs.take (i + text.length)).drop i = text
  rw [List.drop_take, Nat.add_sub_cancel_left, h, List.take_left]

def Covers (s : Span) (i : Nat) : Prop := s.start ≤ i ∧ i < s.stop

/-- The token is the one that the text of the span alone is cut into, at the
position of the span. -/
structure Holds (s : Span) (cs : List Char) (t : Token) : Prop where
  position : t.position = .ofText (cs.take s.start)
  alone : Tokens.ofSource (String.ofList (s.text cs)) =
    ⟨[⟨t.kind, .start⟩], .finished (.ofText (s.text cs))⟩

end Span

/-- The characters from `start` up to `stop` are cut into the tokens, which have
these spans. -/
structure Cut (cs : List Char) (start stop : Nat) (spans : List Span)
    (ts : List Token) : Prop where
  nonempty : ∀ s ∈ spans, s.start < s.stop
  within : ∀ s ∈ spans, start ≤ s.start ∧ s.stop ≤ stop
  apart : spans.Pairwise fun s s' => s.stop ≤ s'.start
  blanks : ∀ i c, start ≤ i → i < stop → cs[i]? = some c →
    (∀ s ∈ spans, ¬ s.Covers i) →
    isBlank c = true
  tokens : List.Forall₂ (Span.Holds · cs ·) spans ts

/-- How the source ends after `stop` characters: there, or with a lexeme that
cannot be completed. -/
def Ending.EndsAt (cs : List Char) (stop : Nat) : Ending → Prop
  | finished p => stop = cs.length ∧ p = .ofText cs
  | broken e => e.position = .ofText (cs.take stop) ∧
    Tokens.ofSource (String.ofList (cs.drop stop)) =
      ⟨[], .broken ⟨e.fault, .start⟩⟩

theorem drop_eq_cons {α : Type} {l rest : List α} {a : α} {i : Nat}
    (h : l.drop i = a :: rest) :
    i < l.length ∧ l[i]? = some a ∧ l.drop (i + 1) = rest ∧
      l.take (i + 1) = l.take i ++ [a] := by
  have hget : l[i]? = some a := by
    have hfirst := congrArg (·[0]?) h
    simpa using hfirst
  refine ⟨(List.getElem?_eq_some_iff.mp hget).1, hget, ?_, ?_⟩
  · rw [← List.tail_drop, h, List.tail_cons]
  · rw [List.take_add_one, hget]
    rfl

namespace Cut

variable {cs : List Char} {start stop : Nat} {spans : List Span}
    {ts : List Token}

theorem nil (cs : List Char) (start : Nat) : Cut cs start start [] [] where
  nonempty := nofun
  within := nofun
  apart := .nil
  blanks _ _ hstart hstop := absurd hstart (Nat.not_le_of_lt hstop)
  tokens := .nil

theorem blank {c : Char} (hc : cs[start]? = some c) (hblank : isBlank c = true)
    (h : Cut cs (start + 1) stop spans ts) : Cut cs start stop spans ts where
  nonempty := h.nonempty
  within s hs := ⟨Nat.le_of_succ_le (h.within s hs).1, (h.within s hs).2⟩
  apart := h.apart
  blanks i d hstart hstop hd houtside := by
    rcases Nat.eq_or_lt_of_le hstart with rfl | hlt
    · rw [hc] at hd
      cases hd
      exact hblank
    · exact h.blanks i d hlt hstop hd houtside
  tokens := h.tokens

theorem cons {s : Span} {t : Token} (hs : s.start < s.stop)
    (hstop : s.stop ≤ stop) (ht : s.Holds cs t)
    (h : Cut cs s.stop stop spans ts) :
    Cut cs s.start stop (s :: spans) (t :: ts) where
  nonempty := List.forall_mem_cons.mpr ⟨hs, h.nonempty⟩
  within s' hs' := by
    rcases List.mem_cons.mp hs' with rfl | hs'
    · exact ⟨Nat.le_refl _, hstop⟩
    · obtain ⟨hstart, hle⟩ := h.within s' hs'
      exact ⟨Nat.le_trans (Nat.le_of_lt hs) hstart, hle⟩
  apart := List.pairwise_cons.mpr ⟨fun s' hs' => (h.within s' hs').1, h.apart⟩
  blanks i c hstart hi hc houtside := by
    obtain ⟨hfirst, hothers⟩ := List.forall_mem_cons.mp houtside
    have hpast : s.stop ≤ i := Nat.le_of_not_lt fun hlt => hfirst ⟨hstart, hlt⟩
    exact h.blanks i c hpast hi hc hothers
  tokens := .cons ht h.tokens

end Cut

namespace Tokens

/-- Characters that belong to the token before them leave nothing but
the position. -/
theorem ofChars_length (p : Position) (cs : List Char) :
    ofChars p cs.length cs = ⟨[], .finished (p.after cs)⟩ := by
  induction cs generalizing p with
  | nil => rfl
  | cons c cs ih => exact ih (p.next c)

theorem ofChars_lexeme {c : Char} {cs : List Char} {kind : TokenKind}
    (p : Position) (hc : isBlank c = false)
    (h : Lexeme.scan c cs = .ok (kind, cs.length)) :
    ofChars p 0 (c :: cs) = ⟨[⟨kind, p⟩], .finished (p.after (c :: cs))⟩ := by
  simp only [ofChars, hc, h, ofChars_length]
  rfl

/-- The characters from the `i`-th on, the first `skip` of which belong to the
token before them. -/
theorem ofChars_cut (p : Position) (skip : Nat) (cs source : List Char)
    {i : Nat} (hcs : source.drop i = cs) (hi : i ≤ source.length)
    (hp : p = .ofText (source.take i)) (hskip : skip ≤ cs.length) :
    ∃ spans stop, i + skip ≤ stop ∧
      Cut source (i + skip) stop spans (ofChars p skip cs).list ∧
      (ofChars p skip cs).ending.EndsAt source stop := by
  induction p, skip, cs using ofChars.induct generalizing i with
  | case1 p skip =>
    obtain rfl : skip = 0 := Nat.le_zero.mp hskip
    obtain rfl : i = source.length :=
      Nat.le_antisymm hi (List.drop_eq_nil_iff.mp hcs)
    rw [List.take_length] at hp
    exact ⟨[], source.length, Nat.le_refl _, Cut.nil _ _, rfl, hp⟩
  | case2 p c cs n ih =>
    obtain ⟨hlt, -, hrest, hnext⟩ := drop_eq_cons hcs
    have hstart : i + 1 + n = i + (n + 1) := by omega
    rw [← hstart]
    apply ih hrest hlt
    · rw [hp, Position.next_ofText, hnext]
    · exact Nat.le_of_succ_le_succ hskip
  | case3 p c cs hblank ih =>
    obtain ⟨hlt, hc, hrest, hnext⟩ := drop_eq_cons hcs
    have hp' : p.next c = .ofText (source.take (i + 1)) := by
      rw [hp, Position.next_ofText, hnext]
    obtain ⟨spans, stop, hstop, hcut, hend⟩ := ih hrest hlt hp' (Nat.zero_le _)
    have htokens : ofChars p 0 (c :: cs) = ofChars (p.next c) 0 cs := by
      simp [ofChars, hblank]
    rw [htokens]
    exact ⟨spans, stop, Nat.le_of_succ_le hstop, hcut.blank hc hblank, hend⟩
  | case4 p c cs hblank kind length hscan ih =>
    obtain ⟨hlt, hc, hrest, hnext⟩ := drop_eq_cons hcs
    have hp' : p.next c = .ofText (source.take (i + 1)) := by
      rw [hp, Position.next_ofText, hnext]
    obtain ⟨used, more, rfl, rfl, hused⟩ := Lexeme.isLocal_scan c hscan
    obtain ⟨spans, stop, hstop, hcut, hend⟩ := ih hrest hlt hp' (by simp)
    have htokens : ofChars p 0 (c :: (used ++ more)) =
        (ofChars (p.next c) used.length (used ++ more)).cons ⟨kind, p⟩ := by
      simp [ofChars, hblank, hscan]
    have htext : (Span.mk i (i + (used.length + 1))).text source = c :: used :=
      Span.text_of_drop (c :: used) hcs
    have hholds :
        (Span.mk i (i + (used.length + 1))).Holds source ⟨kind, p⟩ := by
      refine ⟨hp, ?_⟩
      rw [htext, ofSource, String.toList_ofList,
        ofChars_lexeme _ (Bool.not_eq_true _ ▸ hblank) hused,
        Position.after_start]
    have hnext' : i + 1 + used.length = i + (used.length + 1) := by omega
    rw [hnext'] at hcut hstop
    rw [htokens]
    exact ⟨⟨i, i + (used.length + 1)⟩ :: spans, stop,
      Nat.le_trans (Nat.le_add_right _ _) hstop,
      hcut.cons (Nat.lt_add_of_pos_right (Nat.succ_pos _)) hstop hholds, hend⟩
  | case5 p c cs hblank fault hscan =>
    have htokens : ∀ q, ofChars q 0 (c :: cs) = ⟨[], .broken ⟨fault, q⟩⟩ := by
      simp [ofChars, hblank, hscan]
    rw [htokens]
    refine ⟨[], i, Nat.le_refl _, Cut.nil _ _, hp, ?_⟩
    rw [hcs, ofSource, String.toList_ofList, htokens]

/-- The spans of all tokens, up to the end of the source or to the first
character of the lexeme that cannot be completed. -/
theorem ofSource_cut (source : String) :
    ∃ spans stop, Cut source.toList 0 stop spans (ofSource source).list ∧
      (ofSource source).ending.EndsAt source.toList stop := by
  obtain ⟨spans, stop, -, hcut, hend⟩ := ofChars_cut .start 0 source.toList
    source.toList (i := 0) rfl (Nat.zero_le _) rfl (Nat.zero_le _)
  exact ⟨spans, stop, hcut, hend⟩

end Tokens

end LuaCore
