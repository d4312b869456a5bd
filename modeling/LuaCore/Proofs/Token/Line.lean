import LuaCore.Proofs.Token.Cut

namespace LuaCore

section Runs

variable {α : Type} {p : α → Bool} {a : α} {more : List α}

theorem takeWhile_before (ha : p a = false) (l : List α) :
    (l ++ a :: more).takeWhile p = l.takeWhile p := by
  induction l with
  | nil => simp [ha]
  | cons b l ih => simp [List.takeWhile_cons, ih]

theorem dropWhile_before (ha : p a = false) (l : List α) :
    (l ++ a :: more).dropWhile p = l.dropWhile p ++ a :: more := by
  induction l with
  | nil => simp [ha]
  | cons b l ih =>
    simp only [List.cons_append, List.dropWhile_cons, ih]
    split <;> rfl

end Runs

/-- What a scanner makes of a text that ends there it makes of the text at the
end of a line. -/
def StopsAtLine {α : Type} (f : List Char → Except LexFault α) : Prop :=
  ∀ ⦃rest a⦄, f rest = .ok a → ∀ more, f (rest ++ '\n' :: more) = .ok a

section Choice

variable {α : Type} {c : Prop} [Decidable c]
    {f g : List Char → Except LexFault α}

theorem stopsAtLine_ok (a : α) : StopsAtLine fun _ => .ok a := fun _ _ h _ => h

theorem stopsAtLine_error (fault : LexFault) :
    StopsAtLine fun _ => (.error fault : Except LexFault α) :=
  fun _ _ h => absurd h (by simp)

theorem stopsAtLine_ite (hf : StopsAtLine f) (hg : StopsAtLine g) :
    StopsAtLine fun rest => if c then f rest else g rest := by
  split
  · exact hf
  · exact hg

theorem StopsAtLine.bind {β : Type} (hf : StopsAtLine f)
    (next : α → Except LexFault β) :
    StopsAtLine fun rest => f rest >>= next := by
  intro rest b h more
  dsimp only at h ⊢
  cases hrest : f rest with
  | error fault =>
    rw [hrest] at h
    cases h
  | ok a =>
    rw [hrest] at h
    rw [hf hrest more]
    exact h

end Choice

namespace Numeral

open Char

variable {text mantissa digits rest more : List Char} {e : Exponent}

theorem head?_any_line {p : Char → Bool} (hstop : p '\n' = false)
    (rest more : List Char) :
    (rest ++ '\n' :: more).head?.any p = rest.head?.any p := by
  cases rest with
  | nil => simpa using hstop
  | cons c rest => rfl

theorem stopsAtLine_endingAt (text : List Char) (value : Float) :
    StopsAtLine (endingAt text value) := by
  intro rest result h more
  unfold endingAt at h ⊢
  rw [head?_any_line (by decide)]
  split at h
  · cases h
  · next hend =>
    rw [if_neg hend]
    exact h

theorem Exponent.ofText?_line_none (h : Exponent.ofText? rest = none)
    (more : List Char) :
    Exponent.ofText? (rest ++ '\n' :: more) = none := by
  cases rest with
  | nil => simp [Exponent.ofText?]
  | cons mark rest =>
    have hmark : ¬(mark = 'e' ∨ mark = 'E') := by
      intro hmark
      simp only [Exponent.ofText?, if_pos hmark] at h
      split at h
      · split at h <;> cases h
      · cases h
    simp [Exponent.ofText?, hmark]

theorem Exponent.ofText?_line (h : Exponent.ofText? rest = some e)
    (hdigits : e.digits ≠ []) (more : List Char) :
    Exponent.ofText? (rest ++ '\n' :: more) =
      some { e with rest := e.rest ++ '\n' :: more } := by
  have hstop : isDigit '\n' = false := rfl
  unfold Exponent.ofText? at h
  split at h
  · next mark rest =>
    split at h
    · next hmark =>
      split at h
      · next sign after =>
        split at h
        · next hsign =>
          cases h
          simp [Exponent.ofText?, hmark, hsign, takeWhile_before hstop,
            dropWhile_before hstop]
        · next hsign =>
          cases h
          simp only [List.cons_append, Exponent.ofText?, if_pos hmark,
            if_neg hsign]
          rw [← List.cons_append, takeWhile_before hstop,
            dropWhile_before hstop]
      · cases h
        exact absurd rfl hdigits
    · cases h
  · cases h

theorem stopsAtLine_scaled (mantissa digits : List Char) (places : Nat) :
    StopsAtLine (scaled mantissa digits places) := by
  intro rest result h more
  unfold scaled at h ⊢
  cases he : Exponent.ofText? rest with
  | none =>
    rw [he] at h
    rw [Exponent.ofText?_line_none he]
    exact stopsAtLine_endingAt _ _ h more
  | some e =>
    rw [he] at h
    dsimp only at h
    split at h
    · cases h
    · next hdigits =>
      rw [Exponent.ofText?_line he hdigits]
      dsimp only
      rw [if_neg hdigits]
      exact stopsAtLine_endingAt _ _ h more

theorem fraction_line (rest more : List Char) :
    fraction (rest ++ '\n' :: more) = (fraction rest).map fun (digits, after) =>
        (digits, after ++ '\n' :: more) := by
  have hstop : isDigit '\n' = false := rfl
  fun_cases fraction rest with
  | case1 tail => rfl
  | case2 tail hpoint =>
    rw [List.cons_append, fraction.eq_2, takeWhile_before hstop,
      dropWhile_before hstop]
    · rfl
    · rintro after hafter
      cases tail with
      | nil => simp at hafter
      | cons c tail =>
        obtain ⟨rfl, -⟩ := List.cons.inj hafter
        exact hpoint tail rfl
  | case3 _ _ hpoint =>
    cases rest with
    | nil => rfl
    | cons c tail =>
      have hc : c ≠ '.' := fun hc => hpoint tail (congrArg (· :: tail) hc)
      simp [fraction, hc]

theorem stopsAtLine_decimal (first : Char) : StopsAtLine (decimal first) := by
  have hstop : isDigit '\n' = false := rfl
  intro rest result h more
  unfold decimal at h ⊢
  rw [takeWhile_before hstop, dropWhile_before hstop, fraction_line]
  cases hfraction : fraction (rest.dropWhile isDigit) with
  | none =>
    rw [hfraction] at h
    exact stopsAtLine_scaled _ _ _ h more
  | some part =>
    rw [hfraction] at h
    exact stopsAtLine_scaled _ _ _ h more

theorem stopsAtLine_hexadecimal (x : Char) : StopsAtLine (hexadecimal x) := by
  have hstop : isHexDigit '\n' = false := rfl
  intro rest result h more
  unfold hexadecimal at h ⊢
  dsimp only at h ⊢
  rw [takeWhile_before hstop, dropWhile_before hstop]
  split at h
  · cases h
  · next hdigits =>
    rw [if_neg hdigits]
    exact stopsAtLine_endingAt _ _ h more

theorem stopsAtLine_scan (first : Char) : StopsAtLine (scan first) := by
  have hstop : isDigit '\n' = false := rfl
  intro rest result h more
  by_cases hpoint : first = '.'
  · rw [scan_eq, if_pos hpoint] at h ⊢
    rw [takeWhile_before hstop, dropWhile_before hstop]
    exact stopsAtLine_scaled _ _ _ h more
  · rw [scan_eq, if_neg hpoint] at h ⊢
    cases rest with
    | nil =>
      have hx : ¬(first = '0' ∧ ('\n' = 'x' ∨ '\n' = 'X')) := by simp
      dsimp only [List.nil_append] at h ⊢
      rw [if_neg hx]
      exact stopsAtLine_decimal first h more
    | cons x rest =>
      dsimp only [List.cons_append] at h ⊢
      split at h
      · next hhex =>
        rw [if_pos hhex]
        exact stopsAtLine_hexadecimal x h more
      · next hhex =>
        rw [if_neg hhex]
        exact stopsAtLine_decimal first h more

end Numeral

namespace Lexeme

variable {cs rest body : List Char} {level : Nat}

theorem bracketLevel?_line (cs more : List Char) :
    bracketLevel? (cs ++ '\n' :: more) = bracketLevel? cs := by
  unfold bracketLevel?
  dsimp only
  rw [takeWhile_before rfl]
  have hle := (List.takeWhile_prefix (· == '=') (l := cs)).length_le
  rcases Nat.lt_or_eq_of_le hle with hlt | heq
  · rw [List.getElem?_append_left hlt]
  · rw [heq]
    simp

theorem untilCloser?_append (h : untilCloser? level cs = some body)
    (more : List Char) :
    untilCloser? level (cs ++ more) = some body := by
  induction cs generalizing body with
  | nil => cases h
  | cons c cs ih =>
    unfold untilCloser? at h
    split at h
    · next hclose =>
      have hprefix := (List.isPrefixOf_iff_prefix.mp hclose.2).trans
        (List.prefix_append cs more)
      rw [List.cons_append, untilCloser?,
        if_pos ⟨hclose.1, List.isPrefixOf_iff_prefix.mpr hprefix⟩]
      exact h
    · next hopen =>
      obtain ⟨after, hafter, rfl⟩ := Option.map_eq_some_iff.mp h
      -- A closer further on shows that one here would lie before the
      -- end as well.
      obtain ⟨tail, hcs, -⟩ := untilCloser?_split hafter
      have hlength : (closerTail level).length ≤ cs.length := by
        rw [hcs]
        simp
        omega
      have hopen' :
          ¬(c = ']' ∧ (closerTail level).isPrefixOf (cs ++ more)) := by
        rintro ⟨hc, hp⟩
        refine hopen ⟨hc, List.isPrefixOf_iff_prefix.mpr ?_⟩
        exact List.prefix_of_prefix_length_le (List.isPrefixOf_iff_prefix.mp hp)
          (List.prefix_append cs more) hlength
      rw [List.cons_append, untilCloser?, if_neg hopen', ih hafter]
      rfl

theorem stopsAtLine_longBracket (level : Nat) :
    StopsAtLine (longBracket level) := by
  intro rest body h more
  rw [longBracket_eq_ok_iff] at h ⊢
  rw [List.drop_append]
  exact untilCloser?_append h _

theorem stopsAtLine_comment : StopsAtLine comment := by
  intro rest lexeme h more
  by_cases hlong : ∃ text level, rest = '[' :: text ∧
    bracketLevel? text = some level
  · obtain ⟨text, level, rfl, hlevel⟩ := hlong
    simp only [comment, List.cons_append, bracketLevel?_line, hlevel] at h ⊢
    exact (stopsAtLine_longBracket level).bind _ h more
  · rw [lineComment_eq fun text level hrest hlevel =>
      hlong ⟨text, level, hrest, hlevel⟩] at h
    rw [lineComment_eq, takeWhile_before (by decide)]
    · exact h
    · intro text level htext hlevel
      cases rest with
      | nil => simp at htext
      | cons c rest =>
        obtain ⟨rfl, rfl⟩ := List.cons.inj htext
        exact hlong
          ⟨rest, level, rfl, (bracketLevel?_line rest more).symm.trans hlevel⟩

theorem stopsAtLine_dash : StopsAtLine dash := by
  intro rest lexeme h more
  rcases rest with _ | ⟨c, rest⟩
  · exact h
  · by_cases hc : c = '-'
    · subst hc
      exact stopsAtLine_comment h more
    · simpa [dash, hc] using h

theorem stopsAtLine_bracket : StopsAtLine bracket := by
  intro rest lexeme h more
  unfold bracket at h ⊢
  rw [bracketLevel?_line]
  cases hlevel : bracketLevel? rest with
  | some level =>
    rw [hlevel] at h
    exact (stopsAtLine_longBracket level).bind _ h more
  | none =>
    rw [hlevel] at h
    cases rest with
    | nil => exact h
    | cons c rest => exact h

theorem stopsAtLine_withEquals (long short : Symbol) :
    StopsAtLine fun rest => .ok (withEquals long short rest) := by
  intro rest lexeme h more
  cases rest with
  | nil => exact h
  | cons c rest => exact h

theorem stopsAtLine_tilde (c : Char) : StopsAtLine fun rest =>
    if rest.head? = some '=' then
      (.ok (.symbol .notEqual, 1) : Except LexFault Lexeme)
    else .error (.unexpectedCharacter c) := by
  intro rest lexeme h more
  cases rest with
  | nil => cases h
  | cons d rest => exact h

theorem stopsAtLine_quoted (quote : Char) : StopsAtLine (quoted quote) := by
  intro rest lexeme h more
  unfold quoted at h ⊢
  dsimp only at h ⊢
  split at h
  · next hclosed =>
    rw [List.takeWhile_append, if_neg (Nat.ne_of_lt hclosed),
      List.length_append, if_pos (Nat.lt_add_right _ hclosed)]
    exact h
  · cases h

theorem stopsAtLine_numeral (first : Char) : StopsAtLine (numeral first) :=
  (Numeral.stopsAtLine_scan first).bind _

theorem stopsAtLine_dots : StopsAtLine dots := by
  intro rest lexeme h more
  rcases rest with _ | ⟨c, rest⟩
  · exact h
  by_cases hc : c = '.'
  · subst hc
    rcases rest with _ | ⟨d, rest⟩
    · exact h
    · by_cases hd : d = '.'
      · subst hd
        exact h
      · simpa [dots, hd] using h
  · by_cases hdigit : c.isDigit
    · rw [dots_of_isDigit hdigit] at h
      rw [List.cons_append, dots_of_isDigit hdigit]
      exact stopsAtLine_numeral '.' h more
    · simpa [dots, hc, hdigit] using h

theorem stopsAtLine_word (first : Char) :
    StopsAtLine fun rest => .ok (word first rest) := by
  intro rest lexeme h more
  unfold word at h ⊢
  dsimp only at h ⊢
  rw [takeWhile_before rfl]
  exact h

theorem stopsAtLine_scan (c : Char) : StopsAtLine (scan c) := by
  unfold scan
  split
  · exact stopsAtLine_ok _
  refine stopsAtLine_ite stopsAtLine_dash ?_
  refine stopsAtLine_ite stopsAtLine_bracket ?_
  refine stopsAtLine_ite (stopsAtLine_withEquals _ _) ?_
  refine stopsAtLine_ite (stopsAtLine_withEquals _ _) ?_
  refine stopsAtLine_ite (stopsAtLine_withEquals _ _) ?_
  refine stopsAtLine_ite (stopsAtLine_tilde c) ?_
  refine stopsAtLine_ite stopsAtLine_dots ?_
  refine stopsAtLine_ite (stopsAtLine_quoted c) ?_
  refine stopsAtLine_ite (stopsAtLine_numeral c) ?_
  exact stopsAtLine_ite (stopsAtLine_word c) (stopsAtLine_error _)

end Lexeme

/-! Positions on lines further down. -/

def Position.down (lines : Nat) (p : Position) : Position :=
  ⟨p.line + lines, p.column⟩

def Token.down (lines : Nat) (t : Token) : Token :=
  ⟨t.kind, t.position.down lines⟩

def LexError.down (lines : Nat) (e : LexError) : LexError :=
  ⟨e.fault, e.position.down lines⟩

def Ending.down (lines : Nat) : Ending → Ending
  | finished p => .finished (p.down lines)
  | broken e => .broken (e.down lines)

theorem Position.next_down (p : Position) (lines : Nat) (c : Char) :
    (p.down lines).next c = (p.next c).down lines := by
  unfold next down
  split
  · rw [Nat.add_right_comm]
  · rfl

namespace Tokens

def down (lines : Nat) (ts : Tokens) : Tokens :=
  ⟨ts.list.map (·.down lines), ts.ending.down lines⟩

def before (ts us : Tokens) : Tokens := ⟨ts.list ++ us.list, us.ending⟩

theorem ofChars_down (p : Position) (lines skip : Nat) (cs : List Char) :
    ofChars (p.down lines) skip cs = (ofChars p skip cs).down lines := by
  induction p, skip, cs using ofChars.induct with
  | case1 p skip => simp [ofChars, down, Ending.down]
  | case2 p c cs n ih => rw [ofChars, ofChars, Position.next_down, ih]
  | case3 p c cs hblank ih => simp [ofChars, hblank, Position.next_down, ih]
  | case4 p c cs hblank kind length hscan ih =>
    simp [ofChars, hblank, hscan, Position.next_down, ih, down, cons,
      Token.down]
  | case5 p c cs hblank fault hscan =>
    simp [ofChars, hblank, hscan, down, Ending.down, LexError.down]

theorem ofChars_line {p q : Position} {skip : Nat} {cs : List Char}
    (hskip : skip ≤ cs.length) (h : (ofChars p skip cs).ending = .finished q)
    (more : List Char) :
    ofChars p skip (cs ++ '\n' :: more) =
      (ofChars p skip cs).before (ofChars (q.next '\n') 0 more) := by
  induction p, skip, cs using ofChars.induct with
  | case1 p skip =>
    obtain rfl : skip = 0 := Nat.le_zero.mp hskip
    cases h
    simp [ofChars, isBlank, before]
  | case2 p c cs n ih =>
    rw [List.cons_append, ofChars, ofChars]
    rw [ofChars] at h
    exact ih (Nat.le_of_succ_le_succ hskip) h
  | case3 p c cs hblank ih =>
    simp only [ofChars, hblank, if_true, List.cons_append] at h ⊢
    exact ih (Nat.zero_le _) h
  | case4 p c cs hblank kind length hscan ih =>
    obtain ⟨used, after, rfl, rfl, -⟩ := Lexeme.isLocal_scan c hscan
    have hscan' := Lexeme.stopsAtLine_scan c hscan more
    simp only [ofChars, hblank, hscan, hscan', List.cons_append] at h ⊢
    rw [ih (by simp) h]
    rfl
  | case5 p c cs hblank fault hscan => simp [ofChars, hblank, hscan] at h

/-- A text that is cut into tokens is cut into the same ones where lines follow
it, and the tokens of these are where they stand. -/
theorem ofSource_line {s : String} {p : Position}
    (h : (ofSource s).ending = .finished p) (t : String) :
    ofSource (s ++ "\n" ++ t) =
      (ofSource s).before ((ofSource t).down p.line) := by
  have hchars : (s ++ "\n" ++ t).toList = s.toList ++ '\n' :: t.toList := by
    simp
  have hnext : p.next '\n' = Position.start.down p.line := by
    simp [Position.next, Position.down, Position.start, Nat.add_comm]
  rw [ofSource, hchars, ofChars_line (Nat.zero_le _) h, hnext, ofChars_down]
  rfl

/-- All the tokens, or the error of the lexeme that cannot be completed. -/
def toExcept (ts : Tokens) : Except LexError (List Token) :=
  match ts.ending with
  | .finished _ => .ok ts.list
  | .broken e => .error e

theorem toExcept_eq_ok {ts : Tokens} {list : List Token}
    (h : ts.toExcept = .ok list) :
    list = ts.list ∧ ∃ p, ts.ending = .finished p := by
  unfold toExcept at h
  split at h
  · next p hp =>
    cases h
    exact ⟨rfl, p, hp⟩
  · cases h

theorem line_of_finished {s : String} {p : Position}
    (h : (ofSource s).ending = .finished p) :
    p.line = s.toList.count '\n' + 1 := by
  obtain ⟨_, _, -, -, hend⟩ := ofChars_cut .start 0 s.toList s.toList
    (i := 0) rfl (Nat.zero_le _) rfl (Nat.zero_le _)
  have hstop : (Ending.finished p).EndsAt s.toList _ := h ▸ hend
  rw [hstop.2, Position.ofText, Nat.add_comm]

/-- A text that can be cut, a line feed and another text have the tokens of the
one and then those of the other, or its error, that many lines further down. -/
theorem toExcept_line {s : String} {ts : List Token}
    (h : (ofSource s).toExcept = .ok ts) (t : String) :
    (ofSource (s ++ "\n" ++ t)).toExcept =
      match (ofSource t).toExcept with
      | .ok us => .ok (ts ++ us.map (·.down (s.toList.count '\n' + 1)))
      | .error e => .error (e.down (s.toList.count '\n' + 1)) := by
  obtain ⟨rfl, p, hp⟩ := toExcept_eq_ok h
  rw [ofSource_line hp, line_of_finished hp]
  cases hending : (ofSource t).ending with
  | finished q => simp only [toExcept, before, down, hending, Ending.down]
  | broken e => simp only [toExcept, before, down, hending, Ending.down]

/-- The comment counts the lines, and the points of two numerals do not meet. -/
theorem toExcept_line_points :
    (ofSource "--[[\n]] 1.").toExcept =
      .ok [⟨.comment "\n", .start⟩, ⟨.number 1, ⟨2, 4⟩⟩] ∧
      (ofSource ("--[[\n]] 1." ++ "\n" ++ ".2")).toExcept =
        .ok [⟨.comment "\n", .start⟩, ⟨.number 1, ⟨2, 4⟩⟩,
            ⟨.number 0.2, ⟨3, 1⟩⟩] := by
  have h : (ofSource "--[[\n]] 1.").toExcept =
      .ok [⟨.comment "\n", .start⟩, ⟨.number 1, ⟨2, 4⟩⟩] := by decide +kernel
  refine ⟨h, (toExcept_line h ".2").trans ?_⟩
  decide +kernel

end Tokens

end LuaCore
