import LuaCore.Proofs.Reader.Motion
import LuaCore.Proofs.Token.Found

namespace LuaCore

namespace Position

def Before (p q : Position) : Prop :=
  p.line < q.line ∨ p.line = q.line ∧ p.column < q.column

variable {p q r : Position}

theorem Before.trans (h : p.Before q) (h' : q.Before r) : p.Before r := by
  unfold Before at *
  omega

theorem Before.irrefl (p : Position) : ¬ p.Before p := by
  unfold Before
  omega

theorem before_next (p : Position) (c : Char) : p.Before (p.next c) := by
  unfold Before next
  split
  · exact .inl (Nat.lt_succ_self _)
  · exact .inr ⟨rfl, Nat.lt_succ_self _⟩

end Position

namespace Tokens

theorem ofChars_ordered (p : Position) (skip : Nat) (cs : List Char) :
    ((ofChars p skip cs).list ++ (ofChars p skip cs).ending.tokens).Pairwise
        (·.position.Before ·.position) ∧
      ∀ t ∈ (ofChars p skip cs).list ++ (ofChars p skip cs).ending.tokens,
        p = t.position ∨ p.Before t.position := by
  -- what holds one character further on places everything after the character
  have later : ∀ {p : Position} {c : Char} {ts : List Token},
      (∀ t ∈ ts, p.next c = t.position ∨ (p.next c).Before t.position) →
      ∀ t ∈ ts, p.Before t.position := by
    intro p c ts h t ht
    have hnext := p.before_next c
    cases h t ht with
    | inl heq => exact heq ▸ hnext
    | inr hbefore => exact hnext.trans hbefore
  induction p, skip, cs using ofChars.induct with
  | case1 p skip => simp [ofChars, Ending.tokens]
  | case2 p c cs n ih =>
    obtain ⟨hpairs, hall⟩ := ih
    rw [ofChars]
    exact ⟨hpairs, fun t ht => .inr (later hall t ht)⟩
  | case3 p c cs hblank ih =>
    obtain ⟨hpairs, hall⟩ := ih
    have htokens : ofChars p 0 (c :: cs) = ofChars (p.next c) 0 cs := by
      simp [ofChars, hblank]
    rw [htokens]
    exact ⟨hpairs, fun t ht => .inr (later hall t ht)⟩
  | case4 p c cs hblank kind length hscan ih =>
    obtain ⟨hpairs, hall⟩ := ih
    have htokens : ofChars p 0 (c :: cs) =
        (ofChars (p.next c) length cs).cons ⟨kind, p⟩ := by
      simp [ofChars, hblank, hscan]
    rw [htokens]
    constructor
    · exact List.pairwise_cons.mpr ⟨later hall, hpairs⟩
    · intro t ht
      cases List.mem_cons.mp ht with
      | inl heq => exact .inl (heq ▸ rfl)
      | inr hmem => exact .inr (later hall t hmem)
  | case5 p c cs hblank fault hscan =>
    simp [ofChars, hblank, hscan, Ending.tokens]

theorem ofSource_noEnd (source : String) :
    ∀ t ∈ (ofSource source).list, t.kind.isEos = false := by
  have hscan : ∀ c rest,
      Lexeme.Finds (fun kind => kind.isEos = false) (Lexeme.scan c rest) := by
    intro c rest
    refine Lexeme.finds_scan ⟨fun _ => rfl, fun _ => rfl, fun _ => rfl,
        fun _ => rfl⟩ c rest fun _ => ?_
    unfold Lexeme.word
    dsimp only
    split
    · rfl
    · rfl
  exact ofChars_finds hscan .start 0 source.toList

theorem ofSource_reaches {source : String} {c : Cursor}
    (h : Reader.next (.start (ofSource source)) = .ok () c) :
    (Cursor.start (ofSource source)).Reaches (ofSource source) c :=
  Reader.advance_reaches _ _ _ (ofSource_noEnd source) (Cursor.shown_start _) h

/-- No two tokens that matter are the same, for they stand at different
positions. -/
theorem nodup_significant (source : String) :
    (ofSource source).significant.Nodup := by
  have hpairs := (ofChars_ordered .start 0 source.toList).1
  have hsub : (ofSource source).significant.Sublist
      ((ofSource source).list ++ (ofSource source).ending.tokens) :=
    List.filter_sublist.append (List.Sublist.refl _)
  refine (hpairs.sublist hsub).imp fun hbefore heq => ?_
  exact Position.Before.irrefl _ (heq ▸ hbefore)

end Tokens

end LuaCore
