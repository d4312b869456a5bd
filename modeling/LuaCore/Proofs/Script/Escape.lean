import LuaCore.Script.Quoted

namespace LuaCore.Script

def shortEscapes : List (Char × Char) :=
  [('"', '"'), ('\\', '\\'), ('n', '\n'), ('r', '\r'), ('t', '\t')]

theorem escape_cases (c : Char) :
    (∃ e, (e, c) ∈ shortEscapes ∧ escape c = ['\\', e]) ∨
      c.toNat < 0x10000 ∧ escape c = '\\' :: 'u' :: fourHexDigits c.toNat ∨
      (c ≠ '"' ∧ c ≠ '\\' ∧ c ≠ '\n' ∧ c ≠ '\r') ∧ escape c = [c] := by
  unfold escape
  split
  · next h => exact .inl ⟨'"', by rw [h]; decide, rfl⟩
  split
  · next h => exact .inl ⟨'\\', by rw [h]; decide, rfl⟩
  split
  · next h => exact .inl ⟨'n', by rw [h]; decide, rfl⟩
  split
  · next h => exact .inl ⟨'r', by rw [h]; decide, rfl⟩
  split
  · next h => exact .inl ⟨'t', by rw [h]; decide, rfl⟩
  split
  · next hcontrol =>
    simp only [isControl, Bool.or_eq_true, Bool.and_eq_true, decide_eq_true_eq]
      at hcontrol
    exact .inr (.inl ⟨by omega, rfl⟩)
  · next hquote hbackslash hline hreturn _ _ =>
      exact .inr (.inr ⟨⟨hquote, hbackslash, hline, hreturn⟩, rfl⟩)

theorem isAlphanum_of_mem_fourHexDigits {n : Nat} {c : Char}
    (h : c ∈ fourHexDigits n) :
    c.isAlphanum = true := by
  have hdigit : ∀ m < 16, (Nat.digitChar m).isAlphanum = true := by decide
  simp only [fourHexDigits, List.mem_cons, List.not_mem_nil, or_false] at h
  rcases h with rfl | rfl | rfl | rfl <;>
    exact hdigit _ (Nat.mod_lt _ (by decide))

end LuaCore.Script
