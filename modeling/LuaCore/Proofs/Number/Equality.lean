import Mathlib
import LuaCore.Proofs.Number.Fields

namespace LuaCore.Number

open Float.Model UnpackedFloat

def value? (x : Float) : Option ℚ :=
  match x.toModel.unpack with
  | .zero _ => some 0
  | .finite sign mantissa exponent _ =>
    some (sign.apply mantissa * 2 ^ exponent)
  | _ => none

theorem mul_two_zpow_lt {m m' : Nat} {e e' : Int} (hm : m < 2 ^ 53)
    (hm' : 2 ^ 52 ≤ m') (h : e < e') :
    (m : ℚ) * 2 ^ e < m' * 2 ^ e' := by
  have hm : (m : ℚ) < 2 ^ 53 := by exact_mod_cast hm
  have hm' : (2 ^ 52 : ℚ) ≤ m' := by exact_mod_cast hm'
  calc
    (m : ℚ) * 2 ^ e < 2 ^ 53 * 2 ^ e := by gcongr
    _ = 2 ^ 52 * 2 ^ (e + 1) := by
      rw [zpow_add_one₀ (by norm_num)]
      ring
    _ ≤ 2 ^ 52 * 2 ^ e' := by
      gcongr
      · norm_num
      · exact h
    _ ≤ m' * 2 ^ e' := by gcongr

theorem magnitude_injective {x y : Float} {s s' : Sign} {m m' : Nat}
    {e e' : Int} {h : 0 < m} {h' : 0 < m'}
    (hx : x.toModel.unpack = .finite s m e h)
    (hy : y.toModel.unpack = .finite s' m' e' h')
    (heq : (m : ℚ) * 2 ^ e = m' * 2 ^ e') :
    m = m' ∧ e = e' := by
  obtain ⟨hm, hleast, -⟩ := bounds_of_finite hx
  obtain ⟨hm', hleast', -⟩ := bounds_of_finite hy
  have hcanonical := canonical_of_finite hx
  have hcanonical' := canonical_of_finite hy
  obtain hlt | rfl | hgt := lt_trichotomy e e'
  · exact absurd heq (mul_two_zpow_lt hm (by omega) hlt).ne
  · rw [mul_left_inj' (zpow_ne_zero _ (by norm_num))] at heq
    exact ⟨by exact_mod_cast heq, rfl⟩
  · exact absurd heq (mul_two_zpow_lt hm' (by omega) hgt).ne'

theorem value?_eq_zero_iff {x : Float} :
    value? x = some 0 ↔ ∃ s, x.toModel.unpack = .zero s := by
  unfold value?
  split
  · next hx => simp [hx]
  · next s m e h hx =>
    have hne : ((s.apply m : Int) : ℚ) * 2 ^ e ≠ 0 := by
      apply mul_ne_zero _ (zpow_ne_zero _ (by norm_num))
      cases s <;> simpa [Sign.apply] using h.ne'
    simp [hx, hne]
  · next hzero _ => simpa using hzero

theorem eq_of_value?_eq {x y : Float} {q : ℚ} (hx : value? x = some q)
    (hy : value? y = some q) (hq : q ≠ 0) :
    x = y := by
  unfold value? at hx hy
  split at hx
  · exact absurd (Option.some.inj hx).symm hq
  · next s m e hm hxu =>
    split at hy
    · exact absurd (Option.some.inj hy).symm hq
    · next s' m' e' hm' hyu =>
      have heq : ((s.apply m : Int) : ℚ) * 2 ^ e =
          (s'.apply m' : Int) * 2 ^ e' :=
        Option.some.inj (hx.trans hy.symm)
      have hpos : (0 : ℚ) < m * 2 ^ e := by positivity
      have hpos' : (0 : ℚ) < m' * 2 ^ e' := by positivity
      -- both sides are nonzero, so the signs agree, and then the magnitudes do
      have hsame : s = s' ∧ (m : ℚ) * 2 ^ e = m' * 2 ^ e' := by
        cases s <;> cases s' <;>
          simp only [Sign.apply, Int.cast_neg, Int.cast_natCast] at heq
        · exact ⟨rfl, by linarith⟩
        · linarith
        · linarith
        · exact ⟨rfl, heq⟩
      obtain ⟨rfl, hmagnitude⟩ := hsame
      obtain ⟨rfl, rfl⟩ := magnitude_injective hxu hyu hmagnitude
      exact eq_of_unpack_eq (hxu.trans hyu.symm)
    · cases hy
  · cases hx

theorem compare_eq_iff {u v : UnpackedFloat} :
    u.compare v = some .eq ↔
      u = v ∧ u ≠ .notANumber ∨ (∃ s, u = .zero s) ∧ ∃ s, v = .zero s := by
  cases u with
  | notANumber => simp [UnpackedFloat.compare]
  | infinity s =>
    cases v with
    | infinity s' =>
      cases s <;> cases s' <;> simp [UnpackedFloat.compare] <;> rfl
    | _ => cases s <;> simp [UnpackedFloat.compare]
  | zero s =>
    cases v with
    | finite s' => cases s' <;> simp [UnpackedFloat.compare]
    | infinity s' => cases s' <;> simp [UnpackedFloat.compare]
    | _ => simp [UnpackedFloat.compare]
  | finite s m e h =>
    cases v with
    | infinity s' => cases s' <;> simp [UnpackedFloat.compare]
    | finite s' =>
      cases s <;> cases s' <;>
        simp [UnpackedFloat.compare, Ordering.then_eq_eq, and_comm]
    | _ => cases s <;> simp [UnpackedFloat.compare]

theorem beq_iff {x y : Float} :
    (x == y) = true ↔
      x = y ∧ x.isNaN = false ∨ value? x = some 0 ∧ value? y = some 0 := by
  have hbeq : (x == y) = true ↔
      x.toModel.unpack.compare y.toModel.unpack = some .eq := by
    show (x.toModel.unpack.compare y.toModel.unpack == some .eq) = true ↔ _
    exact beq_iff_eq
  have hnan : x.isNaN = false ↔ x.toModel.unpack ≠ .notANumber := by
    unfold Float.isNaN Float.Model.isNaN
    cases x.toModel.unpack <;> simp [UnpackedFloat.isNaN]
  have hsame : x.toModel.unpack = y.toModel.unpack ↔ x = y :=
    ⟨eq_of_unpack_eq, fun h => h ▸ rfl⟩
  rw [hbeq, compare_eq_iff, hnan, hsame, value?_eq_zero_iff, value?_eq_zero_iff]

theorem apply_eq_mul (s : Sign) (k : Int) : s.apply k = s.apply 1 * k := by
  cases s <;> simp [Sign.apply]

theorem integer?_eq_some_iff {x : Float} {n : Int} :
    integer? x = some n ↔ value? x = some (n : ℚ) := by
  unfold integer? value?
  cases x.toModel.unpack with
  | zero s => simp [eq_comm]
  | finite s m e h =>
    cases e with
    | ofNat k =>
      dsimp only
      rw [Option.some.injEq, Option.some.injEq, apply_eq_mul, apply_eq_mul s m,
        ← mul_assoc]
      simp only [Int.ofNat_eq_natCast, zpow_natCast, Nat.pow_eq]
      norm_cast
    | negSucc k =>
      have hvalue : ((s.apply m : Int) : ℚ) * 2 ^ Int.negSucc k = n ↔
          s.apply m = n * 2 ^ (k + 1) := by
        rw [zpow_negSucc, mul_inv_eq_iff_eq_mul₀ (by positivity)]
        norm_cast
      have hpos : (0 : Int) < 2 ^ (k + 1) := by positivity
      dsimp only
      rw [Option.some.injEq, hvalue, apply_eq_mul s m, Nat.pow_eq]
      split
      · next hmod =>
        obtain ⟨d, rfl⟩ := Nat.dvd_of_mod_eq_zero hmod
        rw [Nat.mul_div_cancel_left d (Nat.pow_pos Nat.two_pos),
          Option.some.injEq, apply_eq_mul]
        push_cast
        rw [← mul_left_inj' hpos.ne']
        ring_nf
      · next hmod =>
        -- a value that is an integer makes the mantissa a multiple of the power
        refine iff_of_false nofun fun heq => hmod ?_
        have hdvd : (2 : Int) ^ (k + 1) ∣ m := by
          cases s with
          | negative => exact ⟨-n, by simp [Sign.apply] at heq; linarith⟩
          | positive => exact ⟨n, by simp [Sign.apply] at heq; linarith⟩
        exact Nat.mod_eq_zero_of_dvd (by exact_mod_cast hdvd)
  | _ => simp

end LuaCore.Number
