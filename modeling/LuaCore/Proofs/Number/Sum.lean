import Mathlib
import LuaCore.Number

namespace LuaCore.Number

open Float.Model UnpackedFloat

/-- The number that packed fields with a zero fraction or a low exponent stand
for is no NaN. -/
theorem unpack_packComponents_ne_notANumber {spec : Format} {sign : Sign}
    {exponent : BitVec spec.exponentBits}
    {fraction : BitVec spec.mantissaBitsWithoutImplicit}
    (h : exponent = -1#_ → fraction = 0#_) :
    UnpackedFloat.unpack spec (packComponents spec sign exponent fraction) ≠
      .notANumber := by
  unfold UnpackedFloat.unpack
  simp only [unpackExponent_packComponents, unpackMantissa_packComponents]
  split
  · next hlast =>
    rw [if_pos (h hlast)]
    simp
  · split
    · split <;> simp
    · simp

theorem unpack_pack_ne_notANumber {spec : Format} {u : UnpackedFloat}
    (h : u ≠ .notANumber) :
    UnpackedFloat.unpack spec (UnpackedFloat.pack spec u) ≠ .notANumber := by
  have hinfinity : ∀ s, UnpackedFloat.unpack spec (packedInfinity spec s) ≠
      .notANumber :=
    fun s => unpack_packComponents_ne_notANumber fun _ => rfl
  cases u with
  | notANumber => exact absurd rfl h
  | infinity s => exact hinfinity s
  | zero s => exact unpack_packComponents_ne_notANumber fun _ => rfl
  | finite s m e hm =>
    unfold UnpackedFloat.pack
    dsimp only
    split
    · exact hinfinity s
    · next hlt =>
      have hpos : 1 < 2 ^ spec.exponentBits :=
        Nat.one_lt_two_pow (Nat.pos_iff_ne_zero.mp spec.he)
      split
      · refine unpack_packComponents_ne_notANumber fun hlast => ?_
        have hlast := congrArg BitVec.toNat hlast
        simp only [BitVec.neg_one_eq_allOnes, BitVec.toNat_ofNat,
          BitVec.toNat_allOnes] at hlast
        rw [Nat.mod_eq_of_lt (by omega)] at hlast
        omega
      · refine unpack_packComponents_ne_notANumber fun hlast => ?_
        have hlast := congrArg BitVec.toNat hlast
        simp only [BitVec.neg_one_eq_allOnes, BitVec.toNat_ofNat,
          BitVec.toNat_allOnes, Nat.zero_mod] at hlast
        omega

theorem round_ne_notANumber {spec : Format} {sign : Sign} {mantissa : Nat}
    {exponent : Int} :
    UnpackedFloat.round spec sign mantissa exponent ≠ .notANumber := by
  unfold UnpackedFloat.round roundWithAccuracy
  dsimp only
  split <;> simp

theorem normalize_ne_notANumber {spec : Format} {mantissa exponent : Int}
    {sign : Sign} :
    UnpackedFloat.normalize spec mantissa exponent sign ≠ .notANumber := by
  unfold UnpackedFloat.normalize
  split
  · exact round_ne_notANumber
  · simp
  · exact round_ne_notANumber

theorem add_finite_ne_notANumber {spec : Format} {u v : UnpackedFloat}
    (hu : u ≠ .notANumber) (hv : v.isFinite = true) :
    UnpackedFloat.add spec u v ≠ .notANumber := by
  cases v with
  | infinity | notANumber => cases hv
  | zero s' =>
    cases u with
    | notANumber => exact absurd rfl hu
    | zero s =>
      simp only [UnpackedFloat.add]
      split <;> simp
    | _ => simp [UnpackedFloat.add]
  | finite =>
    cases u with
    | notANumber => exact absurd rfl hu
    | finite => exact normalize_ne_notANumber
    | _ => simp [UnpackedFloat.add]

theorem isNaN_eq_false_iff {x : Float} :
    x.isNaN = false ↔ x.toModel.unpack ≠ .notANumber := by
  rw [Float.isNaN, Float.Model.isNaN, Bool.eq_false_iff, Ne,
    UnpackedFloat.isNaN_iff]

/-- A sum is no NaN if neither summand is one and the second one is finite. -/
theorem isNaN_add {x y : Float} (hx : x.isNaN = false)
    (hy : y.isFinite = true) :
    (x + y).isNaN = false :=
  isNaN_eq_false_iff.mpr (unpack_pack_ne_notANumber
      (add_finite_ne_notANumber (isNaN_eq_false_iff.mp hx) hy))

/-- Where a number is after so many steps. -/
def counter (start step : Float) : Nat → Float
  | 0 => start
  | k + 1 => counter start step k + step

theorem isNaN_counter {start step : Float} (hstart : start.isNaN = false)
    (hstep : step.isFinite = true) (k : Nat) :
    (counter start step k).isNaN = false := by
  induction k with
  | zero => exact hstart
  | succ k ih => exact isNaN_add ih hstep

end LuaCore.Number
