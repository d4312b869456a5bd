import Mathlib
import LuaCore.Number

namespace LuaCore.Number

open Float.Model UnpackedFloat

inductive Encodes (sign : Sign) : Nat → Nat → UnpackedFloat → Prop
  | infinity : Encodes sign 2047 0 (.infinity sign)
  | notANumber {fraction : Nat} (h : 0 < fraction) :
      Encodes sign 2047 fraction .notANumber
  | zero : Encodes sign 0 0 (.zero sign)
  | subnormal {fraction : Nat} (h : 0 < fraction) (hlt : fraction < 2 ^ 52) :
    Encodes sign 0 fraction (.finite sign fraction (-1074) h)
  | normal {biased fraction mantissa : Nat} {exponent : Int} {h : 0 < mantissa}
      (hpos : 0 < biased) (hmax : biased < 2047) (hlt : fraction < 2 ^ 52)
      (hmantissa : mantissa = 2 ^ 52 + fraction)
      (hexponent : exponent = biased - 1075) :
      Encodes sign biased fraction (.finite sign mantissa exponent h)

theorem toNat_append_implicit (v : BitVec 52) :
    (1#1 ++ v).toNat = 2 ^ 52 + v.toNat := by
  rw [BitVec.toNat_append, ← Nat.shiftLeft_add_eq_or_of_lt v.isLt]
  rfl

section

variable (b : BitVec Format.binary64.numBits)

theorem toNat_unpackMantissa : (unpackMantissa b).toNat = b.toNat % 2 ^ 52 := by
  simp [unpackMantissa, BitVec.extractLsb]

theorem toNat_unpackExponent :
    (unpackExponent b).toNat = b.toNat / 2 ^ 52 % 2 ^ 11 := by
  simp [unpackExponent, BitVec.extractLsb, Nat.shiftRight_eq_div_pow]

theorem toNat_unpackSign : (unpackSign b).toNat = b.toNat / 2 ^ 63 := by
  have hlt : b.toNat < 2 ^ 64 := b.isLt
  simp [unpackSign, BitVec.extractLsb, Nat.shiftRight_eq_div_pow]
  omega

theorem encodes_unpack :
    Encodes (Sign.ofBitVec (unpackSign b)) (unpackExponent b).toNat
      (unpackMantissa b).toNat (UnpackedFloat.unpack Format.binary64 b) := by
  have hbias : (Format.binary64.exponentBias : Int) = 1023 := by decide
  unfold UnpackedFloat.unpack
  dsimp only
  split
  · next hlast =>
    have hlast : (unpackExponent b).toNat = 2047 := congrArg BitVec.toNat hlast
    rw [hlast]
    split
    · next hzero =>
      rw [hzero]
      exact .infinity
    · next hzero =>
        exact .notANumber
          (Nat.pos_of_ne_zero fun h => hzero (BitVec.eq_of_toNat_eq h))
  · next hlast =>
    split
    · next hfirst =>
      rw [hfirst]
      split
      · next hzero =>
        rw [hzero]
        exact .zero
      · rw [hbias]
        exact .subnormal _ (unpackMantissa b).isLt
    · next hfirst =>
      have hpos : 0 < (unpackExponent b).toNat :=
        Nat.pos_of_ne_zero fun h => hfirst (BitVec.eq_of_toNat_eq h)
      have hne : (unpackExponent b).toNat ≠ 2047 :=
        fun h => hlast (BitVec.eq_of_toNat_eq h)
      have hlt : (unpackExponent b).toNat < 2 ^ 11 := (unpackExponent b).isLt
      apply Encodes.normal hpos (by omega) (unpackMantissa b).isLt
        (toNat_append_implicit _)
      rw [hbias]
      show _ = ((unpackExponent b).toNat : Int) - 1075
      omega

end

theorem exists_encodes (x : Float) :
    ∃ sign biased fraction, Encodes sign biased fraction x.toModel.unpack ∧
    x.toBits.toNat = sign.toBitVec.toNat * 2 ^ 63 + biased * 2 ^ 52 + fraction ∧
      fraction < 2 ^ 52 := by
  refine ⟨_, _, _, encodes_unpack x.toModel.toBits.toBitVec, ?_, BitVec.isLt _⟩
  have hsign : ∀ v, (Sign.ofBitVec v).toBitVec = v := by decide
  have hlt : x.toBits.toNat < 2 ^ 64 := x.toBits.toBitVec.isLt
  have hbits : x.toModel.toBits.toBitVec.toNat = x.toBits.toNat := rfl
  rw [hsign, toNat_unpackSign, toNat_unpackExponent, toNat_unpackMantissa,
    hbits]
  omega

theorem Encodes.unique {s s' : Sign} {e e' f f' : Nat} {u : UnpackedFloat}
    (h : Encodes s e f u) (h' : Encodes s' e' f' u) (hnan : u ≠ .notANumber) :
    s = s' ∧ e = e' ∧ f = f' := by
  cases h with
  | infinity =>
    cases h'
    exact ⟨rfl, rfl, rfl⟩
  | notANumber => exact absurd rfl hnan
  | zero =>
    cases h'
    exact ⟨rfl, rfl, rfl⟩
  | subnormal _ hlt =>
    cases h' with
    | subnormal => exact ⟨rfl, rfl, rfl⟩
    | normal _ _ _ hmantissa _ => omega
  | normal _ _ _ hmantissa hexponent =>
    cases h' with
    | subnormal _ hlt => omega
    | normal _ _ _ hmantissa' hexponent' => exact ⟨rfl, by omega, by omega⟩

variable {x y : Float}

theorem eq_packedNaN (h : x.toModel.unpack = .notANumber) :
    x.toModel.toBits.toBitVec = packedNaN Format.binary64 := by
  obtain ⟨sign, biased, fraction, hencodes, hbits, hlt⟩ := exists_encodes x
  have hb : x.toModel.toBits.toBitVec.toNat = x.toBits.toNat := rfl
  rw [h] at hencodes
  cases hencodes with
  | notANumber hpos =>
    apply x.toModel.valid.eq_packedNaN
    · apply BitVec.eq_of_toNat_eq
      rw [toNat_unpackExponent, hb]
      show _ = 2047
      omega
    · intro hzero
      have hzero := congrArg BitVec.toNat hzero
      rw [toNat_unpackMantissa, hb, BitVec.toNat_zero] at hzero
      omega

theorem eq_of_toBits_eq (h : x.toBits = y.toBits) : x = y := by
  obtain ⟨⟨xb, _⟩⟩ := x
  obtain ⟨⟨yb, _⟩⟩ := y
  cases h
  rfl

theorem eq_of_unpack_eq (h : x.toModel.unpack = y.toModel.unpack) : x = y := by
  apply eq_of_toBits_eq
  by_cases hnan : x.toModel.unpack = .notANumber
  · exact UInt64.toBitVec_inj.mp
      ((eq_packedNaN hnan).trans (eq_packedNaN (h ▸ hnan)).symm)
  · obtain ⟨_, _, _, hx, hxbits, -⟩ := exists_encodes x
    obtain ⟨_, _, _, hy, hybits, -⟩ := exists_encodes y
    rw [← h] at hy
    obtain ⟨rfl, rfl, rfl⟩ := hx.unique hy hnan
    exact UInt64.toNat_inj.mp (hxbits.trans hybits.symm)

section

variable {sign : Sign} {mantissa : Nat} {exponent : Int} {h : 0 < mantissa}

theorem bounds_of_finite
    (hx : x.toModel.unpack = .finite sign mantissa exponent h) :
    mantissa < 2 ^ 53 ∧ -1074 ≤ exponent ∧ exponent ≤ 971 := by
  obtain ⟨_, _, _, hencodes, -⟩ := exists_encodes x
  rw [hx] at hencodes
  cases hencodes with
  | subnormal _ hlt => omega
  | normal hpos hmax hlt hmantissa hexponent => omega

/-- The exponent is the least that holds the mantissa. -/
theorem canonical_of_finite
    (hx : x.toModel.unpack = .finite sign mantissa exponent h) :
    2 ^ 52 ≤ mantissa ∨ exponent = -1074 := by
  obtain ⟨_, _, _, hencodes, -⟩ := exists_encodes x
  rw [hx] at hencodes
  cases hencodes with
  | subnormal _ _ => exact .inr rfl
  | normal _ _ _ hmantissa _ => omega

end

end LuaCore.Number
