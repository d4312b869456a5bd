import Mathlib
import LuaCore.Proofs.Number.Fields

/-! The decimal text of a number is read as that number. -/

namespace LuaCore

def Decimal.value (d : Decimal) : ℚ := d.digits * 10 ^ d.exponent

namespace Number

/-- The rationals that are read as `mantissa · 2 ^ exponent`, ties to even.
Below the least normal mantissa the numbers lie twice as close. -/
def RoundsTo (mantissa : Nat) (exponent : Int) (q : ℚ) : Prop :=
  let x : ℚ := mantissa * 2 ^ exponent
  let above : ℚ := 2 ^ exponent / 2
  let below :=
    if mantissa = leastNormalMantissa ∧ leastExponent < exponent then above / 2
    else above
  if mantissa % 2 = 0 then x - below ≤ q ∧ q ≤ x + above
  else x - below < q ∧ q < x + above

end Number

namespace Decimal

theorem pow_toNat_div (b : ℚ) (n : Int) :
    b ^ n.toNat / b ^ (-n).toNat = b ^ n := by
  obtain ⟨k, rfl | rfl⟩ := n.eq_nat_or_neg
  · simp
  · simp

namespace Interval

variable {i : Interval} {k : Int} {n : Nat}

theorem between_of_contains (hden : 0 < i.denominator)
    (h : (i.inUnits k).Contains n) :
    if i.closed then
      (i.low : ℚ) / i.denominator ≤ n * 10 ^ k ∧
        n * 10 ^ k ≤ (i.high : ℚ) / i.denominator
    else
      (i.low : ℚ) / i.denominator < n * 10 ^ k ∧
        n * 10 ^ k < (i.high : ℚ) / i.denominator := by
  have hden : (0 : ℚ) < i.denominator := by exact_mod_cast hden
  have hgrow : (0 : ℚ) < 10 ^ (-k).toNat := by positivity
  have hunit : (n : ℚ) * 10 ^ k = n * 10 ^ k.toNat / 10 ^ (-k).toNat := by
    rw [← pow_toNat_div 10 k, mul_div_assoc]
  rw [hunit, div_le_div_iff₀ hden hgrow, div_le_div_iff₀ hgrow hden,
    div_lt_div_iff₀ hden hgrow, div_lt_div_iff₀ hgrow hden]
  have hshift : (n : ℚ) * 10 ^ k.toNat * i.denominator =
      n * (i.denominator * 10 ^ k.toNat) := by ring
  rw [hshift]
  unfold Contains at h
  by_cases hclosed : i.closed = true
  · rw [if_pos (show (i.inUnits k).closed = true from hclosed)] at h
    rw [if_pos hclosed]
    simp only [inUnits, Nat.pow_eq] at h
    exact_mod_cast h
  · rw [if_neg (show ¬(i.inUnits k).closed = true from hclosed)] at h
    rw [if_neg hclosed]
    simp only [inUnits, Nat.pow_eq] at h
    exact_mod_cast h

/-- An interval that goes a unit below its value holds an integer. -/
theorem isSome_integer? (hden : 0 < i.denominator)
    (hlow : i.low + i.denominator ≤ i.value) (hhigh : i.value < i.high) :
    i.integer?.isSome := by
  have hbelow : i.Contains (i.value / i.denominator) := by
    have hfloor := Nat.div_add_mod i.value i.denominator
    have hmod := Nat.mod_lt i.value hden
    rw [Nat.mul_comm] at hfloor
    unfold Contains
    split <;> constructor <;> omega
  unfold integer?
  simp only [hbelow, if_true]
  split <;> rfl

end Interval

/-- If one of the grids that are tried has an integer in the interval, the
search ends at such a grid. -/
theorem contains_search {i : Interval} {steps : Nat} {exponent : Int}
    (h : ∃ j : Nat, j < steps ∧ (i.inUnits (exponent - j)).integer?.isSome) :
    (i.inUnits (search i steps exponent).exponent).Contains
      (search i steps exponent).digits := by
  induction steps generalizing exponent with
  | zero =>
    obtain ⟨j, hj, _⟩ := h
    exact absurd hj (Nat.not_lt_zero j)
  | succ steps ih =>
    unfold search
    cases hfound : (i.inUnits exponent).integer? with
    | some digits => exact Interval.contains_of_integer? hfound
    | none =>
      obtain ⟨j, hj, hsome⟩ := h
      cases j with
      | zero => simp [hfound] at hsome
      | succ j =>
        refine ih ⟨j, Nat.lt_of_succ_lt_succ hj, ?_⟩
        have heq : exponent - 1 - (j : Int) =
            exponent - ((j + 1 : Nat) : Int) := by omega
        rwa [heq]

theorem zpow_le_zpow_iff_toNat {a b : Nat} (ha : 0 < a) (hb : 0 < b)
    (j k : Int) :
    (a : ℚ) ^ j ≤ (b : ℚ) ^ k ↔
      b ^ (-k).toNat * a ^ j.toNat ≤ b ^ k.toNat * a ^ (-j).toNat := by
  have hapos : (0 : ℚ) < (a : ℚ) ^ (-j).toNat := by positivity
  have hbpos : (0 : ℚ) < (b : ℚ) ^ (-k).toNat := by positivity
  rw [← pow_toNat_div (a : ℚ) j, ← pow_toNat_div (b : ℚ) k,
    div_le_div_iff₀ hapos hbpos, mul_comm ((a : ℚ) ^ j.toNat)]
  exact_mod_cast Iff.rfl

/-- Since `10 ^ 3 ≤ 2 ^ 10` and `2 ^ 93 ≤ 10 ^ 28`. -/
theorem ten_zpow_le_two_zpow {j k : Int} (h : 10 * j ≤ 3 * k)
    (h' : 93 * j ≤ 28 * k) :
    (10 : ℚ) ^ j ≤ 2 ^ k := by
  obtain ⟨n, rfl | rfl⟩ := k.eq_nat_or_neg
  · refine (pow_le_pow_iff_left₀ (by positivity) (by positivity) (n := 10)
        (by decide)).mp ?_
    calc ((10 : ℚ) ^ j) ^ 10
      _ = 10 ^ (10 * j) := by rw [← zpow_natCast, ← zpow_mul, mul_comm]; rfl
      _ ≤ 10 ^ (3 * (n : Int)) := zpow_le_zpow_right₀ (by norm_num) h
      _ = ((10 : ℚ) ^ 3) ^ n := by rw [zpow_mul, zpow_natCast]; rfl
      _ ≤ (2 ^ 10) ^ n := pow_le_pow_left₀ (by positivity) (by norm_num) n
      _ = ((2 : ℚ) ^ (n : Int)) ^ 10 := by
        rw [zpow_natCast, ← pow_mul, ← pow_mul, mul_comm]
  · refine (pow_le_pow_iff_left₀ (by positivity) (by positivity) (n := 93)
        (by decide)).mp ?_
    calc ((10 : ℚ) ^ j) ^ 93
      _ = 10 ^ (93 * j) := by rw [← zpow_natCast, ← zpow_mul, mul_comm]; rfl
      _ ≤ 10 ^ (28 * -(n : Int)) := zpow_le_zpow_right₀ (by norm_num) h'
      _ =
        (((10 : ℚ) ^ 28) ^ n)⁻¹ := by rw [zpow_mul, zpow_neg, zpow_natCast]; rfl
      _ ≤ (((2 : ℚ) ^ 93) ^ n)⁻¹ := inv_anti₀ (by positivity)
        (pow_le_pow_left₀ (by positivity) (by norm_num) n)
      _ = ((2 : ℚ) ^ (-(n : Int))) ^ 93 := by
        rw [zpow_neg, zpow_natCast, inv_pow, ← pow_mul, ← pow_mul, mul_comm]

end Decimal

namespace Number

open Decimal

variable {mantissa : Nat} {exponent : Int}

/-- The last grid that is tried for a number of 53 bits is finer than a quarter
of the gap to the next one. -/
theorem ten_zpow_grid_le (hm : 0 < mantissa) (hlt : mantissa < 2 ^ 53)
    (hleast : -1074 ≤ exponent) (hgreatest : exponent ≤ 971) :
    (10 : ℚ) ^ (decade (mantissa.log2 + 1 + exponent) - 23) ≤
      2 ^ (exponent - 2) := by
  have hlog : mantissa.log2 < 53 := (Nat.log2_lt (Nat.ne_of_gt hm)).mpr hlt
  unfold decade
  apply ten_zpow_le_two_zpow
  · split <;> omega
  · split <;> omega

theorem isSome_integer?_grid (narrow : Bool) {k : Int} (hm : 0 < mantissa)
    (hgrid : (10 : ℚ) ^ k ≤ 2 ^ (exponent - 2)) :
    ((Interval.ofBinary mantissa exponent narrow).inUnits
      k).integer?.isSome := by
  have hgrid :=
    (zpow_le_zpow_iff_toNat (a := 10) (b := 2) (by decide) (by decide) _ _).mp
      (by exact_mod_cast hgrid)
  have hneg : -(exponent - 2) = 2 - exponent := by omega
  rw [hneg] at hgrid
  have hscale : 0 < 2 ^ (exponent - 2).toNat * 10 ^ (-k).toNat := by positivity
  refine Interval.isSome_integer? ?_ ?_ ?_
  · simp only [Interval.inUnits, Interval.ofBinary, Nat.pow_eq]
    positivity
  · simp only [Interval.inUnits, Interval.ofBinary, Nat.pow_eq]
    rw [Nat.mul_assoc, Nat.mul_assoc (4 * mantissa)]
    generalize 2 ^ (exponent - 2).toNat * 10 ^ (-k).toNat = unit at hgrid
    have hstep : 4 * mantissa - (if narrow then 1 else 2) + 1 ≤
        4 * mantissa := by split <;> omega
    calc
      _ ≤ (4 * mantissa - if narrow then 1 else 2) * unit +
          unit := Nat.add_le_add_left hgrid _
      _ = (4 * mantissa - (if narrow then 1 else 2) + 1) * unit :=
        (Nat.succ_mul _ _).symm
      _ ≤ 4 * mantissa * unit := Nat.mul_le_mul_right unit hstep
  · simp only [Interval.inUnits, Interval.ofBinary, Nat.pow_eq]
    rw [Nat.mul_assoc (4 * mantissa), Nat.mul_assoc (4 * mantissa + 2)]
    exact Nat.mul_lt_mul_of_pos_right
      (Nat.lt_add_of_pos_right Nat.two_pos) hscale

theorem ofBinary_ends (hm : 0 < mantissa) (exponent : Int) (narrow : Bool) :
    let i := Interval.ofBinary mantissa exponent narrow
    (i.low : ℚ) / i.denominator = mantissa * 2 ^ exponent -
        (if narrow then 2 ^ exponent / 2 / 2 else 2 ^ exponent / 2) ∧
      (i.high : ℚ) / i.denominator =
        mantissa * 2 ^ exponent + 2 ^ exponent / 2 := by
  have hquarter : (2 : ℚ) ^ exponent = 4 * 2 ^ (exponent - 2) := by
    rw [zpow_sub₀ (by norm_num)]
    norm_num
    ring
  have hunit := pow_toNat_div 2 (exponent - 2)
  have hneg : -(exponent - 2) = 2 - exponent := by omega
  rw [hneg] at hunit
  simp only [Interval.ofBinary, Nat.pow_eq, Nat.cast_mul, Nat.cast_pow,
    Nat.cast_ofNat]
  rw [mul_div_assoc, mul_div_assoc, hunit, hquarter]
  constructor
  · have hle : (if narrow then 1 else 2) ≤ 4 * mantissa := by split <;> omega
    rw [Nat.cast_sub hle]
    cases narrow <;> norm_num <;> ring
  · push_cast
    ring

theorem pos_of_roundsTo (hm : 0 < mantissa) {q : ℚ}
    (h : RoundsTo mantissa exponent q) :
    0 < q := by
  have hunit : (0 : ℚ) < 2 ^ exponent := by positivity
  have hone : (1 : ℚ) ≤ mantissa := by exact_mod_cast hm
  have hvalue : (2 : ℚ) ^ exponent ≤ mantissa * 2 ^ exponent :=
    le_mul_of_one_le_left hunit.le hone
  unfold RoundsTo at h
  dsimp only at h
  split at h <;> split at h <;> linarith

theorem roundsTo_shortest (hm : 0 < mantissa) (hlt : mantissa < 2 ^ 53)
    (hleast : -1074 ≤ exponent) (hgreatest : exponent ≤ 971) :
    RoundsTo mantissa exponent (shortest mantissa exponent).value := by
  have hgrid := ten_zpow_grid_le hm hlt hleast hgreatest
  unfold shortest Decimal.shortest Decimal.value RoundsTo
  dsimp only
  generalize hnarrow :
    decide (mantissa = leastNormalMantissa ∧ leastExponent < exponent) = narrow
  have hden : 0 < (Interval.ofBinary mantissa exponent narrow).denominator :=
    Nat.pow_pos Nat.two_pos
  have hcontains := contains_search
    ⟨23, (by decide : 23 < searchSteps), isSome_integer?_grid narrow hm hgrid⟩
  have hbetween := Interval.between_of_contains hden hcontains
  obtain ⟨hlow, hhigh⟩ := ofBinary_ends hm exponent narrow
  rw [hlow, hhigh] at hbetween
  have hclosed : (Interval.ofBinary mantissa exponent narrow).closed =
      (mantissa % 2 == 0) := rfl
  simp only [hclosed, beq_iff_eq] at hbetween
  by_cases h : mantissa = leastNormalMantissa ∧ leastExponent < exponent
  · obtain rfl : true = narrow := by rw [← hnarrow, decide_eq_true h]
    rw [if_pos h]
    exact hbetween
  · obtain rfl : false = narrow := by rw [← hnarrow, decide_eq_false h]
    rw [if_neg h]
    exact hbetween

open Float.Model

/-- A number without a sign: positive, the positive zero, or the
positive infinity. -/
def isUnsigned (x : Float) : Bool :=
  match x.toModel.unpack with
  | .notANumber => false
  | .infinity sign | .zero sign | .finite sign _ _ _ => sign matches .positive

/-- A rational is read as this number, which has no sign and is finite. -/
def IsReadAs (q : ℚ) (x : Float) : Prop :=
  match x.toModel.unpack with
  | .zero .positive => q = 0
  | .finite .positive mantissa exponent _ => RoundsTo mantissa exponent q
  | _ => False

theorem isInf_iff {x : Float} :
    x.isInf = true ↔ ∃ sign, x.toModel.unpack = .infinity sign := by
  unfold Float.isInf Float.Model.isInf
  cases x.toModel.unpack <;> simp [UnpackedFloat.isInf]

/-- The plain text of a finite number without a sign is that of zero or of a
decimal that is read as it. -/
theorem plain_of_isUnsigned {x : Float} (h : isUnsigned x = true)
    (hinf : x.isInf = false) :
    ((plain x).toList = ['0'] ∧ IsReadAs 0 x) ∨
      ∃ d : Decimal, 0 < d.value ∧ (plain x).toList = d.positional ∧
        IsReadAs d.value x := by
  have hinf : ¬x.isInf = true := by simp [hinf]
  rw [isInf_iff] at hinf
  unfold isUnsigned at h
  unfold plain IsReadAs
  cases hx : x.toModel.unpack with
  | notANumber => simp [hx] at h
  | infinity sign => exact absurd ⟨sign, hx⟩ hinf
  | zero sign =>
    cases sign with
    | negative => simp [hx] at h
    | positive => exact .inl ⟨by simp [signed], rfl⟩
  | finite sign mantissa exponent hm =>
    cases sign with
    | negative => simp [hx] at h
    | positive =>
      obtain ⟨hlt, hleast, hgreatest⟩ := bounds_of_finite hx
      have hreads := roundsTo_shortest hm hlt hleast hgreatest
      exact .inr ⟨_, pos_of_roundsTo hm hreads, by simp [signed], hreads⟩

end Number

end LuaCore
