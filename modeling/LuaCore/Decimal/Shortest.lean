import LuaCore.Decimal.Basic

/-! The fewest decimal digits that read back as a binary number: decimal grids
are tried from coarse to fine. -/

namespace LuaCore.Decimal

/-- A positive number and the ends of the interval of reals that round to it,
as numerators over one denominator; `closed` says whether the ends belong to
the interval. -/
structure Interval where
  low : Nat
  value : Nat
  high : Nat
  denominator : Nat
  closed : Bool
deriving Repr

namespace Interval

/-- The interval of `mantissa · 2 ^ exponent`. The ends lie half a unit away and
belong to the interval when the mantissa is even. Below a power of two the
numbers lie twice as close, so the lower end lies a quarter of a unit away
(`narrow`). -/
def ofBinary (mantissa : Nat) (exponent : Int) (narrow : Bool) : Interval :=
  let scale := Nat.pow 2 (exponent - 2).toNat
  { low := (4 * mantissa - if narrow then 1 else 2) * scale
    value := 4 * mantissa * scale
    high := (4 * mantissa + 2) * scale
    denominator := Nat.pow 2 (2 - exponent).toNat
    closed := mantissa % 2 == 0 }

def inUnits (i : Interval) (exponent : Int) : Interval :=
  let shrink := Nat.pow 10 exponent.toNat
  let grow := Nat.pow 10 (-exponent).toNat
  { i with
    low := i.low * grow
    value := i.value * grow
    high := i.high * grow
    denominator := i.denominator * shrink }

def Contains (i : Interval) (n : Nat) : Prop :=
  if i.closed then i.low ≤ n * i.denominator ∧ n * i.denominator ≤ i.high
  else i.low < n * i.denominator ∧ n * i.denominator < i.high

instance (i : Interval) (n : Nat) : Decidable (i.Contains n) := by
  unfold Contains
  infer_instance

/-- Of the two integers around the value, the one in the interval; of two, the
nearer; of two equally near, the upper. -/
def integer? (i : Interval) : Option Nat :=
  let below := i.value / i.denominator
  let above := below + 1
  if i.Contains below then
    if i.Contains above ∧ (2 * below + 1) * i.denominator ≤ 2 * i.value then
      some above
    else some below
  else if i.Contains above then some above
  else none

theorem contains_of_integer? {i : Interval} {n : Nat}
    (h : i.integer? = some n) :
    i.Contains n := by
  unfold integer? at h
  grind

end Interval

/-- An exponent of ten that is at least `bits` binary orders of magnitude. -/
def decade (bits : Int) : Int :=
  if 0 ≤ bits then (28 * bits + 92) / 93 else -(-bits * 3 / 10)

/-- Tries the grids from `10 ^ exponent` downwards. -/
def search (i : Interval) : Nat → Int → Decimal
  | 0, exponent =>
    ⟨(i.inUnits exponent).value / (i.inUnits exponent).denominator, exponent⟩
  | steps + 1, exponent =>
    match (i.inUnits exponent).integer? with
    | some digits => ⟨digits, exponent⟩
    | none => search i steps (exponent - 1)

/-- Seventeen digits always read back; the start may lie a few decades too
high. -/
def searchSteps : Nat := 24

def shortest (mantissa : Nat) (exponent : Int) (narrow : Bool) : Decimal :=
  search (.ofBinary mantissa exponent narrow) searchSteps
    (decade (mantissa.log2 + 1 + exponent))

end LuaCore.Decimal
