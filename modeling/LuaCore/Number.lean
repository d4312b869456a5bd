import LuaCore.Decimal.Shortest

/-! Numbers of the language are binary64. Each has a plain text, which keeps it
apart from all others, and the text that programs see. -/

namespace LuaCore.Number

open Float.Model

def integer? (x : Float) : Option Int :=
  match x.toModel.unpack with
  | .zero _ => some 0
  | .finite sign mantissa exponent _ =>
    match exponent with
    | .ofNat n => some (sign.apply (mantissa * Nat.pow 2 n))
    | .negSucc n =>
      if mantissa % Nat.pow 2 (n + 1) = 0 then
        some (sign.apply (mantissa / Nat.pow 2 (n + 1) : Nat))
      else none
  | _ => none

/-- The least mantissa of a normal number: below it the gap to the next number
is half as wide. -/
def leastNormalMantissa : Nat := Nat.pow 2 52

/-- The exponent of the subnormal numbers and of the least normal ones. -/
def leastExponent : Int := -1074

def shortest (mantissa : Nat) (exponent : Int) : Decimal :=
  Decimal.shortest mantissa exponent
    (mantissa = leastNormalMantissa ∧ leastExponent < exponent)

def signed (sign : UnpackedFloat.Sign) (text : List Char) : List Char :=
  match sign with
  | .positive => text
  | .negative => '-' :: text

/-- Plain text: the fewest digits that read back, in positional notation, the
sign of zero kept. -/
def plain (x : Float) : String :=
  match x.toModel.unpack with
  | .notANumber => "NaN"
  | .infinity sign => String.ofList (signed sign ['i', 'n', 'f'])
  | .zero sign => String.ofList (signed sign ['0'])
  | .finite sign mantissa exponent _ =>
    String.ofList (signed sign (shortest mantissa exponent).positional)

/-- Integral numbers of smaller magnitude are displayed as integers. -/
def integralDisplayLimit : Nat := Nat.pow 10 15

/-- The text that programs see: as the plain text, but `-0` is `0` and a
NaN is `nan`. -/
def display (x : Float) : String :=
  if x.isNaN then "nan"
  else match integer? x with
    | some n => if n.natAbs < integralDisplayLimit then toString n else plain x
    | none => plain x

/-- Reads digits, an optional fraction and an optional exponent. -/
def unsigned? (cs : List Char) : Option Float :=
  let whole := cs.takeWhile Char.isDigit
  let (fraction, rest) :=
    match cs.dropWhile Char.isDigit with
    | '.' :: more => (more.takeWhile Char.isDigit, more.dropWhile Char.isDigit)
    | more => ([], more)
  let value (exponent : Int) : Float :=
    Decimal.toFloat
      ⟨Decimal.natOfDigits (whole ++ fraction), exponent - fraction.length⟩
  if whole ++ fraction = [] then none
  else match rest with
    | [] => some (value 0)
    | e :: exponent =>
      let (negative, digits) :=
        match exponent with
        | '-' :: digits => (true, digits)
        | '+' :: digits => (false, digits)
        | digits => (false, digits)
      if (e = 'e' ∨ e = 'E') ∧ digits ≠ [] ∧ digits.all Char.isDigit then
        let n : Int := Decimal.natOfDigits digits
        some (value (if negative then -n else n))
      else none

/-- Reads the plain text of a number, or any decimal with the nearest number
as its value. -/
def ofText? (text : String) : Option Float :=
  match text.toList with
  | ['n', 'a', 'n'] => some (0.0 / 0.0)
  | ['i', 'n', 'f'] => some (1.0 / 0.0)
  | ['-', 'i', 'n', 'f'] => some (-1.0 / 0.0)
  | '-' :: cs => (unsigned? cs).map (-·)
  | cs => unsigned? cs

end LuaCore.Number
