import LuaCore.Token

namespace LuaCore.Numeral

def isWordChar (c : Char) : Bool := c.isAlphanum || c == '_'

def isHexDigit (c : Char) : Bool :=
  c.isDigit || ('a' ≤ c && c ≤ 'f') || ('A' ≤ c && c ≤ 'F')

def hexDigitValue (c : Char) : Nat :=
  if c.isDigit then c.toNat - '0'.toNat
  else if 'a' ≤ c then c.toNat - 'a'.toNat + 10
  else c.toNat - 'A'.toNat + 10

def hexValue (cs : List Char) : Float :=
  cs.foldl (fun x c => x * 16.0 + Float.ofNat (hexDigitValue c)) 0.0

def malformed (text : List Char) : LexFault :=
  .malformedNumber (String.ofList text)

/-- A numeral must not run straight into a name. -/
def endingAt (text : List Char) (value : Float) (rest : List Char) :
    Except LexFault (Float × List Char) :=
  if (rest.head?.any isWordChar) then
    .error (malformed (text ++ rest.takeWhile isWordChar))
  else .ok (value, text)

def hexadecimal (x : Char) (rest : List Char) :
    Except LexFault (Float × List Char) :=
  let digits := rest.takeWhile isHexDigit
  if digits = [] then .error (malformed ['0', x])
  else
    endingAt ('0' :: x :: digits) (hexValue digits) (rest.dropWhile isHexDigit)

/-- The digits of a fraction, unless the point starts a concatenation. -/
def fraction : List Char → Option (List Char × List Char)
  | '.' :: '.' :: _ => none
  | '.' :: rest =>
    some (rest.takeWhile Char.isDigit, rest.dropWhile Char.isDigit)
  | _ => none

/-- The mark, the sign if there is one, the digits, and what follows. -/
structure Exponent where
  mark : Char
  sign : List Char
  digits : List Char
  rest : List Char

namespace Exponent

def ofText? : List Char → Option Exponent
  | mark :: rest =>
    if mark = 'e' ∨ mark = 'E' then
      match rest with
      | sign :: more =>
        if sign = '+' ∨ sign = '-' then
          some ⟨mark, [sign], more.takeWhile Char.isDigit,
              more.dropWhile Char.isDigit⟩
        else
          some
            ⟨mark, [], rest.takeWhile Char.isDigit, rest.dropWhile Char.isDigit⟩
      | [] => some ⟨mark, [], [], []⟩
    else none
  | [] => none

def text (e : Exponent) : List Char := e.mark :: e.sign ++ e.digits

def value (e : Exponent) : Int :=
  if e.sign = ['-'] then -(Decimal.natOfDigits e.digits : Int)
  else Decimal.natOfDigits e.digits

end Exponent

/-- The exponent of a numeral with the text `mantissa`, whose value without it
is `digits` with a point before the last `places` of them. -/
def scaled (mantissa digits : List Char) (places : Nat) (rest : List Char) :
    Except LexFault (Float × List Char) :=
  let value (exponent : Int) : Float :=
    Decimal.toFloat ⟨Decimal.natOfDigits digits, exponent - places⟩
  match Exponent.ofText? rest with
  | none => endingAt mantissa (value 0) rest
  | some e =>
    if e.digits = [] then .error (malformed (mantissa ++ e.text))
    else endingAt (mantissa ++ e.text) (value e.value) e.rest

/-- Reads the numeral that starts with `first`, a digit or a point before a
digit; gives its value and text. -/
def scan (first : Char) (rest : List Char) :
    Except LexFault (Float × List Char) :=
  if first = '.' then
    let digits := rest.takeWhile Char.isDigit
    scaled ('.' :: digits) digits digits.length (rest.dropWhile Char.isDigit)
  else
    let decimal : Except LexFault (Float × List Char) :=
      let whole := first :: rest.takeWhile Char.isDigit
      match fraction (rest.dropWhile Char.isDigit) with
      | some (digits, more) =>
        scaled (whole ++ '.' :: digits) (whole ++ digits) digits.length more
      | none => scaled whole whole 0 (rest.dropWhile Char.isDigit)
    match rest with
    | x :: more =>
      if first = '0' ∧ (x = 'x' ∨ x = 'X') then hexadecimal x more else decimal
    | [] => decimal

end LuaCore.Numeral
