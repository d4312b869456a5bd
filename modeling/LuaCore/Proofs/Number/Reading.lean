import LuaCore.Proofs.Token.Lexeme

namespace LuaCore.Number

open Char

structure IsRun (cs : List Char) : Prop where
  nonempty : cs ≠ []
  digits : ∀ c ∈ cs, c.isDigit = true

def IsSign (cs : List Char) : Prop := cs = [] ∨ cs = ['+'] ∨ cs = ['-']

/-- The mark, a sign or none, and digits. -/
inductive IsExponent : List Char → Prop
  | mk {mark : Char} {sign digits : List Char} (hmark : mark = 'e' ∨ mark = 'E')
      (hsign : IsSign sign) (hdigits : IsRun digits) :
      IsExponent (mark :: (sign ++ digits))

/-- Digits, with a point before, among or after them or with none. -/
inductive IsMantissa : List Char → Prop
  | whole {digits : List Char} (h : IsRun digits) : IsMantissa digits
  | point {whole fraction : List Char} (hwhole : ∀ c ∈ whole, c.isDigit = true)
      (hfraction : ∀ c ∈ fraction, c.isDigit = true)
      (hne : whole ++ fraction ≠ []) :
      IsMantissa (whole ++ '.' :: fraction)

/-- The texts of binary64 numbers: a sign or none, and the name of a number
that has no digits, in letters of any case, or a decimal with an exponent or
without one. -/
inductive IsText : List Char → Prop
  | special {sign name : List Char} (hsign : IsSign sign)
      (hname : String.ofList (name.map toLower) ∈ ["inf", "infinity", "nan"]) :
      IsText (sign ++ name)
  | decimal {sign mantissa exponent : List Char} (hsign : IsSign sign)
      (hmantissa : IsMantissa mantissa)
      (hexponent : exponent = [] ∨ IsExponent exponent) :
      IsText (sign ++ (mantissa ++ exponent))

def takeSign : List Char → Bool × List Char
  | '-' :: digits => (true, digits)
  | '+' :: digits => (false, digits)
  | digits => (false, digits)

def exponent? : List Char → Option Int
  | [] => some 0
  | mark :: rest =>
    let (negative, digits) := takeSign rest
    if (mark = 'e' ∨ mark = 'E') ∧ digits ≠ [] ∧ digits.all isDigit then
      let n : Int := Decimal.natOfDigits digits
      some (if negative then -n else n)
    else none

theorem exponent?_cons (mark : Char) (rest : List Char) :
    exponent? (mark :: rest) =
      if (mark = 'e' ∨ mark = 'E') ∧ (takeSign rest).2 ≠ [] ∧
        (takeSign rest).2.all isDigit then
        some (if (takeSign rest).1 then
            -(Decimal.natOfDigits (takeSign rest).2 : Int)
          else Decimal.natOfDigits (takeSign rest).2)
      else none := rfl

variable {whole fraction tail : List Char}

theorem unsigned?_whole_append (hwhole : IsRun whole)
    (htail : Numeral.MayOpenExponent tail) :
    unsigned? (whole ++ tail) = (exponent? tail).map fun n =>
        Decimal.toFloat ⟨Decimal.natOfDigits whole, n⟩ := by
  have htake : (whole ++ tail).takeWhile isDigit = whole :=
    takeWhile_run_append hwhole.digits htail.not_isDigit
  have hdrop : (whole ++ tail).dropWhile isDigit = tail :=
    dropWhile_run_append hwhole.digits htail.not_isDigit
  unfold unsigned?
  rw [htake, hdrop]
  rcases tail with _ | ⟨mark, rest⟩
  · simp [exponent?, hwhole.nonempty]
  · have hmark : mark ≠ '.' := by
      rcases htail mark rfl with rfl | rfl <;> decide
    simp only [hwhole.nonempty, hmark, List.append_nil, List.cons.injEq,
      false_and, imp_self, implies_true, if_false, List.length_nil,
      Int.cast_ofNat_Int, Int.sub_zero]
    rw [exponent?_cons, Option.map_if]
    rfl

theorem unsigned?_point_append (hwhole : ∀ c ∈ whole, c.isDigit = true)
    (hfraction : ∀ c ∈ fraction, c.isDigit = true)
    (hne : whole ++ fraction ≠ []) (htail : Numeral.MayOpenExponent tail) :
    unsigned? (whole ++ '.' :: (fraction ++ tail)) =
      (exponent? tail).map fun n => Decimal.toFloat
        ⟨Decimal.natOfDigits (whole ++ fraction), n - fraction.length⟩ := by
  have htake : (whole ++ '.' :: (fraction ++ tail)).takeWhile isDigit = whole :=
    takeWhile_run_append hwhole rfl
  have hdrop : (whole ++ '.' :: (fraction ++ tail)).dropWhile isDigit =
      '.' :: (fraction ++ tail) :=
    dropWhile_run_append hwhole rfl
  have htake' : (fraction ++ tail).takeWhile isDigit = fraction :=
    takeWhile_run_append hfraction htail.not_isDigit
  have hdrop' : (fraction ++ tail).dropWhile isDigit = tail :=
    dropWhile_run_append hfraction htail.not_isDigit
  unfold unsigned?
  rw [htake, hdrop]
  simp only [htake', hdrop', if_neg hne]
  rcases tail with _ | ⟨mark, rest⟩
  · rfl
  · rw [exponent?_cons, Option.map_if]
    rfl

theorem exponent?_text {e : Numeral.Exponent}
    (hmark : e.mark = 'e' ∨ e.mark = 'E') (hsign : IsSign e.sign)
    (hdigits : IsRun e.digits) :
    exponent? e.text = some e.value := by
  obtain ⟨mark, sign, digits, rest⟩ := e
  obtain ⟨hne, hdigits⟩ := hdigits
  dsimp only at hmark hsign hne hdigits
  have hall : digits.all isDigit = true := List.all_eq_true.mpr hdigits
  rcases hsign with rfl | rfl | rfl
  · -- the first digit is no sign
    obtain ⟨d, digits, rfl⟩ := List.exists_cons_of_ne_nil hne
    have hd := hdigits d List.mem_cons_self
    have hminus : d ≠ '-' := by
      rintro rfl
      exact absurd hd (by decide)
    have hplus : d ≠ '+' := by
      rintro rfl
      exact absurd hd (by decide)
    have htail : ∀ c ∈ digits, c.isDigit = true :=
      (List.forall_mem_cons.mp hdigits).2
    simpa [exponent?, takeSign, Numeral.Exponent.text, Numeral.Exponent.value,
      hmark, hminus, hplus, hd] using htail
  · simp [exponent?, takeSign, Numeral.Exponent.text, Numeral.Exponent.value,
      hmark, hne, hall]
  · simp [exponent?, takeSign, Numeral.Exponent.text, Numeral.Exponent.value,
      hmark, hne, hall]

end LuaCore.Number
