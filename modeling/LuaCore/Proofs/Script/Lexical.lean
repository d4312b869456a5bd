import LuaCore.Proofs.Number.Rounding
import LuaCore.Proofs.Script.Escape
import LuaCore.Proofs.Script.Opening

/-! The tokens of a script, cut off from the left, the longest first; comments,
regular expressions and templates are not read. -/

namespace LuaCore.Script

inductive Token
  | name (x : String)
  /-- A word that cannot name anything. -/
  | word (x : String)
  | number (q : ℚ)
  | string (text : String)
  | punctuator (p : String)

def reservedWords : List String :=
  ["await", "break", "case", "catch", "class", "const", "continue", "debugger",
    "default", "delete", "do", "else", "enum", "export", "extends", "false",
    "finally", "for", "function", "if", "implements", "import", "in",
    "instanceof", "interface", "let", "new", "null", "package", "private",
    "protected", "public", "return", "static", "super", "switch", "this",
    "throw", "true", "try", "typeof", "var", "void", "while", "with", "yield"]

/-- Of two that begin in the same way, the longer one first. -/
def punctuators : List String :=
  [">>>=", "...", "===", "!==", "**=", "<<=", ">>=", ">>>", "&&=", "||=", "??=",
    "=>", "==", "!=", "<=", ">=", "&&", "||", "??", "?.", "++", "--", "+=",
    "-=", "*=", "/=", "%=", "&=", "|=", "^=", "<<", ">>", "**", "\x7b", "\x7d",
    "(", ")", "[", "]", ".", ";", ",", "<", ">", "+", "-", "*", "/", "%", "&",
    "|", "^", "!", "~", "?", ":", "="]

def commentMarks : List String := ["//", "/*", "<!--", "-->"]

def isBlank (c : Char) : Bool := c == ' ' || c == '\t' || c == '\n' || c == '\r'

def startsWord (c : Char) : Bool := startsName c || c == '$'

def wordToken (x : String) : Token :=
  if x ∈ reservedWords then .word x else .name x

def hexValue? (c : Char) : Option Nat :=
  if c.isDigit then some (c.toNat - '0'.toNat)
  else if 'a'.toNat ≤ c.toNat ∧ c.toNat ≤ 'f'.toNat then
    some (c.toNat - 'a'.toNat + 10)
  else if 'A'.toNat ≤ c.toNat ∧ c.toNat ≤ 'F'.toNat then
    some (c.toNat - 'A'.toNat + 10)
  else none

/-- The character with the code of four hexadecimal digits; halves of a
pair are none. -/
def unicode? (a b c d : Char) : Option Char := do
  let code := ((← hexValue? a) * 4096 + (← hexValue? b) * 256 +
    (← hexValue? c) * 16 + (← hexValue? d))
  if code.isValidChar then some (.ofNat code) else none

def escaped? (c : Char) : Option Char :=
  if c = '"' ∨ c = '\'' ∨ c = '\\' then some c
  else if c = 'n' then some '\n'
  else if c = 'r' then some '\r'
  else if c = 't' then some '\t'
  else if c = 'b' then some '\x08'
  else if c = 'f' then some '\x0c'
  else if c = 'v' then some '\x0b'
  else none

/-- The text of a string literal up to its closing quote, and what follows. -/
def stringBody : List Char → Option (List Char × List Char)
  | [] => none
  | '"' :: cs => some ([], cs)
  | '\\' :: 'u' :: a :: b :: c :: d :: cs => do
    let code ← unicode? a b c d
    let (text, rest) ← stringBody cs
    return (code :: text, rest)
  | '\\' :: c :: cs => do
    let e ← escaped? c
    let (text, rest) ← stringBody cs
    return (e :: text, rest)
  | '\n' :: _ => none
  | '\r' :: _ => none
  | c :: cs => do
    let (text, rest) ← stringBody cs
    return (c :: text, rest)

def numeralValue (whole fraction : List Char) : ℚ :=
  Decimal.natOfDigits (whole ++ fraction) / 10 ^ fraction.length

def afterPoint : List Char → List Char × List Char
  | '.' :: cs => (cs.takeWhile Char.isDigit, cs.dropWhile Char.isDigit)
  | cs => ([], cs)

/-- Digits with or without a point. A zero does not begin further digits, and no
word may follow at once. -/
def numeral (cs : List Char) : Option (Token × List Char) :=
  let whole := cs.takeWhile Char.isDigit
  let (fraction, rest) := afterPoint (cs.dropWhile Char.isDigit)
  if (whole.head? = some '0' ∧ 1 < whole.length) ∨
    rest.head?.any isScriptWordChar then none
  else some (.number (numeralValue whole fraction), rest)

def punctuator? (cs : List Char) : Option String :=
  punctuators.find? fun p => p.toList.isPrefixOf cs

def lexeme : List Char → Option (Token × List Char)
  | [] => none
  | c :: cs =>
    if startsWord c then
      some (wordToken (.ofList (c :: cs.takeWhile isScriptWordChar)),
          cs.dropWhile isScriptWordChar)
    else if c.isDigit then numeral (c :: cs)
    else if c = '"' then
      (stringBody cs).map fun (text, rest) => (.string (.ofList text), rest)
    else if commentMarks.any (·.toList.isPrefixOf (c :: cs)) ∨
      (c = '.' ∧ cs.head?.any Char.isDigit) then none
    else
      (punctuator? (c :: cs)).map fun p =>
        (.punctuator p, (c :: cs).drop p.length)

def tokens : List Char → Option (List Token)
  | [] => some []
  | c :: cs =>
    if isBlank c then tokens cs
    else match lexeme (c :: cs) with
      | some (t, rest) =>
        if rest.length ≤ cs.length then (tokens rest).map (t :: ·) else none
      | none => none
termination_by cs => cs.length

variable {c d : Char} {cs rest : List Char} {t : Token}

theorem tokens_blank (cs : List Char) : tokens (' ' :: cs) = tokens cs := by
  rw [tokens]
  rfl

theorem tokens_lexeme (hblank : isBlank c = false)
    (h : lexeme (c :: cs) = some (t, rest)) (hle : rest.length ≤ cs.length) :
    tokens (c :: cs) = (tokens rest).map (t :: ·) := by
  rw [tokens, if_neg (by simp [hblank]), h]
  exact if_pos hle

def EndsWord (cs : List Char) : Prop :=
  ∀ c ∈ cs.head?, isScriptWordChar c = false

/-- A word is a letter, `_` or `$`, then such characters and digits. -/
def isWord (x : String) : Bool :=
  match x.toList with
  | [] => false
  | c :: cs => startsWord c && cs.all isScriptWordChar

theorem isBlank_of_isScriptWordChar (h : isScriptWordChar c = true) :
    isBlank c = false := by
  refine Bool.eq_false_iff.mpr fun hblank => ?_
  simp only [isBlank, Bool.or_eq_true, beq_iff_eq] at hblank
  rcases hblank with ((rfl | rfl) | rfl) | rfl <;> exact absurd h (by decide)

theorem isScriptWordChar_of_startsWord (h : startsWord c = true) :
    isScriptWordChar c = true := by
  simp only [startsWord, startsName, Bool.or_eq_true, beq_iff_eq] at h
  rcases h with (halpha | rfl) | rfl
  · simp [isScriptWordChar, Numeral.isWordChar, Char.isAlphanum, halpha]
  · decide
  · decide

theorem takeWhile_run {p : Char → Bool} (hcs : cs.all p = true)
    (hrest : ∀ c ∈ rest.head?, p c = false) :
    (cs ++ rest).takeWhile p = cs ∧ (cs ++ rest).dropWhile p = rest := by
  have hcs := List.all_eq_true.mp hcs
  rw [List.takeWhile_append_of_pos hcs, List.dropWhile_append_of_pos hcs]
  cases rest with
  | nil => simp
  | cons d rest =>
    have hd := hrest d rfl
    rw [List.takeWhile_cons_of_neg (by simp [hd]),
      List.dropWhile_cons_of_neg (by simp [hd])]
    exact ⟨List.append_nil _, rfl⟩

theorem tokens_word {x : String} (hx : isWord x = true)
    (hrest : EndsWord rest) :
    tokens (x.toList ++ rest) = (tokens rest).map (wordToken x :: ·) := by
  unfold isWord at hx
  split at hx
  · cases hx
  · next c cs hchars =>
    rw [Bool.and_eq_true] at hx
    obtain ⟨htake, hdrop⟩ := takeWhile_run hx.2 hrest
    have hlexeme : lexeme (c :: (cs ++ rest)) = some (wordToken x, rest) := by
      rw [lexeme, if_pos hx.1, htake, hdrop, ← hchars, String.ofList_toList]
    rw [hchars]
    exact tokens_lexeme (isBlank_of_isScriptWordChar
        (isScriptWordChar_of_startsWord hx.1)) hlexeme (by simp)

theorem hexValue?_digitChar {n : Nat} (h : n < 16) :
    hexValue? n.digitChar = some n := by
  have hall : ∀ n < 16, hexValue? (Nat.digitChar n) = some n := by decide
  exact hall n h

theorem unicode?_fourHexDigits (c : Char) (hc : c.toNat < 0x10000) :
    ∃ a b d e, fourHexDigits c.toNat = [a, b, d, e] ∧
      unicode? a b d e = some c := by
  refine ⟨_, _, _, _, rfl, ?_⟩
  have hcode : c.toNat / 4096 % 16 * 4096 + c.toNat / 256 % 16 * 256 +
        c.toNat / 16 % 16 * 16 + c.toNat % 16 = c.toNat := by omega
  have hvalid : c.toNat.isValidChar := c.valid
  unfold unicode?
  simp only [hexValue?_digitChar (Nat.mod_lt _ (by decide : 0 < 16)),
    Option.bind_eq_bind, Option.bind_some, hcode, if_pos hvalid,
    Char.ofNat_toNat]

theorem stringBody_escape (c : Char) (cs : List Char) :
    stringBody (escape c ++ cs) =
      (stringBody cs).map fun (text, rest) => (c :: text, rest) := by
  obtain ⟨e, he, heq⟩ | ⟨hsmall, heq⟩ |
    ⟨⟨hquote, hbackslash, hline, hreturn⟩, heq⟩ := escape_cases c
  · have hletters : ∀ p ∈ shortEscapes, p.1 ≠ 'u' ∧
        escaped? p.1 = some p.2 := by decide
    obtain ⟨hu, hescaped⟩ := hletters (e, c) he
    rw [heq]
    show stringBody ('\\' :: e :: cs) = _
    rw [stringBody, hescaped]
    · cases stringBody cs <;> rfl
    · rintro _ _ _ _ _ rfl
      exact absurd rfl hu
  · obtain ⟨a, b, d, e, hdigits, hcode⟩ := unicode?_fourHexDigits c hsmall
    rw [heq, hdigits]
    show stringBody ('\\' :: 'u' :: a :: b :: d :: e :: cs) = _
    rw [stringBody, hcode]
    cases stringBody cs <;> rfl
  · rw [heq, List.singleton_append, stringBody]
    · cases stringBody cs <;> rfl
    · exact hquote
    · exact fun _ _ _ _ _ h _ => hbackslash h
    · exact fun _ _ h _ => hbackslash h
    · exact hline
    · exact hreturn

theorem stringBody_quoted (text rest : List Char) :
    stringBody (text.flatMap escape ++ '"' :: rest) = some (text, rest) := by
  induction text with
  | nil => rfl
  | cons c cs ih =>
    rw [List.flatMap_cons, List.append_assoc, stringBody_escape, ih]; rfl

theorem tokens_quote (text : String) (rest : List Char) :
    tokens ((quote text).toList ++ rest) =
      (tokens rest).map (.string text :: ·) := by
  rw [quote, String.toList_ofList]
  have hlexeme : lexeme ('"' :: (text.toList.flatMap escape ++ '"' :: rest)) =
      some (.string text, rest) := by
    rw [lexeme, if_neg (by decide), if_neg (by decide), if_pos rfl,
      stringBody_quoted]
    simp
  have htokens := tokens_lexeme (by decide) hlexeme (by simp; omega)
  simpa using htokens

structure IsWhole (digits : List Char) : Prop where
  ne_nil : digits ≠ []
  isDigit : digits.all Char.isDigit = true
  zero : ¬(digits.head? = some '0' ∧ 1 < digits.length)

/-- The texts of numbers without a sign, and what they stand for. -/
inductive Spells : List Char → ℚ → Prop
  | whole {digits : List Char} (h : IsWhole digits) :
      Spells digits (numeralValue digits [])
  | point {digits fraction : List Char} (h : IsWhole digits)
      (hfraction : fraction.all Char.isDigit = true) :
      Spells (digits ++ '.' :: fraction) (numeralValue digits fraction)

theorem isScriptWordChar_of_isDigit (h : c.isDigit = true) :
    isScriptWordChar c = true := by
  simp [isScriptWordChar, Numeral.isWordChar, Char.isAlphanum, h]

theorem EndsWord.isDigit (hrest : EndsWord rest) :
    ∀ c ∈ rest.head?, c.isDigit = false := by
  intro c hc
  refine Bool.eq_false_iff.mpr fun hdigit => ?_
  exact Bool.eq_false_iff.mp (hrest c hc) (isScriptWordChar_of_isDigit hdigit)

theorem afterPoint_of_head (h : cs.head? ≠ some '.') :
    afterPoint cs = ([], cs) := by
  unfold afterPoint
  split
  · exact absurd rfl h
  · rfl

theorem numeral_spells {q : ℚ} (h : Spells cs q) (hrest : EndsWord rest)
    (hdot : rest.head? ≠ some '.') :
    numeral (cs ++ rest) = some (.number q, rest) := by
  have hends : ¬(rest.head?.any isScriptWordChar = true) := by
    rw [Option.any_eq_true]
    rintro ⟨c, hc, hword⟩
    exact Bool.eq_false_iff.mp (hrest c hc) hword
  unfold numeral
  cases h with
  | whole hwhole =>
    obtain ⟨htake, hdrop⟩ := takeWhile_run hwhole.isDigit hrest.isDigit
    simp only [htake, hdrop, afterPoint_of_head hdot]
    exact if_neg (not_or.mpr ⟨hwhole.zero, hends⟩)
  | @point digits fraction hwhole hfraction =>
    have hpoint : ∀ c ∈ ('.' :: (fraction ++ rest)).head?, c.isDigit =
        false := by
      rintro c ⟨⟩
      decide
    obtain ⟨htake, hdrop⟩ := takeWhile_run hwhole.isDigit hpoint
    obtain ⟨htakeFraction, hdropFraction⟩ :=
      takeWhile_run hfraction hrest.isDigit
    simp only [List.append_assoc, List.cons_append, htake, hdrop, afterPoint,
      htakeFraction, hdropFraction]
    exact if_neg (not_or.mpr ⟨hwhole.zero, hends⟩)

theorem startsWord_of_isDigit (h : c.isDigit = true) :
    startsWord c = false := by
  have halpha : c.isAlpha = false := by
    simp only [Char.isDigit, Bool.and_eq_true, decide_eq_true_eq, ge_iff_le,
      UInt32.le_iff_toNat_le] at h
    simp only [Char.isAlpha, Char.isUpper, Char.isLower, Bool.or_eq_false_iff,
      Bool.and_eq_false_iff, decide_eq_false_iff_not, ge_iff_le,
      UInt32.le_iff_toNat_le]
    simp at *
    omega
  have hother : c ≠ '_' ∧ c ≠ '$' := by
    constructor <;> rintro rfl <;> exact absurd h (by decide)
  simp [startsWord, startsName, halpha, hother]

theorem Spells.exists_head {q : ℚ} (h : Spells cs q) :
    ∃ c cs', cs = c :: cs' ∧ c.isDigit = true := by
  have hwhole : ∀ {digits}, IsWhole digits →
      ∃ c cs', digits = c :: cs' ∧ c.isDigit = true := by
    intro digits h
    obtain ⟨c, cs', rfl⟩ := List.exists_cons_of_ne_nil h.ne_nil
    exact ⟨c, cs', rfl, List.all_eq_true.mp h.isDigit c List.mem_cons_self⟩
  cases h with
  | whole h => exact hwhole h
  | @point digits fraction h _ =>
    obtain ⟨c, cs', rfl, hc⟩ := hwhole h
    exact ⟨c, cs' ++ '.' :: fraction, rfl, hc⟩

theorem tokens_spells {q : ℚ} (h : Spells cs q) (hrest : EndsWord rest)
    (hdot : rest.head? ≠ some '.') :
    tokens (cs ++ rest) = (tokens rest).map (.number q :: ·) := by
  have hnumeral := numeral_spells h hrest hdot
  obtain ⟨c, cs', rfl, hc⟩ := h.exists_head
  have hlexeme : lexeme (c :: (cs' ++ rest)) = some (.number q, rest) := by
    rw [lexeme, if_neg (by simp [startsWord_of_isDigit hc]), if_pos hc]
    exact hnumeral
  exact tokens_lexeme (isBlank_of_isScriptWordChar
      (isScriptWordChar_of_isDigit hc)) hlexeme (by simp)

theorem head?_toDigits {n : Nat} (h : 0 < n) :
    (Nat.toDigits 10 n).head? ≠ some '0' := by
  induction n using Nat.strongRecOn with
  | ind n ih =>
    by_cases hlt : n < 10
    · rw [Nat.toDigits_of_lt_base hlt]
      have hall : ∀ n < 10, 0 < n → [Nat.digitChar n].head? ≠ some '0' := by
        decide
      exact hall n hlt h
    · rw [Nat.toDigits_of_base_le (by decide) (Nat.le_of_not_lt hlt),
        List.head?_append_of_ne_nil _ Nat.toDigits_ne_nil]
      exact ih (n / 10) (by omega) (by omega)

theorem all_isDigit_toDigits (n : Nat) :
    (Nat.toDigits 10 n).all Char.isDigit = true :=
  List.all_eq_true.mpr fun _ hc =>
    Nat.isDigit_of_mem_toDigits (by decide) (by decide) hc

theorem all_isDigit_zeros (n : Nat) :
    (List.replicate n '0').all Char.isDigit = true :=
  List.all_eq_true.mpr fun _ hc => List.eq_of_mem_replicate hc ▸ rfl

theorem natOfDigits_append (ds es : List Char) :
    Decimal.natOfDigits (ds ++ es) =
      Nat.ofDigitChars 10 es (Decimal.natOfDigits ds) := by
  unfold Decimal.natOfDigits
  rw [List.foldl_append, Nat.ofDigitChars_eq_foldl]
  rfl

theorem natOfDigits_toDigits (n : Nat) :
    Decimal.natOfDigits (Nat.toDigits 10 n) = n := by
  have happend := natOfDigits_append [] (Nat.toDigits 10 n)
  rwa [show Decimal.natOfDigits [] = 0 from rfl, Nat.ofDigitChars_ten_toDigits]
    at happend

theorem natOfDigits_zeros (n : Nat) (ds : List Char) :
    Decimal.natOfDigits (List.replicate n '0' ++ ds) =
      Decimal.natOfDigits ds := by
  have hzeros : Decimal.natOfDigits (List.replicate n '0') = 0 := by
    have happend := natOfDigits_append [] (List.replicate n '0')
    rwa [Nat.ofDigitChars_replicate_zero] at happend
  have happend := natOfDigits_append [] ds
  rw [natOfDigits_append, hzeros]
  exact happend.symm

theorem isWhole_of_head {ds : List Char} (hne : ds ≠ [])
    (hdigits : ds.all Char.isDigit = true) (hhead : ds.head? ≠ some '0') :
    IsWhole ds :=
  ⟨hne, hdigits, fun h => hhead h.1⟩

theorem isWhole_zero : IsWhole ['0'] := ⟨by decide, by decide, by decide⟩

theorem spells_zero : Spells ['0'] 0 := by
  have hzero : numeralValue ['0'] [] = 0 := by
    simp [numeralValue, Decimal.natOfDigits, Decimal.digitValue]
  exact hzero ▸ .whole isWhole_zero

theorem spells_positional {d : Decimal} (hd : 0 < d.value) :
    Spells d.positional d.value := by
  have hpos : 0 < d.digits := by
    refine Nat.pos_of_ne_zero fun hzero => ?_
    simp [Decimal.value, hzero] at hd
  have hdigits := all_isDigit_toDigits d.digits
  have hhead := head?_toDigits hpos
  have hne : Nat.toDigits 10 d.digits ≠ [] := Nat.toDigits_ne_nil
  unfold Decimal.positional Decimal.value
  cases d.exponent with
  | ofNat zeros =>
    have hwhole :
        IsWhole (Nat.toDigits 10 d.digits ++ List.replicate zeros '0') :=
      isWhole_of_head (by simp [hne])
        (by rw [List.all_append, hdigits, all_isDigit_zeros]; rfl)
        (by rwa [List.head?_append_of_ne_nil _ hne])
    have hvalue :
        numeralValue (Nat.toDigits 10 d.digits ++ List.replicate zeros '0') [] =
          d.digits * 10 ^ (Int.ofNat zeros) := by
      rw [numeralValue, List.append_nil, natOfDigits_append,
        Nat.ofDigitChars_replicate_zero, natOfDigits_toDigits]
      simp [mul_comm]
    exact hvalue ▸ .whole hwhole
  | negSucc n =>
    have hscale : ∀ whole fraction : List Char, fraction.length = n + 1 →
        Decimal.natOfDigits (whole ++ fraction) = d.digits →
        numeralValue whole fraction = d.digits * 10 ^ (Int.negSucc n) := by
      intro whole fraction hlength hnat
      rw [numeralValue, hnat, hlength, zpow_negSucc, div_eq_mul_inv]
    show Spells (Decimal.withPoint (Nat.toDigits 10 d.digits) (n + 1)) _
    unfold Decimal.withPoint
    split
    · next hplaces =>
      -- the point stands among the digits
      have hsplit := List.take_append_drop
        ((Nat.toDigits 10 d.digits).length - (n + 1)) (Nat.toDigits 10 d.digits)
      have hparts := hdigits
      rw [← hsplit, List.all_append, Bool.and_eq_true] at hparts
      have hwhole : IsWhole ((Nat.toDigits 10 d.digits).take
            ((Nat.toDigits 10 d.digits).length - (n + 1))) := by
        refine isWhole_of_head ?_ hparts.1 ?_
        · rw [Ne, List.take_eq_nil_iff]
          exact fun h => h.elim (fun hzero => by omega) hne
        · rwa [List.head?_take, if_neg (by omega)]
      rw [← hscale _ _ (by rw [List.length_drop]; omega)
        ((congrArg _ hsplit).trans (natOfDigits_toDigits _))]
      exact .point hwhole hparts.2
    · next hplaces =>
      have hzeros :
          Decimal.natOfDigits
            (['0'] ++
              (List.replicate (n + 1 - (Nat.toDigits 10 d.digits).length) '0' ++
                Nat.toDigits 10 d.digits)) = d.digits := by
        rw [← List.append_assoc]
        exact (natOfDigits_zeros (_ + 1) _).trans (natOfDigits_toDigits _)
      have hfraction :
          (List.replicate (n + 1 - (Nat.toDigits 10 d.digits).length) '0' ++
            Nat.toDigits 10 d.digits).all Char.isDigit = true := by
        rw [List.all_append, all_isDigit_zeros, hdigits]
        rfl
      rw [← hscale _ _ (by simp; omega) hzeros]
      exact .point isWhole_zero hfraction

theorem tokens_open (cs : List Char) :
    tokens ('(' :: cs) = (tokens cs).map (.punctuator "(" :: ·) :=
  tokens_lexeme rfl rfl (Nat.le_refl _)

theorem tokens_close (cs : List Char) :
    tokens (')' :: cs) = (tokens cs).map (.punctuator ")" :: ·) :=
  tokens_lexeme rfl rfl (Nat.le_refl _)

/-- What may follow the sign of a unary operator or a point without making
another token of it. -/
def StandsApart (cs : List Char) : Prop :=
  ∃ c cs', cs = c :: cs' ∧ (isScriptWordChar c ∨ c = '(' ∨ c = '"')

theorem StandsApart.append (h : StandsApart cs) (rest : List Char) :
    StandsApart (cs ++ rest) := by
  obtain ⟨c, cs, rfl, hc⟩ := h
  exact ⟨c, cs ++ rest, rfl, hc⟩

theorem tokens_minus (h : StandsApart cs) :
    tokens ('-' :: cs) = (tokens cs).map (.punctuator "-" :: ·) := by
  obtain ⟨c, cs, rfl, hc⟩ := h
  have hne : c ≠ '-' ∧ c ≠ '=' := by
    constructor <;> rintro rfl <;> exact absurd hc (by decide)
  refine tokens_lexeme rfl ?_ (Nat.le_refl _)
  simp [lexeme, commentMarks, punctuator?, punctuators, hne.1.symm, hne.2.symm,
    startsWord, startsName]
  rfl

theorem tokens_exclamation (h : StandsApart cs) :
    tokens ('!' :: cs) = (tokens cs).map (.punctuator "!" :: ·) := by
  obtain ⟨c, cs, rfl, hc⟩ := h
  have hne : c ≠ '=' := by
    rintro rfl
    exact absurd hc (by decide)
  refine tokens_lexeme rfl ?_ (Nat.le_refl _)
  simp [lexeme, commentMarks, punctuator?, punctuators, hne.symm, startsWord,
    startsName]
  rfl

theorem tokens_operator {op : BinaryOp} (hop : op ≠ .concat) (cs : List Char) :
    tokens ((operatorText op).toList ++ ' ' :: cs) =
      (tokens cs).map (.punctuator (operatorText op) :: ·) := by
  cases op with
  | concat => exact absurd rfl hop
  | _ => rw [← tokens_blank cs]; exact tokens_lexeme rfl rfl (by simp)

end LuaCore.Script
