import LuaCore.Proofs.Script.Lexical

/-! A literal in double quotes stands for UTF-16 code units, with the escapes of
strict code. -/

namespace LuaCore.Script

/-- The code units of a code point: one, or a pair of surrogates. -/
def codeUnits (n : Nat) : List Nat :=
  if n < 0x10000 then [n]
  else [0xd800 + (n - 0x10000) / 0x400, 0xdc00 + (n - 0x10000) % 0x400]

def utf16 (text : List Char) : List Nat :=
  text.flatMap fun c => codeUnits c.toNat

def ofUtf16? : List Nat → Option (List Char)
  | [] => some []
  | u :: units =>
    if 0xd800 ≤ u ∧ u < 0xdc00 then
      match units with
      | v :: units =>
        if 0xdc00 ≤ v ∧ v < 0xe000 then
          (ofUtf16? units).map
            (.ofNat (0x10000 + (u - 0xd800) * 0x400 + (v - 0xdc00)) :: ·)
        else none
      | [] => none
    else if 0xdc00 ≤ u ∧ u < 0xe000 then none
    else (ofUtf16? units).map (.ofNat u :: ·)

def hexNumber? (digits : List Char) : Option Nat :=
  digits.foldlM (fun n digit => (hexValue? digit).map (16 * n + ·)) 0

def isLineTerminator (c : Char) : Bool :=
  c == '\n' || c == '\r' || c == '\u2028' || c == '\u2029'

/-- What a single character after a backslash stands for: itself, if it is no
name of another one. -/
def singleEscape (c : Char) : Char :=
  match c with
  | 'b' => '\x08'
  | 't' => '\t'
  | 'n' => '\n'
  | 'v' => '\x0b'
  | 'f' => '\x0c'
  | 'r' => '\r'
  | c => c

/-- What a backslash begins: the code units, and the characters that follow. A
line that is continued has none. -/
def escapeSequence : List Char → Option (List Nat × List Char)
  | [] => none
  | 'x' :: a :: b :: cs => (hexNumber? [a, b]).map fun n => ([n], cs)
  | 'u' :: '\x7b' :: cs =>
    let digits := cs.takeWhile fun c => (hexValue? c).isSome
    match hexNumber? digits, cs.drop digits.length with
    | some n, '\x7d' :: cs =>
      if digits ≠ [] ∧ n ≤ 0x10ffff then some (codeUnits n, cs) else none
    | _, _ => none
  | 'u' :: a :: b :: c :: d :: cs =>
    (hexNumber? [a, b, c, d]).map fun n => ([n], cs)
  | '\r' :: '\n' :: cs => some ([], cs)
  | c :: cs =>
    if isLineTerminator c then some ([], cs)
    else if c = '0' ∧ ¬cs.head?.any Char.isDigit then some ([0], cs)
    else if c.isDigit ∨ c = 'x' ∨ c = 'u' then none
    else some (utf16 [singleEscape c], cs)

theorem length_escapeSequence {cs rest : List Char} {units : List Nat}
    (h : escapeSequence cs = some (units, rest)) :
    rest.length < cs.length := by
  unfold escapeSequence at h
  split at h
  · cases h
  · obtain ⟨_, _, heq⟩ := Option.map_eq_some_iff.mp h
    cases heq
    simp
    omega
  · next cs =>
    dsimp only at h
    split at h
    · next hrest =>
      split at h
      · have hlength := congrArg List.length hrest
        cases h
        simp only [List.length_drop, List.length_cons] at hlength ⊢
        omega
      · cases h
    · cases h
  · obtain ⟨_, _, heq⟩ := Option.map_eq_some_iff.mp h
    cases heq
    simp
    omega
  · cases h
    simp
  · split at h
    · cases h
      simp
    split at h
    · cases h
      simp
    split at h
    · cases h
    · cases h
      simp

def literalUnits : List Char → Option (List Nat)
  | [] => none
  | c :: cs =>
    if c = '"' then if cs = [] then some [] else none
    else if c = '\\' then
      match _h : escapeSequence cs with
      | some (units, rest) => (literalUnits rest).map (units ++ ·)
      | none => none
    else if c = '\n' ∨ c = '\r' then none
    else (literalUnits cs).map (utf16 [c] ++ ·)
termination_by cs => cs.length
decreasing_by
  · have hlt := length_escapeSequence _h
    simp
    omega
  · simp

/-- The text that a literal in double quotes stands for. -/
def decode? (literal : String) : Option String :=
  match literal.toList with
  | '"' :: cs => do
    let text ← ofUtf16? (← literalUnits cs)
    return .ofList text
  | _ => none

/-- Every quote stands right after a backslash that takes it, and so does every
second backslash. -/
inductive QuotesEscaped : List Char → Prop
  | nil : QuotesEscaped []
  | escaped (c : Char) {cs : List Char} (h : QuotesEscaped cs) :
      QuotesEscaped ('\\' :: c :: cs)
  | plain {c : Char} {cs : List Char} (hquote : c ≠ '"') (hbackslash : c ≠ '\\')
      (h : QuotesEscaped cs) :
      QuotesEscaped (c :: cs)

variable {c : Char}

theorem ofUtf16?_codeUnits (c : Char) (units : List Nat) :
    ofUtf16? (codeUnits c.toNat ++ units) = (ofUtf16? units).map (c :: ·) := by
  have hvalid : c.toNat < 0xd800 ∨ 0xdfff < c.toNat ∧ c.toNat < 0x110000 :=
    c.valid
  unfold codeUnits
  split
  · rw [List.singleton_append, ofUtf16?.eq_def]
    simp only [if_neg (show ¬(0xd800 ≤ c.toNat ∧ c.toNat < 0xdc00) by omega),
      if_neg (show ¬(0xdc00 ≤ c.toNat ∧ c.toNat < 0xe000) by omega),
      Char.ofNat_toNat]
  · next hlarge =>
    have hpair : 0x10000 +
          (0xd800 + (c.toNat - 0x10000) / 0x400 - 0xd800) * 0x400 +
          (0xdc00 + (c.toNat - 0x10000) % 0x400 - 0xdc00) = c.toNat := by omega
    show ofUtf16? (_ :: _ :: units) = _
    rw [ofUtf16?.eq_def]
    dsimp only
    rw [if_pos (by omega), if_pos (by omega), hpair, Char.ofNat_toNat]

theorem ofUtf16?_utf16 (text : List Char) :
    ofUtf16? (utf16 text) = some text := by
  induction text with
  | nil => rfl
  | cons c text ih =>
    show ofUtf16? (codeUnits c.toNat ++ utf16 text) = _
    rw [ofUtf16?_codeUnits, ih]
    rfl

theorem hexNumber?_fourHexDigits {n : Nat} (h : n < 0x10000) :
    hexNumber? (fourHexDigits n) = some n := by
  have hdigit : ∀ m, hexValue? (Nat.digitChar (m % 16)) = some (m % 16) :=
    fun m => hexValue?_digitChar (Nat.mod_lt m (by decide))
  simp only [hexNumber?, fourHexDigits, List.foldlM_cons, List.foldlM_nil,
    hdigit, Option.map_some, Option.bind_eq_bind, Option.bind_some,
    Option.pure_def, Option.some.injEq]
  omega

/-! Each character of a text is read from its own part of the literal. -/

theorem escapeSequence_hex {a b d e : Char} {n : Nat} (cs : List Char)
    (h : hexNumber? [a, b, d, e] = some n) :
    escapeSequence ('u' :: a :: b :: d :: e :: cs) = some ([n], cs) := by
  rw [escapeSequence, h]
  · rfl
  · rintro rfl
    exact nomatch h

theorem literalUnits_backslash {cs rest : List Char} {units : List Nat}
    (h : escapeSequence cs = some (units, rest)) :
    literalUnits ('\\' :: cs) = (literalUnits rest).map (units ++ ·) := by
  rw [literalUnits, if_neg (by decide), if_pos rfl]
  split
  · next heq =>
    cases h.symm.trans heq
    rfl
  · next heq => cases h.symm.trans heq

theorem literalUnits_escape (c : Char) (cs : List Char) :
    literalUnits (escape c ++ cs) =
      (literalUnits cs).map (codeUnits c.toNat ++ ·) := by
  obtain ⟨e, he, heq⟩ | ⟨hsmall, heq⟩ |
    ⟨⟨hquote, hbackslash, hline, hreturn⟩, heq⟩ := escape_cases c
  · rw [heq]
    apply literalUnits_backslash
    simp only [shortEscapes, List.mem_cons, Prod.mk.injEq, List.not_mem_nil,
      or_false] at he
    rcases he with ⟨rfl, rfl⟩ | ⟨rfl, rfl⟩ | ⟨rfl, rfl⟩ | ⟨rfl, rfl⟩ |
          ⟨rfl, rfl⟩ <;> rfl
  · rw [heq, codeUnits, if_pos hsmall]
    exact literalUnits_backslash
      (escapeSequence_hex cs (hexNumber?_fourHexDigits hsmall))
  · rw [heq, List.singleton_append, literalUnits, if_neg hquote,
      if_neg hbackslash, if_neg (by simp [hline, hreturn])]
    simp [utf16]

theorem literalUnits_flatMap_escape (text : List Char) :
    literalUnits (text.flatMap escape ++ ['"']) = some (utf16 text) := by
  induction text with
  | nil => simp [literalUnits, utf16]
  | cons c text ih =>
    rw [List.flatMap_cons, List.append_assoc, literalUnits_escape, ih]
    rfl

theorem decode?_quote (text : String) : decode? (quote text) = some text := by
  rw [decode?, quote, String.toList_ofList, List.cons_append]
  simp [literalUnits_flatMap_escape, ofUtf16?_utf16]

theorem quote_injective : Function.Injective quote := by
  intro text other h
  have hdecode := congrArg decode? h
  rw [decode?_quote, decode?_quote] at hdecode
  exact Option.some.inj hdecode

theorem QuotesEscaped.append {cs ds : List Char} (hcs : QuotesEscaped cs)
    (hds : QuotesEscaped ds) :
    QuotesEscaped (cs ++ ds) := by
  induction hcs with
  | nil => exact hds
  | escaped c _ ih => exact .escaped c ih
  | plain hquote hbackslash _ ih => exact .plain hquote hbackslash ih

theorem quotesEscaped_of_forall {cs : List Char}
    (h : ∀ d ∈ cs, d ≠ '"' ∧ d ≠ '\\') :
    QuotesEscaped cs := by
  induction cs with
  | nil => exact .nil
  | cons c cs ih =>
    obtain ⟨hquote, hbackslash⟩ := h c List.mem_cons_self
    exact .plain hquote hbackslash
      (ih fun d hd => h d (List.mem_cons_of_mem c hd))

theorem quotesEscaped_escape (c : Char) : QuotesEscaped (escape c) := by
  obtain ⟨e, -, heq⟩ | ⟨-, heq⟩ | ⟨⟨hquote, hbackslash, -⟩, heq⟩ :=
    escape_cases c
  · rw [heq]
    exact .escaped e .nil
  · rw [heq]
    apply QuotesEscaped.escaped 'u' (quotesEscaped_of_forall _)
    intro d hd
    have hdigit := isAlphanum_of_mem_fourHexDigits hd
    constructor <;> rintro rfl <;> exact nomatch hdigit
  · rw [heq]
    exact .plain hquote hbackslash .nil

theorem ne_line_end_of_mem_escape {d : Char} (h : d ∈ escape c) :
    d ≠ '\n' ∧ d ≠ '\r' := by
  obtain ⟨e, he, heq⟩ | ⟨-, heq⟩ | ⟨⟨-, -, hends⟩, heq⟩ := escape_cases c
  · have hletters : ∀ p ∈ shortEscapes, p.1 ≠ '\n' ∧ p.1 ≠ '\r' := by decide
    rw [heq, List.mem_cons, List.mem_singleton] at h
    obtain rfl | rfl := h
    · decide
    · exact hletters (d, c) he
  · rw [heq, List.mem_cons, List.mem_cons] at h
    obtain rfl | rfl | hdigit := h
    · decide
    · decide
    · have halphanum := isAlphanum_of_mem_fourHexDigits hdigit
      constructor <;> rintro rfl <;> exact nomatch halphanum
  · rw [heq, List.mem_singleton] at h
    rw [h]
    exact hends

theorem quotesEscaped_flatMap_escape (text : List Char) :
    QuotesEscaped (text.flatMap escape) := by
  induction text with
  | nil => exact .nil
  | cons c text ih =>
    rw [List.flatMap_cons]
    exact (quotesEscaped_escape c).append ih

/-- The literal of a text is in double quotes, between which no quote is bare
and no line ends; it stands for the text, and no other text has it. -/
theorem quote_roundtrip (text : String) :
    (∃ body, (quote text).toList = '"' :: body ++ ['"'] ∧ QuotesEscaped body ∧
      '\n' ∉ body ∧ '\r' ∉ body) ∧
      decode? (quote text) = some text ∧ Function.Injective quote := by
  refine ⟨⟨text.toList.flatMap escape, ?_,
      quotesEscaped_flatMap_escape text.toList, ?_, ?_⟩,
    decode?_quote text, quote_injective⟩
  · rw [quote, String.toList_ofList]
  · intro h
    obtain ⟨c, -, hc⟩ := List.mem_flatMap.mp h
    exact (ne_line_end_of_mem_escape hc).1 rfl
  · intro h
    obtain ⟨c, -, hc⟩ := List.mem_flatMap.mp h
    exact (ne_line_end_of_mem_escape hc).2 rfl

/-- Escapes that no literal of a text has are read all the same. -/
example : decode? "\"\\x41\\\nB\\0\\q\"" = some "AB\x00q" := by
  cbv

end LuaCore.Script
