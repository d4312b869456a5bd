import LuaCore.Proofs.Token.Cut
import LuaCore.Proofs.Token.Identifier
import LuaCore.Proofs.Token.Numeral
import LuaCore.Proofs.Number.Rounding
import LuaCore.Proofs.Script.Lexical

namespace LuaCore

/-- A text that is over, or that goes on after a space. -/
def Apart (rest : List Char) : Prop := ∀ c ∈ rest.head?, c = ' '

theorem apart_nil : Apart [] := nofun

theorem apart_space (cs : List Char) : Apart (' ' :: cs) :=
  fun _ h => (Option.some.inj h).symm

theorem Apart.head?_any {rest : List Char} (h : Apart rest) {p : Char → Bool}
    (hp : p ' ' = false) :
    rest.head?.any p = false := by
  cases rest with
  | nil => rfl
  | cons c cs => rwa [h c rfl]

namespace Lexeme

open Numeral

variable {c : Char} {cs rest : List Char} {kind : TokenKind}

/-- A text that is recognised as the token wherever it stands apart from
what follows. -/
def Spelled (kind : TokenKind) (text : List Char) : Prop :=
  ∃ c cs, text = c :: cs ∧ isBlank c = false ∧
    ∀ rest, Apart rest → scan c (cs ++ rest) = .ok (kind, cs.length)

theorem spelled_symbol (s : Symbol) : Spelled (.symbol s) s.text.toList := by
  have hover : ∀ rest, Apart rest → rest = [] ∨ ∃ more, rest = ' ' :: more := by
    intro rest h
    cases rest with
    | nil => exact .inl rfl
    | cons c cs => exact .inr ⟨cs, by rw [h c rfl]⟩
  cases s <;> refine ⟨_, _, rfl, rfl, fun rest h => ?_⟩ <;>
    obtain rfl | ⟨more, rfl⟩ := hover rest h <;> rfl

def wordKind (x : String) : TokenKind :=
  match Keyword.ofText? x with
  | some k => .keyword k
  | none => .name x

theorem spelled_word {x : String} (hx : isWordText x.toList = true) :
    Spelled (wordKind x) x.toList := by
  obtain ⟨first, tail, htext, hfirst, htail⟩ := isWordText_iff.mp hx
  have hdigit : first.isDigit = false := by
    refine Bool.eq_false_iff.mpr fun h => ?_
    have hword := Script.startsWord_of_isDigit h
    simp [Script.startsWord, hfirst] at hword
  refine ⟨first, tail, htext,
    isBlank_of_isWordChar (isWordChar_of_startsName hfirst),
    fun rest hrest => ?_⟩
  rw [scan_wordChar (isWordChar_of_startsName hfirst), hdigit,
    if_neg Bool.false_ne_true, if_pos hfirst, word,
    takeWhile_run_append htail (hrest.head?_any rfl), ← htext,
    String.ofList_toList]
  cases hkeyword : Keyword.ofText? x <;>
    simp only [wordKind, htext, hkeyword, List.length_cons, Nat.add_sub_cancel]

theorem spelled_keyword (k : Keyword) : Spelled (.keyword k) k.text.toList := by
  have hkind : wordKind k.text = .keyword k := by cases k <;> decide
  have hword : isWordText k.text.toList = true := by cases k <;> decide
  exact hkind ▸ spelled_word hword

theorem spelled_name {x : String} (h : IsIdentifier x) :
    Spelled (.name x) x.toList := by
  have hkind : wordKind x = .name x := by rw [wordKind, h.notKeyword]
  exact hkind ▸ spelled_word (isIdentifier_iff.mp h).1

theorem spelled_string {text : String} (h : '"' ∉ text.toList) :
    Spelled (.string text) ("\"" ++ text ++ "\"").toList := by
  refine ⟨'"', text.toList ++ ['"'], by simp, rfl, fun rest _ => ?_⟩
  have hrun : ∀ c ∈ text.toList, (c != '"') = true := fun c hc => by
    rw [bne_iff_ne]
    rintro rfl
    exact h hc
  have htake : (text.toList ++ ['"'] ++ rest).takeWhile (· != '"') =
      text.toList := by
    rw [List.append_assoc]
    exact takeWhile_run_append hrun rfl
  show quoted '"' _ = _
  rw [quoted, htake, String.ofList_toList]
  simp

end Lexeme

namespace Number

theorem ofText?_of_isDigit {text : String} {first : Char} {tail : List Char}
    (htext : text.toList = first :: tail) (hfirst : first.isDigit = true) :
    ofText? text = unsigned? text.toList := by
  rw [ofText?, htext]
  split
  · next h => cases h; exact absurd hfirst (by decide)
  · next h => cases h; exact absurd hfirst (by decide)
  · next h => cases h; exact absurd hfirst (by decide)
  · next h => cases h; exact absurd hfirst (by decide)
  · rfl

end Number

namespace Lexeme

open Numeral

theorem mantissa_of_spells {text rest : List Char} {q : ℚ}
    (htext : Script.Spells text q) (hrest : Apart rest) :
    Mantissa text rest := by
  cases htext with
  | whole hwhole =>
    exact .whole ⟨hwhole.ne_nil, List.all_eq_true.mp hwhole.isDigit⟩
  | @point digits fractional hwhole hfractional =>
    have hfractional := List.all_eq_true.mp hfractional
    refine .point (List.all_eq_true.mp hwhole.isDigit) hfractional
      (List.append_ne_nil_of_left_ne_nil hwhole.ne_nil _) ?_
    cases fractional with
    | nil =>
      intro hhead
      exact absurd (hrest '.' hhead) (by decide)
    | cons d fractional =>
      exact head?_ne_point (hfractional d List.mem_cons_self)

/-- The numeral is cut off as the reader of plain texts reads it. -/
theorem scan_unsigned {text : List Char} {q : ℚ}
    (htext : Script.Spells text q) :
    ∃ first tail value, text = first :: tail ∧ first.isDigit = true ∧
      Number.unsigned? text = some value ∧
      ∀ rest, Apart rest →
        Numeral.scan first (tail ++ rest) = .ok (value, text) := by
  obtain ⟨first, tail, rfl, hfirst⟩ : ∃ first tail, text = first :: tail ∧
      first.isDigit = true := by
    cases htext with
    | whole hwhole =>
      obtain ⟨first, tail, rfl⟩ := List.exists_cons_of_ne_nil hwhole.ne_nil
      exact ⟨first, tail, rfl,
        List.all_eq_true.mp hwhole.isDigit first List.mem_cons_self⟩
    | point hwhole =>
      obtain ⟨first, tail, rfl⟩ := List.exists_cons_of_ne_nil hwhole.ne_nil
      exact ⟨first, _, rfl,
        List.all_eq_true.mp hwhole.isDigit first List.mem_cons_self⟩
  have hscan (rest : List Char) (hrest : Apart rest) :=
    scan_of_mantissa (mantissa_of_spells htext hrest) hfirst
      (hrest.head?_any rfl) fun hhead =>
      absurd (hrest '.' hhead) (by decide)
  obtain ⟨value, hvalue, -⟩ := hscan [] apart_nil
  refine ⟨first, tail, value, rfl, hfirst, hvalue, fun rest hrest => ?_⟩
  obtain ⟨value', hvalue', hvalueScan⟩ := hscan rest hrest
  rw [hvalue] at hvalue'
  cases hvalue'
  exact hvalueScan

theorem spelled_number {x : Float} (hunsigned : Number.isUnsigned x = true)
    (hfinite : x.isInf = false)
    (hread : Number.ofText? (Number.plain x) = some x) :
    Spelled (.number x) (Number.plain x).toList := by
  have htext : ∃ q, Script.Spells (Number.plain x).toList q := by
    rcases Number.plain_of_isUnsigned hunsigned hfinite with ⟨hzero, -⟩ |
        ⟨d, hpos, htext, -⟩
    · exact ⟨0, hzero ▸ Script.spells_zero⟩
    · exact ⟨d.value, htext ▸ Script.spells_positional hpos⟩
  obtain ⟨q, htext⟩ := htext
  obtain ⟨first, tail, value, hplain, hfirst, hvalue, hscan⟩ :=
    scan_unsigned htext
  rw [Number.ofText?_of_isDigit hplain hfirst, hvalue] at hread
  cases hread
  refine ⟨first, tail, hplain,
    isBlank_of_isWordChar (isWordChar_of_isDigit hfirst), fun rest hrest => ?_⟩
  rw [scan_wordChar (isWordChar_of_isDigit hfirst), if_pos hfirst, numeral,
    hscan rest hrest, hplain]
  rfl

end Lexeme

/-- Tokens that their display can give back. -/
def TokenKind.Displayable : TokenKind → Prop
  | .symbol _ | .keyword _ => True
  | .name x => IsIdentifier x
  | .string text => '"' ∉ text.toList
  | .number x => Number.isUnsigned x = true ∧ x.isInf = false
  | .comment _ | .eos => False

instance : DecidablePred TokenKind.Displayable
  | .symbol _ | .keyword _ => .isTrue trivial
  | .name x => inferInstanceAs (Decidable (IsIdentifier x))
  | .string text => inferInstanceAs (Decidable ('"' ∉ text.toList))
  | .number x =>
    inferInstanceAs (Decidable (Number.isUnsigned x = true ∧ x.isInf = false))
  | .comment _ | .eos => .isFalse id

theorem TokenKind.Displayable.spelled {kind : TokenKind} (h : kind.Displayable)
    (hread : ∀ x, kind = .number x → Number.ofText? (Number.plain x) = some x) :
    Lexeme.Spelled kind kind.display.toList := by
  cases kind with
  | symbol s => exact Lexeme.spelled_symbol s
  | keyword k => exact Lexeme.spelled_keyword k
  | name x => exact Lexeme.spelled_name h
  | string text => exact Lexeme.spelled_string h
  | number x => exact Lexeme.spelled_number h.1 h.2 (hread x rfl)
  | comment text => exact h.elim
  | eos => exact h.elim

namespace Tokens

variable {kinds : List TokenKind}

theorem ofChars_spelled {kind : TokenKind} {text rest : List Char}
    (h : Lexeme.Spelled kind text) (hrest : Apart rest) (p : Position) :
    ofChars p 0 (text ++ rest) =
      (ofChars (p.after text) 0 rest).cons ⟨kind, p⟩ := by
  obtain ⟨c, cs, rfl, hblank, hscan⟩ := h
  rw [List.cons_append, ofChars, hblank, if_neg Bool.false_ne_true,
    hscan rest hrest]
  dsimp only
  rw [ofChars_skip, List.take_left, List.drop_left]
  rfl

theorem ofChars_display
    (h : ∀ kind ∈ kinds, Lexeme.Spelled kind kind.display.toList)
    (p : Position) :
    let text := (" ".intercalate (kinds.map TokenKind.display)).toList
    (ofChars p 0 text).list.map (·.kind) = kinds ∧
      (ofChars p 0 text).ending = .finished (p.after text) := by
  induction kinds generalizing p with
  | nil => exact ⟨rfl, rfl⟩
  | cons kind kinds ih =>
    obtain ⟨hkind, hkinds⟩ := List.forall_mem_cons.mp h
    cases kinds with
    | nil =>
      have hcut := ofChars_spelled hkind apart_nil p
      rw [List.append_nil] at hcut
      simp only [List.map_cons, List.map_nil, String.intercalate_singleton,
        hcut]
      exact ⟨rfl, rfl⟩
    | cons next kinds =>
      obtain ⟨hlist, hending⟩ :=
        ih hkinds ((p.after kind.display.toList).next ' ')
      have htext :
          (" ".intercalate
            ((kind :: next :: kinds).map TokenKind.display)).toList =
          kind.display.toList ++ ' ' ::
            (" ".intercalate
              ((next :: kinds).map TokenKind.display)).toList := by
        simp [String.intercalate_cons_cons]
      rw [htext]
      dsimp only
      rw [ofChars_spelled hkind (apart_space _), Position.after_append]
      exact ⟨congrArg (kind :: ·) hlist, hending⟩

/-- Displayed tokens, with a space between each two, are cut into themselves. -/
theorem ofSource_display (h : ∀ kind ∈ kinds, kind.Displayable)
    (hread : ∀ x, .number x ∈ kinds →
      Number.ofText? (Number.plain x) = some x) :
    let source := " ".intercalate (kinds.map TokenKind.display)
    (ofSource source).list.map (·.kind) = kinds ∧
      (ofSource source).ending = .finished (.ofText source.toList) := by
  intro source
  rw [← Position.after_start]
  exact ofChars_display (fun kind hkind => (h kind hkind).spelled fun x hx =>
      hread x (hx ▸ hkind)) .start

theorem ofSource_display_mixed :
    let kinds : List TokenKind :=
      [.name "x", .symbol .concat, .symbol .leftBracket, .string "[[--\n]]",
        .symbol .rightBracket, .symbol .equal, .number 0.1, .keyword .and,
        .name "andy", .number 1e21, .symbol .notEqual]
    let source := " ".intercalate (kinds.map TokenKind.display)
    source = "x .. [ \"[[--\n]]\" ] == 0.1 and andy 1000000000000000000000 ~=" ∧
      (ofSource source).list.map (·.kind) = kinds := by
  intro kinds source
  have hnumbers : ∀ x ∈ [(0.1 : Float), 1e21], Number.ofText? (Number.plain x) =
      some x := by decide +kernel
  refine ⟨by decide +kernel,
    (ofSource_display (by decide +kernel) fun x hx => hnumbers x ?_).1⟩
  simp only [kinds, List.mem_cons, reduceCtorEq, TokenKind.number.injEq,
    List.not_mem_nil, or_false, false_or] at hx ⊢
  exact hx

end Tokens

end LuaCore
