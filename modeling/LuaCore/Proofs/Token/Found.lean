import LuaCore.Token.Scan

/-! A word depends on its text; what holds of any other lexeme follows from the
constructor of its kind. -/

namespace LuaCore

open Lexeme Numeral

namespace Lexeme

variable {P : TokenKind → Prop} {kind : TokenKind}

def Finds (P : TokenKind → Prop) (r : Except LexFault Lexeme) : Prop :=
  ∀ ⦃kind n⦄, r = .ok (kind, n) → P kind

theorem finds_ok (n : Nat) (h : P kind) : Finds P (.ok (kind, n)) := by
  rintro _ _ ⟨⟩
  exact h

theorem finds_error (fault : LexFault) : Finds P (.error fault) := by
  rintro _ _ ⟨⟩

theorem finds_bind {α : Type} {x : Except LexFault α}
    {f : α → Except LexFault Lexeme} (h : ∀ a, Finds P (f a)) :
    Finds P (x >>= f) := by
  cases x with
  | error fault => exact finds_error fault
  | ok a => exact h a

theorem finds_ite {c : Prop} [Decidable c] {r r' : Except LexFault Lexeme}
    (h : c → Finds P r) (h' : Finds P r') :
    Finds P (if c then r else r') := by
  split
  · next hc => exact h hc
  · exact h'

/-- What holds of symbols, strings, numbers and comments, which are not
words. -/
structure HoldsOfWordless (P : TokenKind → Prop) : Prop where
  symbol : ∀ s, P (.symbol s)
  string : ∀ text, P (.string text)
  number : ∀ x, P (.number x)
  comment : ∀ text, P (.comment text)

section Wordless

variable (h : HoldsOfWordless P)
include h

theorem finds_comment (cs : List Char) : Finds P (comment cs) := by
  unfold comment
  split
  · split
    · exact finds_bind fun body => finds_ok _ (h.comment _)
    · exact finds_ok _ (h.comment _)
  · exact finds_ok _ (h.comment _)

theorem finds_bracket (rest : List Char) : Finds P (bracket rest) := by
  unfold bracket
  split
  · exact finds_bind fun body => finds_ok _ (h.string _)
  · split
    · exact finds_error _
    · exact finds_ok _ (h.symbol _)

theorem finds_numeral (first : Char) (rest : List Char) :
    Finds P (numeral first rest) :=
  finds_bind fun _ => finds_ok _ (h.number _)

theorem finds_withEquals (long short : Symbol) (rest : List Char) :
    Finds P (.ok (withEquals long short rest)) := by
  unfold withEquals
  split
  · exact finds_ok _ (h.symbol _)
  · exact finds_ok _ (h.symbol _)

theorem finds_dash (rest : List Char) : Finds P (dash rest) := by
  unfold dash
  split
  · exact finds_comment h _
  · exact finds_ok _ (h.symbol _)

theorem finds_dots (rest : List Char) : Finds P (dots rest) := by
  unfold dots
  split
  · exact finds_ok _ (h.symbol _)
  · exact finds_ok _ (h.symbol _)
  · split
    · exact finds_numeral h _ _
    · exact finds_ok _ (h.symbol _)
  · exact finds_ok _ (h.symbol _)

theorem finds_quoted (quote : Char) (rest : List Char) :
    Finds P (quoted quote rest) := by
  unfold quoted
  dsimp only
  split
  · exact finds_ok _ (h.string _)
  · exact finds_error _

theorem finds_scan (c : Char) (rest : List Char)
    (hword : startsName c = true → P (word c rest).1) :
    Finds P (scan c rest) := by
  unfold scan
  split
  · exact finds_ok _ (h.symbol _)
  refine finds_ite (fun _ => finds_dash h rest) ?_
  refine finds_ite (fun _ => finds_bracket h rest) ?_
  refine finds_ite (fun _ => finds_withEquals h _ _ rest) ?_
  refine finds_ite (fun _ => finds_withEquals h _ _ rest) ?_
  refine finds_ite (fun _ => finds_withEquals h _ _ rest) ?_
  refine finds_ite
    (fun _ => finds_ite (fun _ => finds_ok _ (h.symbol _)) (finds_error _)) ?_
  refine finds_ite (fun _ => finds_dots h rest) ?_
  refine finds_ite (fun _ => finds_quoted h c rest) ?_
  refine finds_ite (fun _ => finds_numeral h c rest) ?_
  exact finds_ite (fun hname => finds_ok _ (hword hname)) (finds_error _)

end Wordless

end Lexeme

namespace Tokens

theorem ofChars_finds {P : TokenKind → Prop}
    (h : ∀ c rest, Finds P (Lexeme.scan c rest)) (p : Position) (skip : Nat)
    (cs : List Char) :
    ∀ t ∈ (ofChars p skip cs).list, P t.kind := by
  induction p, skip, cs using ofChars.induct with
  | case1 p skip => simp [ofChars]
  | case2 p c cs n ih => simpa [ofChars] using ih
  | case3 p c cs hblank ih => simpa [ofChars, hblank] using ih
  | case4 p c cs hblank kind length hscan ih =>
    simpa [ofChars, hblank, hscan, cons] using ⟨h c cs hscan, ih⟩
  | case5 p c cs hblank fault hscan => simp [ofChars, hblank, hscan]

end Tokens

end LuaCore
