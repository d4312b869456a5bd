import LuaCore.Token.Numeral

namespace LuaCore

def isBlank (c : Char) : Bool :=
  c == ' ' || c == '\t' || c == '\r' || c == '\n' || c == '\x0b' || c == '\x0c'

def startsName (c : Char) : Bool := c.isAlpha || c == '_'

abbrev Lexeme := TokenKind × Nat

namespace Lexeme

/-- Symbols that start no longer token. -/
def single? : Char → Option Symbol
  | '(' => some .leftParen
  | ')' => some .rightParen
  | '\x7b' => some .leftBrace
  | '\x7d' => some .rightBrace
  | ']' => some .rightBracket
  | ',' => some .comma
  | ';' => some .semicolon
  | ':' => some .colon
  | '+' => some .plus
  | '*' => some .star
  | '/' => some .slash
  | '%' => some .percent
  | '^' => some .caret
  | '#' => some .hash
  | _ => none

/-- The level of the long bracket whose first `[` stands before the text. -/
def bracketLevel? (cs : List Char) : Option Nat :=
  let level := (cs.takeWhile (· == '=')).length
  if cs[level]? = some '[' then some level else none

def closerTail (level : Nat) : List Char := List.replicate level '=' ++ [']']

def untilCloser? (level : Nat) : List Char → Option (List Char)
  | [] => none
  | c :: cs =>
    if c = ']' ∧ (closerTail level).isPrefixOf cs then some []
    else (untilCloser? level cs).map (c :: ·)

def longBracket (level : Nat) (cs : List Char) : Except LexFault (List Char) :=
  match untilCloser? level (cs.drop (level + 1)) with
  | some body => .ok body
  | none => .error .unfinishedLongBracket

/-- The characters that a long bracket takes after its first `[`. -/
def longBracketLength (level : Nat) (body : List Char) : Nat :=
  2 * (level + 1) + body.length + 1

/-- A comment, given the text after its two dashes. -/
def comment (cs : List Char) : Except LexFault Lexeme :=
  let toLineEnd : Except LexFault Lexeme :=
    let text := cs.takeWhile (· != '\n')
    .ok (.comment (String.ofList text), text.length + 1)
  match cs with
  | '[' :: rest =>
    match bracketLevel? rest with
    | some level => do
      let body ← longBracket level rest
      return (.comment (String.ofList body), longBracketLength level body + 2)
    | none => toLineEnd
  | _ => toLineEnd

/-- A string that starts with the quote; its text has no escapes. -/
def quoted (quote : Char) (rest : List Char) : Except LexFault Lexeme :=
  let text := rest.takeWhile (· != quote)
  if text.length < rest.length then
    .ok (.string (String.ofList text), text.length + 1)
  else .error .unfinishedString

/-- A long string, a lone bracket, or a bracket with signs after it that
open nothing. -/
def bracket (rest : List Char) : Except LexFault Lexeme :=
  match bracketLevel? rest with
  | some level => do
    let body ← longBracket level rest
    return (.string (String.ofList body), longBracketLength level body)
  | none =>
    if rest.head? = some '=' then .error .invalidLongBracket
    else .ok (.symbol .leftBracket, 0)

def word (first : Char) (rest : List Char) : Lexeme :=
  let text := first :: rest.takeWhile Numeral.isWordChar
  let kind :=
    match Keyword.ofText? (String.ofList text) with
    | some k => .keyword k
    | none => .name (String.ofList text)
  (kind, text.length - 1)

def numeral (first : Char) (rest : List Char) : Except LexFault Lexeme := do
  let (value, text) ← Numeral.scan first rest
  return (.number value, text.length - 1)

def dots (rest : List Char) : Except LexFault Lexeme :=
  match rest with
  | '.' :: '.' :: _ => .ok (.symbol .ellipsis, 2)
  | '.' :: _ => .ok (.symbol .concat, 1)
  | d :: _ => if d.isDigit then numeral '.' rest else .ok (.symbol .dot, 0)
  | [] => .ok (.symbol .dot, 0)

def withEquals (long short : Symbol) (rest : List Char) : Lexeme :=
  if rest.head? = some '=' then (.symbol long, 1) else (.symbol short, 0)

def dash : List Char → Except LexFault Lexeme
  | '-' :: more => comment more
  | _ => .ok (.symbol .minus, 0)

def scan (c : Char) (rest : List Char) : Except LexFault Lexeme :=
  match single? c with
  | some s => .ok (.symbol s, 0)
  | none =>
    if c = '-' then dash rest
    else if c = '[' then bracket rest
    else if c = '=' then .ok (withEquals .equal .assign rest)
    else if c = '<' then .ok (withEquals .lessEqual .less rest)
    else if c = '>' then .ok (withEquals .greaterEqual .greater rest)
    else if c = '~' then
      if rest.head? = some '=' then .ok (.symbol .notEqual, 1)
      else .error (.unexpectedCharacter c)
    else if c = '.' then dots rest
    else if c = '"' ∨ c = '\'' then quoted c rest
    else if c.isDigit then numeral c rest
    else if startsName c then .ok (word c rest)
    else .error (.unexpectedCharacter c)

end Lexeme

inductive Ending
  | finished (p : Position)
  | broken (e : LexError)
deriving DecidableEq, Repr

/-- The tokens of a source, comments included, and how it ends. -/
structure Tokens where
  list : List Token
  ending : Ending
deriving DecidableEq

namespace Tokens

def cons (t : Token) (ts : Tokens) : Tokens := ⟨t :: ts.list, ts.ending⟩

/-- Cuts a text that starts at a position; `skip` characters still belong to the
token before it. -/
def ofChars (p : Position) (skip : Nat) : List Char → Tokens
  | [] => ⟨[], .finished p⟩
  | c :: cs =>
    match skip with
    | n + 1 => ofChars (p.next c) n cs
    | 0 =>
      if isBlank c then ofChars (p.next c) 0 cs
      else match Lexeme.scan c cs with
        | .ok (kind, length) => (ofChars (p.next c) length cs).cons ⟨kind, p⟩
        | .error fault => ⟨[], .broken ⟨fault, p⟩⟩

def ofSource (source : String) : Tokens := ofChars .start 0 source.toList

end Tokens

end LuaCore
