import LuaCore.Number

namespace LuaCore

/-- Lines and columns count from one; a column counts characters. -/
structure Position where
  line : Nat
  column : Nat
deriving DecidableEq, Repr, Inhabited

namespace Position

def start : Position := ⟨1, 1⟩

def next (p : Position) (c : Char) : Position :=
  if c = '\n' then ⟨p.line + 1, 1⟩ else ⟨p.line, p.column + 1⟩

/-- The position after a text that starts at `p`. -/
def after (p : Position) (cs : List Char) : Position := cs.foldl next p

@[simp] theorem after_nil (p : Position) : p.after [] = p := rfl

@[simp] theorem after_cons (p : Position) (c : Char) (cs : List Char) :
    p.after (c :: cs) = (p.next c).after cs := rfl

theorem after_append (p : Position) (cs ds : List Char) :
    p.after (cs ++ ds) = (p.after cs).after ds := by
  simp [after]

def describe (p : Position) (message : String) : String :=
  s!"[line {p.line}:{p.column}] " ++ message

end Position

inductive Symbol
  | leftParen | rightParen | leftBracket | rightBracket | leftBrace | rightBrace
  | comma | semicolon | colon | dot | concat | ellipsis
  | plus | minus | star | slash | percent | caret | hash
  | assign | equal | notEqual | greater | greaterEqual | less | lessEqual
deriving DecidableEq, Repr

def Symbol.text : Symbol → String
  | leftParen => "("
  | rightParen => ")"
  | leftBracket => "["
  | rightBracket => "]"
  | leftBrace => "\x7b"
  | rightBrace => "\x7d"
  | comma => ","
  | semicolon => ";"
  | colon => ":"
  | dot => "."
  | concat => ".."
  | ellipsis => "..."
  | plus => "+"
  | minus => "-"
  | star => "*"
  | slash => "/"
  | percent => "%"
  | caret => "^"
  | hash => "#"
  | assign => "="
  | equal => "=="
  | notEqual => "~="
  | greater => ">"
  | greaterEqual => ">="
  | less => "<"
  | lessEqual => "<="

inductive Keyword
  | and | break | do | else | elseif | end | false | for | function | if | in |
      local | nil | not | or
  | repeat | return | then | true | until | while
deriving DecidableEq, Repr

namespace Keyword

def text : Keyword → String
  | .and => "and"
  | .break => "break"
  | .do => "do"
  | .else => "else"
  | .elseif => "elseif"
  | .end => "end"
  | .false => "false"
  | .for => "for"
  | .function => "function"
  | .if => "if"
  | .in => "in"
  | .local => "local"
  | .nil => "nil"
  | .not => "not"
  | .or => "or"
  | .repeat => "repeat"
  | .return => "return"
  | .then => "then"
  | .true => "true"
  | .until => "until"
  | .while => "while"

def all : List Keyword :=
  [.and, .break, .do, .else, .elseif, .end, .false, .for, .function, .if, .in,
    .local, .nil, .not, .or, .repeat, .return, .then, .true, .until, .while]

def ofText? (word : String) : Option Keyword := all.find? (·.text == word)

end Keyword

inductive TokenKind
  | symbol (s : Symbol)
  | keyword (k : Keyword)
  | name (x : String)
  | string (text : String)
  | number (x : Float)
  | comment (text : String)
  | eos
deriving DecidableEq

namespace TokenKind

def display : TokenKind → String
  | symbol s => s.text
  | keyword k => k.text
  | name x => x
  | string text => "\"" ++ text ++ "\""
  | number x => Number.plain x
  | comment _ => "comment"
  | eos => "<eof>"

def closesBlock : TokenKind → Bool
  | keyword .else | keyword .elseif | keyword .end | keyword .until | eos =>
    true
  | _ => false

end TokenKind

structure Token where
  kind : TokenKind
  position : Position
deriving DecidableEq

inductive LexFault
  | unexpectedCharacter (c : Char)
  | unfinishedString
  | unfinishedLongBracket
  | invalidLongBracket
  | malformedNumber (text : String)
deriving DecidableEq, Repr

def LexFault.message : LexFault → String
  | unexpectedCharacter c => "unexpected character '" ++ c.toString ++ "'"
  | unfinishedString => "unfinished string"
  | unfinishedLongBracket => "unfinished long string or comment"
  | invalidLongBracket => "invalid long string delimiter"
  | malformedNumber text => "malformed number near '" ++ text ++ "'"

/-- A fault at the first character of the lexeme that cannot be completed. -/
structure LexError where
  fault : LexFault
  position : Position
deriving DecidableEq, Repr

def LexError.message (e : LexError) : String :=
  e.position.describe e.fault.message

end LuaCore
