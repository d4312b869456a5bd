import LuaCore.Token.Scan
import LuaCore.Tree.Node

/-! Readers consume a stream of tokens, one token ahead, and note every node
that they build. -/

namespace LuaCore

inductive SyntaxFault
  | expected (what : TokenKind)
  /-- A construct opened on an earlier line lacks the token that closes it. -/
  | unclosed (what opener : TokenKind) (line : Nat)
  | nameExpected
  | argumentsExpected
  | loopHeadExpected
  | unexpectedSymbol
  | notAStatement
  | varargs
  | tooDeep
deriving DecidableEq

def SyntaxFault.message : SyntaxFault → String
  | expected what => "'" ++ what.display ++ "' expected"
  | unclosed what opener line =>
    "'" ++ what.display ++ "' expected (to close '" ++ opener.display ++
      s!"' at line {line})"
  | nameExpected => "<name> expected"
  | argumentsExpected => "function arguments expected"
  | loopHeadExpected => "'=' or 'in' expected"
  | unexpectedSymbol => "unexpected symbol"
  | notAStatement => "syntax error"
  | varargs => "varargs are not supported"
  | tooDeep => "chunk has too many syntax levels"

structure SyntaxError where
  fault : SyntaxFault
  near : Token
deriving DecidableEq

def SyntaxError.message (e : SyntaxError) : String :=
  let near :=
    match e.near.kind with
    | .eos => TokenKind.eos.display
    | kind => "'" ++ kind.display ++ "'"
  e.near.position.describe (e.fault.message ++ " near " ++ near)

inductive ReadError
  | lexical (e : LexError)
  | grammatical (e : SyntaxError)
deriving DecidableEq

def ReadError.message : ReadError → String
  | lexical e => e.message
  | grammatical e => e.message

/-- The token looked at, what follows it, and the comments and nodes met so far,
the latest first. -/
structure Cursor where
  current : Token
  rest : Tokens
  comments : List Comment
  built : List Node

def Cursor.start (tokens : Tokens) : Cursor := ⟨⟨.eos, .start⟩, tokens, [], []⟩

inductive Reply (α : Type)
  | ok (value : α) (c : Cursor)
  | error (e : ReadError) (c : Cursor)

def Reader (α : Type) := Cursor → Reply α

namespace Reader

@[always_inline, inline]
protected def pure {α : Type} (a : α) : Reader α := fun c => .ok a c

@[always_inline, inline]
protected def bind {α β : Type} (p : Reader α) (f : α → Reader β) : Reader β :=
  fun c =>
  match p c with
  | .ok a c => f a c
  | .error e c => .error e c

instance : Monad Reader where
  pure := Reader.pure
  bind := Reader.bind

theorem pure_apply {α : Type} (a : α) (c : Cursor) :
    (pure a : Reader α) c = .ok a c :=
  rfl

theorem bind_apply {α β : Type} (p : Reader α) (f : α → Reader β) (c : Cursor) :
    (p >>= f) c =
      match p c with
      | .ok a c => f a c
      | .error e c => .error e c := rfl

theorem bind_eq_ok {α β : Type} {p : Reader α} {f : α → Reader β}
    {c c' : Cursor} {b : β} :
    (p >>= f) c = .ok b c' ↔ ∃ a d, p c = .ok a d ∧ f a d = .ok b c' := by
  rw [bind_apply]
  cases p c <;> simp [and_assoc]

theorem id_map_apply {α : Type} (p : Reader α) (c : Cursor) :
    (id <$> p) c = p c := by
  show Reader.bind p _ c = p c
  unfold Reader.bind
  cases p c <;> rfl

theorem bind_assoc_apply {α β γ : Type} (p : Reader α) (f : α → Reader β)
    (g : β → Reader γ) (c : Cursor) :
    (p >>= f >>= g) c = (p >>= fun a => f a >>= g) c := by
  simp only [bind_apply]
  cases p c <;> rfl

instance : LawfulMonad Reader :=
  LawfulMonad.mk' Reader (fun p => funext (id_map_apply p)) (fun _ _ => rfl)
    (fun p f g => funext (bind_assoc_apply p f g))

def peek : Reader TokenKind := fun c => .ok c.current.kind c

def line : Reader Nat := fun c => .ok c.current.position.line c

def fail {α : Type} (fault : SyntaxFault) : Reader α := fun c =>
  .error (.grammatical ⟨fault, c.current⟩) c

def build (node : Node) : Reader Unit :=
  fun c => .ok () { c with built := node :: c.built }

def noteComment (c : Cursor) (text : String) (p : Position) : Cursor :=
  { c with
      comments := ⟨text, p⟩ :: c.comments,
      built := .comment ⟨text, p⟩ :: c.built }

/-- Moves to the first of the tokens that is no comment, noting the
comments before it. -/
def advance (ending : Ending) : List Token → Cursor → Reply Unit
  | [], c =>
    match ending with
    | .finished p =>
      .ok () { c with current := ⟨.eos, p⟩, rest := ⟨[], ending⟩ }
    | .broken e => .error (.lexical e) { c with rest := ⟨[], ending⟩ }
  | ⟨.comment text, p⟩ :: ts, c => advance ending ts (noteComment c text p)
  | t :: ts, c => .ok () { c with current := t, rest := ⟨ts, ending⟩ }

def next : Reader Unit := fun c => advance c.rest.ending c.rest.list c

def check (kind : TokenKind) : Reader Bool := do
  return (← peek) = kind

def consume (kind : TokenKind) : Reader Bool := do
  if ← check kind then
    next
    return true
  else
    return false

def expect (kind : TokenKind) : Reader Unit := do
  unless ← consume kind do
    fail (.expected kind)

/-- Expects the token that closes what `opener` opened on a line. -/
def expectClosing (kind opener : TokenKind) (opened : Nat) : Reader Unit := do
  unless ← consume kind do
    if opened = (← line) then fail (.expected kind)
    else fail (.unclosed kind opener opened)

def name : Reader String := do
  match ← peek with
  | .name x =>
    next
    build (.name x)
    return x
  | _ => fail .nameExpected

def madeExpr (e : Expr) : Reader Expr := do
  build (.expr e)
  return e

def madeStat (s : Stat) : Reader Stat := do
  build (.stat s)
  return s

def madeField (f : Field) : Reader Field := do
  build (.field f)
  return f

def afterCommas {α : Type} (item : Reader α) : Nat → Reader (List α)
  | 0 => return []
  | rounds + 1 => do
    if ← consume (.symbol .comma) then
      let a ← item
      return a :: (← afterCommas item rounds)
    else
      return []

def separatedByCommas {α : Type} (item : Reader α) (rounds : Nat) :
    Reader (List α) := do
  let a ← item
  return a :: (← afterCommas item rounds)

end Reader

/-- The readers of what lies one syntax level deeper: blocks, and expressions
whose binary operators all bind at least as tightly as a limit. No loop takes
more than `rounds` turns, the number of tokens. -/
structure Deeper where
  block : Reader Block
  operand : Nat → Reader Expr
  rounds : Nat

def Deeper.expr (deeper : Deeper) : Reader Expr := deeper.operand 1

def Deeper.exprs (deeper : Deeper) : Reader (List Expr) :=
  Reader.separatedByCommas deeper.expr deeper.rounds

end LuaCore
