import LuaCore.Script.Text
import LuaCore.Session

namespace LuaCore

/-- Whether to show the script, and the file to read if it is not the
standard input. -/
structure Command where
  emits : Bool
  file : Option String
deriving DecidableEq, Repr

inductive InputFault
  | missing
  | directory
  | notText
  | other (reason : String)
deriving DecidableEq, Repr

def InputFault.message : InputFault → String
  | missing => "No such file or directory (os error 2)"
  | directory => "Is a directory (os error 21)"
  | notText => "stream did not contain valid UTF-8"
  | other reason => reason

structure Report where
  code : Nat
  stdout : String
  stderr : String
deriving DecidableEq, Repr

namespace Report

def success (stdout : String) : Report := ⟨0, stdout, ""⟩

def error (stdout message : String) : Report :=
  ⟨1, stdout, "error: " ++ message ++ "\n"⟩

def usage : Report := ⟨1, "", "usage: moonwalk [--emit-js] [file]\n"⟩

end Report

namespace Command

def emitFlag : String := "--emit-js"

/-- The variable of the environment that limits how deep calls nest. -/
def limitVariable : String := "MOONWALK_MAX_DEPTH"

/-- The flag may be repeated; of the other arguments there is at most one. -/
def ofArgs? (args : List String) : Option Command :=
  let emits := args.contains emitFlag
  match args.filter (· != emitFlag) with
  | [] => some ⟨emits, none⟩
  | [file] => some ⟨emits, some file⟩
  | _ => none

def limit? (text : String) : Option Nat :=
  let digits :=
    match text.toList with
    | '+' :: cs => cs
    | cs => cs
  let n := Decimal.natOfDigits digits
  if digits ≠ [] ∧ digits.all Char.isDigit ∧ n < Nat.pow 2 64 then some n
  else none

/-- A text that is no number is passed over. -/
def limitOf (setting : Option String) : Nat :=
  (setting.bind limit?).getD Session.defaultLimit

def decode (bytes : ByteArray) : Except InputFault String :=
  match String.fromUTF8? bytes with
  | some text => .ok text
  | none => .error .notText

def emit (source : String) : Report :=
  match Chunk.ofSource source with
  | .ok c => .success c.scriptText
  | .error e => .error "" e.message

/-- What a program printed before it failed stays printed. -/
def run (limit : Nat) (source : String) : Report :=
  let (answer, s) := (Session.start limit none).run Session.ampleFuel source
  let printed := s.store.heap.output.text
  match answer with
  | .value _ => .success printed
  | .unreadable e => .error printed e.message
  | .failed e => .error printed e.message
  | .unfinished => .error printed "out of fuel"

def execute (c : Command) (limit : Option String)
    (input : Except InputFault String) : Report :=
  match input with
  | .error fault => .error "" fault.message
  | .ok source => if c.emits then emit source else run (limitOf limit) source

end Command

end LuaCore
