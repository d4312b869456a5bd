import LuaCore.Evaluation.Statement
import LuaCore.Reader.Statement

/-! Programs that run one after the other on one store, with the functions
of one host. -/

namespace LuaCore

inductive Answer
  | value (v : Value)
  | unreadable (e : ReadError)
  | failed (e : RuntimeError)
  | unfinished

structure Session where
  natives : Array Native
  limit : Nat
  store : Store

namespace Session

def defaultLimit : Nat := 200

/-- Fuel for far more steps than a computer can take. -/
def ampleFuel : Nat := Nat.pow 2 60

def host (s : Session) : Host := fun id => s.natives.getD id .idle

def register (s : Session) (name : String) (f : Native) : Session :=
  match s with
  | ⟨natives, limit, ⟨scopes, closures, heap, depth⟩⟩ =>
    let v := Value.ref (.native natives.size name)
    ⟨natives.push f, limit,
      ⟨scopes.define Scopes.rootId name v, closures, heap, depth⟩⟩

def addIterator (s : Session) (it : Iterator) : Nat × Session :=
  match s with
  | ⟨natives, limit, ⟨scopes, closures, heap, depth⟩⟩ =>
    let id := heap.iterators.size
    (id, ⟨natives, limit, ⟨scopes, closures, heap.addIterator it, depth⟩⟩)

/-- A session with nothing but the builtin functions; `failure` says why
printing fails, if it does. -/
def start (limit : Nat) (failure : Option String) : Session :=
  Native.builtins.foldl (fun s (name, f) => s.register name f)
    ⟨#[], limit, ⟨.root, #[], .empty failure, 0⟩⟩

def global? (s : Session) (x : String) : Option Value :=
  s.store.scopes.here? Scopes.rootId x

/-- Runs a block at the top level; a `return` gives its value. -/
def topLevel (m : Machine) (body : Block) : Action Value := do
  match ← m.block body Scopes.rootId with
  | .normal => return .nil
  | .returned v => return v
  | .broke => Action.fail .breakOutsideLoop

/-- Runs a program; one that runs out of fuel leaves the session as it was. -/
def interpret (fuel : Nat) (c : Chunk) (s : Session) : Answer × Session :=
  match topLevel (.ofFuel s.host s.limit fuel) c.body s.store with
  | .done v σ => (.value v, { s with store := σ })
  | .fail e σ => (.failed e, { s with store := σ })
  | .outOfFuel => (.unfinished, s)

def run (fuel : Nat) (source : String) (s : Session) : Answer × Session :=
  match Chunk.ofSource source with
  | .ok c => s.interpret fuel c
  | .error e => (.unreadable e, s)

def takeOutput (s : Session) : String × Session :=
  match s with
  | ⟨natives, limit,
      ⟨scopes, closures, ⟨tables, iterators, ⟨text, failure⟩⟩, depth⟩⟩ =>
    (text,
      ⟨natives, limit,
        ⟨scopes, closures, ⟨tables, iterators, ⟨"", failure⟩⟩, depth⟩⟩)

end Session

end LuaCore
