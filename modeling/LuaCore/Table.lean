import Std.Data.HashMap
import LuaCore.Value.Key

/-! Entries in the order in which their keys were first stored, with an index
from keys to places. -/

namespace LuaCore

structure Table where
  entries : Array (Value × Value)
  index : Std.HashMap Key Nat

namespace Table

def empty : Table := ⟨#[], ∅⟩

instance : Inhabited Table := ⟨empty⟩

def size (t : Table) : Nat := t.entries.size

def isEmpty (t : Table) : Bool := t.entries.isEmpty

def find (t : Table) (k : Key) : Value :=
  match t.index[k]? with
  | some i => (t.entries[i]?.map (·.2)).getD .nil
  | none => .nil

/-- The value stored under the key of a value; a value that is no key has
none. -/
def get (t : Table) (key : Value) : Value :=
  match Key.ofValue key with
  | .ok k => t.find k
  | .error _ => .nil

/-- The places after the removal of the entry at place `i`. -/
def closeGap (i : Nat) (index : Std.HashMap Key Nat) : Std.HashMap Key Nat :=
  index.map fun _ place => if i < place then place - 1 else place

def append (t : Table) (k : Key) (key value : Value) : Table :=
  let place := t.entries.size
  ⟨t.entries.push (key, value), t.index.insert k place⟩

/-- Keeps the key as it was first stored. -/
def replace (t : Table) (i : Nat) (value : Value) : Table :=
  ⟨t.entries.modify i fun entry => (entry.1, value), t.index⟩

def remove (t : Table) (k : Key) (i : Nat) : Table :=
  ⟨t.entries.eraseIdxIfInBounds i, closeGap i (t.index.erase k)⟩

def put (t : Table) (k : Key) (key value : Value) : Table :=
  match t.index[k]?, value with
  | some i, .nil => t.remove k i
  | some i, value => t.replace i value
  | none, .nil => t
  | none, value => t.append k key value

def set (t : Table) (key value : Value) : Except KeyFault Table :=
  match Key.ofValue key with
  | .ok k => .ok (t.put k key value)
  | .error fault => .error fault

end Table

end LuaCore
