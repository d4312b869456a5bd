import LuaCore.Table

namespace LuaCore

inductive Iterator
  /-- The rows still to come. -/
  | rows (remaining : List (List Value))
  /-- The entries of a table under the indices after the last one asked for, as
  long as there are any. -/
  | indexed (table : Nat) (last : Float)

/-- Printed text, and why printing fails if it does. -/
structure Output where
  text : String
  failure : Option String
deriving Inhabited

structure Heap where
  tables : Array Table
  iterators : Array Iterator
  output : Output

namespace Heap

def empty (failure : Option String) : Heap := ⟨#[], #[], ⟨"", failure⟩⟩

def table (h : Heap) (id : Nat) : Table := h.tables.getD id .empty

def addTable (h : Heap) (t : Table) : Heap :=
  { h with tables := h.tables.push t }

theorem table_addTable (h : Heap) (t : Table) (id : Nat) :
    (h.addTable t).table id = if id = h.tables.size then t else h.table id := by
  simp only [table, addTable, Array.getD_eq_getD_getElem?, Array.getElem?_push]
  split <;> rfl

def putEntry (h : Heap) (id : Nat) (k : Key) (key value : Value) : Heap :=
  { h with tables := h.tables.modify id (·.put k key value) }

def addIterator (h : Heap) (it : Iterator) : Heap :=
  { h with iterators := h.iterators.push it }

def setIterator (h : Heap) (id : Nat) (it : Iterator) : Heap :=
  { h with iterators := h.iterators.setIfInBounds id it }

def advance (h : Heap) (id : Nat) : Option (List Value) × Heap :=
  match h.iterators[id]? with
  | some (.rows (row :: rows)) => (some row, h.setIterator id (.rows rows))
  | some (.rows []) => (none, h)
  | some (.indexed table last) =>
    let index := Value.number (last + 1.0)
    let value := (h.table table).get index
    let h := h.setIterator id (.indexed table (last + 1.0))
    if value = .nil then (none, h) else (some [index, value], h)
  | none => (none, h)

theorem tables_advance (h : Heap) (id : Nat) :
    (h.advance id).2.tables = h.tables := by
  unfold advance
  split
  · rfl
  · rfl
  · dsimp only
    split <;> rfl
  · rfl

def printLine (h : Heap) (line : String) : Except RuntimeError Value × Heap :=
  match h.output.failure with
  | none =>
    (.ok .nil,
      { h with
        output := { h.output with text := h.output.text ++ line ++ "\n" } })
  | some reason => (.error (.output reason), h)

end Heap

end LuaCore
