import LuaCore.Heap

/-! Functions of the host, which may read and change tables, iterators and the
printed text, but neither scopes nor functions. -/

namespace LuaCore

abbrev Native := List Value → Heap → Except RuntimeError Value × Heap

namespace Native

def idle : Native := fun _ h => (.ok .nil, h)

/-- Prints the displays of the arguments with tabs between them. -/
def print : Native :=
  fun args h => h.printLine ("\t".intercalate (args.map Value.display))

def tableArgument (function : String) : List Value → Except RuntimeError Nat
  | .ref (.table id) :: _ => .ok id
  | other :: _ => .error (.badArgument function 1 .table (some other.kind))
  | [] => .error (.badArgument function 1 .table none)

def newIterator (h : Heap) (it : Iterator) : Except RuntimeError Value × Heap :=
  (.ok (.ref (.iterator h.iterators.size)), h.addIterator it)

/-- Iterates over the entries that a table has now. -/
def pairs : Native := fun args h =>
  match tableArgument "pairs" args with
  | .ok id =>
    newIterator h
      (.rows ((h.table id).entries.toList.map fun (key, value) => [key, value]))
  | .error e => (.error e, h)

/-- Iterates over the indices 1, 2, … of a table and what it then holds there,
up to the first hole. -/
def ipairs : Native := fun args h =>
  match tableArgument "ipairs" args with
  | .ok id => newIterator h (.indexed id 0.0)
  | .error e => (.error e, h)

/-- The functions that every program may use, with their names. -/
def builtins : List (String × Native) :=
  [("print", print), ("pairs", pairs), ("ipairs", ipairs)]

end Native

/-- What each function of the host does, by its number. -/
abbrev Host := Nat → Native

end LuaCore
