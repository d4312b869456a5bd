import LuaCore.RuntimeError

/-! Integers of moderate size are keys by their value, so that `0` and `-0`
address one entry; other numbers are keys by their bits. -/

namespace LuaCore

inductive Key
  | integer (n : Int)
  | bits (b : UInt64)
  | string (text : String)
  | bool (b : Bool)
  | ref (r : Ref)
deriving DecidableEq, Hashable, Repr

namespace Key

/-- Integral numbers of smaller magnitude are keys by their integral value. -/
def integralLimit : Nat := 9 * Nat.pow 10 15

def ofNumber (x : Float) : Key :=
  match Number.integer? x with
  | some n => if n.natAbs < integralLimit then .integer n else .bits x.toBits
  | none => .bits x.toBits

/-- Every value but `nil` and a NaN is a key. -/
def ofValue : Value → Except KeyFault Key
  | .nil => .error .nil
  | .bool b => .ok (.bool b)
  | .number x => if x.isNaN then .error .nan else .ok (ofNumber x)
  | .string text => .ok (.string text)
  | .ref r => .ok (.ref r)

end Key

end LuaCore
