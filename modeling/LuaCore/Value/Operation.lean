import LuaCore.Operator
import LuaCore.RuntimeError

namespace LuaCore

def Number.order? (x y : Float) : Option Ordering :=
  if x < y then some .lt
  else if x == y then some .eq
  else if y < x then some .gt
  else none

/-- The order of two strings: that of the code points of their characters. -/
def stringOrder (s t : String) : Ordering :=
  if s < t then .lt
  else if s = t then .eq
  else .gt

/-- The remainder of a division rounded down. -/
def Number.modulo (x y : Float) : Float := x - (x / y).floor * y

namespace Value

/-- Operands of a number and a number only; the error names the first operand
that is none. -/
def arithmetic (op : BinaryOp) (f : Float → Float → Float)
    (left right : Value) :
    Except RuntimeError Value :=
  match left, right with
  | number x, number y => .ok (number (f x y))
  | number _, other => .error (.arithmetic op.text other.kind)
  | other, _ => .error (.arithmetic op.text other.kind)

def joins : Value → Bool
  | string _ | number _ => true
  | _ => false

/-- The displays of two strings or numbers, one after the other. -/
def join (left right : Value) : Except RuntimeError Value :=
  if left.joins then
    if right.joins then .ok (string (left.display ++ right.display))
    else .error (.concat right.kind)
  else .error (.concat left.kind)

/-- Two numbers or two strings are compared by their order; without one, no
comparison holds. -/
def compare (holds : Ordering → Bool) (left right : Value) :
    Except RuntimeError Value :=
  match left, right with
  | number x, number y => .ok (bool ((Number.order? x y).any holds))
  | string s, string t => .ok (bool (holds (stringOrder s t)))
  | _, _ => .error (.compare left.kind right.kind)

end Value

open Value in
def BinaryOp.apply (op : BinaryOp) (left right : Value) :
    Except RuntimeError Value :=
  match op with
  | .or => .ok (if left.truthy then left else right)
  | .and => .ok (if left.truthy then right else left)
  | .equal => .ok (bool (left.equals right))
  | .notEqual => .ok (bool !(left.equals right))
  | .less => compare (· == .lt) left right
  | .lessEqual => compare (· != .gt) left right
  | .greater => compare (· == .gt) left right
  | .greaterEqual => compare (· != .lt) left right
  | .concat => join left right
  | .add => arithmetic op (· + ·) left right
  | .sub => arithmetic op (· - ·) left right
  | .mul => arithmetic op (· * ·) left right
  | .div => arithmetic op (· / ·) left right
  | .mod => arithmetic op Number.modulo left right
  | .pow => arithmetic op Float.pow left right

/-- The length of a string is the number of its UTF-8 bytes. -/
def UnaryOp.apply (op : UnaryOp) (operand : Value) :
    Except RuntimeError Value :=
  match op with
  | .neg =>
    match operand with
    | .number x => .ok (.number (-x))
    | other => .error (.arithmetic op.text other.kind)
  | .not => .ok (.bool !operand.truthy)
  | .length =>
    match operand with
    | .string text => .ok (.number (Float.ofNat text.utf8ByteSize))
    | other => .error (.lengthOfNonString other.kind)

end LuaCore
