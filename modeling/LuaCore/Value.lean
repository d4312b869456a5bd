import LuaCore.Number

namespace LuaCore

inductive Kind
  | string | number | boolean | table | function | iterator | nil
deriving DecidableEq, Repr

def Kind.text : Kind → String
  | string => "string"
  | number => "number"
  | boolean => "boolean"
  | table => "table"
  | function => "function"
  | iterator => "iterator"
  | nil => "nil"

/-- An object, by its number among the objects of its sort; functions carry the
name that they display. -/
inductive Ref
  | table (id : Nat)
  | closure (id : Nat) (name : String)
  | native (id : Nat) (name : String)
  | iterator (id : Nat)
deriving DecidableEq, Hashable, Repr

inductive Value
  | nil
  | bool (b : Bool)
  | number (x : Float)
  | string (text : String)
  | ref (r : Ref)
deriving DecidableEq, Inhabited

def Ref.kind : Ref → Kind
  | table _ => .table
  | closure .. | native .. => .function
  | iterator _ => .iterator

/-- Objects without a name are displayed without their identity. -/
def Ref.display : Ref → String
  | table _ => "table: @"
  | closure _ name => "function: " ++ name
  | native _ name => "function: builtin: " ++ name
  | iterator _ => "iterator: @"

namespace Value

def kind : Value → Kind
  | nil => .nil
  | bool _ => .boolean
  | number _ => .number
  | string _ => .string
  | ref r => r.kind

/-- Only `nil` and `false` count as false. -/
def truthy : Value → Bool
  | nil | bool false => false
  | _ => true

def display : Value → String
  | nil => "nil"
  | bool b => toString b
  | number x => Number.display x
  | string text => text
  | ref r => r.display

/-- Equality as programs see it: no value equals one of another sort, and a NaN
equals nothing. -/
def equals : Value → Value → Bool
  | nil, nil => true
  | bool a, bool b => a == b
  | number x, number y => x == y
  | string s, string t => s == t
  | ref r, ref s => r == s
  | _, _ => false

end Value

end LuaCore
