import LuaCore.Value

namespace LuaCore

inductive KeyFault
  | nil | nan
deriving DecidableEq, Repr

def KeyFault.text : KeyFault → String
  | nil => "nil"
  | nan => "NaN"

inductive RangePart
  | initial | limit | step
deriving DecidableEq, Repr

def RangePart.text : RangePart → String
  | initial => "initial"
  | limit => "limit"
  | step => "step"

inductive RuntimeError
  | undefinedVariable (x : String)
  | notCallable (kind : Kind)
  | notIterable (kind : Kind)
  | lengthOfNonString (kind : Kind)
  | arithmetic (op : String) (kind : Kind)
  | concat (kind : Kind)
  | compare (left right : Kind)
  | indexNonTable (kind : Kind)
  | invalidKey (fault : KeyFault)
  | methodOutsideCall
  | invalidAssignTarget
  | forNonNumber (part : RangePart)
  | breakOutsideLoop
  | stackOverflow (limit : Nat)
  /-- An argument of a host function; `got` is `none` where there is no
  argument. -/
  | badArgument (function : String) (position : Nat) (expected : Kind)
      (got : Option Kind)
  | output (reason : String)
deriving DecidableEq, Repr

def RuntimeError.message : RuntimeError → String
  | undefinedVariable x => "undefined variable '" ++ x ++ "'"
  | notCallable kind => "attempt to call a " ++ kind.text ++ " value"
  | notIterable kind => "attempt to iterate over a " ++ kind.text ++ " value"
  | lengthOfNonString kind =>
    "attempt to get length of a " ++ kind.text ++
      " value (only strings have a length)"
  | arithmetic op kind =>
    "attempt to perform arithmetic (" ++ op ++ ") on a " ++ kind.text ++
      " value"
  | concat kind => "attempt to concatenate a " ++ kind.text ++ " value"
  | compare left right =>
    "attempt to compare " ++ left.text ++ " with " ++ right.text
  | indexNonTable kind => "attempt to index a " ++ kind.text ++ " value"
  | invalidKey fault => "table index is " ++ fault.text
  | methodOutsideCall => "method reference outside of a call"
  | invalidAssignTarget => "cannot assign to this expression"
  | forNonNumber part => "'for' " ++ part.text ++ " value must be a number"
  | breakOutsideLoop => "break outside of a loop"
  | stackOverflow limit => s!"stack overflow (more than {limit} nested calls)"
  | badArgument function position expected got =>
    s!"bad argument #{position} to '{function}' (" ++ expected.text ++
      " expected, got " ++ (got.map Kind.text).getD "no value" ++ ")"
  | output reason => "output error: " ++ reason

end LuaCore
