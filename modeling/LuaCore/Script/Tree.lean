import LuaCore.Tree

/-! The constructs of JavaScript that programs are lowered to. -/

namespace LuaCore.Script

mutual

inductive Expr
  | name (x : String)
  | undefined
  | bool (b : Bool)
  | number (x : Float)
  | string (text : String)
  | group (e : Expr)
  | negate (e : Expr)
  | complement (e : Expr)
  | binary (op : BinaryOp) (left right : Expr)
  /-- The text of the left operand followed by the text of the right one. -/
  | join (left right : Expr)
  | call (callee : Expr) (args : List Expr)
  | member (object key : Expr)
  | index (object key : Expr)
  | assign (target value : Expr)
  | assignAll (targets values : List Expr)
  | object (properties : List Property)
  | function (params : List String) (body : List Stat)

inductive Property
  | named (key : String) (value : Expr)
  | computed (key value : Expr)

inductive Stat
  | expr (e : Expr)
  /-- Binds each name to the value in its place, or to none if there are
  fewer values. -/
  | lets (names : List String) (values : List Expr)
  | const (x : String) (value : Expr)
  | var (x : String) (value : Expr)
  | return (values : List Expr)
  | break
  | breakIf (test : Expr)
  | block (body : List Stat)
  | if (test : Expr) (body : List Stat) (branches : List Branch)
      (otherwise : Option (List Stat))
  | forRange (x : String) (start stop step : Expr) (body : List Stat)
  | forEach (names : List String) (source : Expr) (body : List Stat)
  | while (test : Expr) (body : List Stat)
  | forever (body : List Stat)

inductive Branch
  | mk (test : Expr) (body : List Stat)

end

end LuaCore.Script

namespace LuaCore

/-- A whole script: comments, then statements that may use the names of
the prelude. -/
structure Script where
  comments : List String
  body : List Script.Stat

end LuaCore
