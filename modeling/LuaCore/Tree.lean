import LuaCore.Operator

/-! Syntax trees, which are wider than what a source can express. -/

namespace LuaCore

/-- How a member is written: `object.key`, `object[key]`, or `object:key` for
the callee of a call. -/
inductive Access
  | dot | bracket | colon
deriving DecidableEq, Repr

def Access.text : Access → String
  | dot => "."
  | bracket => "["
  | colon => ":"

mutual

/-- A name as the key of a member after a dot or a colon stands for itself and
not for a variable. -/
inductive Expr
  | name (x : String)
  | nil
  | bool (b : Bool)
  | number (x : Float)
  | string (text : String)
  | unary (op : UnaryOp) (operand : Expr)
  | binary (op : BinaryOp) (left right : Expr)
  | call (callee : Expr) (args : List Expr)
  | member (object : Expr) (access : Access) (key : Expr)
  | assign (targets values : List Expr)
  | table (fields : List Field)
  | function (params : List String) (body : List Stat)

inductive Field
  | named (key : String) (value : Expr)
  | keyed (key value : Expr)
  | item (value : Expr)

inductive Stat
  | do (body : List Stat)
  | break
  | return (values : List Expr)
  | expr (e : Expr)
  | function (target : Option Expr) (isLocal : Bool) (params : List String)
      (body : List Stat)
  | local (names : List String) (values : List Expr)
  | if (test : Expr) (body : List Stat) (clauses : List Clause)
      (otherwise : Option (List Stat))
  | forRange (x : String) (start stop step : Expr) (body : List Stat)
  | forEach (names : List String) (source : Expr) (body : List Stat)
  | while (test : Expr) (body : List Stat)
  | repeat (body : List Stat) (test : Expr)

inductive Clause
  | mk (test : Expr) (body : List Stat)

end

abbrev Block := List Stat

structure Comment where
  text : String
  position : Position
deriving DecidableEq, Repr

/-- A program: its statements, and its comments in the order of the source. -/
structure Chunk where
  body : Block
  comments : List Comment

/-- A name with names after dots or colons, as written; no other
expression has one. -/
def Expr.dottedName? : Expr → Option String
  | .name x => some x
  | .member object access (.name key) =>
    if access = .bracket then none
    else (dottedName? object).map (· ++ access.text ++ key)
  | _ => none

end LuaCore
