import LuaCore.Tree

/-! A tree is scoped in some names if every identifier in it is one of them or
is bound around its use. -/

namespace LuaCore

def Expr.isName : Expr → Bool
  | .name _ => true
  | _ => false

def Access.quotes (access : Access) (key : Expr) : Bool :=
  access != .bracket && key.isName

def functionNames : Option Expr → List String
  | some (.name x) => [x]
  | _ => []

def Stat.declares : Stat → List String
  | .local names _ => names
  | .function target _ _ _ => functionNames target
  | _ => []

mutual

def Expr.scopedIn (names : List String) : Expr → Bool
  | .name x => names.contains x
  | .nil | .bool _ | .number _ | .string _ => true
  | .unary _ operand => operand.scopedIn names
  | .binary _ left right => left.scopedIn names && right.scopedIn names
  | .call callee args => callee.scopedIn names && exprsScopedIn names args
  | .member object access key =>
    object.scopedIn names && (access.quotes key || key.scopedIn names)
  | .assign targets values =>
    exprsScopedIn names targets && exprsScopedIn names values
  | .table fields => fieldsScopedIn names fields
  | .function params body => statsScopedIn (params ++ names) body

def exprsScopedIn (names : List String) : List Expr → Bool
  | [] => true
  | e :: es => e.scopedIn names && exprsScopedIn names es

def Field.scopedIn (names : List String) : Field → Bool
  | .named _ value => value.scopedIn names
  | .keyed key value => key.scopedIn names && value.scopedIn names
  | .item value => value.scopedIn names

def fieldsScopedIn (names : List String) : List Field → Bool
  | [] => true
  | f :: fs => f.scopedIn names && fieldsScopedIn names fs

/-- A function statement with a bare name is known in its own body. -/
def Stat.scopedIn (names : List String) : Stat → Bool
  | .do body => statsScopedIn names body
  | .break => true
  | .return values => exprsScopedIn names values
  | .expr e => e.scopedIn names
  | .function none _ params body => statsScopedIn (params ++ names) body
  | .function (some target) _ params body =>
    (target.isName || target.scopedIn names) &&
      statsScopedIn (params ++ (functionNames (some target) ++ names)) body
  | .local _ values => exprsScopedIn names values
  | .if test body clauses none =>
    test.scopedIn names && statsScopedIn names body &&
      clausesScopedIn names clauses
  | .if test body clauses (some block) =>
    test.scopedIn names && statsScopedIn names body &&
      clausesScopedIn names clauses && statsScopedIn names block
  | .forRange x start stop step body =>
    start.scopedIn names && stop.scopedIn names && step.scopedIn names &&
      statsScopedIn ([x] ++ names) body
  | .forEach xs source body =>
    source.scopedIn names && statsScopedIn (xs ++ names) body
  | .while test body => test.scopedIn names && statsScopedIn names body
  | .repeat body test =>
    statsScopedIn names body &&
      test.scopedIn (body.flatMap Stat.declares ++ names)

def statsScopedIn (names : List String) : List Stat → Bool
  | [] => true
  | s :: ss => s.scopedIn names && statsScopedIn (s.declares ++ names) ss

def Clause.scopedIn (names : List String) : Clause → Bool
  | .mk test body => test.scopedIn names && statsScopedIn names body

def clausesScopedIn (names : List String) : List Clause → Bool
  | [] => true
  | c :: cs => c.scopedIn names && clausesScopedIn names cs

end

-- Their equations are made here, once for all that is proved with them.
attribute [grind =] Expr.scopedIn exprsScopedIn Field.scopedIn fieldsScopedIn
  Stat.scopedIn statsScopedIn Clause.scopedIn clausesScopedIn

def Chunk.scopedIn (names : List String) (c : Chunk) : Bool :=
  statsScopedIn names c.body

end LuaCore
