import LuaCore.Tree

/-! Well-formed trees are those that a source text can express. -/

namespace LuaCore

def Expr.isTarget : Expr → Bool
  | .name _ | .member _ _ _ => true
  | _ => false

def Expr.isDotted : Expr → Bool
  | .name _ => true
  | .member object .dot (.name _) => object.isDotted
  | _ => false

def Expr.isMethodName : Expr → Bool
  | .member object .colon (.name _) => object.isDotted
  | _ => false

theorem Expr.isMethodName_of_isDotted {target : Expr}
    (h : target.isDotted = true) :
    target.isMethodName = false := by
  cases target with
  | member object access key =>
    cases access with
    | colon => exact absurd h Bool.noConfusion
    | _ => rfl
  | _ => rfl

/-- A function statement may have this name and these parameters; those of a
method start with `self`. -/
def Expr.namesFunction (target : Expr) (params : List String) : Bool :=
  target.isDotted || (target.isMethodName && params.head? == some "self")

def Stat.isReturn : Stat → Bool
  | .return _ => true
  | _ => false

mutual

def Expr.wellFormed (isCallee : Bool) : Expr → Bool
  | .name _ | .nil | .bool _ | .number _ | .string _ => true
  | .unary _ operand => operand.wellFormed false
  | .binary _ left right => left.wellFormed false && right.wellFormed false
  | .call callee args => callee.wellFormed true && exprsWellFormed args
  | .member object .dot (.name _) => object.wellFormed false
  | .member object .colon (.name _) => isCallee && object.wellFormed false
  | .member object .bracket key =>
    object.wellFormed false && key.wellFormed false
  | .member _ _ _ => false
  | .assign _ _ => false
  | .table fields => fieldsWellFormed fields
  | .function _ body => blockWellFormed body

def exprsWellFormed : List Expr → Bool
  | [] => true
  | e :: es => e.wellFormed false && exprsWellFormed es

def Field.wellFormed : Field → Bool
  | .named _ value => value.wellFormed false
  | .keyed key value => key.wellFormed false && value.wellFormed false
  | .item value => value.wellFormed false

def fieldsWellFormed : List Field → Bool
  | [] => true
  | f :: fs => f.wellFormed && fieldsWellFormed fs

def Stat.wellFormed : Stat → Bool
  | .do body => blockWellFormed body
  | .break => true
  | .return values => exprsWellFormed values
  | .expr (.call callee args) => callee.wellFormed true && exprsWellFormed args
  | .expr (.assign targets values) =>
    !targets.isEmpty && targets.all Expr.isTarget && exprsWellFormed targets &&
      !values.isEmpty && exprsWellFormed values
  | .expr _ => false
  | .function (some (.name _)) true _ body => blockWellFormed body
  | .function (some target) false params body =>
    target.namesFunction params && blockWellFormed body
  | .function _ _ _ _ => false
  | .local names values => !names.isEmpty && exprsWellFormed values
  | .if test body clauses none =>
    test.wellFormed false && blockWellFormed body && clausesWellFormed clauses
  | .if test body clauses (some otherwise) =>
    test.wellFormed false && blockWellFormed body &&
      clausesWellFormed clauses && blockWellFormed otherwise
  | .forRange _ start stop step body =>
    start.wellFormed false && stop.wellFormed false && step.wellFormed false &&
      blockWellFormed body
  | .forEach names source body =>
    !names.isEmpty && source.wellFormed false && blockWellFormed body
  | .while test body => test.wellFormed false && blockWellFormed body
  | .repeat body test => blockWellFormed body && test.wellFormed false

def blockWellFormed : List Stat → Bool
  | [] => true
  | s :: ss => s.wellFormed && (!s.isReturn || ss.isEmpty) && blockWellFormed ss

def Clause.wellFormed : Clause → Bool
  | .mk test body => test.wellFormed false && blockWellFormed body

def clausesWellFormed : List Clause → Bool
  | [] => true
  | c :: cs => c.wellFormed && clausesWellFormed cs

end

-- Their equations are made here, once for all that is proved with them.
attribute [grind =] Expr.wellFormed exprsWellFormed Field.wellFormed
  fieldsWellFormed Stat.wellFormed blockWellFormed Clause.wellFormed
  clausesWellFormed

def Block.WellFormed (body : Block) : Prop := blockWellFormed body = true

end LuaCore
