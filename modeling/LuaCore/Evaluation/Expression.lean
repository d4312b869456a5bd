import LuaCore.Evaluation.Action
import LuaCore.Value.Operation

/-! A machine knows how to evaluate the parts of a construct with less fuel than
it has itself. -/

namespace LuaCore

inductive Flow
  | normal
  | broke
  | returned (v : Value)

/-- The host's functions, how many calls may be under way, how many turns a loop
may take, and how parts are evaluated. -/
structure Machine where
  host : Host
  limit : Nat
  rounds : Nat
  expr : Expr → ScopeId → Action Value
  block : Block → ScopeId → Action Flow

namespace Machine

open LuaCore.Action

variable (m : Machine)

def exprs (scope : ScopeId) : List Expr → Action (List Value)
  | [] => return []
  | e :: es => do
    let v ← m.expr e scope
    return v :: (← exprs scope es)

/-- The key of a member: a name after a dot or a colon is the key itself. -/
def memberKey (access : Access) (key : Expr) (scope : ScopeId) : Action Value :=
  match access, key with
  | .dot, .name x => return .string x
  | .colon, .name x => return .string x
  | _, key => m.expr key scope

def functionName (target : Option Expr) : String :=
  (target.bind Expr.dottedName?).getD "anonymous"

def store (scope : ScopeId) (target : Expr) (v : Value) : Action Unit :=
  match target with
  | .name x => assign scope x v
  | .member _ .colon _ => fail .invalidAssignTarget
  | .member object access key => do
    let t ← m.expr object scope
    let k ← m.memberKey access key scope
    setIndex t k v
  | _ => fail .invalidAssignTarget

def storeAll (scope : ScopeId) : List Expr → List Value → Action Unit
  | [], _ => return ()
  | target :: targets, [] => do
    m.store scope target .nil
    storeAll scope targets []
  | target :: targets, v :: vs => do
    m.store scope target v
    storeAll scope targets vs

def storeField (t : Table) (key value : Value) : Action Table :=
  match t.set key value with
  | .ok t => return t
  | .error fault => fail (.invalidKey fault)

/-- Stores the fields in a table from left to right; the next item gets the
index `position`. -/
def fields (scope : ScopeId) : Table → Float → List Field → Action Table
  | t, _, [] => return t
  | t, position, .named key value :: fs => do
    let v ← m.expr value scope
    fields scope (← storeField t (.string key) v) position fs
  | t, position, .keyed key value :: fs => do
    let k ← m.expr key scope
    let v ← m.expr value scope
    fields scope (← storeField t k v) position fs
  | t, position, .item value :: fs => do
    let v ← m.expr value scope
    fields scope (← storeField t (.number position) v) (position + 1.0) fs

/-- Runs the body of a function in a new scope inside the one that the function
was made in. -/
def callClosure (c : Closure) (args : List Value) : Action Value := do
  if m.limit ≤ (← depth) then
    fail (.stackOverflow m.limit)
  else
    let scope ← openScope c.scope c.params args
    match ← nested (m.block c.body scope) with
    | .normal => return .nil
    | .returned v => return v
    | .broke => fail .breakOutsideLoop

def call (f : Value) (args : List Value) : Action Value :=
  match f with
  | .ref (.closure id _) => do
    match ← closure? id with
    | some c => m.callClosure c args
    | none => fail (.notCallable .function)
  | .ref (.native id _) => native (m.host id) args
  | other => fail (.notCallable other.kind)

/-- The function to be called and the arguments before those in parentheses: a
method gets its object. -/
def callee (scope : ScopeId) : Expr → Action (Value × List Value)
  | .member object .colon key => do
    let o ← m.expr object scope
    let k ← m.memberKey .colon key scope
    return (← index o k, [o])
  | e => return (← m.expr e scope, [])

def evalBinary (scope : ScopeId) (op : BinaryOp) (left right : Expr) :
    Action Value := do
  let a ← m.expr left scope
  match op with
  | .or => if a.truthy then return a else m.expr right scope
  | .and => if a.truthy then m.expr right scope else return a
  | op =>
    let b ← m.expr right scope
    ofExcept (op.apply a b)

def evalExpr (e : Expr) (scope : ScopeId) : Action Value :=
  match e with
  | .name x => lookup scope x
  | .nil => return .nil
  | .bool b => return .bool b
  | .number x => return .number x
  | .string text => return .string text
  | .unary op operand => do ofExcept (op.apply (← m.expr operand scope))
  | .binary op left right => m.evalBinary scope op left right
  | .call callee args => do
    let (f, first) ← m.callee scope callee
    let others ← m.exprs scope args
    m.call f (first ++ others)
  | .member _ .colon _ => fail .methodOutsideCall
  | .member object access key => do
    let o ← m.expr object scope
    let k ← m.memberKey access key scope
    index o k
  | .assign targets values => do
    let vs ← m.exprs scope values
    m.storeAll scope targets vs
    return .nil
  | .table fs => do makeTable (← m.fields scope .empty 1.0 fs)
  | .function params body =>
    makeClosure (functionName none) ⟨params, body, scope⟩

end Machine

end LuaCore
