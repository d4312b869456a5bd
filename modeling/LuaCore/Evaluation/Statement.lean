import LuaCore.Evaluation.Expression

/-! A part of a construct is evaluated with one unit of fuel less, and a loop
takes at most as many turns as there is fuel. -/

namespace LuaCore

inductive Turn (α : Type)
  | again (state : α)
  | ended (flow : Flow)

namespace Turn

/-- A loop goes on after a body that ends normally, and `break` ends the loop
only. -/
def afterBody {α : Type} (state : α) : Flow → Turn α
  | .normal => again state
  | .broke => ended .normal
  | .returned v => ended (.returned v)

end Turn

namespace Action

@[specialize]
def loop {α : Type} (turn : α → Action (Turn α)) : Nat → α → Action Flow
  | 0, _ => outOfFuel
  | rounds + 1, state => do
    match ← turn state with
    | .again state => loop turn rounds state
    | .ended flow => return flow

end Action

namespace Machine

open LuaCore.Action

variable (m : Machine)

def blockIn (scope : ScopeId) (body : Block) : Action Flow := do
  m.block body (← openScope scope [] [])

/-- The block of the first clause whose condition holds, else the last one, if
there is one. -/
def branch? (scope : ScopeId) (otherwise : Option Block) :
    List Clause → Action (Option Block)
  | [] => return otherwise
  | .mk test body :: clauses => do
    if (← m.expr test scope).truthy then return some body
    else branch? scope otherwise clauses

def rangeNumber (scope : ScopeId) (part : RangePart) (e : Expr) :
    Action Float := do
  match ← m.expr e scope with
  | .number x => return x
  | _ => fail (.forNonNumber part)

/-- One turn of a range loop whose counter has reached `current`. -/
def rangeTurn (scope : ScopeId) (x : String) (stop step : Float) (body : Block)
    (current : Float) :
    Action (Turn Float) := do
  if current < stop then
    let inner ← openScope scope [x] [.number current]
    return .afterBody (current + step) (← m.block body inner)
  else
    return .ended .normal

/-- The next values of what a loop iterates over: a row of an iterator, or the
result of a call. -/
def nextRow? (source : Value) : Action (Option (List Value)) :=
  match source with
  | .ref (.iterator id) => advance id
  | .ref (.closure ..) | .ref (.native ..) => do
    match ← m.call source [] with
    | .nil => return none
    | v => return some [v]
  | other => fail (.notIterable other.kind)

def eachTurn (scope : ScopeId) (names : List String) (source : Value)
    (body : Block) :
    Action (Turn Unit) := do
  match ← m.nextRow? source with
  | some row =>
    let inner ← openScope scope names row
    return .afterBody () (← m.block body inner)
  | none => return .ended .normal

def whileTurn (scope : ScopeId) (test : Expr) (body : Block) :
    Action (Turn Unit) := do
  if (← m.expr test scope).truthy then
    return .afterBody () (← m.blockIn scope body)
  else
    return .ended .normal

/-- The condition sees the names that the body binds. -/
def repeatTurn (scope : ScopeId) (body : Block) (test : Expr) :
    Action (Turn Unit) := do
  let inner ← openScope scope [] []
  match ← m.block body inner with
  | .normal =>
    if (← m.expr test inner).truthy then return .ended .normal
    else return .again ()
  | flow => return .afterBody () flow

/-- Stores the function of a function statement: in a new variable, or
in a member. -/
def storeFunction (scope : ScopeId) (target : Option Expr) (f : Value) :
    Action Unit :=
  match target with
  | some (.name x) => define scope [x] [f]
  | some (.member object access key) => do
    let t ← m.expr object scope
    let k ← m.memberKey access key scope
    setIndex t k f
  | _ => fail .invalidAssignTarget

def evalStat (s : Stat) (scope : ScopeId) : Action Flow :=
  match s with
  | .do body => m.blockIn scope body
  | .break => return .broke
  | .return values => do
    return .returned ((← m.exprs scope values).getLastD .nil)
  | .expr e => do
    let _ ← m.expr e scope
    return .normal
  | .function target _ params body => do
    let f ← makeClosure (functionName target) ⟨params, body, scope⟩
    m.storeFunction scope target f
    return .normal
  | .local names values => do
    define scope names (← m.exprs scope values)
    return .normal
  | .if test body clauses otherwise => do
    match ← m.branch? scope otherwise (.mk test body :: clauses) with
    | some block => m.blockIn scope block
    | none => return .normal
  | .forRange x start stop step body => do
    let start ← m.rangeNumber scope .initial start
    let stop ← m.rangeNumber scope .limit stop
    let step ← m.rangeNumber scope .step step
    loop (m.rangeTurn scope x stop step body) m.rounds start
  | .forEach names source body => do
    let source ← m.expr source scope
    loop (fun _ => m.eachTurn scope names source body) m.rounds ()
  | .while test body => loop (fun _ => m.whileTurn scope test body) m.rounds ()
  | .repeat body test =>
    loop (fun _ => m.repeatTurn scope body test) m.rounds ()

def evalBlock (body : Block) (scope : ScopeId) : Action Flow :=
  match body with
  | [] => return .normal
  | s :: ss => do
    match ← m.evalStat s scope with
    | .normal => evalBlock ss scope
    | flow => return flow

end Machine

def Machine.ofFuel (host : Host) (limit : Nat) : Nat → Machine
  | 0 =>
    ⟨host, limit, 0, fun _ _ => Action.outOfFuel, fun _ _ => Action.outOfFuel⟩
  | n + 1 =>
    ⟨host, limit, n, fun e scope σ => (ofFuel host limit n).evalExpr e scope σ,
      fun body scope σ => (ofFuel host limit n).evalBlock body scope σ⟩

end LuaCore
