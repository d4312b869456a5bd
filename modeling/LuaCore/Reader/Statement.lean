import LuaCore.Reader.Expression

namespace LuaCore

namespace Reader

variable (deeper : Deeper)

def returnStat : Reader Stat := do
  next
  let kind ← peek
  let values ←
    if kind.closesBlock ∨ kind = .symbol .semicolon then pure []
    else deeper.exprs
  madeStat (.return values)

def dottedName : Nat → Expr → Reader Expr
  | 0, target => return target
  | rounds + 1, target => do
    if ← consume (.symbol .dot) then
      let key ← name
      dottedName rounds (← madeExpr (.member target .dot (.name key)))
    else
      return target

def functionStat : Reader Stat := do
  let opened ← line
  next
  let first ← name
  let owner ← dottedName deeper.rounds (.name first)
  let isMethod ← consume (.symbol .colon)
  let target ←
    if isMethod then do
      let key ← name
      madeExpr (.member owner .colon (.name key))
    else pure owner
  let (params, body) ← functionBody deeper isMethod opened
  madeStat (.function (some target) false params body)

def localStat (opened : Nat) : Reader Stat := do
  next
  if ← consume (.keyword .function) then
    let x ← name
    let (params, body) ← functionBody deeper false opened
    madeStat (.function (some (.name x)) true params body)
  else
    let names ← separatedByCommas name deeper.rounds
    let values ← if ← consume (.symbol .assign) then deeper.exprs else pure []
    madeStat (.local names values)

def branch : Reader (Expr × Block) := do
  let test ← deeper.expr
  expect (.keyword .then)
  let body ← deeper.block
  return (test, body)

def clauses : Nat → Reader (List Clause)
  | 0 => return []
  | rounds + 1 => do
    if ← consume (.keyword .elseif) then
      let (test, body) ← branch deeper
      build (.clause (.mk test body))
      return .mk test body :: (← clauses rounds)
    else
      return []

def ifStat : Reader Stat := do
  let opened ← line
  next
  let (test, body) ← branch deeper
  let others ← clauses deeper deeper.rounds
  let otherwise ←
    if ← consume (.keyword .else) then do
      let block ← deeper.block
      pure (some block)
    else pure none
  expectClosing (.keyword .end) (.keyword .if) opened
  madeStat (.if test body others otherwise)

def loopBody (opener : Keyword) (opened : Nat) : Reader Block := do
  expect (.keyword .do)
  let body ← deeper.block
  expectClosing (.keyword .end) (.keyword opener) opened
  return body

/-- A loop over a range; without a third bound the step is 1. -/
def rangeLoop (x : String) (opened : Nat) : Reader Stat := do
  next
  let start ← deeper.expr
  expect (.symbol .comma)
  let stop ← deeper.expr
  let step ←
    if ← consume (.symbol .comma) then deeper.expr
    else madeExpr (.number 1.0)
  let body ← loopBody deeper .for opened
  madeStat (.forRange x start stop step body)

def eachLoop (first : String) (opened : Nat) : Reader Stat := do
  let others ← afterCommas name deeper.rounds
  expect (.keyword .in)
  let source ← deeper.expr
  let body ← loopBody deeper .for opened
  madeStat (.forEach (first :: others) source body)

def forStat : Reader Stat := do
  let opened ← line
  next
  let first ← name
  match ← peek with
  | .symbol .assign => rangeLoop deeper first opened
  | .symbol .comma | .keyword .in => eachLoop deeper first opened
  | _ => fail .loopHeadExpected

/-- Only names and members can be assigned to. -/
def assignTarget : Expr → Reader Expr
  | .name x => return .name x
  | .member object access key => return .member object access key
  | _ => fail .notAStatement

def exprStat : Reader Stat := do
  let first ← primary deeper
  match ← peek with
  | .symbol .assign | .symbol .comma =>
    let target ← assignTarget first
    let others ← afterCommas (do assignTarget (← primary deeper)) deeper.rounds
    expect (.symbol .assign)
    let values ← deeper.exprs
    let e ← madeExpr (.assign (target :: others) values)
    madeStat (.expr e)
  | _ =>
    match first with
    | .call callee args => madeStat (.expr (.call callee args))
    | _ => fail .notAStatement

def stat : Reader Stat := do
  let opened ← line
  match ← peek with
  | .keyword .do =>
    next
    let body ← deeper.block
    expectClosing (.keyword .end) (.keyword .do) opened
    madeStat (.do body)
  | .keyword .break =>
    next
    madeStat .break
  | .keyword .function => functionStat deeper
  | .keyword .local => localStat deeper opened
  | .keyword .if => ifStat deeper
  | .keyword .for => forStat deeper
  | .keyword .while =>
    next
    let test ← deeper.expr
    let body ← loopBody deeper .while opened
    madeStat (.while test body)
  | .keyword .repeat =>
    next
    let body ← deeper.block
    expectClosing (.keyword .until) (.keyword .repeat) opened
    let test ← deeper.expr
    madeStat (.repeat body test)
  | _ => exprStat deeper

/-- Statements up to the end of the block; a `return` is the last one. -/
def stats : Nat → Reader Block
  | 0 => return []
  | rounds + 1 => do
    let kind ← peek
    if kind.closesBlock then
      return []
    else if kind = .keyword .return then
      let s ← returnStat deeper
      let _ ← consume (.symbol .semicolon)
      return [s]
    else
      let s ← stat deeper
      let _ ← consume (.symbol .semicolon)
      return s :: (← stats rounds)

def block : Reader Block := do
  let body ← stats deeper deeper.rounds
  build (.block body)
  return body

end Reader

def Deeper.ofLevels (rounds : Nat) : Nat → Deeper
  | 0 => ⟨Reader.fail .tooDeep, fun _ => Reader.fail .tooDeep, rounds⟩
  | levels + 1 =>
    let deeper := ofLevels rounds levels
    ⟨Reader.block deeper, Reader.operand deeper, rounds⟩

/-- How deep blocks and operands may nest. -/
def maxLevels : Nat := 200

def Reader.chunk (deeper : Deeper) : Reader Chunk := do
  next
  let body ← deeper.block
  unless ← check .eos do
    fail (.expected .eos)
  let c : Chunk := ⟨body, (← comments).reverse⟩
  build (.chunk c)
  return c
where
  comments : Reader (List Comment) := fun c => .ok c.comments c

namespace Chunk

def readTokens (levels : Nat) (tokens : Tokens) : Reply Chunk :=
  Reader.chunk (.ofLevels (tokens.list.length + 1) levels) (.start tokens)

def read (source : String) : Reply Chunk :=
  readTokens maxLevels (.ofSource source)

/-- The program that a source text expresses, or why it expresses none. -/
def ofSource (source : String) : Except ReadError Chunk :=
  match read source with
  | .ok c _ => .ok c
  | .error e _ => .error e

/-- The nodes built while a source text is read, in order, up to a failure if
there is one. -/
def nodesBuilt (source : String) : List Node :=
  match read source with
  | .ok _ c => c.built.reverse
  | .error _ c => c.built.reverse

end Chunk

end LuaCore
