import LuaCore.Reader.Basic

/-! Binary operators are read by precedence climbing, and what follows a primary
expression as a chain from left to right. -/

namespace LuaCore.Reader

variable (deeper : Deeper)

/-- Parameters in parentheses, the block and `end`; a method has a parameter
`self` before the others. -/
def functionBody (isMethod : Bool) (line : Nat) :
    Reader (List String × Block) := do
  expect (.symbol .leftParen)
  if isMethod then
    build (.name "self")
  let params ←
    if ← check (.symbol .rightParen) then pure []
    else separatedByCommas param deeper.rounds
  expect (.symbol .rightParen)
  let body ← deeper.block
  expectClosing (.keyword .end) (.keyword .function) line
  return (if isMethod then "self" :: params else params, body)
where
  param : Reader String := do
    if ← check (.symbol .ellipsis) then fail .varargs
    else name

def field : Reader Field := do
  if ← consume (.symbol .leftBracket) then
    let key ← deeper.expr
    expect (.symbol .rightBracket)
    expect (.symbol .assign)
    let value ← deeper.expr
    madeField (.keyed key value)
  else
    let first ← deeper.expr
    if ← check (.symbol .assign) then
      match first with
      | .name key =>
        next
        let value ← deeper.expr
        madeField (.named key value)
      | _ => fail .notAStatement
    else
      madeField (.item first)

/-- Fields up to the closing brace; the last separator may be left out or
stand alone. -/
def fields : Nat → Reader (List Field)
  | 0 => return []
  | rounds + 1 => do
    if ← check (.symbol .rightBrace) then
      return []
    else
      let f ← field deeper
      if ← (do
        if ← consume (.symbol .comma) then pure true
        else consume (.symbol .semicolon)) then
        return f :: (← fields rounds)
      else
        return [f]

def table : Reader Expr := do
  let opened ← line
  expect (.symbol .leftBrace)
  let fs ← fields deeper deeper.rounds
  expectClosing (.symbol .rightBrace) (.symbol .leftBrace) opened
  madeExpr (.table fs)

def arguments : Reader (List Expr) := do
  match ← peek with
  | .string text =>
    next
    return [← madeExpr (.string text)]
  | .symbol .leftBrace => return [← table deeper]
  | .symbol .leftParen =>
    let opened ← line
    next
    if ← consume (.symbol .rightParen) then
      return []
    else
      let args ← deeper.exprs
      expectClosing (.symbol .rightParen) (.symbol .leftParen) opened
      return args
  | _ => fail .argumentsExpected

def prefixExpr : Reader Expr := do
  match ← peek with
  | .name _ => return .name (← name)
  | .symbol .leftParen =>
    let opened ← line
    next
    let e ← deeper.expr
    expectClosing (.symbol .rightParen) (.symbol .leftParen) opened
    return e
  | _ => fail .unexpectedSymbol

/-- One more link of a chain, if there is one. -/
def link? (e : Expr) : Reader (Option Expr) := do
  match ← peek with
  | .symbol .dot =>
    next
    let key ← name
    return some (← madeExpr (.member e .dot (.name key)))
  | .symbol .leftBracket =>
    next
    let key ← deeper.expr
    expect (.symbol .rightBracket)
    return some (← madeExpr (.member e .bracket key))
  | .symbol .colon =>
    next
    let key ← name
    let callee ← madeExpr (.member e .colon (.name key))
    let args ← arguments deeper
    return some (← madeExpr (.call callee args))
  | .symbol .leftParen | .symbol .leftBrace | .string _ =>
    let args ← arguments deeper
    return some (← madeExpr (.call e args))
  | _ => return none

def links : Nat → Expr → Reader Expr
  | 0, e => return e
  | rounds + 1, e => do
    match ← link? deeper e with
    | some longer => links rounds longer
    | none => return e

def primary : Reader Expr := do
  links deeper deeper.rounds (← prefixExpr deeper)

def literal (e : Expr) : Reader Expr := do
  next
  madeExpr e

def simple : Reader Expr := do
  match ← peek with
  | .number x => literal (.number x)
  | .string text => literal (.string text)
  | .keyword .nil => literal .nil
  | .keyword .true => literal (.bool true)
  | .keyword .false => literal (.bool false)
  | .symbol .leftBrace => table deeper
  | .keyword .function =>
    let opened ← line
    next
    let (params, body) ← functionBody deeper false opened
    madeExpr (.function params body)
  | .symbol .ellipsis => fail .varargs
  | _ => primary deeper

def unary : Reader Expr := do
  match UnaryOp.ofToken? (← peek) with
  | some op =>
    next
    let operand ← deeper.operand UnaryOp.precedence
    madeExpr (.unary op operand)
  | none => simple deeper

/-- Takes binary operators that bind at least as tightly as the limit, and their
right operands. -/
def operators (limit : Nat) : Nat → Expr → Reader Expr
  | 0, left => return left
  | rounds + 1, left => do
    match BinaryOp.ofToken? (← peek) with
    | some op =>
      if limit ≤ op.precedence then
        next
        let right ← deeper.operand op.rightLimit
        operators limit rounds (← madeExpr (.binary op left right))
      else
        return left
    | none => return left

def operand (limit : Nat) : Reader Expr := do
  operators deeper limit deeper.rounds (← unary deeper)

end LuaCore.Reader
