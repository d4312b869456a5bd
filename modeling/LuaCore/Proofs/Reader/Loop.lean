import LuaCore.Reader.Statement

namespace LuaCore

/-- What a turn of a loop over items gives. -/
inductive Yield (α : Type)
  | more (a : α)
  | last (a : α)
  | stop

def Yield.left {α : Type} (n : Nat) : Yield α → Nat
  | more _ | last _ => n - 1
  | stop => n

namespace Reader

variable {α : Type}

def items (turn : Reader (Yield α)) : Nat → Reader (List α)
  | 0 => return []
  | rounds + 1 => do
    match ← turn with
    | .more a => return a :: (← items turn rounds)
    | .last a => return [a]
    | .stop => return []

def lengthen (turn : α → Reader (Option α)) : Nat → α → Reader α
  | 0, a => return a
  | rounds + 1, a => do
    match ← turn a with
    | some longer => lengthen turn rounds longer
    | none => return a

variable (deeper : Deeper)

def commaTurn (item : Reader α) : Reader (Yield α) := do
  if ← consume (.symbol .comma) then
    return .more (← item)
  else
    return .stop

def fieldTurn : Reader (Yield Field) := do
  if ← check (.symbol .rightBrace) then
    return .stop
  else
    let f ← field deeper
    if ← (do
      if ← consume (.symbol .comma) then pure true
      else consume (.symbol .semicolon)) then
      return .more f
    else
      return .last f

def clauseTurn : Reader (Yield Clause) := do
  if ← consume (.keyword .elseif) then
    let (test, body) ← branch deeper
    build (.clause (.mk test body))
    return .more (.mk test body)
  else
    return .stop

def statTurn : Reader (Yield Stat) := do
  let kind ← peek
  if kind.closesBlock then
    return .stop
  else if kind = .keyword .return then
    let s ← returnStat deeper
    let _ ← consume (.symbol .semicolon)
    return .last s
  else
    let s ← stat deeper
    let _ ← consume (.symbol .semicolon)
    return .more s

theorem afterCommas_eq (item : Reader α) (rounds : Nat) :
    afterCommas item rounds = items (commaTurn item) rounds := by
  induction rounds with
  | zero => rfl
  | succ rounds ih =>
    rw [afterCommas, items, ← ih, commaTurn, bind_assoc]
    congr 1
    funext found
    cases found <;> simp

theorem fields_eq (rounds : Nat) :
    fields deeper rounds = items (fieldTurn deeper) rounds := by
  induction rounds with
  | zero => rfl
  | succ rounds ih =>
    rw [fields, items, ← ih, fieldTurn, bind_assoc]
    congr 1
    funext closed
    cases closed with
    | true => simp
    | false =>
      rw [if_neg Bool.false_ne_true, if_neg Bool.false_ne_true, bind_assoc]
      congr 1
      funext f
      refine .trans ?_ (bind_assoc _ _ _).symm
      congr 1
      funext more
      cases more <;> simp

theorem clauses_eq (rounds : Nat) :
    clauses deeper rounds = items (clauseTurn deeper) rounds := by
  induction rounds with
  | zero => rfl
  | succ rounds ih =>
    rw [clauses, items, ← ih, clauseTurn, bind_assoc]
    congr 1
    funext found
    cases found <;> simp

theorem stats_eq (rounds : Nat) :
    stats deeper rounds = items (statTurn deeper) rounds := by
  induction rounds with
  | zero => rfl
  | succ rounds ih =>
    rw [stats, items, ← ih, statTurn, bind_assoc]
    congr 1
    funext kind
    split
    · simp
    · split <;> simp

/-! Turns that make an expression longer. -/

def operatorTurn (limit : Nat) (left : Expr) : Reader (Option Expr) := do
  match BinaryOp.ofToken? (← peek) with
  | some op =>
    if limit ≤ op.precedence then
      next
      let right ← deeper.operand op.rightLimit
      return some (← madeExpr (.binary op left right))
    else
      return none
  | none => return none

def dotTurn (target : Expr) : Reader (Option Expr) := do
  if ← consume (.symbol .dot) then
    let key ← name
    return some (← madeExpr (.member target .dot (.name key)))
  else
    return none

theorem links_eq (rounds : Nat) (e : Expr) :
    links deeper rounds e = lengthen (link? deeper) rounds e := by
  induction rounds generalizing e with
  | zero => rfl
  | succ rounds ih =>
    rw [links, lengthen]
    congr 1
    funext longer
    cases longer with
    | some longer => exact ih longer
    | none => rfl

theorem operators_eq (limit rounds : Nat) (left : Expr) :
    operators deeper limit rounds left =
      lengthen (operatorTurn deeper limit) rounds left := by
  induction rounds generalizing left with
  | zero => rfl
  | succ rounds ih =>
    simp only [operators, lengthen, ih]
    rw [operatorTurn, bind_assoc]
    congr 1
    funext kind
    cases BinaryOp.ofToken? kind with
    | none => simp
    | some op =>
      dsimp only
      split <;> simp

theorem dottedName_eq (rounds : Nat) (target : Expr) :
    dottedName rounds target = lengthen dotTurn rounds target := by
  induction rounds generalizing target with
  | zero => rfl
  | succ rounds ih =>
    simp only [dottedName, lengthen, ih]
    rw [dotTurn, bind_assoc]
    congr 1
    funext found
    cases found <;> simp

end Reader

end LuaCore
