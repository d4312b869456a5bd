import LuaCore.Proofs.Script.Lexical

/-! Expressions of a script, read from its tokens by precedence and association;
no other construct is read. -/

namespace LuaCore.Script

inductive Operator
  | or | and
  | equal | notEqual
  | less | greater | lessEqual | greaterEqual
  | add | sub
  | mul | div | mod
  | pow
deriving DecidableEq, Repr

namespace Operator

def text : Operator → String
  | .or => "||"
  | .and => "&&"
  | .equal => "==="
  | .notEqual => "!=="
  | .less => "<"
  | .greater => ">"
  | .lessEqual => "<="
  | .greaterEqual => ">="
  | .add => "+"
  | .sub => "-"
  | .mul => "*"
  | .div => "/"
  | .mod => "%"
  | .pow => "**"

def all : List Operator :=
  [.or, .and, .equal, .notEqual, .less, .greater, .lessEqual, .greaterEqual,
    .add, .sub, .mul, .div, .mod, .pow]

def ofText? (p : String) : Option Operator := all.find? (·.text == p)

def precedence : Operator → Nat
  | .or => 1
  | .and => 2
  | .equal | .notEqual => 3
  | .less | .greater | .lessEqual | .greaterEqual => 4
  | .add | .sub => 5
  | .mul | .div | .mod => 6
  | .pow => 7

/-- The least precedence of an operator in the right operand; only `**`
associates to the right. -/
def rightLimit (op : Operator) : Nat :=
  if op = .pow then op.precedence else op.precedence + 1

theorem ofText?_text (op : Operator) : ofText? op.text = some op := by
  cases op <;> rfl

end Operator

inductive Term
  | name (x : String)
  | bool (b : Bool)
  | number (q : ℚ)
  | string (text : String)
  | negate (operand : Term)
  | complement (operand : Term)
  | member (owner : Term) (x : String)
  | binary (op : Operator) (left right : Term)

def atom? : Token → Option Term
  | .name x => some (.name x)
  | .word x =>
    if x = "true" then some (.bool true)
    else if x = "false" then some (.bool false) else none
  | .number q => some (.number q)
  | .string text => some (.string text)
  | .punctuator _ => none

def members (t : Term) : List Token → Term × List Token
  | .punctuator p :: .name x :: ts =>
    if p = "." then members (.member t x) ts
    else (t, .punctuator p :: .name x :: ts)
  | .punctuator p :: .word x :: ts =>
    if p = "." then members (.member t x) ts
    else (t, .punctuator p :: .word x :: ts)
  | ts => (t, ts)

mutual

/-- An operand of a binary operator, and whether it is that of a unary one
without parentheses around it. -/
def readOperand : Nat → List Token → Option (Term × Bool × List Token)
  | 0, _ => none
  | _, [] => none
  | n + 1, .punctuator p :: ts =>
    if p = "-" then do
      let (t, _, ts) ← readOperand n ts
      return (.negate t, true, ts)
    else if p = "!" then do
      let (t, _, ts) ← readOperand n ts
      return (.complement t, true, ts)
    else if p = "(" then do
      match ← readExpression n 0 ts with
      | (t, .punctuator p :: ts) =>
        if p = ")" then some ((members t ts).1, false, (members t ts).2)
        else none
      | _ => none
    else none
  | _ + 1, token :: ts =>
    (atom? token).map fun t => ((members t ts).1, false, (members t ts).2)

/-- An expression without operators of less than a precedence outside of
parentheses. -/
def readExpression : Nat → Nat → List Token → Option (Term × List Token)
  | 0, _, _ => none
  | n + 1, limit, ts => do
    let (t, isUnary, ts) ← readOperand n ts
    readOperators n limit t isUnary ts

/-- The operators after an operand. Before `**` there may be no unary operator
without parentheses. -/
def readOperators :
    Nat → Nat → Term → Bool → List Token → Option (Term × List Token)
  | 0, _, _, _, _ => none
  | n + 1, limit, left, isUnary, .punctuator p :: ts =>
    match Operator.ofText? p with
    | none => some (left, .punctuator p :: ts)
    | some op =>
      if op.precedence < limit then some (left, .punctuator p :: ts)
      else if op = .pow ∧ isUnary then none
      else do
        let (right, ts) ← readExpression n op.rightLimit ts
        readOperators n limit (.binary op left right) false ts
  | _ + 1, _, left, _, ts => some (left, ts)

end

def read (text : String) : Option Term := do
  let ts ← tokens text.toList
  match ← readExpression (2 * ts.length) 0 ts with
  | (t, []) => some t
  | _ => none

end LuaCore.Script
