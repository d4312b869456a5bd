import LuaCore.Token

namespace LuaCore

inductive UnaryOp
  | neg | not | length
deriving DecidableEq, Repr

inductive BinaryOp
  | or | and
  | less | greater | lessEqual | greaterEqual | equal | notEqual
  | concat
  | add | sub | mul | div | mod | pow
deriving DecidableEq, Repr

namespace UnaryOp

def ofToken? : TokenKind → Option UnaryOp
  | .symbol .minus => some .neg
  | .keyword .not => some .not
  | .symbol .hash => some .length
  | _ => none

def token : UnaryOp → TokenKind
  | .neg => .symbol .minus
  | .not => .keyword .not
  | .length => .symbol .hash

def text (op : UnaryOp) : String := op.token.display

/-- Unary operators bind more tightly than every binary operator except `^`. -/
def precedence : Nat := 7

theorem ofToken?_eq_some_iff {k : TokenKind} {op : UnaryOp} :
    ofToken? k = some op ↔ k = op.token := by
  constructor
  · intro h
    unfold ofToken? at h
    split at h <;> cases h <;> rfl
  · rintro rfl
    cases op <;> rfl

end UnaryOp

namespace BinaryOp

def ofToken? : TokenKind → Option BinaryOp
  | .keyword .or => some .or
  | .keyword .and => some .and
  | .symbol .less => some .less
  | .symbol .greater => some .greater
  | .symbol .lessEqual => some .lessEqual
  | .symbol .greaterEqual => some .greaterEqual
  | .symbol .equal => some .equal
  | .symbol .notEqual => some .notEqual
  | .symbol .concat => some .concat
  | .symbol .plus => some .add
  | .symbol .minus => some .sub
  | .symbol .star => some .mul
  | .symbol .slash => some .div
  | .symbol .percent => some .mod
  | .symbol .caret => some .pow
  | _ => none

def token : BinaryOp → TokenKind
  | .or => .keyword .or
  | .and => .keyword .and
  | .less => .symbol .less
  | .greater => .symbol .greater
  | .lessEqual => .symbol .lessEqual
  | .greaterEqual => .symbol .greaterEqual
  | .equal => .symbol .equal
  | .notEqual => .symbol .notEqual
  | .concat => .symbol .concat
  | .add => .symbol .plus
  | .sub => .symbol .minus
  | .mul => .symbol .star
  | .div => .symbol .slash
  | .mod => .symbol .percent
  | .pow => .symbol .caret

def text (op : BinaryOp) : String := op.token.display

def precedence : BinaryOp → Nat
  | .or => 1
  | .and => 2
  | .less | .greater | .lessEqual | .greaterEqual | .equal | .notEqual => 3
  | .concat => 4
  | .add | .sub => 5
  | .mul | .div | .mod => 6
  | .pow => 8

def isRightAssoc : BinaryOp → Bool
  | .concat | .pow => true
  | _ => false

/-- The least precedence that an operator in the right operand may have. -/
def rightLimit (op : BinaryOp) : Nat :=
  if op.isRightAssoc then op.precedence else op.precedence + 1

theorem ofToken?_eq_some_iff {k : TokenKind} {op : BinaryOp} :
    ofToken? k = some op ↔ k = op.token := by
  constructor
  · intro h
    unfold ofToken? at h
    split at h <;> cases h <;> rfl
  · rintro rfl
    cases op <;> rfl

end BinaryOp

end LuaCore
