import LuaCore.Value.Operation

namespace LuaCore

def RuntimeError.isAboutOperands : RuntimeError → Bool
  | lengthOfNonString _ | arithmetic .. | concat _ | compare .. => true
  | _ => false

variable {left right operand v : Value} {e : RuntimeError}

namespace Value

theorem arithmetic_error {op : BinaryOp} {f : Float → Float → Float}
    (h : arithmetic op f left right = .error e) : e.isAboutOperands = true := by
  unfold arithmetic at h
  split at h <;> cases h <;> rfl

theorem join_error (h : join left right = .error e) :
    e.isAboutOperands = true := by
  unfold join at h
  split at h
  · split at h <;> cases h
    rfl
  · cases h
    rfl

theorem compare_error {holds : Ordering → Bool}
    (h : compare holds left right = .error e) :
    e.isAboutOperands = true := by
  unfold compare at h
  split at h <;> cases h
  rfl

end Value

theorem BinaryOp.apply_error {op : BinaryOp}
    (h : op.apply left right = .error e) :
    e.isAboutOperands = true := by
  cases op with
  | or | and | equal | notEqual => simp [apply] at h
  | less | greater | lessEqual | greaterEqual => exact Value.compare_error h
  | concat => exact Value.join_error h
  | add | sub | mul | div | mod | pow => exact Value.arithmetic_error h

theorem UnaryOp.apply_error {op : UnaryOp} (h : op.apply operand = .error e) :
    e.isAboutOperands = true := by
  cases op with
  | not => simp [apply] at h
  | neg | length =>
    simp only [apply] at h
    split at h <;> cases h
    rfl

namespace Value

theorem arithmetic_ok {op : BinaryOp} {f : Float → Float → Float} {v : Value}
    (h : arithmetic op f left right = .ok v) : ∀ r, v ≠ .ref r := by
  unfold arithmetic at h
  split at h <;> cases h
  simp

theorem join_ok {v : Value} (h : join left right = .ok v) :
    ∀ r, v ≠ .ref r := by
  unfold join at h
  split at h
  · split at h <;> cases h
    simp
  · cases h

theorem compare_ok {holds : Ordering → Bool} {v : Value}
    (h : compare holds left right = .ok v) :
    ∀ r, v ≠ .ref r := by
  unfold compare at h
  split at h <;> cases h <;> simp

end Value

/-- An operator gives one of its operands or a value that refers to nothing. -/
theorem BinaryOp.apply_ok {op : BinaryOp} {v : Value}
    (h : op.apply left right = .ok v) :
    v = left ∨ v = right ∨ ∀ r, v ≠ .ref r := by
  cases op with
  | or | and =>
    cases h
    split <;> simp
  | equal | notEqual =>
    cases h
    simp
  | less | lessEqual | greater | greaterEqual =>
    exact .inr (.inr (Value.compare_ok h))
  | concat => exact .inr (.inr (Value.join_ok h))
  | add | sub | mul | div | mod | pow =>
    exact .inr (.inr (Value.arithmetic_ok h))

theorem UnaryOp.apply_ok {op : UnaryOp} {v : Value}
    (h : op.apply operand = .ok v) :
    ∀ r, v ≠ .ref r := by
  cases op with
  | not =>
    cases h
    simp
  | neg | length =>
    simp only [apply] at h
    split at h <;> cases h
    simp

end LuaCore
