import LuaCore.Proofs.Evaluation.Construct
import LuaCore.Proofs.Scope.Widening

namespace LuaCore

/-- Scopes are opened and closures made only in scopes that exist; nothing is
asked of names, values, objects and depth. -/
inductive Store.Reachable : Store → Prop
  | start (limit : Nat) (failure : Option String) :
      Reachable (Session.start limit failure).store
  | extend {σ : Store} {i : ScopeId} (h : Reachable σ)
      (hi : i < σ.scopes.frames.size) :
      Reachable { σ with scopes := σ.scopes.extend i }
  | define {σ : Store} (h : Reachable σ) (i : ScopeId) (x : String)
      (v : Value) :
      Reachable { σ with scopes := σ.scopes.define i x v }
  | closure {σ : Store} {c : Closure} (h : Reachable σ)
      (hc : c.scope < σ.scopes.frames.size) :
      Reachable { σ with closures := σ.closures.push c }
  | heap {σ : Store} (h : Reachable σ) (heap : Heap) :
      Reachable { σ with heap := heap }
  | depth {σ : Store} (h : Reachable σ) (n : Nat) :
      Reachable { σ with depth := n }

/-- The sessions that there can be, whatever programs they ran and however
these ended. -/
inductive Session.Reachable : Session → Prop
  | start (limit : Nat) (failure : Option String) :
      Reachable (.start limit failure)
  | register {s : Session} (hs : Reachable s) (name : String) (f : Native) :
    Reachable (s.register name f)
  | addIterator {s : Session} (hs : Reachable s) (it : Iterator) :
      Reachable (s.addIterator it).2
  | takeOutput {s : Session} (hs : Reachable s) : Reachable s.takeOutput.2
  | interpret {s : Session} (hs : Reachable s) (fuel : Nat) (c : Chunk) :
    Reachable (s.interpret fuel c).2

/-- A text that cannot be read leaves the session as it was, another one is
interpreted. -/
theorem Session.Reachable.run {s : Session} (hs : s.Reachable) (fuel : Nat)
    (source : String) :
    (s.run fuel source).2.Reachable := by
  unfold Session.run
  split
  · exact hs.interpret fuel _
  · exact hs

namespace Store.Reachable

variable {σ : Store}

theorem rootId_lt_size (h : σ.Reachable) :
    Scopes.rootId < σ.scopes.frames.size := by
  induction h with
  | start limit failure =>
    simp [Scopes.rootId, Session.start, Native.builtins, Session.register,
      Scopes.root]
  | extend h hi ih => exact Nat.lt_of_lt_of_le ih (by simp)
  | define h i x v ih => simpa using ih
  | closure h hc ih => exact ih
  | heap h heap ih => exact ih
  | depth h n ih => exact ih

theorem outer_lt_size (h : σ.Reachable) :
    ∀ i, ∀ j ∈ σ.scopes.outer i, j < σ.scopes.frames.size := by
  induction h with
  | start limit failure =>
    simp [Session.start, Native.builtins, Session.register]
  | @extend σ i h hi ih =>
    -- the new scope stands in the scope that it was opened in, all others
    -- where they stood
    intro k j hj
    simp only [Scopes.size_extend, Scopes.outer_extend] at hj ⊢
    refine Nat.lt_succ_of_lt ?_
    split at hj
    · rcases List.mem_cons.mp hj with rfl | hj
      · exact hi
      · exact ih i j hj
    · exact ih k j hj
  | define h i x v ih => simpa using ih
  | closure h hc ih => exact ih
  | heap h heap ih => exact ih
  | depth h n ih => exact ih

theorem closure_scope_lt_size (h : σ.Reachable) :
    ∀ c ∈ σ.closures, c.scope < σ.scopes.frames.size := by
  induction h with
  | start limit failure =>
    simp [Session.start, Native.builtins, Session.register]
  | extend h hi ih => exact fun c hc => Nat.lt_of_lt_of_le (ih c hc) (by simp)
  | define h i x v ih => simpa using ih
  | closure h hc ih =>
    intro c hmem
    rcases Array.mem_push.mp hmem with hold | rfl
    · exact ih c hold
    · exact hc
  | heap h heap ih => exact ih
  | depth h n ih => exact ih

theorem defineAll (h : σ.Reachable) (i : ScopeId) (xs : List String)
    (vs : List Value) :
    Reachable { σ with scopes := σ.scopes.defineAll i xs vs } := by
  induction xs generalizing σ vs with
  | nil => exact h
  | cons x xs ih =>
    cases vs with
    | nil => exact ih (h.define i x .nil) []
    | cons v vs => exact ih (h.define i x v) vs

end Store.Reachable

end LuaCore
