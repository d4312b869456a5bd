import LuaCore.Proofs.Evaluation.Policy
import LuaCore.Proofs.Value.Operation

namespace LuaCore

open LuaCore.Action LuaCore.Contract LuaCore.Policy

/-- The errors that any program may end with, however its tree is formed and its
calls are nested. -/
def RuntimeError.isOrdinary : RuntimeError → Bool
  | methodOutsideCall | invalidAssignTarget | stackOverflow _ => false
  | _ => true

theorem RuntimeError.isOrdinary_of_operands {e : RuntimeError}
    (h : e.isAboutOperands = true) :
    e.isOrdinary = true := by
  cases e with
  | methodOutsideCall | invalidAssignTarget | stackOverflow _ => cases h
  | _ => rfl

namespace Heap

theorem output_advance (h : Heap) (id : Nat) :
    (h.advance id).2.output = h.output := by
  unfold advance
  split
  · rfl
  · rfl
  · dsimp only
    split <;> rfl
  · rfl

end Heap

/-- What the primitive actions of a program do to the store, and the errors that
they may end with, are within a policy. -/
structure Policy.Upheld (P : Policy) (host : Host) (limit : Nat) : Prop where
  ordinary : ∀ {e : RuntimeError}, e.isOrdinary = true → P.error e
  overflow : P.error (.stackOverflow limit)
  openScope : ∀ {i σ} names values, P.valid i σ →
    let τ : Store := { σ with
        scopes := (σ.scopes.extend i).defineAll σ.scopes.nextId names values }
    P.Permits σ τ ∧
      (P.inv σ → P.valid σ.scopes.nextId τ ∧ ∀ x, P.own σ.scopes.nextId x)
  define : ∀ {i σ} names values, P.valid i σ → (∀ x ∈ names, P.own i x) →
    P.Permits σ { σ with scopes := σ.scopes.defineAll i names values }
  assign : ∀ {i x owner σ} v, σ.scopes.owner? i x = some owner →
    P.Permits σ { σ with scopes := σ.scopes.define owner x v }
  makeClosure : ∀ {c : Closure} {σ}, P.valid c.scope σ →
    P.Admits (blockWellFormed c.body) →
    P.Permits σ { σ with closures := σ.closures.push c }
  closure : ∀ {c : Closure} {σ}, P.inv σ → c ∈ σ.closures →
    P.valid c.scope σ ∧ P.Admits (blockWellFormed c.body)
  heap : ∀ {h : Heap} {σ : Store}, h.output = σ.heap.output →
    P.Permits σ { σ with heap := h }
  native : ∀ id args σ, P.Permits σ { σ with heap := (host id args σ.heap).2 }
  nativeError : ∀ {id args h e}, (host id args h).1 = .error e → P.error e

namespace Policy.Upheld

variable {P : Policy} {host : Host} {limit : Nat} {σ : Store} {scope : ScopeId}

theorem agree_fail (U : P.Upheld host limit) {α : Type} {e : RuntimeError}
    (h : e.isOrdinary = true) :
    P.Agree (fail (α := α) e) (fail e) σ :=
  follows_fail (U.ordinary h)

theorem agree_lookup (U : P.Upheld host limit) (x : String) :
    P.Agree (lookup scope x) (lookup scope x) σ := by
  refine follows_self fun hinv => ?_
  unfold lookup
  split
  · exact ⟨hinv, P.refl σ, trivial⟩
  · exact ⟨hinv, P.refl σ, U.ordinary rfl⟩

theorem agree_assign (U : P.Upheld host limit) (x : String) (v : Value) :
    P.Agree (Action.assign scope x v) (Action.assign scope x v) σ := by
  refine follows_self fun hinv => ?_
  unfold Action.assign
  cases howner : σ.scopes.owner? scope x with
  | some owner =>
    have hpermits := U.assign v howner hinv
    simp only [howner]
    exact ⟨hpermits.1, hpermits.2, trivial⟩
  | none =>
    simp only [howner]
    exact ⟨hinv, P.refl σ, U.ordinary rfl⟩

theorem follows_openScope (U : P.Upheld host limit) (hv : P.valid scope σ)
    (names : List String) (values : List Value) :
    P.Follows (Action.openScope scope names values)
      (Action.openScope scope names values) σ fun inner τ => P.valid inner τ ∧
      (∀ x, P.own inner x) ∧ τ.depth = σ.depth := by
  obtain ⟨hpermits, hinner⟩ := U.openScope names values hv
  exact follows_done rfl hpermits fun hinv =>
    ⟨(hinner hinv).1, (hinner hinv).2, rfl⟩

theorem agree_define (U : P.Upheld host limit) (hv : P.valid scope σ)
    (names : List String) (values : List Value)
    (hown : ∀ x ∈ names, P.own scope x) :
    P.Agree (Action.define scope names values)
      (Action.define scope names values) σ :=
  follows_done rfl (U.define names values hv hown) fun _ => trivial

theorem agree_makeClosure (U : P.Upheld host limit) (name : String)
    {c : Closure} (hv : P.valid c.scope σ)
    (hbody : P.Admits (blockWellFormed c.body)) :
    P.Agree (Action.makeClosure name c) (Action.makeClosure name c) σ :=
  follows_done rfl (U.makeClosure hv hbody) fun _ => trivial

theorem follows_closure? (U : P.Upheld host limit) (id : Nat) :
    P.Follows (closure? id) (closure? id) σ fun c? τ =>
      ∀ c, c? = some c →
        P.valid c.scope τ ∧ P.Admits (blockWellFormed c.body) :=
  follows_done rfl (fun hinv => ⟨hinv, P.refl σ⟩)
    fun hinv _ hc => U.closure hinv (Array.mem_of_getElem? hc)

theorem agree_makeTable (U : P.Upheld host limit) (t : Table) :
    P.Agree (makeTable t) (makeTable t) σ :=
  follows_done rfl (U.heap rfl) fun _ => trivial

theorem agree_index (U : P.Upheld host limit) (object key : Value) :
    P.Agree (index object key) (index object key) σ := by
  refine follows_self fun hinv => ?_
  unfold index
  split
  · exact ⟨hinv, P.refl σ, trivial⟩
  · exact ⟨hinv, P.refl σ, U.ordinary rfl⟩

theorem agree_setIndex (U : P.Upheld host limit) (object key value : Value) :
    P.Agree (setIndex object key value) (setIndex object key value) σ := by
  refine follows_self fun hinv => ?_
  simp only [setIndex]
  split
  · next id =>
    split
    · next k _ =>
      have hpermits :=
        U.heap (σ := σ) (h := σ.heap.putEntry id k key value) rfl hinv
      exact ⟨hpermits.1, hpermits.2, trivial⟩
    · exact ⟨hinv, P.refl σ, U.ordinary rfl⟩
  · exact ⟨hinv, P.refl σ, U.ordinary rfl⟩

theorem agree_advance (U : P.Upheld host limit) (id : Nat) :
    P.Agree (advance id) (advance id) σ :=
  follows_done rfl (U.heap (σ.heap.output_advance id)) fun _ => trivial

theorem agree_native (U : P.Upheld host limit) (id : Nat) (args : List Value) :
    P.Agree (Action.native (host id) args)
      (Action.native (host id) args) σ := by
  refine follows_self fun hinv => ?_
  have hpermits := U.native id args σ hinv
  simp only [Action.native]
  split
  · next v heap heq =>
    rw [heq] at hpermits
    exact ⟨hpermits.1, hpermits.2, trivial⟩
  · next e heap heq =>
    rw [heq] at hpermits
    exact ⟨hpermits.1, hpermits.2, U.nativeError (by rw [heq])⟩

theorem agree_ofExcept (U : P.Upheld host limit) {r : Except RuntimeError Value}
    (h : ∀ e, r = .error e → e.isAboutOperands = true) :
    P.Agree (ofExcept r) (ofExcept r) σ :=
  follows_self <| meets_ofExcept (fun _ _ => trivial) fun e he =>
    U.ordinary (RuntimeError.isOrdinary_of_operands (h e he))

end Policy.Upheld

end LuaCore
