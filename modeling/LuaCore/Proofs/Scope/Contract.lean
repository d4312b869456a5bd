import LuaCore.Proofs.Evaluation.Contract
import LuaCore.Proofs.Scope.Binding
import LuaCore.Proofs.Scope.WellScoped
import LuaCore.Proofs.Value.Operation

/-! The invariant is on all closures: the names that the body of a closure uses
resolve from the scope that it was made in. -/

namespace LuaCore

open LuaCore.Action LuaCore.Contract

/-- What the body of a closure uses is a parameter or resolves from the scope of
the closure. -/
def Closure.ScopedIn (c : Closure) (s : Scopes) : Prop :=
  ∃ names, (∀ x ∈ names, s.Binds c.scope x) ∧
    statsScopedIn (c.params ++ names) c.body = true

theorem Closure.ScopedIn.mono {c : Closure} {s s' : Scopes} (h : c.ScopedIn s)
    (hg : s.Grows s') :
    c.ScopedIn s' := by
  obtain ⟨names, hnames, hbody⟩ := h
  exact ⟨names, fun x hx => hg.binds (hnames x hx), hbody⟩

/-- Closures stay scoped, names keep resolving, and no name is ever
found unbound. -/
def scoping : Contract where
  inv σ := ∀ c ∈ σ.closures, c.ScopedIn σ.scopes
  step σ τ := σ.scopes.Grows τ.scopes
  error e := ∀ x, e ≠ .undefinedVariable x
  refl σ := Scopes.Grows.refl σ.scopes
  trans := Scopes.Grows.trans

theorem scoping_error_of_operands {e : RuntimeError}
    (h : e.isAboutOperands = true) :
    scoping.error e := by
  rintro x rfl
  cases h

namespace Action

variable {σ : Store} {scope : ScopeId} {x : String} {names : List String}
    {v : Value}

theorem lookup_scoped (h : σ.scopes.Binds scope x) :
    scoping.Meets (lookup scope x) σ fun _ _ => True := by
  intro hinv
  obtain ⟨v, hv⟩ := h.get?
  simp only [lookup, hv]
  exact ⟨hinv, scoping.refl σ, trivial⟩

theorem assign_scoped (h : σ.scopes.Binds scope x) :
    scoping.Meets (assign scope x v) σ fun _ _ => True := by
  intro hinv
  obtain ⟨owner, howner⟩ := h.owner?
  have hgrows := Scopes.grows_define σ.scopes owner x v
  simp only [assign, howner]
  exact ⟨fun c hc => (hinv c hc).mono hgrows, hgrows, trivial⟩

theorem openScope_scoped (h : ∀ x ∈ names, σ.scopes.Binds scope x)
    (xs : List String) (vs : List Value) :
    scoping.Meets (openScope scope xs vs) σ fun inner τ =>
      τ.scopes.Knows inner (xs ++ names) := by
  intro hinv
  have hgrows : σ.scopes.Grows
      ((σ.scopes.extend scope).defineAll σ.scopes.nextId xs vs) :=
    (Scopes.grows_extend _ _).trans (Scopes.grows_defineAll _ _ _ _)
  exact ⟨fun c hc => (hinv c hc).mono hgrows, hgrows,
    Scopes.knows_extend_defineAll h xs vs⟩

theorem define_scoped (hlt : scope < σ.scopes.frames.size) (xs : List String)
    (vs : List Value) :
    scoping.Meets (define scope xs vs) σ fun _ τ =>
      τ.scopes.Knows scope xs := by
  intro hinv
  have hgrows := Scopes.grows_defineAll σ.scopes scope xs vs
  exact ⟨fun c hc => (hinv c hc).mono hgrows, hgrows,
    Scopes.knows_defineAll hlt xs vs⟩

theorem makeClosure_scoped {name : String} {c : Closure}
    (h : c.ScopedIn σ.scopes) :
    scoping.Meets (makeClosure name c) σ fun _ _ => True := by
  intro hinv
  refine ⟨fun c' hc' => ?_, scoping.refl σ, trivial⟩
  rcases Array.mem_push.mp hc' with hc' | rfl
  · exact hinv c' hc'
  · exact h

theorem closure?_scoped (id : Nat) :
    scoping.Meets (closure? id) σ fun c? τ => ∀ c, c? = some c →
      c.ScopedIn τ.scopes :=
  fun hinv =>
    ⟨hinv, scoping.refl σ, fun c hc => hinv c (Array.mem_of_getElem? hc)⟩

theorem depth_scoped : scoping.Meets depth σ fun _ _ => True :=
  fun hinv => ⟨hinv, scoping.refl σ, trivial⟩

theorem makeTable_scoped (t : Table) :
    scoping.Meets (makeTable t) σ fun _ _ => True :=
  fun hinv => ⟨hinv, scoping.refl σ, trivial⟩

theorem index_scoped (object key : Value) :
    scoping.Meets (index object key) σ fun _ _ => True := by
  intro hinv
  unfold index
  split
  · exact ⟨hinv, scoping.refl σ, trivial⟩
  · exact ⟨hinv, scoping.refl σ, nofun⟩

theorem setIndex_scoped (object key value : Value) :
    scoping.Meets (setIndex object key value) σ fun _ _ => True := by
  intro hinv
  obtain ⟨scopes, closures, heap, depth⟩ := σ
  simp only [setIndex]
  split
  · split
    · exact ⟨hinv, scoping.refl _, trivial⟩
    · exact ⟨hinv, scoping.refl _, nofun⟩
  · exact ⟨hinv, scoping.refl _, nofun⟩

theorem advance_scoped (id : Nat) :
    scoping.Meets (advance id) σ fun _ _ => True :=
  fun hinv => ⟨hinv, scoping.refl σ, trivial⟩

theorem native_scoped {f : Native}
    (h : ∀ args heap x, (f args heap).1 ≠ .error (.undefinedVariable x))
    (args : List Value) :
    scoping.Meets (native f args) σ fun _ _ => True := by
  intro hinv
  obtain ⟨scopes, closures, heap, depth⟩ := σ
  have h := h args heap
  simp only [native]
  split
  · exact ⟨hinv, scoping.refl _, trivial⟩
  · next e _ heq =>
    refine ⟨hinv, scoping.refl _, ?_⟩
    rintro x rfl
    exact h x (by rw [heq])

theorem nested_scoped {α : Type} {m : Action α}
    (h : ∀ σ' : Store, σ'.scopes = σ.scopes →
      scoping.Meets m σ' fun _ _ => True) :
    scoping.Meets (nested m) σ fun _ _ => True := by
  intro hinv
  obtain ⟨scopes, closures, heap, depth⟩ := σ
  have h := h ⟨scopes, closures, heap, depth + 1⟩ rfl hinv
  simp only [nested]
  cases hrun : m ⟨scopes, closures, heap, depth + 1⟩ with
  | done a τ =>
    rw [hrun] at h
    exact h
  | fail e τ =>
    rw [hrun] at h
    exact h
  | outOfFuel => trivial

end Action

end LuaCore
