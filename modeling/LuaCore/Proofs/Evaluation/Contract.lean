import LuaCore.Evaluation.Statement

/-! A contract names what holds of every store, how a store may change, and
which errors may end a run. -/

namespace LuaCore

structure Contract where
  inv : Store → Prop
  step : Store → Store → Prop
  error : RuntimeError → Prop
  refl : ∀ σ, step σ σ
  trans : ∀ {σ τ υ}, step σ τ → step τ υ → step σ υ

namespace Contract

variable (C : Contract) {α β : Type} {σ τ : Store}

/-- How an action may end that started in `σ`; `Q` is what else holds of its
value and its store. -/
def Allows (σ : Store) (Q : α → Store → Prop) : Outcome α → Prop
  | .done a τ => C.inv τ ∧ C.step σ τ ∧ Q a τ
  | .fail e τ => C.inv τ ∧ C.step σ τ ∧ C.error e
  | .outOfFuel => True

def Meets (m : Action α) (σ : Store) (Q : α → Store → Prop) : Prop :=
  C.inv σ → C.Allows σ Q (m σ)

variable {C} {m : Action α} {f : α → Action β} {P Q : α → Store → Prop}
    {R : β → Store → Prop}

theorem meets_pure {a : α} (h : Q a σ) : C.Meets (pure a) σ Q :=
  fun hinv => ⟨hinv, C.refl σ, h⟩

theorem meets_fail {e : RuntimeError} (h : C.error e) :
    C.Meets (Action.fail e) σ Q :=
  fun hinv => ⟨hinv, C.refl σ, h⟩

theorem meets_outOfFuel : C.Meets Action.outOfFuel σ Q :=
  fun _ => trivial

theorem meets_ofExcept {r : Except RuntimeError α}
    (hok : ∀ a, r = .ok a → Q a σ) (herror : ∀ e, r = .error e → C.error e) :
    C.Meets (Action.ofExcept r) σ Q := by
  cases r with
  | ok a => exact meets_pure (hok a rfl)
  | error e => exact meets_fail (herror e rfl)

theorem Allows.after {o : Outcome α} (hstep : C.step σ τ) (h : C.Allows τ Q o) :
    C.Allows σ Q o := by
  cases o with
  | done a υ => exact ⟨h.1, C.trans hstep h.2.1, h.2.2⟩
  | fail e υ => exact ⟨h.1, C.trans hstep h.2.1, h.2.2⟩
  | outOfFuel => trivial

theorem meets_bind (hm : C.Meets m σ P)
    (hf : ∀ a τ, C.step σ τ → P a τ → C.Meets (f a) τ R) :
    C.Meets (m >>= f) σ R := by
  intro hinv
  have h := hm hinv
  rw [Action.bind_apply]
  cases hrun : m σ with
  | done a τ =>
    rw [hrun] at h
    obtain ⟨hτ, hstep, hP⟩ := h
    exact (hf a τ hstep hP hτ).after hstep
  | fail e τ =>
    rw [hrun] at h
    exact h
  | outOfFuel => trivial

theorem Meets.imp (h : C.Meets m σ P)
    (hPQ : ∀ a τ, C.step σ τ → P a τ → Q a τ) :
    C.Meets m σ Q := by
  intro hinv
  have h := h hinv
  cases hrun : m σ with
  | done a τ =>
    rw [hrun] at h
    exact ⟨h.1, h.2.1, hPQ a τ h.2.1 h.2.2⟩
  | fail e τ =>
    rw [hrun] at h
    exact h
  | outOfFuel => trivial

/-- A loop keeps a contract that every turn keeps, wherever the turns
before it led. -/
theorem meets_loop {turn : α → Action (Turn α)} {F : Flow → Store → Prop}
    (h : ∀ a τ, C.step σ τ → C.Meets (turn a) τ fun t υ =>
        ∀ flow, t = .ended flow → F flow υ) (rounds : Nat) (a : α) :
    C.Meets (Action.loop turn rounds a) σ F := by
  have fromHere : ∀ rounds a τ, C.step σ τ →
      C.Meets (Action.loop turn rounds a) τ F := by
    intro rounds
    induction rounds with
    | zero => exact fun _ _ _ => meets_outOfFuel
    | succ rounds ih =>
      intro a τ hτ
      refine meets_bind (h a τ hτ) fun t υ hυ hended => ?_
      cases t with
      | again a => exact ih a υ (C.trans hτ hυ)
      | ended flow => exact meets_pure (hended flow rfl)
  exact fromHere rounds a σ (C.refl σ)

end Contract

end LuaCore
