import LuaCore.Proofs.Evaluation.Contract
import LuaCore.Proofs.Tree.WellFormed

/-! What two machines that run the same code have in common: the second one
keeps a contract, and the first one ends alike unless it stops early. -/

namespace LuaCore

namespace Contract

variable {C : Contract} {α : Type} {σ τ : Store} {Q : α → Store → Prop}
    {o : Outcome α}

theorem Allows.store (h : C.Allows σ Q o) (hτ : o.store? = some τ) :
    C.inv τ ∧ C.step σ τ := by
  cases o with
  | done a υ =>
    cases hτ
    exact ⟨h.1, h.2.1⟩
  | fail e υ =>
    cases hτ
    exact ⟨h.1, h.2.1⟩
  | outOfFuel => cases hτ

def Permits (C : Contract) (σ τ : Store) : Prop :=
  C.inv σ → C.inv τ ∧ C.step σ τ

end Contract

/-- A contract, the scopes that code may run in, the names that it may bind in
them, and the errors with which the first of two runs may stop early. -/
structure Policy extends Contract where
  valid : ScopeId → Store → Prop
  own : ScopeId → String → Prop
  stops : RuntimeError → Prop
  valid_step : ∀ {i σ τ}, valid i σ → step σ τ → valid i τ

namespace Policy

variable (P : Policy) {α β : Type} {σ τ : Store}

/-- Malformed trees may be run if the errors about them are allowed. -/
def Admits (wellFormed : Bool) : Prop :=
  wellFormed = true ∨
    (P.error .methodOutsideCall ∧ P.error .invalidAssignTarget)

/-- The first run stopped in a store from which the contract leads to where the
second one ended. -/
def StopsEarly (o o' : Outcome α) : Prop :=
  ∃ e τ, o = .fail e τ ∧ P.stops e ∧ ∀ υ, o'.store? = some υ → P.step τ υ

/-- Run in `σ`, the second action keeps the contract, and the first one ends
alike or stops early. -/
def Follows (m m' : Action α) (σ : Store) (Q : α → Store → Prop) : Prop :=
  P.inv σ → P.Allows σ Q (m' σ) ∧ (m σ = m' σ ∨ P.StopsEarly (m σ) (m' σ))

abbrev Agree (m m' : Action α) (σ : Store) : Prop :=
  P.Follows m m' σ fun _ _ => True

variable {P} {m m' : Action α} {f f' : α → Action β} {Q Q' : α → Store → Prop}
    {R : β → Store → Prop}

theorem Admits.imp {a b : Bool} (h : P.Admits a) (hab : a = true → b = true) :
    P.Admits b :=
  h.imp_left hab

@[simp] theorem admits_and {a b : Bool} :
    P.Admits (a && b) ↔ P.Admits a ∧ P.Admits b := by
  simp only [Admits, Bool.and_eq_true, and_or_right]

theorem StopsEarly.leads {o o' : Outcome α} {υ : Store} (h : P.StopsEarly o o')
    (hυ : o'.store? = some υ) :
    ∃ e τ, o = .fail e τ ∧ P.stops e ∧ P.step τ υ := by
  obtain ⟨e, τ, hfail, hstops, hleads⟩ := h
  exact ⟨e, τ, hfail, hstops, hleads υ hυ⟩

theorem follows_self (h : P.Meets m σ Q) : P.Follows m m σ Q :=
  fun hinv => ⟨h hinv, Or.inl rfl⟩

theorem follows_pure {a : α} (h : Q a σ) : P.Follows (pure a) (pure a) σ Q :=
  follows_self (Contract.meets_pure h)

theorem follows_fail {e : RuntimeError} (h : P.error e) :
    P.Follows (Action.fail e) (Action.fail e) σ Q :=
  follows_self (Contract.meets_fail h)

/-- The first run may stop where the second one goes on. -/
theorem follows_stop {e : RuntimeError} (he : P.stops e)
    (h : P.Follows m m' σ Q) :
    P.Follows (Action.fail e) m' σ Q :=
  fun hinv =>
    ⟨(h hinv).1, Or.inr ⟨e, σ, rfl, he, fun _ hυ => ((h hinv).1.store hυ).2⟩⟩

theorem follows_done {a : α} (hm : m σ = .done a τ) (hP : P.Permits σ τ)
    (h : P.inv σ → Q a τ) :
    P.Follows m m σ Q := by
  refine follows_self fun hinv => ?_
  rw [hm]
  exact ⟨(hP hinv).1, (hP hinv).2, h hinv⟩

theorem follows_bind (hm : P.Follows m m' σ Q)
    (hf : ∀ a τ, P.step σ τ → Q a τ → P.Follows (f a) (f' a) τ R) :
    P.Follows (m >>= f) (m' >>= f') σ R := by
  intro hinv
  obtain ⟨hallows, hrel⟩ := hm hinv
  refine ⟨Contract.meets_bind (fun hinv => (hm hinv).1)
      (fun a τ hτ hQ hinv => (hf a τ hτ hQ hinv).1) hinv, ?_⟩
  rw [Action.bind_apply, Action.bind_apply]
  cases hrun : m' σ with
  | done a τ =>
    rw [hrun] at hallows hrel
    obtain ⟨hτ, hstep, hQ⟩ := hallows
    obtain ⟨hallows, hrest⟩ := hf a τ hstep hQ hτ
    rcases hrel with hsame | hearly
    · rw [hsame]
      exact hrest
    · -- the second run ends beyond where its first action ended
      obtain ⟨e, ρ, hfail, hstops, hρ⟩ := hearly.leads rfl
      rw [hfail]
      exact Or.inr
        ⟨e, ρ, rfl, hstops, fun υ hυ => P.trans hρ (hallows.store hυ).2⟩
  | fail e τ =>
    rw [hrun] at hrel
    rcases hrel with hsame | hearly
    · exact Or.inl (by rw [hsame])
    · obtain ⟨e', ρ, hfail, hstops, hρ⟩ := hearly
      rw [hfail]
      exact Or.inr ⟨e', ρ, rfl, hstops, hρ⟩
  | outOfFuel =>
    rw [hrun] at hrel
    rcases hrel with hsame | hearly
    · exact Or.inl (by rw [hsame])
    · obtain ⟨e', ρ, hfail, hstops, _⟩ := hearly
      rw [hfail]
      exact Or.inr ⟨e', ρ, rfl, hstops, nofun⟩

theorem agree_loop {turn turn' : α → Action (Turn α)}
    (h : ∀ a τ, P.step σ τ → P.Agree (turn a) (turn' a) τ) (rounds : Nat)
    (a : α) :
    P.Agree (Action.loop turn rounds a) (Action.loop turn' rounds a) σ := by
  have fromHere : ∀ rounds a τ, P.step σ τ →
      P.Agree (Action.loop turn rounds a) (Action.loop turn' rounds a) τ := by
    intro rounds
    induction rounds with
    | zero => exact fun _ _ _ => follows_self Contract.meets_outOfFuel
    | succ rounds ih =>
      intro a τ hτ
      refine follows_bind (h a τ hτ) fun t υ hυ _ => ?_
      cases t with
      | again a => exact ih a υ (P.trans hτ hυ)
      | ended flow => exact follows_pure trivial
  exact fromHere rounds a σ (P.refl σ)

structure NestsIn (P P' : Policy) (σ : Store) : Prop where
  enter : P.inv σ → P'.inv (Action.setDepth (σ.depth + 1) σ)
  leave : ∀ {τ}, P.inv σ → P'.inv τ →
    P'.step (Action.setDepth (σ.depth + 1) σ) τ →
    P.inv (Action.setDepth (τ.depth - 1) τ) ∧
      P.step σ (Action.setDepth (τ.depth - 1) τ)
  step_leave : ∀ {τ υ}, P'.step τ υ →
    P.step (Action.setDepth (τ.depth - 1) τ) (Action.setDepth (υ.depth - 1) υ)
  error : ∀ {e}, P'.error e → P.error e
  stops : ∀ {e}, P'.stops e → P.stops e

variable (P) in
structure Nests : Prop where
  nestsIn : ∀ σ, P.NestsIn P σ
  valid_enter : ∀ {i σ}, P.valid i σ →
    P.valid i (Action.setDepth (σ.depth + 1) σ)

theorem nested_apply (m : Action α) (σ : Store) :
    Action.nested m σ =
      match m (Action.setDepth (σ.depth + 1) σ) with
      | .done a τ => .done a (Action.setDepth (τ.depth - 1) τ)
      | .fail e τ => .fail e (Action.setDepth (τ.depth - 1) τ)
      | .outOfFuel => .outOfFuel := rfl

theorem agree_nested {P' : Policy} (hP : P.NestsIn P' σ)
    (h : P'.Agree m m' (Action.setDepth (σ.depth + 1) σ)) :
    P.Agree (Action.nested m) (Action.nested m') σ := by
  intro hinv
  obtain ⟨hallows, hrel⟩ := h (hP.enter hinv)
  simp only [nested_apply]
  constructor
  · cases hrun : m' (Action.setDepth (σ.depth + 1) σ) with
    | done a τ =>
      rw [hrun] at hallows
      have hleave := hP.leave hinv hallows.1 hallows.2.1
      exact ⟨hleave.1, hleave.2, trivial⟩
    | fail e τ =>
      rw [hrun] at hallows
      have hleave := hP.leave hinv hallows.1 hallows.2.1
      exact ⟨hleave.1, hleave.2, hP.error hallows.2.2⟩
    | outOfFuel => trivial
  · rcases hrel with hsame | ⟨e, ρ, hfail, hstops, hρ⟩
    · exact Or.inl (by rw [hsame])
    · rw [hfail]
      refine Or.inr ⟨e, _, rfl, hP.stops hstops, fun υ hυ => ?_⟩
      cases hrun : m' (Action.setDepth (σ.depth + 1) σ) with
      | done a τ =>
        rw [hrun] at hρ hυ
        cases hυ
        exact hP.step_leave (hρ τ rfl)
      | fail e τ =>
        rw [hrun] at hρ hυ
        cases hυ
        exact hP.step_leave (hρ τ rfl)
      | outOfFuel =>
        rw [hrun] at hυ
        cases hυ

end Policy

end LuaCore
