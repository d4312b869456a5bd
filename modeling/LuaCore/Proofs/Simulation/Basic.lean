import LuaCore.Evaluation.Statement
import LuaCore.Proofs.Table.Coherent

/-! Two runs side by side: which scope corresponds to which is told by a world,
which grows while the runs go on. -/

namespace LuaCore

structure Simulation where
  World : Type
  le : World → World → Prop
  le_refl : ∀ w, le w w
  le_trans : ∀ {w w' w''}, le w w' → le w' w'' → le w w''
  rel : World → Store → Store → Prop
  /-- The values that the runs may hold; they are the same in both. -/
  good : World → Value → Prop
  good_le : ∀ {w w' v}, le w w' → good w v → good w' v
  /-- The scopes that the same code may be run in. -/
  sees : World → ScopeId → ScopeId → Prop
  sees_le : ∀ {w w' i j}, le w w' → sees w i j → sees w' i j
  /-- The scopes in which it may bind names. -/
  owns : World → ScopeId → ScopeId → Prop
  owns_le : ∀ {w w' i j}, le w w' → owns w i j → owns w' i j
  sees_of_owns : ∀ {w i j}, owns w i j → sees w i j
  /-- Whether single statements may stand in blocks of their own in one
  of the runs. -/
  blocks : Prop

namespace Simulation

variable (S : Simulation) {α β γ δ : Type} {w w' : S.World} {σ σ' : Store}

/-- How the second run may end once the first one has ended. -/
def Ends (w : S.World) (Q : S.World → α → β → Prop) :
    Outcome α → Outcome β → Prop
  | .done a τ, .done b τ' => ∃ w', S.le w w' ∧ S.rel w' τ τ' ∧ Q w' a b
  | .fail e τ, .fail e' τ' => e' = e ∧ ∃ w', S.le w w' ∧ S.rel w' τ τ'
  | .outOfFuel, _ => True
  | _, _ => False

/-- Run in stores that correspond in `w`, the second action ends as the
first one does. -/
def Follows (w : S.World) (m : Action α) (m' : Action β)
    (Q : S.World → α → β → Prop) : Prop :=
  ∀ σ σ', S.rel w σ σ' → S.Ends w Q (m σ) (m' σ')

def SameValue (w : S.World) (v v' : Value) : Prop := v' = v ∧ S.good w v

def SameValues (w : S.World) (vs vs' : List Value) : Prop :=
  vs' = vs ∧ ∀ v ∈ vs, S.good w v

def SameFlow (w : S.World) (flow flow' : Flow) : Prop :=
  flow' = flow ∧ ∀ v, flow = .returned v → S.good w v

def SameTurn (w : S.World) (t t' : Turn α) : Prop :=
  t' = t ∧ ∀ v, t = .ended (.returned v) → S.good w v

abbrev Whatever : S.World → α → β → Prop := fun _ _ _ => True

structure GoodTable (w : S.World) (t : Table) : Prop where
  coherent : t.Coherent
  entries : ∀ e ∈ t.entries, S.good w e.1 ∧ S.good w e.2

variable {S} {m : Action α} {m' : Action β} {f : α → Action γ}
    {f' : β → Action δ} {Q Q' : S.World → α → β → Prop}
    {R : S.World → γ → δ → Prop}

theorem SameValues.le (hle : S.le w w') {vs vs' : List Value}
    (h : S.SameValues w vs vs') :
    S.SameValues w' vs vs' :=
  ⟨h.1, fun v hv => S.good_le hle (h.2 v hv)⟩

theorem GoodTable.le (hle : S.le w w') {t : Table} (h : S.GoodTable w t) :
    S.GoodTable w' t :=
  ⟨h.coherent, fun e he => ⟨S.good_le hle (h.entries e he).1,
      S.good_le hle (h.entries e he).2⟩⟩

theorem Ends.after {o : Outcome α} {o' : Outcome β} (hle : S.le w w')
    (h : S.Ends w' Q o o') :
    S.Ends w Q o o' := by
  cases o with
  | done a τ =>
    cases o' with
    | done b τ' =>
      obtain ⟨w'', hw'', hrest⟩ := h
      exact ⟨w'', S.le_trans hle hw'', hrest⟩
    | fail e' τ' => exact h.elim
    | outOfFuel => exact h.elim
  | fail e τ =>
    cases o' with
    | done b τ' => exact h.elim
    | fail e' τ' =>
      obtain ⟨heq, w'', hw'', hrel⟩ := h
      exact ⟨heq, w'', S.le_trans hle hw'', hrel⟩
    | outOfFuel => exact h.elim
  | outOfFuel => trivial

theorem Ends.store? {o : Outcome α} {o' : Outcome β} (h : S.Ends w Q o o')
    {τ : Store} (hτ : o.store? = some τ) :
    ∃ w' τ', S.le w w' ∧ o'.store? = some τ' ∧ S.rel w' τ τ' := by
  cases o with
  | done a τ =>
    cases hτ
    cases o' with
    | done b τ' =>
      obtain ⟨w', hle, hrel, _⟩ := h
      exact ⟨w', τ', hle, rfl, hrel⟩
    | fail e' τ' => exact h.elim
    | outOfFuel => exact h.elim
  | fail e τ =>
    cases hτ
    cases o' with
    | done b τ' => exact h.elim
    | fail e' τ' =>
      obtain ⟨-, w', hle, hrel⟩ := h
      exact ⟨w', τ', hle, rfl, hrel⟩
    | outOfFuel => exact h.elim
  | outOfFuel => cases hτ

theorem follows_pure {a : α} {b : β} (h : Q w a b) :
    S.Follows w (pure a) (pure b) Q :=
  fun _ _ hrel => ⟨w, S.le_refl w, hrel, h⟩

theorem follows_fail {e : RuntimeError} :
    S.Follows w (Action.fail e) (Action.fail e) Q :=
  fun _ _ hrel => ⟨rfl, w, S.le_refl w, hrel⟩

theorem follows_outOfFuel : S.Follows w Action.outOfFuel m' Q :=
  fun _ _ _ => trivial

theorem follows_bind (hm : S.Follows w m m' Q)
    (hf : ∀ w' a b, S.le w w' → Q w' a b → S.Follows w' (f a) (f' b) R) :
    S.Follows w (m >>= f) (m' >>= f') R := by
  intro σ σ' hrel
  have hends := hm σ σ' hrel
  rw [Action.bind_apply, Action.bind_apply]
  cases hrun : m σ with
  | done a τ =>
    cases hrun' : m' σ' with
    | done b τ' =>
      rw [hrun, hrun'] at hends
      obtain ⟨w', hle, hrel', hQ⟩ := hends
      exact (hf w' a b hle hQ τ τ' hrel').after hle
    | fail e' τ' =>
      rw [hrun, hrun'] at hends
      exact hends.elim
    | outOfFuel =>
      rw [hrun, hrun'] at hends
      exact hends.elim
  | fail e τ =>
    cases hrun' : m' σ' with
    | done b τ' =>
      rw [hrun, hrun'] at hends
      exact hends.elim
    | fail e' τ' =>
      rw [hrun, hrun'] at hends
      exact hends
    | outOfFuel =>
      rw [hrun, hrun'] at hends
      exact hends.elim
  | outOfFuel => trivial

theorem Follows.imp (h : S.Follows w m m' Q)
    (hQ : ∀ w' a b, S.le w w' → Q w' a b → Q' w' a b) :
    S.Follows w m m' Q' := by
  have hthen : S.Follows w (m >>= pure) (m' >>= pure) Q' :=
    follows_bind h fun w' a b hle hab => follows_pure (hQ w' a b hle hab)
  simpa using hthen

/-- A loop of the second run may take more turns than the first one has left. -/
theorem follows_loop {turn turn' : α → Action (Turn α)}
    (h : ∀ w' a, S.le w w' → S.Follows w' (turn a) (turn' a) S.SameTurn)
    {rounds rounds' : Nat} (hle : rounds ≤ rounds') (a : α) :
    S.Follows w (Action.loop turn rounds a)
      (Action.loop turn' rounds' a) S.SameFlow := by
  induction rounds generalizing w rounds' a with
  | zero => exact follows_outOfFuel
  | succ rounds ih =>
    obtain ⟨more, rfl⟩ := Nat.exists_eq_add_of_le' hle
    refine follows_bind (h w a (S.le_refl w)) ?_
    rintro w' t t' hw' ⟨rfl, hended⟩
    cases t' with
    | again a =>
      exact ih (fun w'' b hw'' => h w'' b (S.le_trans hw' hw''))
        (Nat.le_add_left _ _) a
    | ended flow =>
      exact follows_pure ⟨rfl, fun v hv => hended v (congrArg Turn.ended hv)⟩

end Simulation

end LuaCore
