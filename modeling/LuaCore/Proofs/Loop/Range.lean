import LuaCore.Proofs.Loop.Snapshot
import LuaCore.Proofs.Number.Sum
import Mathlib.Data.List.Basic

namespace LuaCore

open LuaCore.Action
open LuaCore.Number (counter)

def Store.entering (σ : Store) (scope : ScopeId) (x : String) (v : Value) :
    Store :=
  { σ with scopes := ⟨σ.scopes.frames.push ⟨[(x, v)], σ.scopes.chain scope⟩⟩ }

def Outcome.map {α β : Type} (f : α → β) : Outcome α → Outcome β
  | .done a σ => .done (f a) σ
  | .fail e σ => .fail e σ
  | .outOfFuel => .outOfFuel

theorem Action.bind_pure_apply {α β : Type} (m : Action α) (f : α → β)
    (σ : Store) :
    (m >>= fun a => pure (f a)) σ = (m σ).map f := by
  rw [bind_apply]
  cases m σ <;> rfl

theorem Action.openScope_single (scope : ScopeId) (x : String) (v : Value)
    (σ : Store) :
    openScope scope [x] [v] σ =
      .done σ.scopes.nextId (σ.entering scope x v) := by
  have hframes : (σ.scopes.extend scope).define σ.scopes.nextId x v =
      ⟨σ.scopes.frames.push ⟨[(x, v)], σ.scopes.chain scope⟩⟩ := by
    refine congrArg Scopes.mk (Array.ext_getElem? fun i => ?_)
    simp only [Scopes.extend, Scopes.nextId, Array.getElem?_modify,
      Array.getElem?_push]
    by_cases heq : i = σ.scopes.frames.size
    · simp [heq, Bindings.put]
    · simp [heq, Ne.symm heq]
  exact congrArg (fun scopes =>
      Outcome.done σ.scopes.nextId { σ with scopes := scopes }) hframes

namespace Machine

/-- The expressions are evaluated one after the other, and none after the first
one that fails or is not a number. -/
inductive ReadsNumbers (m : Machine) (scope : ScopeId) :
    List (RangePart × Expr) → Store → Outcome (List Float) → Prop
  | none (σ : Store) : ReadsNumbers m scope [] σ (.done [] σ)
  | number {part : RangePart} {e : Expr} {parts : List (RangePart × Expr)}
      {x : Float} {σ τ : Store} {o : Outcome (List Float)}
      (he : m.expr e scope σ = .done (.number x) τ)
      (hrest : ReadsNumbers m scope parts τ o) :
      ReadsNumbers m scope ((part, e) :: parts) σ (o.map (x :: ·))
  | other {part : RangePart} {e : Expr} {parts : List (RangePart × Expr)}
      {v : Value} {σ τ : Store} (he : m.expr e scope σ = .done v τ)
      (hv : ∀ x, v ≠ .number x) :
      ReadsNumbers m scope ((part, e) :: parts) σ (.fail (.forNonNumber part) τ)
  | failed {part : RangePart} {e : Expr} {parts : List (RangePart × Expr)}
      {error : RuntimeError} {σ τ : Store}
      (he : m.expr e scope σ = .fail error τ) :
      ReadsNumbers m scope ((part, e) :: parts) σ (.fail error τ)
  | unfinished {part : RangePart} {e : Expr} {parts : List (RangePart × Expr)}
      {σ : Store} (he : m.expr e scope σ = .outOfFuel) :
      ReadsNumbers m scope ((part, e) :: parts) σ .outOfFuel

def rangeIteration (m : Machine) (scope : ScopeId) (x : String) (body : Block)
    (value : Float) : Action Flow :=
  fun σ => m.block body σ.scopes.nextId (σ.entering scope x (.number value))

/-- The first iterations start, one after the other, with the values of the
counter, all of them below the limit, and end normally. -/
inductive Counts (m : Machine) (scope : ScopeId) (x : String) (body : Block)
    (start stop step : Float) :
    Nat → Store → Store → Prop
  | none (σ : Store) : Counts m scope x body start stop step 0 σ σ
  | next {k : Nat} {σ τ υ : Store}
      (hdone : Counts m scope x body start stop step k σ τ)
      (hlt : counter start step k < stop)
      (hrun : m.rangeIteration scope x body (counter start step k) τ =
        .done .normal υ) :
      Counts m scope x body start stop step (k + 1) σ υ

variable {m : Machine} {scope : ScopeId} {x : String} {body : Block}
    {start stop step : Float} {σ τ υ : Store}

def rangeNumbers (m : Machine) (scope : ScopeId) :
    List (RangePart × Expr) → Action (List Float)
  | [] => return []
  | (part, e) :: parts => do
    let x ← m.rangeNumber scope part e
    return x :: (← rangeNumbers m scope parts)

theorem rangeNumber_apply (m : Machine) (scope : ScopeId) (part : RangePart)
    (e : Expr) (σ : Store) :
    m.rangeNumber scope part e σ =
      match m.expr e scope σ with
      | .done (.number x) τ => .done x τ
      | .done _ τ => .fail (.forNonNumber part) τ
      | .fail error τ => .fail error τ
      | .outOfFuel => .outOfFuel := by
  rw [rangeNumber, bind_apply]
  cases m.expr e scope σ with
  | done v τ => cases v <;> rfl
  | _ => rfl

theorem rangeNumbers_reads (m : Machine) (scope : ScopeId)
    (parts : List (RangePart × Expr)) (σ : Store) :
    m.ReadsNumbers scope parts σ (m.rangeNumbers scope parts σ) := by
  induction parts generalizing σ with
  | nil => exact .none σ
  | cons p parts ih =>
    obtain ⟨part, e⟩ := p
    rw [rangeNumbers, bind_apply, rangeNumber_apply]
    cases he : m.expr e scope σ with
    | done v τ =>
      cases v with
      | number x =>
        show m.ReadsNumbers scope _ σ
          ((m.rangeNumbers scope parts >>= fun xs => pure (x :: xs)) τ)
        rw [bind_pure_apply]
        exact .number he (ih τ)
      | _ => exact .other he nofun
    | fail error τ => exact .failed he
    | outOfFuel => exact .unfinished he

theorem length_of_rangeNumbers {parts : List (RangePart × Expr)}
    {xs : List Float} (h : m.rangeNumbers scope parts σ = .done xs τ) :
    xs.length = parts.length := by
  induction parts generalizing xs σ with
  | nil =>
    cases h
    rfl
  | cons p parts ih =>
    rw [rangeNumbers, bind_apply] at h
    split at h
    · next x υ _ =>
      rw [bind_pure_apply] at h
      cases hrest : m.rangeNumbers scope parts υ with
      | done ys φ =>
        rw [hrest] at h
        cases h
        simpa using ih hrest
      | _ =>
        rw [hrest] at h
        cases h
    · cases h
    · cases h

def rangeLoop (m : Machine) (scope : ScopeId) (x : String) (body : Block)
    (stop step : Float) (rounds : Nat) (current : Float) : Action Flow :=
  loop (m.rangeTurn scope x stop step body) rounds current

theorem evalStat_forRange (m : Machine) (scope : ScopeId) (x : String)
    (e₁ e₂ e₃ : Expr) (body : Block) :
    m.evalStat (.forRange x e₁ e₂ e₃ body) scope = (do
      let numbers ←
        m.rangeNumbers scope [(.initial, e₁), (.limit, e₂), (.step, e₃)]
      match numbers with
      | [start, stop, step] => m.rangeLoop scope x body stop step m.rounds start
      | _ => outOfFuel) := by
  simp only [evalStat, rangeNumbers, bind_assoc, pure_bind, rangeLoop]

theorem rangeTurn_of_lt {current : Float} (h : current < stop) :
    m.rangeTurn scope x stop step body current σ =
      (m.rangeIteration scope x body current σ).map
        (Turn.afterBody (current + step)) := by
  rw [rangeTurn, if_pos h, bind_apply, openScope_single]
  exact bind_pure_apply _ _ _

theorem rangeTurn_of_not_lt {current : Float} (h : ¬ current < stop) :
    m.rangeTurn scope x stop step body current σ =
      .done (.ended .normal) σ := by
  rw [rangeTurn, if_neg h, pure_apply]

theorem rangeLoop_normal {current : Float} (h : current < stop)
    (hrun : m.rangeIteration scope x body current σ = .done .normal τ)
    (rounds : Nat) :
    m.rangeLoop scope x body stop step (rounds + 1) current σ =
      m.rangeLoop scope x body stop step rounds (current + step) τ := by
  simp only [rangeLoop, loop, bind_apply, rangeTurn_of_lt h, hrun, Outcome.map,
    Turn.afterBody]

theorem rangeLoop_interrupted {current : Float} (h : current < stop)
    {outcome : Outcome Flow}
    (hrun : (m.rangeIteration scope x body current σ).interruption? =
      some outcome) (rounds : Nat) :
    m.rangeLoop scope x body stop step (rounds + 1) current σ = outcome := by
  simp only [rangeLoop, loop, bind_apply, rangeTurn_of_lt h]
  cases hend : m.rangeIteration scope x body current σ with
  | done flow τ =>
    rw [hend] at hrun
    cases flow <;> cases hrun <;> rfl
  | fail e τ =>
    rw [hend] at hrun
    cases hrun
    rfl
  | outOfFuel =>
    rw [hend] at hrun
    cases hrun
    rfl

theorem rangeLoop_ended {current : Float} (h : ¬ current < stop)
    (rounds : Nat) :
    m.rangeLoop scope x body stop step (rounds + 1) current σ =
      .done .normal σ := by
  simp only [rangeLoop, loop, bind_apply, rangeTurn_of_not_lt h, pure_apply]

theorem rangeLoop_counts {k : Nat}
    (hdone : m.Counts scope x body start stop step k σ τ) (rounds : Nat) :
    let outcome :=
      m.rangeLoop scope x body stop step rounds (counter start step k) τ
    ∃ n υ, m.Counts scope x body start stop step n σ υ ∧
      (¬ counter start step n < stop ∧ outcome = .done .normal υ ∨
        counter start step n < stop ∧
          (m.rangeIteration scope x body
            (counter start step n) υ).interruption? = some outcome ∨
        n = k + rounds ∧ outcome = .outOfFuel) := by
  intro outcome
  induction rounds generalizing k τ with
  | zero => exact ⟨k, τ, hdone, .inr (.inr ⟨rfl, rfl⟩)⟩
  | succ rounds ih =>
    by_cases hlt : counter start step k < stop
    · rcases Outcome.eq_normal_or_interruption?
        (m.rangeIteration scope x body (counter start step k) τ) with
        ⟨υ, hrun⟩ | ⟨outcome, hrun⟩
      · obtain ⟨n, υ, hcounts, hends⟩ := ih (.next hdone hlt hrun)
        refine ⟨n, υ, hcounts, ?_⟩
        have hnext : outcome = m.rangeLoop scope x body stop step rounds
              (counter start step (k + 1)) _ :=
          rangeLoop_normal hlt hrun rounds
        rw [hnext, ← Nat.add_assoc, Nat.add_right_comm]
        exact hends
      · refine ⟨k, τ, hdone, .inr (.inl ⟨hlt, ?_⟩)⟩
        rw [hrun, ← rangeLoop_interrupted hlt hrun rounds]
    · exact ⟨k, τ, hdone, .inl ⟨hlt, rangeLoop_ended hlt rounds⟩⟩

/-- A range loop evaluates its three expressions once each and in this order,
in the scope around it, before it enters the body. Whatever the body is, it is
then run for the values of the counter from the first number on, in a new scope
each time, as long as the counter is below the limit and all iterations before
ended normally. -/
theorem range_counts (m : Machine) (scope : ScopeId) (x : String)
    (initial limit increment : Expr) (σ : Store) :
    ∃ numbers, m.ReadsNumbers scope
      [(.initial, initial), (.limit, limit), (.step, increment)] σ numbers ∧
      ∀ body,
        let outcome :=
          m.evalStat (.forRange x initial limit increment body) scope σ
        match numbers with
        | .done xs τ => ∃ start stop step n υ, xs = [start, stop, step] ∧
          m.Counts scope x body start stop step n τ υ ∧
          (¬ counter start step n < stop ∧ outcome = .done .normal υ ∨
            counter start step n < stop ∧
              (m.rangeIteration scope x body
                (counter start step n) υ).interruption? = some outcome ∨
            n = m.rounds ∧ outcome = .outOfFuel)
        | .fail error τ => outcome = .fail error τ
        | .outOfFuel => outcome = .outOfFuel := by
  refine ⟨_, rangeNumbers_reads m scope _ σ, fun body => ?_⟩
  rw [evalStat_forRange, bind_apply]
  cases hnumbers : m.rangeNumbers scope
    [(.initial, initial), (.limit, limit), (.step, increment)] σ with
  | done xs τ =>
    obtain ⟨start, stop, step, rfl⟩ :=
      List.length_eq_three.mp (length_of_rangeNumbers hnumbers)
    obtain ⟨n, υ, hcounts, hends⟩ := rangeLoop_counts (.none τ) m.rounds
    rw [Nat.zero_add] at hends
    exact ⟨start, stop, step, n, υ, rfl, hcounts, hends⟩
  | fail error τ => rfl
  | outOfFuel => rfl

end Machine

end LuaCore
