import LuaCore.Proofs.Evaluation.Reachable

namespace LuaCore

open LuaCore.Action LuaCore.Contract LuaCore.Policy

/-- Names are bound where they may be, and in scopes from the number `first` on,
which are opened later. -/
def locality (first : ScopeId) (may : ScopeId → String → Prop) : Policy where
  inv σ := σ.Reachable ∧ first ≤ σ.scopes.frames.size
  step σ τ := σ.scopes.Widens τ.scopes fun i x => first ≤ i ∨ may i x
  error _ := True
  refl σ := Scopes.Widens.refl σ.scopes
  trans := Scopes.Widens.trans
  valid i σ := i < σ.scopes.frames.size
  own i x := first ≤ i ∨ may i x
  stops _ := False
  valid_step hi hstep := Nat.lt_of_lt_of_le hi hstep.size_le

namespace locality

variable {first : ScopeId} {may : ScopeId → String → Prop} {host : Host}
    {limit fuel : Nat} {σ τ : Store} {scope : ScopeId}

theorem admits (wellFormed : Bool) : (locality first may).Admits wellFormed :=
  Or.inr ⟨trivial, trivial⟩

theorem upheld (host : Host) (limit : Nat) :
    (locality first may).Upheld host limit where
  ordinary _ := trivial
  overflow := trivial
  openScope {i σ} names values hi := by
    have hextend := Scopes.widens_extend σ.scopes i
    have hdefine :=
      Scopes.widens_defineAll (σ.scopes.extend i) σ.scopes.nextId names values
    have hlt : σ.scopes.nextId < ((σ.scopes.extend i).defineAll σ.scopes.nextId
          names values).frames.size :=
      Nat.lt_of_lt_of_le (by simp [Scopes.nextId]) hdefine.size_le
    refine ⟨fun hinv => ⟨⟨(hinv.1.extend hi).defineAll _ names values, ?_⟩, ?_⟩,
      fun hinv => ⟨hlt, fun _ => Or.inl hinv.2⟩⟩
    · exact Nat.le_of_lt (Nat.lt_of_le_of_lt hinv.2 hlt)
    · refine (hextend.imp fun _ _ _ => False.elim).trans (hdefine.imp ?_)
      rintro j y - ⟨rfl, -⟩
      exact Or.inl hinv.2
  define {i σ} names values _ hown hinv := by
    have hdefine := Scopes.widens_defineAll σ.scopes i names values
    refine ⟨⟨hinv.1.defineAll i names values,
        Nat.le_trans hinv.2 hdefine.size_le⟩, hdefine.imp ?_⟩
    rintro j y - ⟨rfl, hy⟩
    exact hown y hy
  assign {i x owner σ} v howner hinv := by
    have hrebind := Scopes.widens_rebind (Scopes.here?_of_owner? howner) v
    refine ⟨⟨hinv.1.define owner x v, Nat.le_trans hinv.2 hrebind.size_le⟩, ?_⟩
    exact hrebind.imp fun _ _ _ => False.elim
  makeClosure hv _ hinv := ⟨⟨hinv.1.closure hv, hinv.2⟩, .refl _⟩
  closure hinv hc := ⟨hinv.1.closure_scope_lt_size _ hc, admits _⟩
  heap _ hinv := ⟨⟨hinv.1.heap _, hinv.2⟩, .refl _⟩
  native _ _ _ hinv := ⟨⟨hinv.1.heap _, hinv.2⟩, .refl _⟩
  nativeError _ := trivial

theorem nests : (locality first may).Nests where
  nestsIn _ := {
    enter := fun hinv => ⟨hinv.1.depth _, hinv.2⟩
    leave := fun _ hinv hstep => ⟨⟨hinv.1.depth _, hinv.2⟩, hstep⟩
    step_leave := id
    error := id
    stops := id }
  valid_enter := id

theorem parts :
    (locality first may).Parts (.ofFuel host limit fuel)
      (.ofFuel host limit fuel) (.ofFuel host limit fuel) :=
  parts_ofFuel (upheld host limit) nests (Nat.le_refl _) (Or.inl rfl) fuel

theorem widens {α : Type} {m : Action α} (hσ : σ.Reachable)
    (h : (locality σ.scopes.frames.size may).Agree m m σ)
    (hτ : (m σ).store? = some τ) :
    τ.Reachable ∧ σ.scopes.Widens τ.scopes may := by
  obtain ⟨hinv, hstep⟩ := (h ⟨hσ, Nat.le_refl _⟩).1.store hτ
  exact ⟨hinv.1,
    hstep.imp fun i _ hi hor => hor.resolve_left (Nat.not_le.mpr hi)⟩

theorem evalExpr (hσ : σ.Reachable) (hscope : scope < σ.scopes.frames.size)
    {e : Expr}
    (hτ : ((Machine.ofFuel host limit fuel).evalExpr e scope σ).store? =
      some τ) :
    τ.Reachable ∧ σ.scopes.Widens τ.scopes fun _ _ => False :=
  widens hσ (parts.evalExpr (upheld host limit) parts.call (admits _) hscope) hτ

theorem call (hσ : σ.Reachable) {f : Value} {args : List Value}
    (hτ : ((Machine.ofFuel host limit fuel).call f args σ).store? = some τ) :
    τ.Reachable ∧ σ.scopes.Widens τ.scopes fun _ _ => False :=
  widens hσ (parts.call f args) hτ

theorem evalStat (hσ : σ.Reachable) (hscope : scope < σ.scopes.frames.size)
    {s : Stat}
    (hτ : ((Machine.ofFuel host limit fuel).evalStat s scope σ).store? =
      some τ) :
    τ.Reachable ∧
      σ.scopes.Widens τ.scopes fun i x => i = scope ∧ x ∈ s.declares :=
  widens hσ (parts.evalStat_self (upheld host limit) (admits _) hscope
      fun _ hx => Or.inr ⟨rfl, hx⟩) hτ

theorem evalBlock (hσ : σ.Reachable) (hscope : scope < σ.scopes.frames.size)
    {body : Block}
    (hτ : ((Machine.ofFuel host limit fuel).evalBlock body scope σ).store? =
      some τ) :
    τ.Reachable ∧ σ.scopes.Widens τ.scopes fun i x => i = scope ∧
        x ∈ body.flatMap Stat.declares :=
  widens hσ (parts.evalBlock_self (upheld host limit) (admits _) hscope
      fun _ hx => Or.inr ⟨rfl, hx⟩) hτ

end locality

theorem Session.Reachable.store {s : Session} (hs : s.Reachable) :
    s.store.Reachable := by
  induction hs with
  | start limit failure => exact .start limit failure
  | register _ name f ih => exact ih.define _ _ _
  | addIterator _ it ih => exact ih.heap _
  | takeOutput _ ih => exact ih.heap _
  | @interpret s _ fuel c ih =>
    -- names may be bound in all scopes from the number 0 on
    have hupheld : (locality 0 fun _ _ => False).Upheld s.host s.limit :=
      locality.upheld _ _
    have hends := Policy.interpret hupheld locality.nests fuel c
      (locality.admits _) ih.rootId_lt_size (fun _ _ => Or.inl (Nat.zero_le _))
      ⟨ih, Nat.zero_le _⟩
    exact hends.1.1

namespace Machine

/-- However they end, expressions, calls and statements leave all scopes that
there are with the scopes that enclose them and with their names. Only a
statement binds new names: those that it declares, in its scope. So after
anything else the same names resolve as before. -/
theorem binds_only_declared (host : Host) (limit fuel : Nat) {σ : Store}
    (hσ : σ.Reachable) {scope : ScopeId}
    (hscope : scope < σ.scopes.frames.size) :
    let m := Machine.ofFuel host limit fuel
    (∀ e τ, (m.evalExpr e scope σ).store? = some τ →
      τ.Reachable ∧ σ.scopes.Widens τ.scopes (fun _ _ => False) ∧
        ∀ x, (τ.scopes.get? scope x).isSome = (σ.scopes.get? scope x).isSome) ∧
    (∀ f args τ, (m.call f args σ).store? = some τ →
      τ.Reachable ∧ σ.scopes.Widens τ.scopes (fun _ _ => False) ∧
        ∀ x, (τ.scopes.get? scope x).isSome = (σ.scopes.get? scope x).isSome) ∧
    (∀ s τ, (m.evalStat s scope σ).store? = some τ → τ.Reachable ∧
        σ.scopes.Widens τ.scopes (fun i x => i = scope ∧ x ∈ s.declares) ∧
        (s.declares = [] → ∀ x, (τ.scopes.get? scope x).isSome =
            (σ.scopes.get? scope x).isSome)) ∧
    ∀ body τ, (m.evalBlock body scope σ).store? = some τ →
      τ.Reachable ∧ σ.scopes.Widens τ.scopes fun i x => i = scope ∧
          x ∈ body.flatMap Stat.declares := by
  intro m
  have same : ∀ {τ : Store}, σ.scopes.Widens τ.scopes (fun _ _ => False) →
      ∀ x, (τ.scopes.get? scope x).isSome = (σ.scopes.get? scope x).isSome :=
    fun h => h.isSome_get? hscope (hσ.outer_lt_size scope)
  refine ⟨fun e τ hτ => ?_, fun f args τ hτ => ?_, fun s τ hτ => ?_,
    fun body τ hτ => ?_⟩
  · obtain ⟨hreach, hwidens⟩ := locality.evalExpr hσ hscope hτ
    exact ⟨hreach, hwidens, same hwidens⟩
  · obtain ⟨hreach, hwidens⟩ := locality.call hσ hτ
    exact ⟨hreach, hwidens, same hwidens⟩
  · obtain ⟨hreach, hwidens⟩ := locality.evalStat hσ hscope hτ
    refine ⟨hreach, hwidens, fun hnone => same (hwidens.imp ?_)⟩
    rintro i x - ⟨-, hx⟩
    simp [hnone] at hx
  · exact locality.evalBlock hσ hscope hτ

/-- A block that fails takes its local names with it. -/
theorem binds_only_declared_failed_block :
    let σ : Store := { (Session.start 200 none).store with
      scopes := (Session.start 200 none).store.scopes.extend 0 }
    let s : Stat :=
      .do [.local ["x"] [.string "v"], .expr (.call (.name "x") [])]
    σ.Reachable ∧ 1 < σ.scopes.frames.size ∧
      ∃ τ, ((Machine.ofFuel (Session.start 200 none).host 200 5).evalStat s 1
          σ).store? = some τ ∧
        (τ.scopes.get? 1 "x").isSome = false := by
  intro σ s
  have hσ : σ.Reachable := (Store.Reachable.start 200 none).extend (by decide)
  have hscope : 1 < σ.scopes.frames.size := by decide
  have hends : ((Machine.ofFuel (Session.start 200 none).host 200 5).evalStat s
        1 σ).store?.isSome = true := by
    decide
  obtain ⟨τ, hτ⟩ := Option.isSome_iff_exists.mp hends
  refine ⟨hσ, hscope, τ, hτ, ?_⟩
  have hlocal :=
    binds_only_declared (Session.start 200 none).host 200 5 hσ hscope
  rw [(hlocal.2.2.1 s τ hτ).2.2 rfl "x"]
  decide

end Machine

end LuaCore
