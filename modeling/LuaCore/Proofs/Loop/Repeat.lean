import LuaCore.Proofs.Evaluation.Ending
import LuaCore.Proofs.Evaluation.Sequence
import LuaCore.Proofs.Scope.Locality
import LuaCore.Proofs.Store.Graph
import LuaCore.Script.Lowering

namespace LuaCore

open LuaCore.Action LuaCore.Machine

namespace Stat

/-- The loop that leaves itself, once its condition holds at the end of its
body. -/
def untilBreak (body : Block) (test : Expr) : Stat :=
  .while (.bool true) (body ++ [.if test [.break] [] none])

def lowerBreakingBody (body : Block) (test : Expr)
    (breakIf : Script.Expr → Script.Stat) :
    Lowering (List Script.Stat) :=
  lowerStats [] (do return [breakIf (← test.lower)]) body

theorem lowerStats_append_single {s : Stat}
    {last last' : Lowering (List Script.Stat)}
    (hs : ∀ declared, lowerStats declared last [s] = last')
    (declared : List String) (ss : List Stat) :
    lowerStats declared last (ss ++ [s]) = lowerStats declared last' ss := by
  induction ss generalizing declared with
  | nil => simpa [lowerStats] using hs declared
  | cons t ss ih => simp [lowerStats, ih]

theorem lower_untilBreak (body : Block) (test : Expr) (declared : List String) :
    (untilBreak body test).lower declared = (do
      return .plain declared (.while (.bool true) (← lowerBreakingBody body test
            fun t => .if t [.break] [] none))) := by
  have hlast :
      ∀ declared, lowerStats declared (pure []) [.if test [.break] [] none] =
        (do return [.if (← test.lower) [.break] [] none]) := by
    intro declared
    simp [lowerStats, Stat.lower, lowerClauses, LoweredStat.followedBy,
      LoweredStat.plain]
  simp [untilBreak, Stat.lower, Expr.lower, lowerBreakingBody,
    lowerStats_append_single hlast]

end Stat

namespace Machine

def testAfter (m : Machine) (test : Expr) (inner : ScopeId) :
    Flow → Action (Option (Turn Unit))
  | .normal =>
    do
      if (← m.expr test inner).truthy then return none
      else return some (.again ())
  | flow => return some (.afterBody () flow)

def bodyThenTest (m : Machine) (body : Block) (test : Expr) (inner : ScopeId) :
    Action (Option (Turn Unit)) := do
  m.testAfter test inner (← m.block body inner)

theorem repeatTurn_eq (m : Machine) (scope : ScopeId) (body : Block)
    (test : Expr) :
    m.repeatTurn scope body test = (do
      let inner ← openScope scope [] []
      return (← m.bodyThenTest body test inner).getD (.ended .normal)) := by
  simp only [repeatTurn, bodyThenTest, bind_assoc]
  refine bind_congr fun inner => bind_congr fun flow => ?_
  cases flow with
  | normal =>
    simp only [testAfter, bind_assoc]
    refine bind_congr fun v => ?_
    split <;> rfl
  | broke => rfl
  | returned v => rfl

def breakIfMet (inner : ScopeId) : Option (Turn Unit) → Action (Turn Unit)
  | none => do
    let _ ← openScope inner [] []
    return .ended .normal
  | some t => return t

def breakIf (m : Machine) (test : Expr) (scope : ScopeId) : Action Flow := do
  if (← m.expr test scope).truthy then
    let _ ← openScope scope [] []
    return .broke
  else return .normal

def thenBreakIf (m : Machine) (test : Expr) (scope : ScopeId) :
    Flow → Action Flow
  | .normal => m.breakIf test scope
  | flow => return flow

theorem bodyThenTest_breakIfMet (m : Machine) (body : Block) (test : Expr)
    (inner : ScopeId) :
    m.bodyThenTest body test inner >>= breakIfMet inner = (do
        return .afterBody ()
          (← m.thenBreakIf test inner (← m.block body inner))) := by
  simp only [bodyThenTest, bind_assoc]
  refine bind_congr fun flow => ?_
  cases flow with
  | normal =>
    simp only [testAfter, thenBreakIf, breakIf, bind_assoc]
    refine bind_congr fun v => ?_
    split <;> rfl
  | broke => rfl
  | returned v => rfl

theorem evalStat_if (m : Machine) (test : Expr) (body : Block)
    (scope : ScopeId) :
    m.evalStat (.if test body [] none) scope = (do
      if (← m.expr test scope).truthy then m.blockIn scope body
      else return .normal) := by
  simp only [evalStat, branch?, bind_assoc]
  refine bind_congr fun v => ?_
  split <;> rfl

end Machine

section

variable {host : Host} {limit : Nat} {scope inner : ScopeId} {body : Block}
    {test : Expr}

theorem settles_testAfter (flow : Flow) :
    Settles host limit fun m => m.testAfter test inner flow := by
  cases flow with
  | normal => exact (settles_expr test inner).bind fun _ => settles_const _
  | broke => exact settles_const _
  | returned v => exact settles_const _

theorem settles_bodyThenTest :
    Settles host limit fun m => m.bodyThenTest body test inner :=
  (settles_block body inner).bind settles_testAfter

theorem settles_repeatTurn :
    Settles host limit fun m => m.repeatTurn scope body test := by
  simp only [repeatTurn_eq]
  exact (settles_const _).bind fun inner => settles_bodyThenTest.bind fun _ =>
    settles_const _

theorem settles_blockIn : Settles host limit fun m => m.blockIn scope body :=
  (settles_const _).bind fun inner => settles_block body inner

theorem settles_breakIf : Settles host limit fun m => m.breakIf test scope :=
  (settles_expr test scope).bind fun v => by split <;> exact settles_const _

theorem sameEnds_breakIf :
    SameEnds host limit (fun m => m.evalBlock [.if test [.break] [] none] scope)
      fun m => m.breakIf test scope := by
  have hbreak :
      SameEnds host limit (fun m => m.blockIn scope [.break]) fun _ => do
      let _ ← openScope scope [] []
      return .broke :=
    SameEnds.bind (.refl _) (fun inner => sameEnds_block [.break] inner)
      (settles_const _) (settles_const _) (fun inner => settles_block _ inner)
      fun _ => settles_const _
  simp only [Simulation.evalBlock_single, evalStat_if]
  refine SameEnds.bind (.refl _) (fun v => ?_) (settles_expr test scope)
    (settles_expr test scope) (fun v => ?_) fun v => ?_
  · split
    · exact hbreak
    · exact .refl _
  · split
    · exact settles_blockIn
    · exact settles_const _
  · split <;> exact settles_const _

theorem settles_thenBreakIf (flow : Flow) :
    Settles host limit fun m => m.thenBreakIf test scope flow := by
  cases flow with
  | normal => exact settles_breakIf
  | broke => exact settles_const _
  | returned v => exact settles_const _

theorem sameEnds_block_thenBreakIf :
    SameEnds host limit (fun m => m.block (body ++ [.if test [.break] [] none])
        inner) fun m => m.block body inner >>= m.thenBreakIf test inner := by
  refine (sameEnds_block _ inner).trans ?_
  simp only [Machine.evalBlock_append]
  have hbody : SameEnds host limit (fun m => m.evalBlock body inner) fun m =>
      m.block body inner :=
    fun σ o => (sameEnds_block body inner σ o).symm
  refine hbody.bind (fun flow => ?_) (settles_evalBlock body inner)
    (settles_block body inner) (fun flow => ?_) settles_thenBreakIf
  · cases flow with
    | normal => exact sameEnds_breakIf
    | broke => exact .refl _
    | returned v => exact .refl _
  · cases flow with
    | normal => exact settles_evalBlock _ inner
    | broke => exact settles_const _
    | returned v => exact settles_const _

theorem settles_whileTurn :
    Settles host limit fun m => m.whileTurn scope test body :=
  (settles_expr test scope).bind fun v => by
    split
    · exact settles_blockIn.bind fun _ => settles_const _
    · exact settles_const _

/-- A turn of the `while` loop is one of the `repeat` loop, except for the scope
around the `break`. -/
theorem sameEnds_whileTurn :
    SameEnds host limit (fun m => m.whileTurn scope (.bool true)
        (body ++ [.if test [.break] [] none])) fun m =>
      openScope scope [] [] >>=
        fun inner => m.bodyThenTest body test inner >>= breakIfMet inner := by
  have hsettles : ∀ v : Value, Settles host limit fun m => do
      if v.truthy then
        return Turn.afterBody ()
          (← m.blockIn scope (body ++ [.if test [.break] [] none]))
      else return .ended .normal := by
    intro v
    split
    · exact settles_blockIn.bind fun _ => settles_const _
    · exact settles_const _
  have htrue : SameEnds host limit (fun m => m.whileTurn scope (.bool true)
        (body ++ [.if test [.break] [] none])) fun m => do
      return .afterBody ()
        (← m.blockIn scope (body ++ [.if test [.break] [] none])) :=
    SameEnds.bind (sameEnds_expr (.bool true) scope) (fun _ => .refl _)
      (settles_expr _ scope) (settles_const _) hsettles hsettles
  refine htrue.trans ?_
  simp only [blockIn, bind_assoc, bodyThenTest_breakIfMet]
  refine SameEnds.bind (.refl _) (fun inner => ?_) (settles_const _)
    (settles_const _) (fun inner => ?_) fun inner => ?_
  · simp only [← bind_assoc]
    exact sameEnds_block_thenBreakIf.bind (fun _ => .refl _)
      (settles_block _ inner)
      ((settles_block body inner).bind settles_thenBreakIf)
      (fun _ => settles_const _) fun _ => settles_const _
  · exact (settles_block _ inner).bind fun _ => settles_const _
  · exact (settles_block body inner).bind fun flow =>
      (settles_thenBreakIf flow).bind fun _ => settles_const _

end

/-- A store with one more scope, which stands in a scope that there is and to
which nothing leads. -/
inductive Store.HasExtraScope (σ : Store) : Store → Prop
  | extend {i : ScopeId} (hi : i < σ.scopes.frames.size)
      (hfree : ∀ o, ¬ ({ σ with scopes := σ.scopes.extend i } : Store).Points o
        (.scope σ.scopes.nextId)) :
      HasExtraScope σ { σ with scopes := σ.scopes.extend i }

/-- The loops end alike: in one and the same store, or normally where one of
them opened one scope more. -/
inductive Outcome.SameButScope : Outcome Flow → Outcome Flow → Prop
  | same (o : Outcome Flow) : SameButScope o o
  | extra {τ τ' : Store} (h : τ.HasExtraScope τ') :
      SameButScope (.done .normal τ) (.done .normal τ')

theorem Value.object?_ne_scope (v : Value) (i : ScopeId) :
    v.object? ≠ some (.scope i) := by
  unfold object?
  split <;> nofun

theorem Heap.not_points_scope {h : Heap} {o : Object} {i : ScopeId} :
    ¬ h.Points o (.scope i) := by
  rintro (⟨-, hn⟩ | ⟨-, hn⟩ | ⟨-, hn⟩)
  · exact Value.object?_ne_scope _ i hn
  · exact Value.object?_ne_scope _ i hn
  · cases hn with
    | row _ _ hn => exact Value.object?_ne_scope _ i hn

namespace Store

variable {σ : Store}

/-- Nothing leads to a scope that was opened just now, for all scopes in use
were opened before. -/
theorem Reachable.hasExtraScope (hσ : σ.Reachable) {i : ScopeId}
    (hi : i < σ.scopes.frames.size) :
    σ.HasExtraScope { σ with scopes := σ.scopes.extend i } := by
  refine .extend hi fun o hpoints => ?_
  generalize hid : σ.scopes.nextId = id at hpoints
  cases hpoints with
  | @outer k _ hj =>
    subst hid
    simp only [Scopes.outer_extend] at hj
    split at hj
    · rcases List.mem_cons.mp hj with heq | hj
      · exact Nat.ne_of_lt hi heq.symm
      · exact Nat.lt_irrefl _ (hσ.outer_lt_size i _ hj)
    · exact Nat.lt_irrefl _ (hσ.outer_lt_size k _ hj)
  | «variable» _ hn => exact Value.object?_ne_scope _ id hn
  | captured hc =>
    exact Nat.lt_irrefl
      _ (hid ▸ hσ.closure_scope_lt_size _ (Array.mem_of_getElem? hc))
  | heap hpoints => exact Heap.not_points_scope hpoints

end Store

section

variable {host : Host} {limit : Nat} {σ τ : Store} {scope inner : ScopeId}
    {body : Block} {test : Expr}

theorem Machine.Ends.block_reachable {o : Outcome Flow}
    (h : Ends host limit (fun m => m.block body inner) σ o) (hσ : σ.Reachable)
    (hinner : inner < σ.scopes.frames.size) (hτ : o.store? = some τ) :
    τ.Reachable ∧ σ.scopes.frames.size ≤ τ.scopes.frames.size := by
  obtain ⟨-, n, rfl⟩ := (sameEnds_block body inner σ o).mp h
  have hlocal := locality.evalBlock hσ hinner hτ
  exact ⟨hlocal.1, hlocal.2.size_le⟩

theorem Machine.Ends.expr_reachable {o : Outcome Value}
    (h : Ends host limit (fun m => m.expr test inner) σ o) (hσ : σ.Reachable)
    (hinner : inner < σ.scopes.frames.size) (hτ : o.store? = some τ) :
    τ.Reachable ∧ σ.scopes.frames.size ≤ τ.scopes.frames.size := by
  obtain ⟨-, n, rfl⟩ := (sameEnds_expr test inner σ o).mp h
  have hlocal := locality.evalExpr hσ hinner hτ
  exact ⟨hlocal.1, hlocal.2.size_le⟩

theorem bodyThenTest_reachable {c : Option (Turn Unit)}
    (h : Ends host limit (fun m => m.bodyThenTest body test inner) σ
      (.done c τ)) (hσ : σ.Reachable) (hinner : inner < σ.scopes.frames.size) :
    τ.Reachable ∧ σ.scopes.frames.size ≤ τ.scopes.frames.size := by
  rcases (ends_bind_iff (settles_block body inner) settles_testAfter).mp h with
    ⟨flow, υ, hbody, hafter⟩ | ⟨_, _, _, heq⟩
  · obtain ⟨hυ, hle⟩ := hbody.block_reachable hσ hinner rfl
    cases flow with
    | normal =>
      rcases (ends_then_iff (settles_expr test inner)).mp hafter
        with ⟨v, φ, htest, -, hlast⟩ | ⟨_, _, _, heq⟩
      · obtain ⟨hφ, hle'⟩ :=
          htest.expr_reachable hυ (Nat.lt_of_lt_of_le hinner hle) rfl
        have hτ : τ = φ := by
          split at hlast <;> cases hlast <;> rfl
        exact hτ ▸ ⟨hφ, Nat.le_trans hle hle'⟩
      · cases heq
    | broke | returned =>
      cases ends_pure_iff.mp hafter
      exact ⟨hυ, hle⟩
  · cases heq

def Store.StartsTurn (scope : ScopeId) (σ : Store) : Prop :=
  σ.Reachable ∧ scope < σ.scopes.frames.size

theorem ends_repeatTurn_iff {t : Outcome (Turn Unit)} :
    Ends host limit (fun m => m.repeatTurn scope body test) σ t ↔
      Ends host limit (fun m => do
          return (← m.bodyThenTest body test σ.scopes.nextId).getD
            (.ended .normal)) { σ with scopes := σ.scopes.extend scope } t := by
  simp only [repeatTurn_eq]
  exact ends_bind_of_done (f := fun _ => openScope scope [] []) fun _ => rfl

theorem ends_whileTurn_iff {t : Outcome (Turn Unit)} :
    Ends host limit (fun m => m.whileTurn scope (.bool true)
        (body ++ [.if test [.break] [] none])) σ t ↔
      Ends host limit (fun m => m.bodyThenTest body test σ.scopes.nextId >>=
          breakIfMet σ.scopes.nextId)
        { σ with scopes := σ.scopes.extend scope } t :=
  (sameEnds_whileTurn σ t).trans
    (ends_bind_of_done (f := fun _ => openScope scope [] []) fun _ => rfl)

theorem exists_turns {c : Outcome (Option (Turn Unit))}
    (hσ : σ.StartsTurn scope)
    (h : Ends host limit (fun m => m.bodyThenTest body test σ.scopes.nextId)
      { σ with scopes := σ.scopes.extend scope } c) :
    ∃ t t', Ends host limit (fun m => m.repeatTurn scope body test) σ t ∧
      Ends host limit (fun m => m.whileTurn scope (.bool true)
          (body ++ [.if test [.break] [] none])) σ t' ∧
      TurnsAlike (Store.StartsTurn scope) Outcome.SameButScope t t' := by
  have hopened : ({ σ with scopes := σ.scopes.extend scope } : Store).StartsTurn
      σ.scopes.nextId :=
    ⟨hσ.1.extend hσ.2, by simp [Scopes.nextId]⟩
  cases c with
  | done c τ =>
    obtain ⟨hτ, hle⟩ := bodyThenTest_reachable h hopened.1 hopened.2
    have hinner : σ.scopes.nextId < τ.scopes.frames.size :=
      Nat.lt_of_lt_of_le hopened.2 hle
    have hrepeat : Ends host limit (fun m => m.repeatTurn scope body test) σ
        (.done (c.getD (.ended .normal)) τ) :=
      ends_repeatTurn_iff.mpr ((ends_then_iff settles_bodyThenTest).mpr
          (.inl ⟨c, τ, h, by simp, rfl⟩))
    have hwhile : ∀ {t τ'}, breakIfMet σ.scopes.nextId c τ = .done t τ' →
        Ends host limit (fun m => m.whileTurn scope (.bool true)
            (body ++ [.if test [.break] [] none])) σ (.done t τ') :=
      fun hc => ends_whileTurn_iff.mpr
        ((ends_then_iff settles_bodyThenTest).mpr (.inl ⟨c, τ, h, by simp, hc⟩))
    cases c with
    | none =>
      exact ⟨_, _, hrepeat, hwhile rfl,
        .ended (.extra (hτ.hasExtraScope hinner))⟩
    | some t =>
      refine ⟨_, _, hrepeat, hwhile rfl, ?_⟩
      cases t with
      | again => exact .again () ⟨hτ, Nat.lt_trans hσ.2 hinner⟩
      | ended flow => exact .ended (.same _)
  | fail e τ =>
    refine ⟨.fail e τ, .fail e τ, ends_repeatTurn_iff.mpr ?_,
      ends_whileTurn_iff.mpr ?_, .failed (.same _)⟩
    · exact (ends_then_iff settles_bodyThenTest).mpr (.inr ⟨e, τ, h, rfl⟩)
    · exact (ends_then_iff settles_bodyThenTest).mpr (.inr ⟨e, τ, h, rfl⟩)
  | outOfFuel => exact absurd rfl h.1

theorem Machine.LoopEnds.while_of_repeat (hσ : σ.StartsTurn scope)
    {o : Outcome Flow}
    (h : LoopEnds host limit (fun m _ => m.repeatTurn scope body test) () σ o) :
    ∃ o', LoopEnds host limit (fun m _ => m.whileTurn scope (.bool true)
        (body ++ [.if test [.break] [] none])) () σ o' ∧
      o.SameButScope o' := by
  refine h.alike (fun {_ σ t} hσ ht => ?_) hσ
  obtain ⟨c, hc⟩ := Ends.first settles_bodyThenTest (ends_repeatTurn_iff.mp ht)
  obtain ⟨t₀, t', ht₀, ht', halike⟩ := exists_turns hσ hc
  exact ⟨t', ht', ht₀.unique ht settles_repeatTurn ▸ halike⟩

theorem Machine.LoopEnds.repeat_of_while (hσ : σ.StartsTurn scope)
    {o' : Outcome Flow}
    (h : LoopEnds host limit (fun m _ => m.whileTurn scope (.bool true)
        (body ++ [.if test [.break] [] none])) () σ o') :
    ∃ o, LoopEnds host limit (fun m _ => m.repeatTurn scope body test) () σ o ∧
      o.SameButScope o' := by
  refine h.alike (R := fun o' o => Outcome.SameButScope o o')
    (fun {_ σ t'} hσ ht' => ?_) hσ
  obtain ⟨c, hc⟩ := Ends.first settles_bodyThenTest (ends_whileTurn_iff.mp ht')
  obtain ⟨t, t₀, ht, ht₀, halike⟩ := exists_turns hσ hc
  exact ⟨t, ht, (ht₀.unique ht' settles_whileTurn ▸ halike).flip⟩

theorem ends_repeat_iff {o : Outcome Flow} :
    Ends host limit (fun m => m.evalStat (.repeat body test) scope) σ o ↔
      LoopEnds host limit (fun m _ => m.repeatTurn scope body test) () σ o :=
  ends_loop_iff fun _ => settles_repeatTurn

theorem ends_untilBreak_iff {o : Outcome Flow} :
    Ends host limit (fun m => m.evalStat (.untilBreak body test) scope) σ o ↔
      LoopEnds host limit (fun m _ => m.whileTurn scope (.bool true)
          (body ++ [.if test [.break] [] none])) () σ o :=
  ends_loop_iff fun _ => settles_whileTurn

end

/-- A `repeat` loop does what the loop does that has no condition and a
conditional `break` at the end of its body: both run for ever or both end, with
the same flow or error, and in the same store except for one scope to which
nothing leads. The generator lowers them to two such loops with the same
statements before the `break`. -/
theorem Machine.repeat_as_breaking_while (host : Host) (limit : Nat) {σ : Store}
    (hσ : σ.Reachable) {scope : ScopeId} (hscope : scope < σ.scopes.frames.size)
    (body : Block) (test : Expr) :
    let run (fuel : Nat) (s : Stat) :=
      (ofFuel host limit fuel).evalStat s scope σ
    ((∃ n, run n (.repeat body test) ≠ .outOfFuel) ↔
      ∃ n, run n (.untilBreak body test) ≠ .outOfFuel) ∧
      (∀ n k, run n (.repeat body test) ≠ .outOfFuel →
        run k (.untilBreak body test) ≠ .outOfFuel →
        (run n (.repeat body test)).SameButScope
          (run k (.untilBreak body test))) ∧
      ∀ declared, (Stat.repeat body test).lower declared = (do
          return .plain declared
            (.forever (← Stat.lowerBreakingBody body test .breakIf))) ∧
          (Stat.untilBreak body test).lower declared = (do
            return .plain declared
              (.while (.bool true) (← Stat.lowerBreakingBody body test fun t =>
                  .if t [.break] [] none))) := by
  intro run
  have ends : ∀ {n s}, run n s ≠ .outOfFuel →
      Ends host limit (fun m => m.evalStat s scope) σ (run n s) :=
    fun {n _} hn => ⟨hn, n, rfl⟩
  have forth : ∀ {n}, run n (.repeat body test) ≠ .outOfFuel → ∃ o',
      Ends host limit (fun m => m.evalStat (.untilBreak body test) scope) σ o' ∧
        (run n (.repeat body test)).SameButScope o' := by
    intro n hn
    obtain ⟨o', ho', hsame⟩ :=
      (ends_repeat_iff.mp (ends hn)).while_of_repeat ⟨hσ, hscope⟩
    exact ⟨o', ends_untilBreak_iff.mpr ho', hsame⟩
  refine ⟨⟨?_, ?_⟩, fun n k hn hk => ?_,
    fun declared => ⟨rfl, Stat.lower_untilBreak body test declared⟩⟩
  · rintro ⟨n, hn⟩
    obtain ⟨_, ⟨hne, k, rfl⟩, -⟩ := forth hn
    exact ⟨k, hne⟩
  · rintro ⟨k, hk⟩
    obtain ⟨o, ho, -⟩ :=
      (ends_untilBreak_iff.mp (ends hk)).repeat_of_while ⟨hσ, hscope⟩
    obtain ⟨hne, n, rfl⟩ := ends_repeat_iff.mpr ho
    exact ⟨n, hne⟩
  · obtain ⟨o', ho', hsame⟩ := forth hn
    exact ho'.unique (ends hk) (settles_evalStat _ scope) ▸ hsame

/-- The condition is a name that the body binds; it does not hold after the
first turn, but after the second one. -/
theorem Machine.repeat_as_breaking_while_twice :
    let s := Session.start 200 none
    let σ : Store := { s.store with
        scopes := s.store.scopes.define Scopes.rootId "stop" (.bool false) }
    let body : Block := [.local ["done"] [.name "stop"],
      .expr (.assign [.name "stop"] [.bool true])]
    let run (fuel : Nat) (loop : Stat) :=
      (ofFuel s.host 200 fuel).evalStat loop Scopes.rootId σ
    σ.Reachable ∧ Scopes.rootId < σ.scopes.frames.size ∧
      run 4 (.repeat body (.name "done")) ≠ .outOfFuel ∧
      run 5 (.untilBreak body (.name "done")) ≠ .outOfFuel ∧
      (run 4 (.repeat body (.name "done"))).SameButScope
        (run 5 (.untilBreak body (.name "done"))) := by
  intro s σ body run
  have hσ : σ.Reachable := Store.Reachable.define (.start 200 none) _ _ _
  have hrepeat : (run 4 (.repeat body (.name "done"))).store?.isSome =
      true := by decide
  have hwhile : (run 5 (.untilBreak body (.name "done"))).store?.isSome =
      true := by decide
  have ends : ∀ {o : Outcome Flow}, o.store?.isSome = true →
      o ≠ .outOfFuel := by
    rintro _ h rfl
    cases h
  obtain ⟨-, hsame, -⟩ :=
    repeat_as_breaking_while s.host 200 hσ hσ.rootId_lt_size body (.name "done")
  exact ⟨hσ, hσ.rootId_lt_size, ends hrepeat, ends hwhile,
    hsame 4 5 (ends hrepeat) (ends hwhile)⟩

end LuaCore
