import LuaCore.Proofs.Evaluation.Reachable

/-! The depth is the number of calls under way: a machine that counts them
itself runs every program as usual. -/

namespace LuaCore

open LuaCore.Action LuaCore.Contract LuaCore.Policy

/-- Runs an action where the depth is the number of calls under way and
within the limit. -/
def Action.watch {α : Type} (limit : Nat) (alarm : RuntimeError) (calls : Nat)
    (m : Action α) : Action α :=
  fun σ => if σ.depth = calls ∧ calls ≤ limit then m σ else .fail alarm σ

/-- The machine that counts the calls under way, not looking at the depth but to
compare it with the count before each expression and each block. The body of a
function is run with one call more. -/
def Machine.watched (host : Host) (limit : Nat) (alarm : RuntimeError) :
    Nat → Nat → Machine
  | 0, _ => .ofFuel host limit 0
  | n + 1, calls =>
    let outside := watched host limit alarm n calls
    let inside := watched host limit alarm n (calls + 1)
    ⟨host, limit, n, fun e scope => watch limit alarm calls
        ((outside.calling inside).evalExpr e scope), fun body scope =>
        watch limit alarm calls (outside.evalBlockCalling inside body scope)⟩

def steady (depth : Nat → Prop) : Policy where
  inv σ := depth σ.depth
  step σ τ := τ.depth = σ.depth
  error _ := True
  refl _ := rfl
  trans h h' := h'.trans h
  valid _ _ := True
  own _ _ := True
  stops _ := False
  valid_step _ _ := trivial

namespace steady

variable {depth : Nat → Prop} {host : Host} {limit fuel calls : Nat}
    {alarm : RuntimeError} {σ τ : Store}

theorem admits (wellFormed : Bool) : (steady depth).Admits wellFormed :=
  Or.inr ⟨trivial, trivial⟩

theorem upheld (host : Host) (limit : Nat) :
    (steady depth).Upheld host limit where
  ordinary _ := trivial
  overflow := trivial
  openScope _ _ _ := ⟨fun hinv => ⟨hinv, rfl⟩,
    fun _ => ⟨trivial, fun _ => trivial⟩⟩
  define _ _ _ _ hinv := ⟨hinv, rfl⟩
  assign _ _ hinv := ⟨hinv, rfl⟩
  makeClosure _ _ hinv := ⟨hinv, rfl⟩
  closure _ _ := ⟨trivial, admits _⟩
  heap _ hinv := ⟨hinv, rfl⟩
  native _ _ _ hinv := ⟨hinv, rfl⟩
  nativeError _ := trivial

/-! Evaluation gives back the depth that it took. -/

theorem step_leave (h : (steady depth).step σ τ) :
    (steady depth).step (setDepth (σ.depth - 1) σ) (setDepth (τ.depth - 1) τ) :=
  congrArg (· - 1) h

theorem nests : (steady fun _ => True).Nests where
  nestsIn _ := {
    enter := id
    leave := fun _ _ hstep => ⟨trivial, step_leave hstep⟩
    step_leave := step_leave
    error := id
    stops := id }
  valid_enter := id

theorem parts :
    (steady fun _ => True).Parts (.ofFuel host limit fuel)
      (.ofFuel host limit fuel) (.ofFuel host limit fuel) :=
  parts_ofFuel (upheld host limit) nests (Nat.le_refl _) (Or.inl rfl) fuel

theorem depth_eq {α : Type} {m : Action α}
    (h : (steady fun _ => True).Agree m m σ) (hτ : (m σ).store? = some τ) :
    τ.depth = σ.depth :=
  ((h trivial).1.store hτ).2

/-! The depth is the number of calls under way. -/

abbrev counting (limit calls : Nat) : Policy :=
  steady fun depth => depth = calls ∧ calls ≤ limit

theorem agree_watch {α : Type} {m m' : Action α}
    (h : (counting limit calls).Agree m m' σ) :
    (counting limit calls).Agree (watch limit alarm calls m) m' σ := by
  intro hinv
  have hquiet : watch limit alarm calls m σ = m σ := if_pos hinv
  rw [hquiet]
  exact h hinv

theorem nestsIn_counting (hlt : σ.depth < limit) :
    (counting limit calls).NestsIn (counting limit (calls + 1)) σ where
  enter hinv := ⟨congrArg (· + 1) hinv.1, hinv.1 ▸ hlt⟩
  leave hinv _ hstep := by
    have hback := step_leave hstep
    exact ⟨⟨hback.trans hinv.1, hinv.2⟩, hback⟩
  step_leave := step_leave
  error := id
  stops := id

theorem parts_counting (m : Nat → Machine) (m' : Machine)
    (hhost : ∀ calls, (m calls).host = m'.host)
    (hlimit : ∀ calls, (m calls).limit = m'.limit)
    (hrounds : ∀ calls, (m calls).rounds = m'.rounds)
    (hexpr : ∀ calls, (counting m'.limit calls).ExprParts (m calls) m')
    (hblock : ∀ calls {body scope σ}, (counting m'.limit calls).Agree
      ((m calls).block body scope) (m'.block body scope) σ) (calls : Nat) :
    (counting m'.limit calls).Parts (m calls) (m (calls + 1)) m' :=
  ⟨hexpr calls, hrounds calls, fun _ _ _ => hblock calls, fun f args _ =>
    agree_call (m := (m calls).calling (m (calls + 1))) (upheld _ _)
      (hhost calls) (Nat.le_of_eq (hlimit calls)) (Or.inl (hlimit calls))
      (fun hlt _ _ _ =>
        agree_nested (nestsIn_counting hlt) (hblock (calls + 1))) f args⟩

theorem watched_parts (host : Host) (limit : Nat) (alarm : RuntimeError)
    (fuel : Nat) :
    ∀ calls, (counting limit calls).Parts (.watched host limit alarm fuel calls)
      (.watched host limit alarm fuel (calls + 1))
      (.ofFuel host limit fuel) := by
  -- the body of a function is run with one call more, so the induction is on
  -- all counts at once
  induction fuel with
  | zero =>
    exact parts_counting (.watched host limit alarm 0) (.ofFuel host limit 0)
      (fun _ => rfl) (fun _ => rfl) (fun _ => rfl)
      (fun _ => ⟨fun _ _ => follows_self meets_outOfFuel⟩) fun _ _ _ _ =>
      follows_self meets_outOfFuel
  | succ n ih =>
    refine parts_counting (.watched host limit alarm (n + 1))
      (.ofFuel host limit (n + 1)) (fun _ => rfl) (fun _ => rfl) (fun _ => rfl)
      (fun calls => ⟨fun he hv => ?_⟩) ?_
    · have hparts :=
        (ih calls).toExprParts.calling (.watched host limit alarm n (calls + 1))
      exact agree_watch
        (hparts.evalExpr (upheld host limit) (ih calls).call he hv)
    · intro calls body scope σ
      exact agree_watch ((ih calls).evalBlock (upheld host limit)
          (admits _) trivial fun _ _ => trivial)

theorem topLevel_watched (alarm : RuntimeError) (body : Block)
    (hσ : σ.depth = 0) :
    Session.topLevel (.watched host limit alarm fuel 0) body σ =
      Session.topLevel (.ofFuel host limit fuel) body σ := by
  have hagree : (counting limit 0).Agree
      (Session.topLevel (.watched host limit alarm fuel 0) body)
      (Session.topLevel (.ofFuel host limit fuel) body) σ :=
    (watched_parts host limit alarm fuel 0).topLevel (upheld host limit)
      (admits _) trivial fun _ _ => trivial
  exact (hagree ⟨hσ, Nat.zero_le _⟩).2.resolve_right
    fun ⟨_, _, _, hstops, _⟩ => hstops

end steady

namespace Machine

@[simp] theorem limit_ofFuel (host : Host) (limit fuel : Nat) :
    (Machine.ofFuel host limit fuel).limit = limit := by
  cases fuel <;> rfl

/-- A call fails for the limit without regard to its body if, and only if, the
limit is reached. -/
theorem callClosure_overflow_iff (m : Machine) (c : Closure) (args : List Value)
    (σ : Store) :
    m.limit ≤ σ.depth ↔
      ∀ block, ({ m with block := block } : Machine).callClosure c args σ =
        .fail (.stackOverflow m.limit) σ := by
  constructor
  · intro hfull block
    show (if m.limit ≤ σ.depth then _ else _ : Action Value) σ = _
    rw [if_pos hfull]
    rfl
  · intro h
    refine Nat.le_of_not_lt fun hlt => ?_
    have hfull := Nat.not_le.mpr hlt
    have hrun := h fun _ _ => pure .normal
    have hdone : ∃ v τ,
        ({ m with block := fun _ _ => pure .normal } : Machine).callClosure c
            args σ = .done v τ := by
      show ∃ v τ, (if m.limit ≤ σ.depth then _ else _ : Action Value) σ = _
      rw [if_neg hfull]
      exact ⟨_, _, rfl⟩
    obtain ⟨v, τ, hdone⟩ := hdone
    rw [hrun] at hdone
    cases hdone

end Machine

theorem Session.Reachable.depth_eq_zero {s : Session} (hs : s.Reachable) :
    s.store.depth = 0 := by
  induction hs with
  | start limit failure => rfl
  | register _ name f ih => exact ih
  | addIterator _ it ih => exact ih
  | takeOutput _ ih => exact ih
  | @interpret s _ fuel c ih =>
    have hends := Policy.interpret (steady.upheld s.host s.limit) steady.nests
      fuel c (steady.admits _) trivial (fun _ _ => trivial) trivial
    exact hends.2.1.trans ih

namespace Session

/-- Between the programs of a session no call is under way, and all evaluation
gives back the depth that it took. In a run the depth is the number of calls of
functions of the program under way, never above the limit: a machine that counts
them runs every program as usual, whatever its alarm is. A call fails for the
limit, and without regard to its body, if and only if so many are under way.
Functions of the host do not count. -/
theorem depth_counts_calls {s : Session} (hs : s.Reachable) (fuel : Nat) :
    let m := Machine.ofFuel s.host s.limit fuel
    (s.store.depth = 0 ∧ ∀ c, (s.interpret fuel c).2.store.depth = 0) ∧
    (∀ scope σ τ,
      (∀ e, (m.evalExpr e scope σ).store? = some τ → τ.depth = σ.depth) ∧
      (∀ st, (m.evalStat st scope σ).store? = some τ → τ.depth = σ.depth) ∧
      (∀ body, (m.evalBlock body scope σ).store? = some τ → τ.depth = σ.depth) ∧
      ∀ f args, (m.call f args σ).store? = some τ → τ.depth = σ.depth) ∧
    (∀ alarm body,
      topLevel (.watched s.host s.limit alarm fuel 0) body s.store =
        topLevel m body s.store) ∧
    (∀ c args σ, s.limit ≤ σ.depth ↔
      ∀ block, ({ m with block := block } : Machine).callClosure c args σ =
        .fail (.stackOverflow s.limit) σ) ∧
    ∀ id name args, m.call (.ref (.native id name)) args =
      Action.native (m.host id) args := by
  intro m
  refine ⟨⟨hs.depth_eq_zero, fun c => (hs.interpret fuel c).depth_eq_zero⟩, ?_,
    ?_, ?_, fun _ _ _ => rfl⟩
  · intro scope σ τ
    have hparts : (steady fun _ => True).Parts m m m := steady.parts
    have hupheld : (steady fun _ => True).Upheld s.host s.limit :=
      steady.upheld s.host s.limit
    refine ⟨fun e hτ => ?_, fun st hτ => ?_, fun body hτ => ?_,
      fun f args hτ => ?_⟩
    · exact steady.depth_eq
        (hparts.evalExpr hupheld hparts.call (steady.admits _) trivial) hτ
    · exact steady.depth_eq (hparts.evalStat_self hupheld
          (steady.admits _) trivial fun _ _ => trivial) hτ
    · exact steady.depth_eq (hparts.evalBlock_self hupheld
          (steady.admits _) trivial fun _ _ => trivial) hτ
    · exact steady.depth_eq (hparts.call f args) hτ
  · exact fun alarm body => steady.topLevel_watched alarm body hs.depth_eq_zero
  · intro c args σ
    have hlimit : m.limit = s.limit := Machine.limit_ofFuel s.host s.limit fuel
    rw [← hlimit]
    exact m.callClosure_overflow_iff c args σ

/-- No call is under way after a program that hit the limit. Inside two calls
its function cannot be called. -/
theorem depth_counts_calls_after_overflow :
    let f : Closure := ⟨[], [.expr (.call (.name "f") [])], 0⟩
    let c : Chunk := ⟨[.function (some (.name "f")) true [] f.body,
        .expr (.call (.name "f") [])], []⟩
    let s := ((start 2 none).interpret 9 c).2
    s.Reachable ∧
      ((start 2 none).interpret 9 c).1 = .failed (.stackOverflow 2) ∧
      s.store.depth = 0 ∧
      ∀ σ : Store, σ.depth = 2 →
        (Machine.ofFuel s.host 2 9).callClosure f [] σ =
          .fail (.stackOverflow 2) σ := by
  intro f c s
  have hs : s.Reachable := (Reachable.start 2 none).interpret 9 c
  have hcounts := depth_counts_calls hs 9
  refine ⟨hs, by rfl, hcounts.1.1, fun σ hσ => ?_⟩
  exact (hcounts.2.2.2.1 f [] σ).mp (Nat.le_of_eq hσ.symm) _

end Session

end LuaCore
