import LuaCore.Proofs.Simulation.Fuel

/-! How runs end when there is fuel enough, with no fuel to be counted. -/

namespace LuaCore

open LuaCore.Action LuaCore.Simulation

namespace Machine

section

variable (host : Host) (limit : Nat) {α : Type}

/-- With enough fuel the run ends so. -/
def Ends (run : Machine → Action α) (σ : Store) (o : Outcome α) : Prop :=
  o ≠ .outOfFuel ∧ ∃ fuel, run (ofFuel host limit fuel) σ = o

/-- Two runs end alike, whichever of them needs more fuel. -/
def SameEnds (run run' : Machine → Action α) : Prop :=
  ∀ σ o, Ends host limit run σ o ↔ Ends host limit run' σ o

/-- More fuel than enough makes no difference to the run. -/
structure Settles (run : Machine → Action α) : Prop where
  eq : ∀ {n k : Nat} {σ : Store}, n ≤ k →
    run (ofFuel host limit n) σ ≠ .outOfFuel →
    run (ofFuel host limit k) σ = run (ofFuel host limit n) σ

inductive LoopEnds (turn : Machine → α → Action (Turn α)) :
    α → Store → Outcome Flow → Prop
  | again {a b : α} {σ τ : Store} {o : Outcome Flow}
      (hturn : Ends host limit (fun m => turn m a) σ (.done (.again b) τ))
      (hrest : LoopEnds turn b τ o) :
      LoopEnds turn a σ o
  | ended {a : α} {σ τ : Store} {flow : Flow}
      (hturn : Ends host limit (fun m => turn m a) σ (.done (.ended flow) τ)) :
      LoopEnds turn a σ (.done flow τ)
  | failed {a : α} {σ τ : Store} {e : RuntimeError}
      (hturn : Ends host limit (fun m => turn m a) σ (.fail e τ)) :
      LoopEnds turn a σ (.fail e τ)

end

variable {host : Host} {limit : Nat} {α β : Type} {σ τ : Store}

theorem sameness_parts {n k : Nat} (hle : n ≤ k) :
    sameness.Parts (ofFuel host limit n) (ofFuel host limit k) :=
  parts_ofFuel (sameness.upheld host) n k hle fun h => h.elim

theorem Settles.of_follows {run : Machine → Action α}
    (h : ∀ {n k}, n ≤ k → sameness.Follows () (run (ofFuel host limit n))
        (run (ofFuel host limit k)) fun _ a b => b = a) :
    Settles host limit run := by
  refine ⟨fun {n k σ} hle hn => ?_⟩
  have hends := h hle σ σ rfl
  cases hrun : run (ofFuel host limit n) σ with
  | outOfFuel => exact absurd hrun hn
  | done a τ =>
    cases hrun' : run (ofFuel host limit k) σ with
    | done b τ' =>
      rw [hrun, hrun'] at hends
      obtain ⟨_, _, hrel, rfl⟩ := hends
      cases hrel
      rfl
    | _ =>
      rw [hrun, hrun'] at hends
      exact hends.elim
  | fail e τ =>
    cases hrun' : run (ofFuel host limit k) σ with
    | fail e' τ' =>
      rw [hrun, hrun'] at hends
      obtain ⟨rfl, _, _, hrel⟩ := hends
      cases hrel
      rfl
    | _ =>
      rw [hrun, hrun'] at hends
      exact hends.elim

theorem settles_expr (e : Expr) (scope : ScopeId) :
    Settles host limit fun m => m.expr e scope :=
  .of_follows fun hle =>
    ((sameness_parts hle).expr (.refl e) rfl).imp fun _ _ _ _ h => h.1

theorem settles_block (body : Block) (scope : ScopeId) :
    Settles host limit fun m => m.block body scope :=
  .of_follows fun hle =>
    ((sameness_parts hle).block (.refl body) rfl).imp fun _ _ _ _ h => h.1

theorem settles_evalStat (s : Stat) (scope : ScopeId) :
    Settles host limit fun m => m.evalStat s scope :=
  .of_follows fun {n _} hle =>
    have hhost : sameness.Upheld (ofFuel host limit n).host := by
      cases n <;> exact sameness.upheld host
    ((sameness_parts hle).evalStat hhost (.refl s) rfl fun _ => rfl).imp
      fun _ _ _ _ h => h.1

theorem settles_evalBlock (body : Block) (scope : ScopeId) :
    Settles host limit fun m => m.evalBlock body scope :=
  ⟨fun hle hn => (settles_block body scope).eq (Nat.succ_le_succ hle) hn⟩

theorem settles_const (f : Action α) : Settles host limit fun _ => f :=
  ⟨fun _ _ => rfl⟩

theorem Settles.bind {f : Machine → Action α} {g : Machine → α → Action β}
    (hf : Settles host limit f) (hg : ∀ a, Settles host limit fun m => g m a) :
    Settles host limit fun m => f m >>= g m := by
  refine ⟨fun {n k σ} hle hn => ?_⟩
  show (f (ofFuel host limit k) >>= g (ofFuel host limit k)) σ =
    (f (ofFuel host limit n) >>= g (ofFuel host limit n)) σ
  change (f (ofFuel host limit n) >>= g (ofFuel host limit n)) σ ≠
    .outOfFuel at hn
  simp only [bind_apply] at hn ⊢
  cases hrun : f (ofFuel host limit n) σ with
  | done a τ =>
    rw [hrun] at hn
    rw [(hf.eq hle (hrun ▸ nofun)).trans hrun]
    exact (hg a).eq hle hn
  | fail e τ => rw [(hf.eq hle (hrun ▸ nofun)).trans hrun]
  | outOfFuel =>
    rw [hrun] at hn
    exact absurd rfl hn

theorem Ends.unique {run : Machine → Action α} {o o' : Outcome α}
    (h : Ends host limit run σ o) (h' : Ends host limit run σ o')
    (hrun : Settles host limit run) :
    o' = o := by
  obtain ⟨hne, n, hn⟩ := h
  obtain ⟨hne', k, hk⟩ := h'
  calc
    o' = run (ofFuel host limit k) σ := hk.symm
    _ = run (ofFuel host limit (max n k)) σ :=
      (hrun.eq (Nat.le_max_right n k) (hk ▸ hne')).symm
    _ = run (ofFuel host limit n) σ := hrun.eq (Nat.le_max_left n k) (hn ▸ hne)
    _ = o := hn

theorem ends_const_iff {f : Action α} {o : Outcome α} :
    Ends host limit (fun _ => f) σ o ↔ o ≠ .outOfFuel ∧ f σ = o :=
  and_congr_right fun _ => exists_const Nat

theorem ends_pure_iff {a : α} {o : Outcome α} :
    Ends host limit (fun _ => pure a) σ o ↔ o = .done a σ := by
  rw [ends_const_iff, pure_apply]
  constructor
  · rintro ⟨-, rfl⟩
    rfl
  · rintro rfl
    exact ⟨nofun, rfl⟩

theorem ends_bind_iff {f : Machine → Action α} {g : Machine → α → Action β}
    (hf : Settles host limit f) (hg : ∀ a, Settles host limit fun m => g m a)
    {o : Outcome β} :
    Ends host limit (fun m => f m >>= g m) σ o ↔
      (∃ a τ, Ends host limit f σ (.done a τ) ∧
        Ends host limit (fun m => g m a) τ o) ∨
        ∃ e τ, Ends host limit f σ (.fail e τ) ∧ o = .fail e τ := by
  constructor
  · rintro ⟨ho, n, hn⟩
    change (f (ofFuel host limit n) >>= g (ofFuel host limit n)) σ = o at hn
    rw [bind_apply] at hn
    cases hrun : f (ofFuel host limit n) σ with
    | done a τ =>
      rw [hrun] at hn
      exact .inl ⟨a, τ, ⟨nofun, n, hrun⟩, ho, n, hn⟩
    | fail e τ =>
      rw [hrun] at hn
      exact .inr ⟨e, τ, ⟨nofun, n, hrun⟩, hn.symm⟩
    | outOfFuel =>
      rw [hrun] at hn
      exact absurd hn.symm ho
  · rintro (⟨a, τ, ⟨-, n, hn⟩, ho, k, hk⟩ | ⟨e, τ, ⟨-, n, hn⟩, rfl⟩)
    · have hfirst : f (ofFuel host limit (max n k)) σ = .done a τ :=
        (hf.eq (Nat.le_max_left n k) (hn ▸ nofun)).trans hn
      have hk : g (ofFuel host limit k) a τ = o := hk
      have hrest : g (ofFuel host limit (max n k)) a τ = o :=
        ((hg a).eq (Nat.le_max_right n k) (hk ▸ ho)).trans hk
      refine ⟨ho, max n k, ?_⟩
      show (f _ >>= g _) σ = o
      rw [bind_apply, hfirst]
      exact hrest
    · refine ⟨nofun, n, ?_⟩
      show (f _ >>= g _) σ = _
      rw [bind_apply, hn]

/-- What comes after a run and does not use the machine is done in the store
that the run leaves. -/
theorem ends_then_iff {f : Machine → Action α} {g : α → Action β}
    (hf : Settles host limit f) {o : Outcome β} :
    Ends host limit (fun m => f m >>= g) σ o ↔
      (∃ a τ, Ends host limit f σ (.done a τ) ∧ o ≠ .outOfFuel ∧ g a τ = o) ∨
        ∃ e τ, Ends host limit f σ (.fail e τ) ∧ o = .fail e τ := by
  rw [ends_bind_iff hf fun a => settles_const (g a)]
  simp only [ends_const_iff]

theorem Ends.first {f : Machine → Action α} {g : α → Action β}
    (hf : Settles host limit f) {o : Outcome β}
    (h : Ends host limit (fun m => f m >>= g) σ o) :
    ∃ c, Ends host limit f σ c := by
  rcases (ends_then_iff hf).mp h with ⟨a, τ, hfirst, -⟩ | ⟨e, τ, hfirst, -⟩
  · exact ⟨_, hfirst⟩
  · exact ⟨_, hfirst⟩

theorem SameEnds.refl (run : Machine → Action α) :
    SameEnds host limit run run :=
  fun _ _ => Iff.rfl

theorem SameEnds.trans {run run' run'' : Machine → Action α}
    (h : SameEnds host limit run run') (h' : SameEnds host limit run' run'') :
    SameEnds host limit run run'' :=
  fun σ o => (h σ o).trans (h' σ o)

theorem SameEnds.bind {f f' : Machine → Action α}
    {g g' : Machine → α → Action β} (h : SameEnds host limit f f')
    (hrest : ∀ a, SameEnds host limit (fun m => g m a) fun m => g' m a)
    (hf : Settles host limit f) (hf' : Settles host limit f')
    (hg : ∀ a, Settles host limit fun m => g m a)
    (hg' : ∀ a, Settles host limit fun m => g' m a) :
    SameEnds host limit (fun m => f m >>= g m) fun m => f' m >>= g' m := by
  intro σ o
  rw [ends_bind_iff hf hg, ends_bind_iff hf' hg']
  simp only [h σ _, hrest _ _ o]

theorem ends_bind_of_done {f : Machine → Action α} {g : Machine → α → Action β}
    {a : α} (hf : ∀ m, f m σ = .done a τ) {o : Outcome β} :
    Ends host limit (fun m => f m >>= g m) σ o ↔
      Ends host limit (fun m => g m a) τ o := by
  simp only [Ends, bind_apply, hf]

/-- What takes one unit of fuel before it goes on ends as what it goes on
with. -/
theorem sameEnds_of_succ {f g : Machine → Action α}
    (hzero : ∀ σ, f (ofFuel host limit 0) σ = .outOfFuel)
    (hsucc : ∀ n, f (ofFuel host limit (n + 1)) = g (ofFuel host limit n)) :
    SameEnds host limit f g := by
  intro σ o
  constructor
  · rintro ⟨ho, n, hn⟩
    cases n with
    | zero => exact absurd (hn.symm.trans (hzero σ)) ho
    | succ n => exact ⟨ho, n, hsucc n ▸ hn⟩
  · rintro ⟨ho, n, hn⟩
    exact ⟨ho, n + 1, (hsucc n).symm ▸ hn⟩

theorem sameEnds_expr (e : Expr) (scope : ScopeId) :
    SameEnds host limit (fun m => m.expr e scope) fun m =>
      m.evalExpr e scope :=
  sameEnds_of_succ (fun _ => rfl) fun _ => rfl

theorem sameEnds_block (body : Block) (scope : ScopeId) :
    SameEnds host limit (fun m => m.block body scope) fun m =>
      m.evalBlock body scope :=
  sameEnds_of_succ (fun _ => rfl) fun _ => rfl

variable {turn : Machine → α → Action (Turn α)} {a : α} {o : Outcome Flow}

theorem loop_of_le (hturn : ∀ a, Settles host limit fun m => turn m a)
    {n k : Nat} (hle : n ≤ k) {rounds rounds' : Nat}
    (hrounds : rounds ≤ rounds')
    (hends : loop (turn (ofFuel host limit n)) rounds a σ ≠ .outOfFuel) :
    loop (turn (ofFuel host limit k)) rounds' a σ =
      loop (turn (ofFuel host limit n)) rounds a σ := by
  induction rounds generalizing rounds' a σ with
  | zero => exact absurd rfl hends
  | succ rounds ih =>
    obtain ⟨more, rfl⟩ := Nat.exists_eq_add_of_le' hrounds
    rw [← Nat.add_assoc]
    simp only [loop, bind_apply] at hends ⊢
    have hsame : turn (ofFuel host limit n) a σ ≠ .outOfFuel →
        turn (ofFuel host limit k) a σ =
          turn (ofFuel host limit n) a σ := (hturn a).eq hle
    cases hrun : turn (ofFuel host limit n) a σ with
    | done t τ =>
      rw [hrun] at hends hsame
      rw [hsame nofun]
      cases t with
      | again b => exact ih (Nat.le_add_left rounds more) hends
      | ended flow => rfl
    | fail e τ =>
      rw [hrun] at hsame
      rw [hsame nofun]
    | outOfFuel =>
      rw [hrun] at hends
      exact absurd rfl hends

theorem LoopEnds.of_loop (n : Nat) {rounds : Nat} (ho : o ≠ .outOfFuel)
    (h : loop (turn (ofFuel host limit n)) rounds a σ = o) :
    LoopEnds host limit turn a σ o := by
  induction rounds generalizing a σ with
  | zero => exact absurd h.symm ho
  | succ rounds ih =>
    simp only [loop, bind_apply] at h
    cases hrun : turn (ofFuel host limit n) a σ with
    | done t τ =>
      rw [hrun] at h
      cases t with
      | again b => exact .again ⟨nofun, n, hrun⟩ (ih h)
      | ended flow =>
        cases h
        exact .ended ⟨nofun, n, hrun⟩
    | fail e τ =>
      rw [hrun] at h
      cases h
      exact .failed ⟨nofun, n, hrun⟩
    | outOfFuel =>
      rw [hrun] at h
      exact absurd h.symm ho

/-- With more fuel than a turn needs, the loop takes that turn first. -/
theorem loop_of_turn (hturn : ∀ a, Settles host limit fun m => turn m a)
    {n k : Nat} (hle : n ≤ k) {t : Outcome (Turn α)} (ht : t ≠ .outOfFuel)
    (h : turn (ofFuel host limit n) a σ = t) (rounds : Nat) :
    loop (turn (ofFuel host limit k)) (rounds + 1) a σ =
      match t with
      | .done (.again b) τ => loop (turn (ofFuel host limit k)) rounds b τ
      | .done (.ended flow) τ => .done flow τ
      | .fail e τ => .fail e τ
      | .outOfFuel => .outOfFuel := by
  have hne : turn (ofFuel host limit n) a σ ≠ .outOfFuel := h ▸ ht
  have hfirst : turn (ofFuel host limit k) a σ = t :=
    ((hturn a).eq hle hne).trans h
  simp only [loop, bind_apply, hfirst]
  cases t with
  | done t τ => cases t <;> rfl
  | fail e τ => rfl
  | outOfFuel => rfl

theorem LoopEnds.loop (hturn : ∀ a, Settles host limit fun m => turn m a)
    (h : LoopEnds host limit turn a σ o) :
    ∃ n, loop (turn (ofFuel host limit (n + 1))) n a σ = o ∧
      o ≠ .outOfFuel := by
  induction h with
  | again hfirst _ ih =>
    obtain ⟨ht, n, hn⟩ := hfirst
    obtain ⟨k, hk, ho⟩ := ih
    refine ⟨max n k + 1, ?_, ho⟩
    -- one turn, and then as many as the rest of the loop took
    rw [loop_of_turn hturn (by omega) ht hn]
    exact (loop_of_le hturn (by omega) (by omega) (hk ▸ ho)).trans hk
  | ended hfirst =>
    obtain ⟨ht, n, hn⟩ := hfirst
    exact ⟨n + 1, loop_of_turn hturn (by omega) ht hn n, nofun⟩
  | failed hfirst =>
    obtain ⟨ht, n, hn⟩ := hfirst
    exact ⟨n + 1, loop_of_turn hturn (by omega) ht hn n, nofun⟩

theorem ends_loop_iff (hturn : ∀ a, Settles host limit fun m => turn m a) :
    Ends host limit (fun m => loop (turn m) m.rounds a) σ o ↔
      LoopEnds host limit turn a σ o := by
  constructor
  · rintro ⟨ho, n, hn⟩
    exact .of_loop n ho hn
  · intro h
    obtain ⟨n, hn, ho⟩ := h.loop hturn
    exact ⟨ho, n + 1, hn⟩

/-- How turns end whose loops are to end alike: they go on in one store, where
`I` holds, or end as `R` asks. -/
inductive TurnsAlike (I : Store → Prop)
    (R : Outcome Flow → Outcome Flow → Prop) :
    Outcome (Turn α) → Outcome (Turn α) → Prop
  | again (a : α) {τ : Store} (hτ : I τ) :
      TurnsAlike I R (.done (.again a) τ) (.done (.again a) τ)
  | ended {flow flow' : Flow} {τ τ' : Store}
      (h : R (.done flow τ) (.done flow' τ')) :
      TurnsAlike I R (.done (.ended flow) τ) (.done (.ended flow') τ')
  | failed {e e' : RuntimeError} {τ τ' : Store}
      (h : R (.fail e τ) (.fail e' τ')) :
      TurnsAlike I R (.fail e τ) (.fail e' τ')

theorem TurnsAlike.flip {I : Store → Prop}
    {R : Outcome Flow → Outcome Flow → Prop} {t t' : Outcome (Turn α)}
    (h : TurnsAlike I R t t') :
    TurnsAlike I (fun o o' => R o' o) t' t := by
  cases h with
  | again a hτ => exact .again a hτ
  | ended h => exact .ended h
  | failed h => exact .failed h

theorem LoopEnds.alike {I : Store → Prop}
    {R : Outcome Flow → Outcome Flow → Prop}
    {turn turn' : Machine → α → Action (Turn α)}
    (hturn : ∀ {a σ t}, I σ → Ends host limit (fun m => turn m a) σ t →
      ∃ t', Ends host limit (fun m => turn' m a) σ t' ∧ TurnsAlike I R t t')
    (hσ : I σ) (h : LoopEnds host limit turn a σ o) :
    ∃ o', LoopEnds host limit turn' a σ o' ∧ R o o' := by
  induction h with
  | again hfirst _ ih =>
    obtain ⟨_, hfirst', halike⟩ := hturn hσ hfirst
    cases halike with
    | again _ hτ =>
      obtain ⟨o', hrest, hR⟩ := ih hτ
      exact ⟨o', .again hfirst' hrest, hR⟩
  | ended hfirst =>
    obtain ⟨_, hfirst', halike⟩ := hturn hσ hfirst
    cases halike with
    | ended hR => exact ⟨_, .ended hfirst', hR⟩
  | failed hfirst =>
    obtain ⟨_, hfirst', halike⟩ := hturn hσ hfirst
    cases halike with
    | failed hR => exact ⟨_, .failed hfirst', hR⟩

end Machine

end LuaCore
