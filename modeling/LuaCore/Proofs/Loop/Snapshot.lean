import LuaCore.Proofs.Store.Sound

/-! Nothing but the loop leads to the iterator that `pairs` gives, so no
iteration can change what the later ones get. -/

namespace LuaCore

open LuaCore.Action LuaCore.Simulation

def Outcome.interruption? : Outcome Flow → Option (Outcome Flow)
  | .done .normal _ => none
  | .done .broke σ => some (.done .normal σ)
  | o => some o

theorem Outcome.eq_normal_or_interruption? (outcome : Outcome Flow) :
    (∃ τ, outcome = .done .normal τ) ∨ ∃ o, outcome.interruption? = some o := by
  cases outcome with
  | done flow τ =>
    cases flow with
    | normal => exact .inl ⟨τ, rfl⟩
    | _ => exact .inr ⟨_, rfl⟩
  | _ => exact .inr ⟨_, rfl⟩

namespace Store

def holding (σ : Store) (id : Nat) (rows : List (List Value)) : Store :=
  { σ with heap := σ.heap.setIterator id (.rows rows) }

variable {σ τ : Store} {roots : List Object} {id : Nat} {o o' : Object}

/-- An iterator that is out of reach keeps its state and stays out of reach. -/
theorem Confines.iterator {it : Iterator} (h : σ.Confines roots τ)
    (hit : σ.heap.iterators[id]? = some it)
    (hun : ¬ σ.Reaches roots (.iterator id)) :
    τ.heap.iterators[id]? = some it ∧ ¬ τ.Reaches roots (.iterator id) := by
  have hlt : id < σ.heap.iterators.size := (Array.getElem?_eq_some_iff.mp hit).1
  have hclosed : ¬ σ.Open roots (.iterator id) :=
    fun hopen => hopen.elim (Nat.not_le_of_lt hlt) hun
  refine ⟨(h.same hclosed).trans hit, fun hreach => hclosed ?_⟩
  exact hreach.within (fun r hr => .inr (reaches_root hr)) fun _ _ => h.closed

theorem points_holding {rows rest : List (List Value)}
    (hit : σ.heap.iterators[id]? = some (.rows rows))
    (hsub : ∀ row ∈ rest, row ∈ rows)
    (hpoints : (σ.holding id rest).Points o o') :
    σ.Points o o' := by
  cases hpoints with
  | outer hj => exact .outer hj
  | «variable» hb hn => exact .variable hb hn
  | captured hc => exact .captured hc
  | heap hpoints =>
    refine .heap (Heap.points_setIterator hit ?_ hpoints)
    rintro _ ⟨hrow, hv, hn⟩
    exact .row (hsub _ hrow) hv hn

theorem iterator_holding {row : List Value} {rest : List (List Value)}
    (hit : σ.heap.iterators[id]? = some (.rows (row :: rest)))
    (hun : ¬ σ.Reaches roots (.iterator id)) :
    (σ.holding id rest).heap.iterators[id]? = some (.rows rest) ∧
      ¬ (σ.holding id rest).Reaches roots (.iterator id) := by
  have hlt : id < σ.heap.iterators.size := (Array.getElem?_eq_some_iff.mp hit).1
  refine ⟨by simp [holding, Heap.setIterator, hlt], fun hreach => hun ?_⟩
  exact hreach.within (fun r hr => reaches_root hr) fun o o' ho hpoints =>
    ho.step (points_holding hit (fun _ => List.mem_cons_of_mem row) hpoints)

end Store

namespace Machine

def iteration (m : Machine) (scope : ScopeId) (names : List String)
    (body : Block) (row : List Value) :
    Action Flow := do
  m.block body (← openScope scope names row)

/-- The iterations for some rows end normally one after the other; before each
of them the iterator is set to the rows after its own. -/
inductive Passes (m : Machine) (scope : ScopeId) (names : List String)
    (body : Block) (id : Nat) :
    List (List Value) → List (List Value) → Store → Store → Prop
  | none (rest : List (List Value)) (σ : Store) :
      Passes m scope names body id [] rest σ σ
  | one {row : List Value} {done rest : List (List Value)} {σ τ υ : Store}
      (hrun : m.iteration scope names body row (σ.holding id (done ++ rest)) =
        .done .normal τ) (hdone : Passes m scope names body id done rest τ υ) :
      Passes m scope names body id (row :: done) rest σ υ

variable {host : Host} {held : List Value} {limit fuel : Nat} {σ τ : Store}
    {roots : List Object} {scope : ScopeId} {names : List String} {body : Block}
    {id : Nat}

theorem iteration_confined (hhost : ∀ id, (host id).IsLocalTo held)
    (hheld : ∀ o ∈ objectsOf held, o ∈ roots) (hscope : .scope scope ∈ roots)
    {row : List Value} (hrow : ∀ o ∈ objectsOf row, o ∈ roots)
    (hτ : ((Machine.ofFuel host limit fuel).iteration scope names body row
        σ).store? = some τ) :
    σ.Confines roots τ := by
  have holds : ∀ vs, (∀ o ∈ objectsOf vs, o ∈ roots) →
      ∀ v ∈ vs, σ.Holds roots v :=
    fun vs hvs v hv o ho =>
      .inr (Store.reaches_root (hvs o (mem_objectsOf.mpr ⟨v, hv, ho⟩)))
  have U : (confinement σ roots).Upheld host :=
    confinement.upheld hhost (holds held hheld)
  have hparts : (confinement σ roots).Parts (.ofFuel host limit fuel)
      (.ofFuel host limit fuel) :=
    parts_ofFuel U fuel fuel (Nat.le_refl _) fun h => h.elim
  have hopen : (confinement σ roots).sees () scope scope :=
    ⟨rfl, .inr (Store.reaches_root hscope)⟩
  have hruns : (confinement σ roots).Follows ()
      ((Machine.ofFuel host limit fuel).iteration scope names body row)
      ((Machine.ofFuel host limit fuel).iteration scope names body row)
      (confinement σ roots).SameFlow :=
    follows_bind (U.openScope names hopen (holds row hrow)) fun _ _ _ _ hij =>
      hparts.block (.refl body) hij
  exact confinement.keeps hruns hτ

theorem eachTurn_none {m : Machine}
    (hit : σ.heap.iterators[id]? = some (.rows [])) :
    m.eachTurn scope names (.ref (.iterator id)) body σ =
      .done (.ended .normal) σ := by
  simp [eachTurn, nextRow?, Action.bind_apply, Action.pure_apply, advance,
    Heap.advance, hit]

theorem eachTurn_row {m : Machine} {row : List Value}
    {later : List (List Value)}
    (hit : σ.heap.iterators[id]? = some (.rows (row :: later))) :
    m.eachTurn scope names (.ref (.iterator id)) body σ =
      (m.iteration scope names body row >>=
          fun flow => pure (Turn.afterBody () flow)) (σ.holding id later) := by
  have hnext : m.nextRow? (.ref (.iterator id)) σ =
      .done (some row) (σ.holding id later) := by
    simp [nextRow?, advance, Heap.advance, hit, Store.holding]
  unfold eachTurn
  rw [Action.bind_apply, hnext]
  simp [iteration]

def eachLoop (m : Machine) (scope : ScopeId) (names : List String)
    (body : Block) (id rounds : Nat) :
    Action Flow :=
  loop (fun _ => m.eachTurn scope names (.ref (.iterator id)) body) rounds ()

theorem eachLoop_none {m : Machine}
    (hit : σ.heap.iterators[id]? = some (.rows [])) (rounds : Nat) :
    m.eachLoop scope names body id (rounds + 1) σ = .done .normal σ := by
  simp only [eachLoop, loop, Action.bind_apply, eachTurn_none hit,
    Action.pure_apply]

theorem eachLoop_normal {m : Machine} {row : List Value}
    {later : List (List Value)}
    (hit : σ.heap.iterators[id]? = some (.rows (row :: later)))
    (hrun : m.iteration scope names body row (σ.holding id later) =
      .done .normal τ) (rounds : Nat) :
    m.eachLoop scope names body id (rounds + 1) σ =
      m.eachLoop scope names body id rounds τ := by
  simp only [eachLoop, loop, Action.bind_apply, eachTurn_row hit, hrun,
    Action.pure_apply, Turn.afterBody]

theorem eachLoop_interrupted {m : Machine} {row : List Value}
    {later : List (List Value)}
    (hit : σ.heap.iterators[id]? = some (.rows (row :: later)))
    {outcome : Outcome Flow}
    (hrun : (m.iteration scope names body row
        (σ.holding id later)).interruption? = some outcome) (rounds : Nat) :
    m.eachLoop scope names body id (rounds + 1) σ = outcome := by
  simp only [eachLoop, loop, Action.bind_apply, eachTurn_row hit]
  cases hend : m.iteration scope names body row (σ.holding id later) with
  | done flow τ =>
    rw [hend] at hrun
    cases flow <;> cases hrun <;> rfl
  | fail e τ =>
    rw [hend] at hrun
    cases hrun
    rfl
  | outOfFuel =>
    rw [hend] at hrun
    cases hrun
    rfl

/-- A loop over an iterator that only the loop can reach takes the rows that the
iterator had at first, in their order, until an iteration does not end normally;
or the fuel allows no further turn. -/
theorem eachLoop_takes_rows (hhost : ∀ id, (host id).IsLocalTo held)
    (hheld : ∀ o ∈ objectsOf held, o ∈ roots) (hscope : .scope scope ∈ roots)
    {rows : List (List Value)}
    (hrows : ∀ row ∈ rows, ∀ o ∈ objectsOf row, o ∈ roots)
    (hit : σ.heap.iterators[id]? = some (.rows rows))
    (hun : ¬ σ.Reaches roots (.iterator id)) (names : List String)
    (body : Block) (limit fuel rounds : Nat) :
    let m := Machine.ofFuel host limit fuel
    let outcome := m.eachLoop scope names body id rounds σ
    ∃ done rest τ, rows = done ++ rest ∧
      m.Passes scope names body id done rest σ τ ∧
      (rest = [] ∧ outcome = .done .normal τ ∨
        (∃ row later, rest = row :: later ∧
          (m.iteration scope names body row
            (τ.holding id later)).interruption? = some outcome) ∨
        done.length = rounds ∧ outcome = .outOfFuel) := by
  intro m
  induction rounds generalizing rows σ with
  | zero => exact ⟨[], rows, σ, rfl, .none rows σ, .inr (.inr ⟨rfl, rfl⟩)⟩
  | succ rounds ih =>
    cases rows with
    | nil =>
      exact ⟨[], [], σ, rfl, .none [] σ, .inl ⟨rfl, eachLoop_none hit rounds⟩⟩
    | cons row later =>
      obtain ⟨hrow, hlater⟩ := List.forall_mem_cons.mp hrows
      obtain ⟨hit', hun'⟩ := Store.iterator_holding hit hun
      rcases Outcome.eq_normal_or_interruption?
        (m.iteration scope names body row (σ.holding id later)) with
        ⟨τ, hrun⟩ | ⟨outcome, hrun⟩
      · have hconfines : (σ.holding id later).Confines roots τ :=
          iteration_confined hhost hheld hscope hrow (by rw [hrun]; rfl)
        obtain ⟨hstill, hfar⟩ := hconfines.iterator hit' hun'
        obtain ⟨done, rest, υ, rfl, hpasses, hends⟩ := ih hlater hstill hfar
        refine ⟨row :: done, rest, υ, rfl, .one hrun hpasses, ?_⟩
        rw [eachLoop_normal hit hrun]
        simpa using hends
      · refine ⟨[], row :: later, σ, rfl, .none _ σ,
          .inr (.inl ⟨row, later, rfl, ?_⟩)⟩
        rw [eachLoop_interrupted hit hrun]
        exact hrun

end Machine

def Table.rows (t : Table) : List (List Value) :=
  t.entries.toList.map fun entry => [entry.1, entry.2]

/-- What a loop over the entries of a table starts from, and what the functions
of the host hold on to. -/
def Store.loopRoots (σ : Store) (held : List Value) (scope : ScopeId)
    (t : Nat) : List Object :=
  .scope scope :: objectsOf (held ++ (σ.heap.table t).rows.flatten)

theorem Store.mem_loopRoots_of_held {σ : Store} {held : List Value}
    {scope : ScopeId} {t : Nat} {o : Object} (ho : o ∈ objectsOf held) :
    o ∈ σ.loopRoots held scope t :=
  List.mem_cons_of_mem _ (objectsOf_mono (fun _ => List.mem_append_left _) ho)

theorem Store.mem_loopRoots_of_row {σ : Store} {held row : List Value}
    {scope : ScopeId} {t : Nat} {o : Object}
    (hrow : row ∈ (σ.heap.table t).rows) (ho : o ∈ objectsOf row) :
    o ∈ σ.loopRoots held scope t := by
  refine List.mem_cons_of_mem _ (objectsOf_mono (fun v hv => ?_) ho)
  exact List.mem_append_right _ (List.mem_flatten.mpr ⟨row, hrow, hv⟩)

theorem Store.Sound.not_reaches_addIterator {σ : Store} {held : List Value}
    (hσ : σ.Sound held) (scope : ScopeId) (t : Nat) :
    ¬ Store.Reaches
      { σ with heap := σ.heap.addIterator (.rows (σ.heap.table t).rows) }
      (σ.loopRoots held scope t) (.iterator σ.heap.iterators.size) := by
  intro hreach
  refine hreach.within (P := (· ≠ .iterator σ.heap.iterators.size)) ?_ ?_ rfl
  · rintro r hr rfl
    simp only [Store.loopRoots, List.mem_cons, reduceCtorEq, false_or] at hr
    obtain ⟨v, hv, hn⟩ := mem_objectsOf.mp hr
    rcases List.mem_append.mp hv with hv | hv
    · exact Nat.lt_irrefl _ (hσ.held v hv _ hn)
    · obtain ⟨row, hrow, hv⟩ := List.mem_flatten.mp hv
      obtain ⟨entry, hentry, rfl⟩ := List.mem_map.mp hrow
      have hentry := Array.mem_toList_iff.mp hentry
      have hv : v = entry.1 ∨ v = entry.2 := by simpa using hv
      rcases hv with rfl | rfl
      · exact Nat.lt_irrefl _ (hσ.points (.heap (.key hentry hn)))
      · exact Nat.lt_irrefl _ (hσ.points (.heap (.value hentry hn)))
  · rintro o o' ho hpoints rfl
    cases hpoints with
    | «variable» hb hn => exact Nat.lt_irrefl _ (hσ.points (.variable hb hn))
    | heap hpoints =>
      rcases Heap.points_addIterator hpoints with hold | ⟨heq, -⟩
      · exact Nat.lt_irrefl _ (hσ.points (.heap hold))
      · exact ho heq

namespace Machine

variable {host : Host} {held : List Value} {limit fuel : Nat} {σ τ : Store}
    {scope : ScopeId}

theorem expr_pairs {id t : Nat} {name : String} {e : Expr}
    (hpairs : σ.scopes.get? scope "pairs" = some (.ref (.native id name)))
    (hid : host id = Native.pairs)
    (he : (Machine.ofFuel host limit fuel).expr e scope σ =
      .done (.ref (.table t)) τ) :
    (Machine.ofFuel host limit (fuel + 1)).expr
        (.call (.name "pairs") [e]) scope σ =
      .done (.ref (.iterator τ.heap.iterators.size)) { τ with
            heap := τ.heap.addIterator (.rows (τ.heap.table t).rows) } := by
  cases fuel with
  | zero => cases he
  | succ fuel =>
    have hname :
        (Machine.ofFuel host limit (fuel + 1)).expr (.name "pairs") scope σ =
          .done (.ref (.native id name)) σ := by
      show lookup scope "pairs" σ = _
      simp [lookup, hpairs]
    have hcallee :
        (Machine.ofFuel host limit (fuel + 1)).callee scope (.name "pairs") σ =
          .done (.ref (.native id name), []) σ := by
      simp only [callee, Action.bind_apply, hname, Action.pure_apply]
    have hargs : (Machine.ofFuel host limit (fuel + 1)).exprs scope [e] σ =
        .done [.ref (.table t)] τ := by
      simp only [exprs, Action.bind_apply, he, Action.pure_apply]
    have hhost : (Machine.ofFuel host limit (fuel + 1)).host id =
        Native.pairs := hid
    show (Machine.ofFuel host limit (fuel + 1)).evalExpr
        (.call (.name "pairs") [e]) scope σ = _
    simp only [evalExpr, Action.bind_apply, hcallee, hargs, List.nil_append,
      call, native, hhost, Native.pairs, Native.tableArgument,
      Native.newIterator, Table.rows]

/-- A loop over what `pairs` gives for a table takes the entries that the table
had when `pairs` was called, in their order and each once, whatever the
iterations do; it ends early only with an iteration that does not end normally,
or when the fuel allows no further turn. No key and no value of an entry is
`nil`, and no two entries have the same key. -/
theorem pairs_takes_snapshot (hhost : host.Sound held) (hσ : σ.Sound held)
    {id t : Nat} {name : String} {e : Expr}
    (hpairs : σ.scopes.get? scope "pairs" = some (.ref (.native id name)))
    (hid : host id = Native.pairs)
    (he : (Machine.ofFuel host limit fuel).expr e scope σ =
      .done (.ref (.table t)) τ) (k v : String) (body : Block) :
    let m := Machine.ofFuel host limit (fuel + 1)
    let entries := (τ.heap.table t).entries.toList
    let row (entry : Value × Value) := [entry.1, entry.2]
    let iterator := τ.heap.iterators.size
    let start := { τ with heap := τ.heap.addIterator (.rows (entries.map row)) }
    let outcome :=
      m.evalStat (.forEach [k, v] (.call (.name "pairs") [e]) body) scope σ
    (∀ entry ∈ entries, entry.1 ≠ .nil ∧ entry.2 ≠ .nil) ∧
    entries.Pairwise (fun a b => Key.ofValue a.1 ≠ Key.ofValue b.1) ∧
    ∃ done rest υ, entries = done ++ rest ∧
      m.Passes scope [k, v] body iterator (done.map row)
        (rest.map row) start υ ∧
      (rest = [] ∧ outcome = .done .normal υ ∨
        (∃ entry later, rest = entry :: later ∧
          (m.iteration scope [k, v] body (row entry)
              (υ.holding iterator (later.map row))).interruption? =
            some outcome) ∨
        done.length = fuel ∧ outcome = .outOfFuel) := by
  intro m entries row iterator start outcome
  have hτ : τ.Sound held :=
    (keeps_sound hhost limit fuel hσ).1 e scope τ (by rw [he]; rfl)
  have hcoherent := hτ.coherent t
  have hloop : outcome = m.eachLoop scope [k, v] body iterator fuel start := by
    show (m.expr _ scope >>= fun source =>
      loop (fun _ => m.eachTurn scope [k, v] source body) m.rounds ()) σ = _
    rw [Action.bind_apply, expr_pairs hpairs hid he]
    rfl
  refine ⟨fun entry => hcoherent.ne_nil_of_mem, hcoherent.pairwise_ofValue_ne,
    ?_⟩
  have hit : start.heap.iterators[iterator]? =
      some (.rows (τ.heap.table t).rows) := by
    simp [start, iterator, Heap.addIterator, Table.rows, entries, row]
  obtain ⟨done, rest, υ, hsplit, hpasses, hends⟩ :=
    eachLoop_takes_rows hhost.isLocalTo (fun _ => Store.mem_loopRoots_of_held)
      List.mem_cons_self (fun _ hr _ => Store.mem_loopRoots_of_row hr) hit
      (hτ.not_reaches_addIterator scope t) [k, v] body limit (fuel + 1) fuel
  rw [hloop]
  obtain ⟨done, rest, hentries, rfl, rfl⟩ := List.map_eq_append_iff.mp hsplit
  refine ⟨done, rest, υ, hentries, hpasses, ?_⟩
  rcases hends with ⟨hnil, hdone⟩ | ⟨_, _, hcons, hrun⟩ | ⟨hlength, hfuel⟩
  · exact .inl ⟨List.map_eq_nil_iff.mp hnil, hdone⟩
  · obtain ⟨entry, later, rfl, rfl, rfl⟩ := List.map_eq_cons_iff.mp hcons
    exact .inr (.inl ⟨entry, later, rfl, hrun⟩)
  · exact .inr (.inr ⟨by simpa using hlength, hfuel⟩)

/-- The body removes each entry that it gets from the table itself. -/
theorem pairs_takes_snapshot_removing :
    let c : Chunk := ⟨[.local ["t"]
        [.table [.named "a" (.bool true), .named "b" (.bool false)]]], []⟩
    let s := ((Session.start 200 none).interpret 9 c).2
    let body : Block :=
      [.expr (.assign [.member (.name "t") .bracket (.name "k")] [.nil])]
    let m := Machine.ofFuel s.host s.limit 9
    let entries := (s.store.heap.table 0).entries.toList
    let row (entry : Value × Value) := [entry.1, entry.2]
    let start := { s.store with
        heap := s.store.heap.addIterator (.rows (entries.map row)) }
    s.host.Sound [] ∧ s.store.Sound [] ∧
    s.store.scopes.get? Scopes.rootId "pairs" =
        some (.ref (.native 1 "pairs")) ∧
      s.host 1 = Native.pairs ∧
    (Machine.ofFuel s.host s.limit 8).expr (.name "t") Scopes.rootId s.store =
      .done (.ref (.table 0)) s.store ∧
    ∃ done rest υ, entries = done ++ rest ∧
      m.Passes Scopes.rootId ["k", "v"] body 0 (done.map row)
        (rest.map row) start υ := by
  intro c s body m entries row start
  have hs : s.Sound [] := .interpret 9 c (.start 200 none)
  have hpairs : s.store.scopes.get? Scopes.rootId "pairs" =
      some (.ref (.native 1 "pairs")) := by decide
  have hid : s.host 1 = Native.pairs := rfl
  have he :
      (Machine.ofFuel s.host s.limit 8).expr (.name "t") Scopes.rootId s.store =
        .done (.ref (.table 0)) s.store := rfl
  obtain ⟨done, rest, υ, hentries, hpasses, -⟩ :=
    (pairs_takes_snapshot hs.host hs.store hpairs hid he "k" "v" body).2.2
  exact ⟨hs.host, hs.store, hpairs, hid, he, done, rest, υ, hentries, hpasses⟩

end Machine

end LuaCore
