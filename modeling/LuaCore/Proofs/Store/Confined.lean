import LuaCore.Proofs.Simulation.Construct
import LuaCore.Proofs.Evaluation.Reachable
import LuaCore.Proofs.Store.Graph

namespace LuaCore

open LuaCore.Action LuaCore.Simulation

namespace Store

/-- What a run that starts from these objects may come to hold. -/
def Open (σ : Store) (roots : List Object) (o : Object) : Prop :=
  σ.IsNew o ∨ σ.Reaches roots o

/-- A later store in which all else is as it was, and nothing leads out of
what is open. -/
structure Confines (σ : Store) (roots : List Object) (τ : Store) : Prop where
  closed : ∀ {o o'}, σ.Open roots o → τ.Points o o' → σ.Open roots o'
  same : ∀ {o}, ¬ σ.Open roots o → σ.SameAt τ o
  grows : ∀ {o}, τ.IsNew o → σ.IsNew o

variable {σ τ : Store} {roots : List Object} {o o' : Object} {i : ScopeId}
    {x : String} {v : Value}

def Holds (σ : Store) (roots : List Object) (v : Value) : Prop :=
  ∀ o, v.object? = some o → σ.Open roots o

theorem not_points_of_isNew (ho : σ.IsNew o) : ¬ σ.Points o o' := by
  intro hpoints
  cases hpoints with
  | outer hj => simp [Scopes.outer, Array.getElem?_eq_none ho] at hj
  | «variable» hb _ => simp [Scopes.vars, Array.getElem?_eq_none ho] at hb
  | captured hc => simp [Array.getElem?_eq_none ho] at hc
  | heap hpoints =>
    refine Heap.not_points_of_isNew ?_ hpoints
    cases hpoints <;> exact ho

theorem confines_self (σ : Store) (roots : List Object) :
    σ.Confines roots σ where
  closed ho hpoints := by
    rcases ho with hnew | hreach
    · exact absurd hpoints (not_points_of_isNew hnew)
    · exact .inr (hreach.step hpoints)
  same {o} _ := by cases o <;> rfl
  grows := id

namespace Confines

variable (h : σ.Confines roots τ)
include h

theorem of_new (ho : τ.IsNew o) : σ.Open roots o := .inl (h.grows ho)

theorem of_new_heap (ho : τ.heap.IsNew o) : σ.Open roots o := by
  cases o with
  | table id => exact h.of_new ho
  | iterator id => exact h.of_new ho
  | _ => cases ho

theorem chain (hi : σ.Open roots (.scope i)) :
    ∀ j ∈ τ.scopes.chain i, σ.Open roots (.scope j) := by
  intro j hj
  rcases List.mem_cons.mp hj with rfl | hj
  · exact hi
  · exact h.closed hi (.outer hj)

theorem holds_of_binding {b : String × Value} (hi : σ.Open roots (.scope i))
    (hb : b ∈ τ.scopes.vars i) :
    σ.Holds roots b.2 :=
  fun _ hn => h.closed hi (.variable hb hn)

theorem define (hi : σ.Open roots (.scope i)) (hv : σ.Holds roots v) :
    σ.Confines roots { τ with scopes := τ.scopes.define i x v } where
  closed {o o'} ho hpoints := by
    cases hpoints with
    | outer hj => exact h.closed ho (.outer (by simpa using hj))
    | @«variable» j b _ hb hn =>
      simp only [Scopes.vars_define] at hb
      split at hb
      · rcases Bindings.mem_put hb with hb | heq
        · exact h.closed ho (.variable hb hn)
        · exact hv _ (heq ▸ hn)
      · exact h.closed ho (.variable hb hn)
    | captured hc => exact h.closed ho (.captured hc)
    | heap hpoints => exact h.closed ho (.heap hpoints)
  same {o} ho := by
    cases o with
    | scope j =>
      have hne : i ≠ j := by
        rintro rfl
        exact ho hi
      have hframe : (τ.scopes.define i x v).frames[j]? =
          τ.scopes.frames[j]? := by
        simp [Scopes.define, Array.getElem?_modify, hne]
      exact hframe.trans (h.same ho)
    | _ => exact h.same ho
  grows {o} ho := by
    refine h.grows ?_
    cases o with
    | scope j => simpa [Store.IsNew] using ho
    | _ => exact ho

theorem defineAll (hi : σ.Open roots (.scope i)) {xs : List String}
    {vs : List Value} (hvs : ∀ v ∈ vs, σ.Holds roots v) :
    σ.Confines roots { τ with scopes := τ.scopes.defineAll i xs vs } := by
  induction xs generalizing τ vs with
  | nil => exact h
  | cons x xs ih =>
    cases vs with
    | nil => exact ih (h.define (x := x) (v := .nil) hi nofun) nofun
    | cons v vs =>
      have hvs := List.forall_mem_cons.mp hvs
      exact ih (h.define (x := x) hi hvs.1) hvs.2

theorem extend (hi : σ.Open roots (.scope i)) :
    σ.Confines roots { τ with scopes := τ.scopes.extend i } where
  closed {o o'} ho hpoints := by
    cases hpoints with
    | outer hj =>
      simp only [Scopes.outer_extend] at hj
      split at hj
      · exact h.chain hi _ hj
      · exact h.closed ho (.outer hj)
    | «variable» hb hn => exact h.closed ho (.variable (by simpa using hb) hn)
    | captured hc => exact h.closed ho (.captured hc)
    | heap hpoints => exact h.closed ho (.heap hpoints)
  same {o} ho := by
    cases o with
    | scope j =>
      have hne : j ≠ τ.scopes.frames.size := by
        rintro rfl
        exact ho (h.of_new (Nat.le_refl _))
      have hframe : (τ.scopes.extend i).frames[j]? = τ.scopes.frames[j]? := by
        simp [Scopes.extend, Array.getElem?_push, hne]
      exact hframe.trans (h.same ho)
    | _ => exact h.same ho
  grows {o} ho := by
    refine h.grows ?_
    cases o with
    | scope j => exact Nat.le_trans (by simp) ho
    | _ => exact ho

theorem makeClosure {c : Closure} (hc : σ.Open roots (.scope c.scope)) :
    σ.Confines roots { τ with closures := τ.closures.push c } where
  closed {o o'} ho hpoints := by
    cases hpoints with
    | outer hj => exact h.closed ho (.outer hj)
    | «variable» hb hn => exact h.closed ho (.variable hb hn)
    | captured hid =>
      simp only [Array.getElem?_push] at hid
      split at hid
      · cases hid
        exact hc
      · exact h.closed ho (.captured hid)
    | heap hpoints => exact h.closed ho (.heap hpoints)
  same {o} ho := by
    cases o with
    | closure id =>
      have hne : id ≠ τ.closures.size := by
        rintro rfl
        exact ho (h.of_new (Nat.le_refl _))
      have hclosure : (τ.closures.push c)[id]? = τ.closures[id]? := by
        simp [Array.getElem?_push, hne]
      exact hclosure.trans (h.same ho)
    | _ => exact h.same ho
  grows {o} ho := by
    refine h.grows ?_
    cases o with
    | closure id => exact Nat.le_trans (by simp) ho
    | _ => exact ho

/-- Another heap, whose open objects lead to open ones and whose other objects
are as they were. -/
theorem heap {heap : Heap}
    (hclosed : ∀ o o', σ.Open roots o → heap.Points o o' → σ.Open roots o')
    (hsame : ∀ o, ¬ σ.Open roots o → τ.heap.SameAt heap o)
    (hgrows : ∀ o, heap.IsNew o → τ.heap.IsNew o) :
    σ.Confines roots { τ with heap := heap } where
  closed {o o'} ho hpoints := by
    cases hpoints with
    | outer hj => exact h.closed ho (.outer hj)
    | «variable» hb hn => exact h.closed ho (.variable hb hn)
    | captured hid => exact h.closed ho (.captured hid)
    | heap hpoints => exact hclosed _ _ ho hpoints
  same {o} ho := by
    have hbefore := h.same ho
    cases o with
    | table id | iterator id => exact (hsame _ ho).trans hbefore
    | _ => exact hbefore
  grows {o} ho := by
    cases o with
    | table id => exact h.grows (hgrows (.table id) ho)
    | iterator id => exact h.grows (hgrows (.iterator id) ho)
    | _ => exact h.grows ho

theorem addTable {t : Table}
    (ht : ∀ e ∈ t.entries, σ.Holds roots e.1 ∧ σ.Holds roots e.2) :
    σ.Confines roots { τ with heap := τ.heap.addTable t } := by
  refine h.heap ?_ (fun o ho => Heap.sameAt_addTable fun hnew =>
      ho (h.of_new_heap hnew)) fun o => Heap.isNew_addTable
  intro o o' ho hpoints
  rcases Heap.points_addTable hpoints with hold | ⟨e, he, hn | hn⟩
  · exact h.closed ho (.heap hold)
  · exact (ht e he).1 _ hn
  · exact (ht e he).2 _ hn

theorem putEntry {id : Nat} (hid : σ.Open roots (.table id)) (k : Key)
    {key : Value} (hkey : σ.Holds roots key) (hv : σ.Holds roots v) :
    σ.Confines roots { τ with heap := τ.heap.putEntry id k key v } := by
  refine h.heap ?_ (fun o ho => Heap.sameAt_putEntry fun heq => ho (heq ▸ hid))
    fun o => Heap.isNew_putEntry
  intro o o' ho hpoints
  rcases Heap.points_putEntry hpoints with hold | hn | hn
  · exact h.closed ho (.heap hold)
  · exact hkey _ hn
  · exact hv _ hn

theorem advance {id : Nat} (hid : σ.Open roots (.iterator id)) :
    σ.Confines roots { τ with heap := (τ.heap.advance id).2 } :=
  h.heap
    (fun _ _ ho hpoints => h.closed ho (.heap (Heap.points_advance hpoints)))
    (fun _ ho => Heap.sameAt_advance fun heq => ho (heq ▸ hid)) fun _ =>
    Heap.isNew_advance

/-- All that a function of the host knows of is open, if its arguments are and
what it holds on to. -/
theorem open_of_known {values : List Value}
    (hvalues : ∀ v ∈ values, σ.Holds roots v) (hknown : τ.heap.Known values o) :
    σ.Open roots o := by
  obtain hnew | ⟨r, hr, hpath⟩ := hknown
  · exact h.of_new_heap hnew
  · obtain ⟨v, hv, hn⟩ := mem_objectsOf.mp hr
    induction hpath with
    | refl => exact hvalues v hv _ hn
    | tail _ hpoints ih => exact h.closed ih (.heap hpoints)

theorem native {f : Native} {held args : List Value} (hf : f.IsLocalTo held)
    (hvalues : ∀ v ∈ held ++ args, σ.Holds roots v) :
    σ.Confines roots { τ with heap := (f args τ.heap).2 } := by
  refine h.heap ?_ (fun o ho => hf.keeps fun hk =>
      ho (h.open_of_known hvalues hk)) fun o => hf.grows
  intro o o' ho hpoints
  by_cases hk : τ.heap.Known (held ++ args) o
  · exact h.open_of_known hvalues (hf.closed hk hpoints)
  · exact h.closed ho (.heap ((hf.keeps hk).points hpoints))

theorem setDepth (n : Nat) : σ.Confines roots (Action.setDepth n τ) where
  closed ho hpoints := by
    cases hpoints with
    | outer hj => exact h.closed ho (.outer hj)
    | «variable» hb hn => exact h.closed ho (.variable hb hn)
    | captured hid => exact h.closed ho (.captured hid)
    | heap hpoints => exact h.closed ho (.heap hpoints)
  same {o} ho := by
    have hbefore := h.same ho
    cases o <;> exact hbefore
  grows {o} ho := by
    refine h.grows ?_
    cases o <;> exact ho

end Confines

end Store

/-- A run compared with itself, in a store from which it may reach what is open
from the start. -/
def confinement (σ : Store) (roots : List Object) : Simulation where
  World := Unit
  le _ _ := True
  le_refl _ := trivial
  le_trans _ _ := trivial
  rel _ τ τ' := τ' = τ ∧ σ.Confines roots τ
  good _ v := σ.Holds roots v
  good_le _ hv := hv
  sees _ i j := j = i ∧ σ.Open roots (.scope i)
  sees_le _ h := h
  owns _ i j := j = i ∧ σ.Open roots (.scope i)
  owns_le _ h := h
  sees_of_owns h := h
  blocks := False

namespace confinement

variable {σ τ : Store} {roots : List Object} {i : ScopeId} {α : Type}

def Stays (σ : Store) (roots : List Object) (Q : α → Prop) : Outcome α → Prop
  | .done a υ => σ.Confines roots υ ∧ Q a
  | .fail _ υ => σ.Confines roots υ
  | .outOfFuel => True

theorem follows_self {w : (confinement σ roots).World} {m : Action α}
    {Q : (confinement σ roots).World → α → α → Prop}
    (h : ∀ {τ}, σ.Confines roots τ → Stays σ roots (fun a => Q w a a) (m τ)) :
    (confinement σ roots).Follows w m m Q := by
  rintro _ τ ⟨rfl, hτ⟩
  have hrun := h hτ
  cases hm : m τ with
  | done a υ =>
    rw [hm] at hrun
    exact ⟨w, trivial, ⟨rfl, hrun.1⟩, hrun.2⟩
  | fail e υ =>
    rw [hm] at hrun
    exact ⟨rfl, w, trivial, rfl, hrun⟩
  | outOfFuel => trivial

theorem upheld {host : Host} {held : List Value}
    (hhost : ∀ id, (host id).IsLocalTo held)
    (hheld : ∀ v ∈ held, σ.Holds roots v) :
    (confinement σ roots).Upheld host where
  depth_eq h := by rw [h.1]
  setDepth n h := ⟨by rw [h.1], h.2.setDepth n⟩
  plain hv o ho := by simp [Value.object?_of_plain hv] at ho
  lookup x hs := by
    obtain ⟨rfl, hi⟩ := hs
    refine follows_self fun {τ} hτ => ?_
    unfold Action.lookup Scopes.get?
    cases hfirst : τ.scopes.firstBinding? x (τ.scopes.chain _) with
    | none => exact hτ
    | some binding =>
      obtain ⟨hmem, hhere⟩ := Scopes.here?_of_firstBinding? hfirst
      exact ⟨hτ, rfl,
        hτ.holds_of_binding (hτ.chain hi _ hmem) (Bindings.mem_of_find? hhere)⟩
  assign {w i j v} x hs hv := by
    obtain ⟨rfl, hi⟩ := hs
    refine follows_self fun {τ} hτ => ?_
    unfold Action.assign
    cases howner : τ.scopes.owner? j x with
    | none =>
      simp only [howner]
      exact hτ
    | some owner =>
      obtain ⟨binding, hfirst, rfl⟩ := Option.map_eq_some_iff.mp howner
      simp only [howner]
      exact ⟨hτ.define
          (hτ.chain hi _ (Scopes.here?_of_firstBinding? hfirst).1) hv, trivial⟩
  openScope names hs hvs := by
    obtain ⟨rfl, hi⟩ := hs
    refine follows_self fun {τ} hτ => ?_
    have hnew : σ.Open roots (.scope τ.scopes.nextId) :=
      hτ.of_new (Nat.le_refl _)
    exact ⟨(hτ.extend hi).defineAll hnew hvs, rfl, hnew⟩
  define names hs hvs := by
    obtain ⟨rfl, hi⟩ := hs
    exact follows_self fun hτ => ⟨hτ.defineAll hi hvs, trivial⟩
  makeClosure {w c c'} name hc := by
    obtain ⟨hscope, hi⟩ := hc.2.2
    cases hc.eq not_false hscope
    refine follows_self fun {τ} hτ => ⟨hτ.makeClosure (hscope ▸ hi), rfl, ?_⟩
    rintro _ ⟨⟩
    exact hτ.of_new (Nat.le_refl _)
  closure? {w id name} hid := by
    refine follows_self fun {τ} hτ => ⟨hτ, ?_⟩
    cases hc : τ.closures[id]? with
    | none => exact .none
    | some c =>
      exact .some ⟨rfl, .refl _, rfl, hτ.closed (hid _ rfl) (.captured hc)⟩
  makeTable {w t} ht := by
    refine follows_self fun {τ} hτ => ⟨hτ.addTable ht.entries, rfl, ?_⟩
    rintro _ ⟨⟩
    exact hτ.of_new (Nat.le_refl τ.heap.tables.size)
  index {w o} k ho := by
    refine follows_self fun {τ} hτ => ?_
    unfold Action.index
    split
    · next id =>
      refine ⟨hτ, rfl, ?_⟩
      rcases Table.get_eq_nil_or_mem (τ.heap.table id) k with hnil |
          ⟨e, he, heq⟩
      · rw [hnil]
        rintro _ ⟨⟩
      · rw [heq]
        exact fun _ hn => hτ.closed (ho _ rfl) (.heap (.value he hn))
    · exact hτ
  setIndex {w o k v} ho hk hv := by
    refine follows_self fun {τ} hτ => ?_
    simp only [Action.setIndex]
    split
    · split
      · exact ⟨hτ.putEntry (ho _ rfl) _ hk hv, trivial⟩
      · exact hτ
    · exact hτ
  advance {w id} hid := by
    refine follows_self fun {τ} hτ =>
      ⟨hτ.advance (hid _ rfl), rfl, fun row hrow => ?_⟩
    exact Heap.holds_of_advance (P := σ.Open roots)
      (fun o o' ho hpoints => hτ.closed ho (.heap hpoints)) (hid _ rfl) hrow
  native {w args} id hargs := by
    refine follows_self fun {τ} hτ => ?_
    have hvalues := List.forall_mem_append.mpr ⟨hheld, hargs⟩
    have hconfines := hτ.native (hhost id) hvalues
    simp only [Action.native]
    split
    · next v heap heq =>
      rw [heq] at hconfines
      exact ⟨hconfines, rfl, fun o ho =>
          hτ.open_of_known hvalues ((hhost id).result (by rw [heq]) ho)⟩
    · next e heap heq =>
      rw [heq] at hconfines
      exact hconfines
  enter h := h.elim
  enterLeft h := h.elim

theorem keeps {m m' : Action α} {Q : (confinement σ roots).World → α → α → Prop}
    (h : (confinement σ roots).Follows () m m' Q) (hτ : (m σ).store? = some τ) :
    σ.Confines roots τ := by
  obtain ⟨_, _, _, _, hrel⟩ := (h σ σ ⟨rfl, σ.confines_self roots⟩).store? hτ
  exact hrel.2

end confinement

/-- All that there was and that does not lead on from some objects is as it
was. -/
def Store.KeepsBeyond (σ : Store) (roots : List Object) (τ : Store) : Prop :=
  ∀ o, ¬ σ.IsNew o → ¬ σ.Reaches roots o → σ.SameAt τ o

theorem Store.Confines.keepsBeyond {σ τ : Store} {roots : List Object}
    (h : σ.Confines roots τ) :
    σ.KeepsBeyond roots τ :=
  fun _ hold hreach => h.same fun hopen => hopen.elim hold hreach

namespace Machine

/-- However it ends, a run changes nothing that was there and that it cannot
reach from its scope, a call nothing that it cannot reach from the function and
the arguments. So of the scopes of one closure, a call of another closure leaves
those alone that it cannot reach. -/
theorem keeps_beyond_reach {host : Host} (hhost : ∀ id, (host id).IsLocal)
    (limit fuel : Nat) {σ : Store} (hσ : σ.Reachable) :
    let m := Machine.ofFuel host limit fuel
    (∀ e i τ, (m.evalExpr e i σ).store? = some τ → σ.KeepsBeyond [.scope i] τ) ∧
    (∀ s i τ, (m.evalStat s i σ).store? = some τ → σ.KeepsBeyond [.scope i] τ) ∧
    (∀ body i τ, (m.evalBlock body i σ).store? = some τ →
      σ.KeepsBeyond [.scope i] τ) ∧
    (∀ f args τ, (m.call f args σ).store? = some τ →
      σ.KeepsBeyond (objectsOf (f :: args)) τ) ∧
    ∀ a name args τ, (m.call (.ref (.closure a name)) args σ).store? = some τ →
      ∀ c ∈ σ.closures, ∀ i ∈ σ.scopes.chain c.scope,
        ¬ σ.Reaches (.closure a :: objectsOf args) (.scope i) →
          τ.scopes.vars i = σ.scopes.vars i := by
  intro m
  have U : ∀ roots, (confinement σ roots).Upheld host :=
    fun roots => confinement.upheld (fun id => (hhost id).isLocalTo [])
      (List.forall_mem_nil _)
  have hparts : ∀ roots, (confinement σ roots).Parts m m :=
    fun roots =>
      parts_ofFuel (U roots) fuel fuel (Nat.le_refl _) (fun h => h.elim)
  have hupheld : ∀ roots, (confinement σ roots).Upheld m.host := by
    intro roots
    have hm : m.host = host := by cases fuel <;> rfl
    exact hm ▸ U roots
  have hsees : ∀ i, (confinement σ [.scope i]).owns () i i :=
    fun i => ⟨rfl, .inr (Store.reaches_root List.mem_cons_self)⟩
  have hcall : ∀ f args τ, (m.call f args σ).store? = some τ →
      σ.KeepsBeyond (objectsOf (f :: args)) τ := by
    intro f args τ hτ
    have hgood :
        ∀ v ∈ f :: args, (confinement σ (objectsOf (f :: args))).good () v :=
      fun v hv o ho => .inr (Store.reaches_root (mem_objectsOf.mpr ⟨v, hv, ho⟩))
    have hgood := List.forall_mem_cons.mp hgood
    exact (confinement.keeps
      ((hparts _).call (hupheld _) hgood.1 hgood.2) hτ).keepsBeyond
  refine ⟨fun e i τ hτ => ?_, fun s i τ hτ => ?_, fun body i τ hτ => ?_, hcall,
    ?_⟩
  · have hruns := (hparts _).evalExpr (w := ()) (hupheld _) (.refl e) (hsees i)
    exact (confinement.keeps hruns hτ).keepsBeyond
  · have hruns := (hparts _).evalStat (w := ()) (hupheld _) (.refl s) (hsees i)
      fun _ => hsees i
    exact (confinement.keeps hruns hτ).keepsBeyond
  · have hruns := Simulation.evalBlock (U _) (hparts _) (fun h => h.elim)
      (fun h => h.elim) (.refl body) (hsees i)
    exact (confinement.keeps hruns hτ).keepsBeyond
  · intro a name args τ hτ c hc i hi hreach
    have hold : i < σ.scopes.frames.size := by
      have hscope := hσ.closure_scope_lt_size c hc
      rcases List.mem_cons.mp hi with rfl | hi
      · exact hscope
      · exact hσ.outer_lt_size _ i hi
    have hsame := hcall _ args τ hτ (.scope i) (Nat.not_le_of_lt hold) hreach
    unfold Scopes.vars
    rw [show τ.scopes.frames[i]? = σ.scopes.frames[i]? from hsame]

/-- Of two functions made by different calls, one sets the variable of its
own call only. -/
theorem keeps_beyond_reach_siblings :
    let s := Session.start 200 none
    let setter (i : ScopeId) : Closure :=
      ⟨[], [.expr (.assign [.name "n"] [.bool true])], i⟩
    let σ : Store :=
      ⟨(((s.store.scopes.extend 0).define 1 "n" .nil).extend 0).define
          2 "n" .nil,
        #[setter 1, setter 2], s.store.heap, 0⟩
    (∀ id, (s.host id).IsLocal) ∧ σ.Reachable ∧
      ∃ τ, ((Machine.ofFuel s.host 200 5).call (.ref (.closure 0 "f"))
          [] σ).store? = some τ ∧
        τ.scopes.here? 1 "n" = some (.bool true) ∧
          τ.scopes.vars 2 = [("n", .nil)] := by
  intro s setter σ
  have hhost : ∀ id, (s.host id).IsLocal :=
    Session.host_isLocal fun f hf => Session.isLocal_of_mem_start hf
  have hσ : σ.Reachable :=
    (Store.Reachable.start 200 none)
      |>.extend (i := 0) (by decide) |>.define 1 "n" .nil
      |>.extend (i := 0) (by decide) |>.define 2 "n" .nil
      |>.closure (c := setter 1) (by decide)
      |>.closure (c := setter 2) (by decide)
  have hends : ((Machine.ofFuel s.host 200 5).call (.ref (.closure 0 "f"))
          [] σ).store?.any (fun τ => τ.scopes.here? 1 "n" = some (.bool true)) =
      true := by
    decide
  obtain ⟨τ, hτ, hset⟩ := Option.any_eq_true _ _ |>.mp hends
  refine ⟨hhost, hσ, τ, hτ, by simpa using hset, ?_⟩
  have hclosed : ∀ o o', o ∈ [Object.closure 0, .scope 1, .scope 0] →
      σ.Points o o' →
      o' ∈ [Object.closure 0, .scope 1, .scope 0] := by
    intro o o' ho hpoints
    cases hpoints with
    | @outer i j hj =>
      have hi : i = 1 ∨ i = 0 := by simpa using ho
      rcases hi with rfl | rfl
      · have houter : σ.scopes.outer 1 = [0] := by decide
        simp_all
      · have houter : σ.scopes.outer 0 = [] := by decide
        simp_all
    | @«variable» i b o hb hn =>
      have hi : i = 1 ∨ i = 0 := by simpa using ho
      have hnone : ∀ b ∈ σ.scopes.vars 1 ++ σ.scopes.vars 0, b.2.object? =
          none := by decide
      rw [hnone b (by rcases hi with rfl | rfl <;> simp [hb])] at hn
      cases hn
    | @captured id c hc =>
      have hid : id = 0 := by simpa using ho
      subst hid
      cases hc
      decide
    | heap hpoints => cases hpoints <;> simp at ho
  have hreach : ¬ σ.Reaches (.closure 0 :: objectsOf []) (.scope 2) := fun h =>
    absurd (h.within (P := (· ∈ [Object.closure 0, .scope 1, .scope 0]))
        (by decide) hclosed) (by decide)
  exact (keeps_beyond_reach hhost 200 5 hσ).2.2.2.2 0 "f" [] τ hτ (setter 2)
    (by simp [σ]) 2 List.mem_cons_self hreach

end Machine

end LuaCore
