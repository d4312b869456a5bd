import LuaCore.Proofs.Scope.Locality
import LuaCore.Proofs.Store.Sound

namespace LuaCore

open LuaCore.Action LuaCore.Simulation LuaCore.Store

/-- The value refers to nothing or to one of these objects. -/
def Value.Within (P : Object → Prop) (v : Value) : Prop :=
  ∀ o, v.object? = some o → P o

def Heap.Contains (h : Heap) (o : Object) : Prop := ¬ h.IsNew o

def Store.Contains (σ : Store) (o : Object) : Prop := ¬ σ.IsNew o

structure Heap.Complete (h : Heap) : Prop where
  coherent : ∀ id, (h.table id).Coherent
  points : ∀ {o o'}, h.Points o o' → h.Contains o'

/-- The store is complete, and contains what the functions of the host
hold on to. -/
structure Store.Complete (σ : Store) (held : List Value) : Prop where
  coherent : ∀ id, (σ.heap.table id).Coherent
  points : ∀ {o o'}, σ.Points o o' → σ.Contains o'
  held : ∀ v ∈ held, v.Within σ.Contains

/-- The function makes every object that it refers to unless it was there, and
changes tables by stores only. -/
def Native.KeepsComplete (held : List Value) (f : Native) : Prop :=
  ∀ args h, h.Complete → (∀ v ∈ held ++ args, v.Within h.Contains) →
    (f args h).2.Complete ∧
      ∀ v, (f args h).1 = .ok v → v.Within (f args h).2.Contains

namespace Value.Within

variable {P P' : Object → Prop} {v : Value}

theorem of_plain (hv : ∀ r, v ≠ .ref r) : v.Within P := by
  intro o ho
  simp [Value.object?_of_plain hv] at ho

theorem of_native (id : Nat) (name : String) :
    (Value.ref (.native id name)).Within P :=
  nofun

theorem mono (hv : v.Within P) (hP : ∀ o, P o → P' o) : v.Within P' :=
  fun o ho => hP o (hv o ho)

end Value.Within

namespace Heap

variable {h : Heap} {v key : Value} {o : Object}

theorem contains_iterator {id : Nat} :
    h.Contains (.iterator id) ↔ id < h.iterators.size :=
  Nat.not_le

theorem has_of_within (hv : v.Within h.Contains) : h.Has v :=
  fun _ hid => contains_iterator.mp (hv _ hid)

theorem isNew_addIterator {it : Iterator} (hnew : (h.addIterator it).IsNew o) :
    h.IsNew o := by
  cases o with
  | iterator id => exact Nat.le_trans (by simp [addIterator]) hnew
  | _ => exact hnew

theorem isNew_output {output : Output}
    (hnew : IsNew { h with output := output } o) :
    h.IsNew o := by
  cases o <;> exact hnew

namespace Complete

variable (hc : h.Complete)
include hc

theorem toSound : h.Sound :=
  ⟨hc.coherent, fun hpoints => contains_iterator.mp (hc.points hpoints)⟩

theorem addTable {t : Table} (ht : t.Coherent)
    (hentries : ∀ e ∈ t.entries, e.1.Within h.Contains ∧
      e.2.Within h.Contains) :
    (h.addTable t).Complete where
  coherent := (hc.toSound.addTable ht fun e he =>
    ⟨has_of_within (hentries e he).1, has_of_within (hentries e he).2⟩).coherent
  points hpoints := by
    refine mt isNew_addTable ?_
    rcases points_addTable hpoints with hold | ⟨e, he, hn | hn⟩
    · exact hc.points hold
    · exact (hentries e he).1 _ hn
    · exact (hentries e he).2 _ hn

theorem putEntry (id : Nat) {k : Key} (hk : Key.ofValue key = .ok k)
    (hkey : key.Within h.Contains) (hv : v.Within h.Contains) :
    (h.putEntry id k key v).Complete where
  coherent :=
    (hc.toSound.putEntry id hk (has_of_within hkey) (has_of_within hv)).coherent
  points hpoints := by
    refine mt isNew_putEntry ?_
    rcases points_putEntry hpoints with hold | hn | hn
    · exact hc.points hold
    · exact hkey _ hn
    · exact hv _ hn

theorem addIterator {it : Iterator} (hit : ∀ o, it.Holds o → h.Contains o) :
    (h.addIterator it).Complete where
  coherent := hc.coherent
  points hpoints := by
    refine mt isNew_addIterator ?_
    rcases points_addIterator hpoints with hold | ⟨-, hholds⟩
    · exact hc.points hold
    · exact hit _ hholds

theorem advance (id : Nat) : (h.advance id).2.Complete where
  coherent := (hc.toSound.advance id).coherent
  points hpoints := mt isNew_advance (hc.points (points_advance hpoints))

theorem output (output : Output) :
    Heap.Complete { h with output := output } where
  coherent := hc.coherent
  points hpoints := mt isNew_output (hc.points (points_output hpoints))

end Complete

end Heap

namespace Store

variable {σ : Store} {o : Object} {i : ScopeId} {x : String} {v : Value}

theorem isNew_of_heap (hnew : σ.heap.IsNew o) : σ.IsNew o := by
  cases o with
  | table | iterator => exact hnew
  | _ => exact hnew.elim

theorem isNew_withHeap {h : Heap} (hgrows : ∀ {o}, h.IsNew o → σ.heap.IsNew o)
    (hnew : IsNew { σ with heap := h } o) : σ.IsNew o := by
  cases o with
  | table id => exact hgrows (o := .table id) hnew
  | iterator id => exact hgrows (o := .iterator id) hnew
  | _ => exact hnew

theorem contains_withHeap {h h' : Heap} (hnew : h.IsNew o)
    (ho : h'.Contains o) :
    Contains { σ with heap := h' } o := by
  cases o with
  | table | iterator => exact ho
  | _ => exact hnew.elim

theorem contains_scope : σ.Contains (.scope i) ↔ i < σ.scopes.frames.size :=
  Nat.not_le

theorem isNew_define :
    IsNew { σ with scopes := σ.scopes.define i x v } o ↔ σ.IsNew o := by
  cases o with
  | scope j => simp [IsNew]
  | _ => exact .rfl

theorem isNew_extend (hnew : IsNew { σ with scopes := σ.scopes.extend i } o) :
    σ.IsNew o := by
  cases o with
  | scope j => exact Nat.le_trans (by simp) hnew
  | _ => exact hnew

theorem isNew_makeClosure {c : Closure}
    (hnew : IsNew { σ with closures := σ.closures.push c } o) :
    σ.IsNew o := by
  cases o with
  | closure id => exact Nat.le_trans (by simp) hnew
  | _ => exact hnew

theorem isNew_setDepth {n : Nat} (hnew : (Action.setDepth n σ).IsNew o) :
    σ.IsNew o := by
  cases o <;> exact hnew

theorem isNew_defineAll {xs : List String} {vs : List Value} :
    IsNew { σ with scopes := σ.scopes.defineAll i xs vs } o ↔ σ.IsNew o := by
  induction xs generalizing σ vs with
  | nil => exact .rfl
  | cons x xs ih => cases vs <;> exact ih.trans isNew_define

namespace Complete

variable {held : List Value} (hc : σ.Complete held)
include hc

theorem toHeap : σ.heap.Complete :=
  ⟨hc.coherent,
    fun hpoints hnew => hc.points (.heap hpoints) (isNew_of_heap hnew)⟩

theorem toSound : σ.Sound held where
  coherent := hc.coherent
  points hpoints := Nat.not_le.mp (hc.points hpoints)
  held v hv _ hid := Nat.not_le.mp (hc.held v hv _ hid)

/-- A store with all these objects, in which everything leads to what there
is. -/
theorem of_grown {τ : Store} (hcoherent : ∀ id, (τ.heap.table id).Coherent)
    (hpoints : ∀ {o o'}, τ.Points o o' → τ.Contains o')
    (hgrows : ∀ {o}, τ.IsNew o → σ.IsNew o) :
    τ.Complete held where
  coherent := hcoherent
  points := hpoints
  held v hv := (hc.held v hv).mono fun _ => mt hgrows

theorem define (hv : v.Within σ.Contains) :
    Complete { σ with scopes := σ.scopes.define i x v } held :=
  hc.of_grown hc.coherent (fun hpoints => mt isNew_define.mp
      ((points_define hpoints).elim hc.points (hv _))) isNew_define.mp

theorem defineAll {xs : List String} {vs : List Value}
    (hvs : ∀ v ∈ vs, v.Within σ.Contains) :
    Complete { σ with scopes := σ.scopes.defineAll i xs vs } held := by
  induction xs generalizing σ vs with
  | nil => exact hc
  | cons x xs ih =>
    cases vs with
    | nil => exact ih (hc.define (.of_plain (by simp))) (List.forall_mem_nil _)
    | cons v vs =>
      have hvs := List.forall_mem_cons.mp hvs
      exact ih (hc.define hvs.1) fun w hw => (hvs.2 w hw).mono fun _ =>
        mt isNew_define.mp

theorem extend (hi : σ.Contains (.scope i)) :
    Complete { σ with scopes := σ.scopes.extend i } held := by
  refine hc.of_grown hc.coherent
    (fun hpoints => mt isNew_extend ?_) isNew_extend
  rcases points_extend hpoints with hold | ⟨j, hj, rfl⟩
  · exact hc.points hold
  · rcases List.mem_cons.mp hj with rfl | hj
    · exact hi
    · exact hc.points (.outer hj)

theorem makeClosure {c : Closure} (hscope : σ.Contains (.scope c.scope)) :
    Complete { σ with closures := σ.closures.push c } held := by
  refine hc.of_grown hc.coherent
    (fun hpoints => mt isNew_makeClosure ?_) isNew_makeClosure
  rcases points_makeClosure hpoints with hold | rfl
  · exact hc.points hold
  · exact hscope

theorem setDepth (n : Nat) : (Action.setDepth n σ).Complete held where
  coherent := hc.coherent
  points hpoints := by
    refine mt isNew_setDepth ?_
    cases hpoints with
    | outer hj => exact hc.points (.outer hj)
    | «variable» hb hn => exact hc.points (.variable hb hn)
    | captured hid => exact hc.points (.captured hid)
    | heap hpoints => exact hc.points (.heap hpoints)
  held v hv := (hc.held v hv).mono fun _ => mt isNew_setDepth

/-- Another heap that is complete, has all the objects of the one before, and
leads to no other function or scope. -/
theorem heap {h : Heap} (hh : h.Complete)
    (hgrows : ∀ {o}, h.IsNew o → σ.heap.IsNew o)
    (hpoints : ∀ {o o'}, h.Points o o' → σ.heap.IsNew o' ∨ σ.Contains o') :
    Complete { σ with heap := h } held := by
  refine hc.of_grown hh.coherent (fun hp => ?_) (isNew_withHeap hgrows)
  cases hp with
  | outer hj => exact mt (isNew_withHeap hgrows) (hc.points (.outer hj))
  | «variable» hb hn =>
    exact mt (isNew_withHeap hgrows) (hc.points (.variable hb hn))
  | captured hid => exact mt (isNew_withHeap hgrows) (hc.points (.captured hid))
  | heap hp =>
    rcases hpoints hp with hnew | hold
    · exact contains_withHeap hnew (hh.points hp)
    · exact mt (isNew_withHeap hgrows) hold

theorem addTable {t : Table} (ht : t.Coherent)
    (hentries : ∀ e ∈ t.entries, e.1.Within σ.Contains ∧
      e.2.Within σ.Contains) :
    Complete { σ with heap := σ.heap.addTable t } held := by
  have hheap : (σ.heap.addTable t).Complete := hc.toHeap.addTable ht fun e he =>
    ⟨(hentries e he).1.mono fun _ => mt isNew_of_heap,
      (hentries e he).2.mono fun _ => mt isNew_of_heap⟩
  refine hc.heap hheap Heap.isNew_addTable fun hpoints => .inr ?_
  rcases Heap.points_addTable hpoints with hold | ⟨e, he, hn | hn⟩
  · exact hc.points (.heap hold)
  · exact (hentries e he).1 _ hn
  · exact (hentries e he).2 _ hn

theorem putEntry (id : Nat) {k : Key} {key : Value}
    (hk : Key.ofValue key = .ok k) (hkey : key.Within σ.Contains)
    (hv : v.Within σ.Contains) :
    Complete { σ with heap := σ.heap.putEntry id k key v } held := by
  have hheap : (σ.heap.putEntry id k key v).Complete := hc.toHeap.putEntry id hk
    (hkey.mono fun _ => mt isNew_of_heap) (hv.mono fun _ => mt isNew_of_heap)
  refine hc.heap hheap Heap.isNew_putEntry fun hpoints => .inr ?_
  rcases Heap.points_putEntry hpoints with hold | hn | hn
  · exact hc.points (.heap hold)
  · exact hkey _ hn
  · exact hv _ hn

theorem advance (id : Nat) :
    Complete { σ with heap := (σ.heap.advance id).2 } held :=
  hc.heap (hc.toHeap.advance id) Heap.isNew_advance fun hpoints =>
    .inr (hc.points (.heap (Heap.points_advance hpoints)))

end Complete

end Store

/-- The functions hold on to these values, touch nothing else on their own
account, and make no references up. -/
structure Host.Complete (host : Host) (held : List Value) : Prop where
  isLocalTo : ∀ id, (host id).IsLocalTo held
  keepsComplete : ∀ id, (host id).KeepsComplete held

/-- What a function of the host leaves is complete as a store, too: it knows of
no function and no scope but those that its arguments lead to. -/
theorem Store.Complete.native {σ : Store} {held args : List Value} {f : Native}
    (hc : σ.Complete held) (hlocal : f.IsLocalTo held)
    (hkeeps : f.KeepsComplete held) (hargs : ∀ v ∈ args, v.Within σ.Contains) :
    let τ : Store := { σ with heap := (f args σ.heap).2 }
    τ.Complete held ∧ (∀ o, σ.Contains o → τ.Contains o) ∧
      ∀ v, (f args σ.heap).1 = .ok v → v.Within τ.Contains := by
  intro τ
  have hknown : ∀ v ∈ held ++ args, v.Within σ.Contains := by
    intro v hv
    rcases List.mem_append.mp hv with hv | hv
    · exact hc.held v hv
    · exact hargs v hv
  have hopen : ∀ {o}, σ.heap.Known (held ++ args) o →
      σ.heap.IsNew o ∨ σ.Contains o := by
    rintro o (hnew | ⟨r, hr, hpath⟩)
    · exact .inl hnew
    · obtain ⟨v, hv, hn⟩ := mem_objectsOf.mp hr
      cases hpath with
      | refl => exact .inr (hknown v hv _ hn)
      | tail _ hpoints => exact .inr (hc.points (.heap hpoints))
  obtain ⟨hheap, hresult⟩ := hkeeps args σ.heap hc.toHeap fun v hv =>
    (hknown v hv).mono fun o => mt isNew_of_heap
  have hgrows : ∀ {o}, τ.IsNew o → σ.IsNew o := isNew_withHeap hlocal.grows
  refine ⟨hc.heap hheap hlocal.grows ?_, fun o => mt hgrows,
    fun v hv o ho => ?_⟩
  · intro o o' hpoints
    by_cases ho : σ.heap.Known (held ++ args) o
    · exact hopen (hlocal.closed ho hpoints)
    · exact .inr (hc.points (.heap ((hlocal.keeps ho).points hpoints)))
  · rcases hopen (hlocal.result hv ho) with hnew | hold
    · exact Store.contains_withHeap hnew (hresult v hv o ho)
    · exact mt hgrows hold

/-- A run compared with itself in complete stores, which contain at least
these objects. -/
def completeness (held : List Value) : Simulation where
  World := Object → Prop
  le P P' := ∀ o, P o → P' o
  le_refl _ _ h := h
  le_trans h h' o ho := h' o (h o ho)
  rel P σ σ' := σ' = σ ∧ σ.Complete held ∧ ∀ o, P o → σ.Contains o
  good P v := v.Within P
  good_le hle hv := hv.mono hle
  sees P i j := j = i ∧ P (.scope i)
  sees_le hle h := ⟨h.1, hle _ h.2⟩
  owns P i j := j = i ∧ P (.scope i)
  owns_le hle h := ⟨h.1, hle _ h.2⟩
  sees_of_owns h := h
  blocks := False

namespace completeness

variable {held : List Value} {P : Object → Prop} {α : Type}

def Stays (held : List Value) (P : Object → Prop)
    (Q : (Object → Prop) → α → Prop) : Outcome α → Prop
  | .done a τ => τ.Complete held ∧ (∀ o, P o → τ.Contains o) ∧ Q τ.Contains a
  | .fail _ τ => τ.Complete held ∧ ∀ o, P o → τ.Contains o
  | .outOfFuel => True

theorem follows_self {m : Action α} {Q : (Object → Prop) → α → α → Prop}
    (h : ∀ {τ : Store}, τ.Complete held → (∀ o, P o → τ.Contains o) →
      Stays held P (fun P a => Q P a a) (m τ)) :
    (completeness held).Follows P m m Q := by
  rintro _ τ ⟨rfl, hτ, hP⟩
  have hrun := h hτ hP
  cases hm : m τ with
  | done a υ =>
    rw [hm] at hrun
    exact ⟨υ.Contains, hrun.2.1, ⟨rfl, hrun.1, fun _ ho => ho⟩, hrun.2.2⟩
  | fail e υ =>
    rw [hm] at hrun
    exact ⟨rfl, P, fun _ ho => ho, rfl, hrun⟩
  | outOfFuel => trivial

theorem upheld {host : Host} (hhost : host.Complete held) :
    (completeness held).Upheld host where
  depth_eq h := by rw [h.1]
  setDepth n h := by
    obtain ⟨rfl, hτ, hP⟩ := h
    exact ⟨rfl, hτ.setDepth n, fun o ho => mt isNew_setDepth (hP o ho)⟩
  plain hv := Value.Within.of_plain hv
  lookup x hs := by
    obtain ⟨rfl, -⟩ := hs
    refine follows_self fun {τ} hτ hP => ?_
    unfold Action.lookup Scopes.get?
    cases hfirst : τ.scopes.firstBinding? x (τ.scopes.chain _) with
    | none => exact ⟨hτ, hP⟩
    | some binding =>
      obtain ⟨-, hhere⟩ := Scopes.here?_of_firstBinding? hfirst
      exact ⟨hτ, hP, rfl,
        fun o ho => hτ.points (.variable (Bindings.mem_of_find? hhere) ho)⟩
  assign {P i j v} x hs hv := by
    obtain ⟨rfl, -⟩ := hs
    refine follows_self fun {τ} hτ hP => ?_
    unfold Action.assign
    cases howner : τ.scopes.owner? j x with
    | none =>
      simp only [howner]
      exact ⟨hτ, hP⟩
    | some owner =>
      simp only [howner]
      exact ⟨hτ.define (hv.mono hP), fun o ho => mt isNew_define.mp (hP o ho),
        trivial⟩
  openScope {P i j vs} names hs hvs := by
    obtain ⟨rfl, hi⟩ := hs
    refine follows_self fun {τ} hτ hP => ?_
    let υ : Store := { τ with scopes := τ.scopes.extend j }
    have hυ : ∀ o, P o → υ.Contains o := fun o ho => mt isNew_extend (hP o ho)
    have hnext : υ.Contains (.scope τ.scopes.nextId) :=
      contains_scope.mpr (by simp [υ, Scopes.nextId])
    have hdefined : ∀ o, υ.Contains o →
        Store.Contains
          { υ with scopes := υ.scopes.defineAll τ.scopes.nextId names vs } o :=
      fun o => mt isNew_defineAll.mp
    exact ⟨(hτ.extend (hP _ hi)).defineAll fun v hv => (hvs v hv).mono hυ,
      fun o ho => hdefined o (hυ o ho), rfl, hdefined _ hnext⟩
  define names hs hvs := by
    obtain ⟨rfl, -⟩ := hs
    exact follows_self fun hτ hP =>
      ⟨hτ.defineAll fun v hv => (hvs v hv).mono hP,
        fun o ho => mt isNew_defineAll.mp (hP o ho), trivial⟩
  makeClosure name hc := by
    cases hc.eq not_false hc.2.2.1
    refine follows_self fun {τ} hτ hP => ⟨hτ.makeClosure (hP _ hc.2.2.2),
      fun o ho => mt isNew_makeClosure (hP o ho), rfl, ?_⟩
    rintro _ ⟨⟩
    simp [Store.Contains, Store.IsNew]
  closure? {P id name} hid := by
    refine follows_self fun {τ} hτ hP => ⟨hτ, hP, ?_⟩
    cases hc : τ.closures[id]? with
    | none => exact .none
    | some c => exact .some ⟨rfl, .refl _, rfl, hτ.points (.captured hc)⟩
  makeTable {P t} ht := by
    refine follows_self fun {τ} hτ hP => ?_
    have hentries : ∀ e ∈ t.entries, e.1.Within τ.Contains ∧
        e.2.Within τ.Contains :=
      fun e he => ⟨(ht.entries e he).1.mono hP, (ht.entries e he).2.mono hP⟩
    refine ⟨hτ.addTable ht.coherent hentries,
      fun o ho => mt (isNew_withHeap Heap.isNew_addTable) (hP o ho), rfl, ?_⟩
    rintro _ ⟨⟩
    simp [Store.Contains, Store.IsNew, Heap.IsNew, Heap.addTable]
  index {P o} k ho := by
    refine follows_self fun {τ} hτ hP => ?_
    unfold Action.index
    split
    · next id =>
      refine ⟨hτ, hP, rfl, fun o' ho' => ?_⟩
      rcases Table.get_eq_nil_or_mem (τ.heap.table id) k with hnil |
          ⟨e, he, heq⟩
      · rw [hnil] at ho'
        cases ho'
      · exact hτ.points (.heap (.value he (heq ▸ ho')))
    · exact ⟨hτ, hP⟩
  setIndex {P o k v} ho hk hv := by
    refine follows_self fun {τ} hτ hP => ?_
    simp only [Action.setIndex]
    split
    · next id =>
      split
      · next hkey =>
        exact ⟨hτ.putEntry id hkey (hk.mono hP) (hv.mono hP),
          fun o ho => mt (isNew_withHeap Heap.isNew_putEntry) (hP o ho),
          trivial⟩
      · exact ⟨hτ, hP⟩
    · exact ⟨hτ, hP⟩
  advance {P id} hid := by
    refine follows_self fun {τ} hτ hP => ?_
    have hgrows : ∀ o, τ.Contains o →
        Store.Contains { τ with heap := (τ.heap.advance id).2 } o :=
      fun o => mt (isNew_withHeap Heap.isNew_advance)
    refine ⟨hτ.advance id, fun o ho => hgrows o (hP o ho), rfl,
      fun row hrow v hv o ho => hgrows o ?_⟩
    exact Heap.holds_of_advance (P := τ.Contains) (fun _ _ _ hpoints =>
        hτ.points (.heap hpoints)) (hP _ (hid _ rfl)) hrow v hv o ho
  native {P args} id hargs := by
    refine follows_self fun {τ} hτ hP => ?_
    obtain ⟨hcomplete, hgrows, hresult⟩ :=
      hτ.native (hhost.isLocalTo id) (hhost.keepsComplete id) fun v hv =>
        (hargs v hv).mono hP
    simp only [Action.native]
    split
    · next v heap heq =>
      rw [heq] at hcomplete hgrows hresult
      exact ⟨hcomplete, fun o ho => hgrows o (hP o ho), rfl, hresult v rfl⟩
    · next e heap heq =>
      rw [heq] at hcomplete hgrows
      exact ⟨hcomplete, fun o ho => hgrows o (hP o ho)⟩
  enter h := h.elim
  enterLeft h := h.elim

theorem keeps {m m' : Action α} {Q : (Object → Prop) → α → α → Prop}
    {σ τ : Store} (hσ : σ.Complete held)
    (h : (completeness held).Follows σ.Contains m m' Q)
    (hτ : (m σ).store? = some τ) :
    τ.Complete held := by
  obtain ⟨_, _, _, _, hrel⟩ := (h σ σ ⟨rfl, hσ, fun _ ho => ho⟩).store? hτ
  exact hrel.2.1

end completeness

theorem Machine.keeps_complete {host : Host} {held : List Value}
    (hhost : host.Complete held) (limit fuel : Nat) {σ : Store}
    (hσ : σ.Complete held) {scope : ScopeId}
    (hscope : σ.Contains (.scope scope)) :
    let m := Machine.ofFuel host limit fuel
    (∀ e τ, (m.expr e scope σ).store? = some τ → τ.Complete held) ∧
    (∀ body τ, (m.block body scope σ).store? = some τ → τ.Complete held) := by
  intro m
  have hparts : (completeness held).Parts m m :=
    parts_ofFuel (completeness.upheld hhost) fuel fuel (Nat.le_refl _)
      fun h => h.elim
  exact ⟨fun e τ => completeness.keeps hσ (hparts.expr (.refl e) ⟨rfl, hscope⟩),
    fun body τ =>
      completeness.keeps hσ (hparts.block (.refl body) ⟨rfl, hscope⟩)⟩

namespace Native

variable {held held' : List Value} {f : Native}

theorem KeepsComplete.mono (h : f.KeepsComplete held)
    (hsub : ∀ v ∈ held, v ∈ held') :
    f.KeepsComplete held' := by
  refine fun args heap hheap hargs => h args heap hheap fun v hv => hargs v ?_
  exact List.mem_append.mpr ((List.mem_append.mp hv).imp_left (hsub v))

theorem keepsComplete_idle : idle.KeepsComplete held :=
  fun _ _ hh _ => ⟨hh, by rintro _ ⟨⟩; exact .of_plain (by simp)⟩

theorem keepsComplete_print : print.KeepsComplete held := by
  intro args h hh _
  unfold print Heap.printLine
  split
  · exact ⟨hh.output _, by rintro _ ⟨⟩; exact .of_plain (by simp)⟩
  · exact ⟨hh, by simp⟩

theorem keepsComplete_of_newIterator {name : String}
    (it : Heap → Nat → Iterator)
    (hit : ∀ h id o, (it h id).Holds o →
      o = .table id ∨ h.Points (.table id) o) :
    KeepsComplete held fun args h =>
      match tableArgument name args with
      | .ok id => newIterator h (it h id)
      | .error e => (.error e, h) := by
  intro args h hh hargs
  dsimp only
  split
  · next id hid =>
    have htable : h.Contains (.table id) := by
      unfold tableArgument at hid
      split at hid <;> cases hid
      exact hargs _ (List.mem_append_right _ List.mem_cons_self) _ rfl
    have hholds : ∀ o, (it h id).Holds o → h.Contains o := by
      intro o ho
      rcases hit h id o ho with rfl | hpoints
      · exact htable
      · exact hh.points hpoints
    refine ⟨hh.addIterator hholds, ?_⟩
    rintro _ ⟨⟩ _ ⟨⟩
    simp [Heap.Contains, Heap.IsNew, newIterator, Heap.addIterator]
  · exact ⟨hh, by simp⟩

theorem builtin_keepsComplete {name : String} (hf : (name, f) ∈ builtins) :
    f.KeepsComplete held := by
  rcases eq_of_mem_builtins hf with rfl | rfl | rfl
  · exact keepsComplete_print
  · exact keepsComplete_of_newIterator _ pairs_holds
  · exact keepsComplete_of_newIterator _ ipairs_holds

end Native

/-- The sessions in which the functions of the host hold on to these values, in
whichever order the host made them known, and make no references up. -/
inductive Session.Complete : List Value → Session → Prop
  | start (limit : Nat) (failure : Option String) :
      Complete [] (.start limit failure)
  | register {held more : List Value} {s : Session} {f : Native} (name : String)
      (hs : Complete held s) (hmore : ∀ v ∈ more, v.Within s.store.Contains)
      (hlocal : f.IsLocalTo (more ++ held))
      (hkeeps : f.KeepsComplete (more ++ held)) :
      Complete (more ++ held) (s.register name f)
  | addIterator {held : List Value} {s : Session} {it : Iterator}
      (hs : Complete held s) (hit : ∀ o, it.Holds o → s.store.Contains o) :
      Complete held (s.addIterator it).2
  | takeOutput {held : List Value} {s : Session} (hs : Complete held s) :
      Complete held s.takeOutput.2
  | interpret {held : List Value} {s : Session} (fuel : Nat) (c : Chunk)
      (hs : Complete held s) :
      Complete held (s.interpret fuel c).2

theorem Session.interpret_unfinished {s : Session} {fuel : Nat} {c : Chunk}
    (h : (s.interpret fuel c).1 = .unfinished) :
    (s.interpret fuel c).2 = s := by
  unfold interpret at h ⊢
  split at h
  · cases h
  · cases h
  · rfl

namespace Session.Complete

variable {held : List Value} {s : Session}

theorem natives (hs : s.Complete held) :
    ∀ f ∈ s.natives, f.IsLocalTo held ∧ f.KeepsComplete held := by
  induction hs with
  | start limit failure =>
    intro f hf
    obtain ⟨name, hname⟩ := mem_natives_start hf
    exact ⟨(Native.isLocal_of_builtins hname).isLocalTo [],
      Native.builtin_keepsComplete hname⟩
  | @register held more s f name _ _ hlocal hkeeps ih =>
    intro g hg
    rcases Array.mem_push.mp hg with hold | rfl
    · have hsub : ∀ v ∈ held, v ∈ more ++ held :=
        fun v hv => List.mem_append_right _ hv
      exact ⟨(ih g hold).1.mono hsub, (ih g hold).2.mono hsub⟩
    · exact ⟨hlocal, hkeeps⟩
  | addIterator _ _ ih => exact ih
  | takeOutput _ ih => exact ih
  | interpret fuel c _ ih => rwa [natives_interpret]

theorem host (hs : s.Complete held) : s.host.Complete held := by
  have hboth : ∀ id, (s.host id).IsLocalTo held ∧
      (s.host id).KeepsComplete held := by
    intro id
    rcases s.host_eq_or_mem id with hidle | hmem
    · rw [hidle]
      exact ⟨Native.isLocal_idle.isLocalTo held, Native.keepsComplete_idle⟩
    · exact hs.natives _ hmem
  exact ⟨fun id => (hboth id).1, fun id => (hboth id).2⟩

theorem reachable (hs : s.Complete held) : s.Reachable := by
  induction hs with
  | start limit failure => exact .start limit failure
  | register name _ _ _ _ ih => exact ih.register name _
  | addIterator _ _ ih => exact ih.addIterator _
  | takeOutput _ ih => exact ih.takeOutput
  | interpret fuel c _ ih => exact ih.interpret fuel c

theorem store (hs : s.Complete held) : s.store.Complete held := by
  induction hs with
  | start limit failure =>
    have hempty : Store.Complete ⟨.root, #[], .empty failure, 0⟩ [] := by
      refine ⟨fun id => ?_,
        fun hpoints => absurd hpoints Store.not_points_blank,
        List.forall_mem_nil _⟩
      simpa [Heap.empty, Heap.table] using Table.empty_coherent
    have hnative : ∀ {σ : Store} {x : String} (id : Nat), σ.Complete [] →
        Store.Complete
          { σ with
            scopes := σ.scopes.define Scopes.rootId x (.ref (.native id x)) }
          [] :=
      fun id hσ => hσ.define (.of_native id _)
    exact hnative 2 (hnative 1 (hnative 0 hempty))
  | @register held more s f name _ hmore _ _ ih =>
    have hheld : s.store.Complete (more ++ held) :=
      ⟨ih.coherent, ih.points, List.forall_mem_append.mpr ⟨hmore, ih.held⟩⟩
    exact hheld.define (.of_native _ name)
  | addIterator _ hit ih =>
    have hheap := ih.toHeap.addIterator fun o ho => mt isNew_of_heap (hit o ho)
    exact ih.heap hheap Heap.isNew_addIterator fun hpoints => .inr <| by
      rcases Heap.points_addIterator hpoints with hold | ⟨-, hholds⟩
      · exact ih.points (.heap hold)
      · exact hit _ hholds
  | takeOutput _ ih =>
    exact ih.heap (ih.toHeap.output _) Heap.isNew_output fun hpoints =>
      .inr (ih.points (.heap (Heap.points_output hpoints)))
  | @interpret held s fuel c hs ih =>
    have hroot : s.store.Contains (.scope Scopes.rootId) :=
      contains_scope.mpr hs.reachable.store.rootId_lt_size
    by_cases hend : (s.interpret fuel c).1 = .unfinished
    · rw [interpret_unfinished hend]
      exact ih
    · obtain ⟨-, _, τ, _, ⟨-, hτ, -⟩, hafter, -⟩ :=
        Simulation.interpret (S := completeness held) (w := s.store.Contains)
          (completeness.upheld hs.host) (Nat.le_refl fuel) (fun h => h.elim)
          (.refl c.body) ⟨rfl, hroot⟩ ⟨rfl, ih, fun _ ho => ho⟩ hend
      rw [hafter]
      exact hτ

end Session.Complete

end LuaCore
