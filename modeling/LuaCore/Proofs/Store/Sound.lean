import LuaCore.Proofs.Simulation.Fuel
import LuaCore.Proofs.Store.Confined

namespace LuaCore

open LuaCore.Action LuaCore.Simulation

def Value.Below (n : Nat) (v : Value) : Prop :=
  ∀ id, v.object? = some (.iterator id) → id < n

abbrev Heap.Has (h : Heap) (v : Value) : Prop := v.Below h.iterators.size

structure Heap.Sound (h : Heap) : Prop where
  coherent : ∀ id, (h.table id).Coherent
  points : ∀ {o id}, h.Points o (.iterator id) → id < h.iterators.size

/-- The store is sound, and so are the values that the functions of the host
hold on to. -/
structure Store.Sound (σ : Store) (held : List Value) : Prop where
  coherent : ∀ id, (σ.heap.table id).Coherent
  points : ∀ {o id}, σ.Points o (.iterator id) → id < σ.heap.iterators.size
  held : ∀ v ∈ held, σ.heap.Has v

/-- The function makes no references up and changes tables by stores only. -/
def Native.KeepsSound (held : List Value) (f : Native) : Prop :=
  ∀ args h, h.Sound → (∀ v ∈ held ++ args, h.Has v) →
    (f args h).2.Sound ∧ h.iterators.size ≤ (f args h).2.iterators.size ∧
      ∀ v, (f args h).1 = .ok v → (f args h).2.Has v

namespace Value.Below

variable {n n' : Nat} {v : Value}

theorem of_plain (hv : ∀ r, v ≠ .ref r) : v.Below n := by
  intro id hid
  simp [Value.object?_of_plain hv] at hid

theorem mono (hv : v.Below n) (hle : n ≤ n') : v.Below n' :=
  fun id hid => Nat.lt_of_lt_of_le (hv id hid) hle

theorem of_native (id : Nat) (name : String) :
    (Value.ref (.native id name)).Below n := by
  rintro _ ⟨⟩

end Value.Below

namespace Heap

variable {h : Heap} {v key : Value}

namespace Sound

variable (hs : h.Sound)
include hs

theorem addTable {t : Table} (ht : t.Coherent)
    (hentries : ∀ e ∈ t.entries, h.Has e.1 ∧ h.Has e.2) :
    (h.addTable t).Sound where
  coherent id := by
    rw [table_addTable]
    split
    · exact ht
    · exact hs.coherent id
  points {o id} hpoints := by
    rcases points_addTable hpoints with hold | ⟨e, he, hn | hn⟩
    · exact hs.points hold
    · exact (hentries e he).1 id hn
    · exact (hentries e he).2 id hn

theorem putEntry (id : Nat) {k : Key} (hk : Key.ofValue key = .ok k)
    (hkey : h.Has key) (hv : h.Has v) :
    (h.putEntry id k key v).Sound where
  coherent id' := by
    simp only [table, Heap.putEntry, Array.getD_eq_getD_getElem?,
      Array.getElem?_modify]
    split
    · next heq =>
      subst heq
      have hold := hs.coherent id
      rw [table, Array.getD_eq_getD_getElem?] at hold
      cases hid : h.tables[id]? with
      | none => exact Table.empty_coherent
      | some t =>
        rw [hid] at hold
        exact Table.put_coherent hold hk
    · have hold := hs.coherent id'
      rwa [table, Array.getD_eq_getD_getElem?] at hold
  points {o id'} hpoints := by
    rcases points_putEntry hpoints with hold | hn | hn
    · exact hs.points hold
    · exact hkey id' hn
    · exact hv id' hn

theorem addIterator {it : Iterator}
    (hit : ∀ id, it.Holds (.iterator id) → id < h.iterators.size) :
    (h.addIterator it).Sound where
  coherent := hs.coherent
  points {o id} hpoints := by
    have hlt : id < h.iterators.size := by
      rcases points_addIterator hpoints with hold | ⟨-, hholds⟩
      · exact hs.points hold
      · exact hit id hholds
    exact Nat.lt_of_lt_of_le hlt (by simp [Heap.addIterator])

end Sound

theorem size_iterators_advance (h : Heap) (id : Nat) :
    (h.advance id).2.iterators.size = h.iterators.size := by
  unfold advance
  split
  · simp [setIterator]
  · rfl
  · dsimp only
    split <;> simp [setIterator]
  · rfl

theorem points_output {output : Output} {o o' : Object}
    (hpoints : { h with output := output }.Points o o') : h.Points o o' := by
  cases hpoints with
  | key he hn => exact .key he hn
  | value he hn => exact .value he hn
  | iterator hit hn => exact .iterator hit hn

theorem Sound.output (hs : h.Sound) (output : Output) :
    Heap.Sound { h with output := output } :=
  ⟨hs.coherent, fun hpoints => hs.points (points_output hpoints)⟩

theorem Sound.advance (hs : h.Sound) (id : Nat) : (h.advance id).2.Sound where
  coherent id' := by
    rw [table, tables_advance]
    exact hs.coherent id'
  points hpoints := by
    rw [size_iterators_advance]
    exact hs.points (points_advance hpoints)

end Heap

namespace Store

variable {σ : Store} {o o' : Object} {i : ScopeId} {x : String} {v : Value}

theorem points_define
    (hpoints : { σ with scopes := σ.scopes.define i x v }.Points o o') :
    σ.Points o o' ∨ v.object? = some o' := by
  cases hpoints with
  | outer hj => exact .inl (.outer (by simpa using hj))
  | @«variable» j b _ hb hn =>
    simp only [Scopes.vars_define] at hb
    split at hb
    · rcases Bindings.mem_put hb with hb | heq
      · exact .inl (.variable hb hn)
      · exact .inr (heq ▸ hn)
    · exact .inl (.variable hb hn)
  | captured hc => exact .inl (.captured hc)
  | heap hpoints => exact .inl (.heap hpoints)

theorem points_extend
    (hpoints : { σ with scopes := σ.scopes.extend i }.Points o o') :
    σ.Points o o' ∨ ∃ j ∈ σ.scopes.chain i, o' = .scope j := by
  cases hpoints with
  | outer hj =>
    simp only [Scopes.outer_extend] at hj
    split at hj
    · exact .inr ⟨_, hj, rfl⟩
    · exact .inl (.outer hj)
  | «variable» hb hn => exact .inl (.variable (by simpa using hb) hn)
  | captured hc => exact .inl (.captured hc)
  | heap hpoints => exact .inl (.heap hpoints)

theorem points_makeClosure {c : Closure}
    (hpoints : { σ with closures := σ.closures.push c }.Points o o') :
    σ.Points o o' ∨ o' = .scope c.scope := by
  cases hpoints with
  | outer hj => exact .inl (.outer hj)
  | «variable» hb hn => exact .inl (.variable hb hn)
  | captured hid =>
    simp only [Array.getElem?_push] at hid
    split at hid
    · cases hid
      exact .inr rfl
    · exact .inl (.captured hid)
  | heap hpoints => exact .inl (.heap hpoints)

/-- Nothing leads anywhere before the host makes its functions known. -/
theorem not_points_blank {failure : Option String} :
    ¬ Points ⟨.root, #[], .empty failure, 0⟩ o o' := by
  intro hpoints
  cases hpoints with
  | @outer i j hj => cases i <;> simp [Scopes.outer, Scopes.root] at hj
  | @«variable» i b _ hb hn => cases i <;> simp [Scopes.vars, Scopes.root] at hb
  | captured hid => simp at hid
  | heap hpoints =>
    cases hpoints with
    | key he hn | value he hn =>
      simp [Heap.empty, Heap.table, Table.empty] at he
    | iterator hit hn => simp [Heap.empty] at hit

namespace Sound

variable {held : List Value} (hs : σ.Sound held)
include hs

theorem toHeap : σ.heap.Sound :=
  ⟨hs.coherent, fun hpoints => hs.points (.heap hpoints)⟩

theorem heap {h : Heap} (hh : h.Sound)
    (hle : σ.heap.iterators.size ≤ h.iterators.size) :
    Sound { σ with heap := h } held where
  coherent := hh.coherent
  points hpoints := by
    cases hpoints with
    | «variable» hb hn =>
      exact Nat.lt_of_lt_of_le (hs.points (.variable hb hn)) hle
    | heap hpoints => exact hh.points hpoints
  held v hv := (hs.held v hv).mono hle

theorem define (hv : σ.heap.Has v) :
    Sound { σ with scopes := σ.scopes.define i x v } held where
  coherent := hs.coherent
  points hpoints := (points_define hpoints).elim hs.points (hv _)
  held := hs.held

theorem defineAll {xs : List String} {vs : List Value}
    (hvs : ∀ v ∈ vs, σ.heap.Has v) :
    Sound { σ with scopes := σ.scopes.defineAll i xs vs } held := by
  induction xs generalizing σ vs with
  | nil => exact hs
  | cons x xs ih =>
    cases vs with
    | nil => exact ih (hs.define (.of_plain (by simp))) (List.forall_mem_nil _)
    | cons v vs =>
      have hvs := List.forall_mem_cons.mp hvs
      exact ih (hs.define hvs.1) hvs.2

theorem extend : Sound { σ with scopes := σ.scopes.extend i } held where
  coherent := hs.coherent
  points hpoints := by
    rcases points_extend hpoints with hold | ⟨j, -, hj⟩
    · exact hs.points hold
    · cases hj
  held := hs.held

theorem makeClosure (c : Closure) :
    Sound { σ with closures := σ.closures.push c } held where
  coherent := hs.coherent
  points hpoints := by
    rcases points_makeClosure hpoints with hold | hj
    · exact hs.points hold
    · cases hj
  held := hs.held

theorem setDepth (n : Nat) : (Action.setDepth n σ).Sound held where
  coherent := hs.coherent
  points hpoints := by
    cases hpoints with
    | «variable» hb hn => exact hs.points (.variable hb hn)
    | heap hpoints => exact hs.points (.heap hpoints)
  held := hs.held

end Sound

end Store

/-- A run compared with itself in sound stores, which have at least the
iterators that there were before. -/
def soundness (held : List Value) : Simulation where
  World := Nat
  le n n' := n ≤ n'
  le_refl := Nat.le_refl
  le_trans := Nat.le_trans
  rel n σ σ' := σ' = σ ∧ σ.Sound held ∧ n ≤ σ.heap.iterators.size
  good n v := v.Below n
  good_le hle hv := hv.mono hle
  sees _ i j := j = i
  sees_le _ h := h
  owns _ i j := j = i
  owns_le _ h := h
  sees_of_owns h := h
  blocks := False

namespace soundness

variable {held : List Value} {n : Nat} {α : Type}

def Stays (held : List Value) (n : Nat) (Q : Nat → α → Prop) : Outcome α → Prop
  | .done a τ =>
    τ.Sound held ∧ n ≤ τ.heap.iterators.size ∧ Q τ.heap.iterators.size a
  | .fail _ τ => τ.Sound held ∧ n ≤ τ.heap.iterators.size
  | .outOfFuel => True

theorem follows_self {m : Action α} {Q : Nat → α → α → Prop}
    (h : ∀ {τ : Store}, τ.Sound held → n ≤ τ.heap.iterators.size →
      Stays held n (fun n a => Q n a a) (m τ)) :
    (soundness held).Follows n m m Q := by
  rintro _ τ ⟨rfl, hτ, hle⟩
  have hrun := h hτ hle
  cases hm : m τ with
  | done a υ =>
    rw [hm] at hrun
    exact ⟨υ.heap.iterators.size, hrun.2.1, ⟨rfl, hrun.1, Nat.le_refl _⟩,
      hrun.2.2⟩
  | fail e υ =>
    rw [hm] at hrun
    exact ⟨rfl, n, Nat.le_refl n, rfl, hrun.1, hrun.2⟩
  | outOfFuel => trivial

theorem upheld {host : Host} (hhost : ∀ id, (host id).KeepsSound held) :
    (soundness held).Upheld host where
  depth_eq h := by rw [h.1]
  setDepth n h := ⟨by rw [h.1], h.2.1.setDepth n, h.2.2⟩
  plain hv := Value.Below.of_plain hv
  lookup x hs := by
    cases hs
    refine follows_self fun {τ} hτ hle => ?_
    unfold Action.lookup Scopes.get?
    cases hfirst : τ.scopes.firstBinding? x (τ.scopes.chain _) with
    | none => exact ⟨hτ, hle⟩
    | some binding =>
      obtain ⟨-, hhere⟩ := Scopes.here?_of_firstBinding? hfirst
      exact ⟨hτ, hle, rfl,
        fun id hid => hτ.points (.variable (Bindings.mem_of_find? hhere) hid)⟩
  assign {w i j v} x hs hv := by
    cases hs
    refine follows_self fun {τ} hτ hle => ?_
    unfold Action.assign
    cases howner : τ.scopes.owner? i x with
    | none =>
      simp only [howner]
      exact ⟨hτ, hle⟩
    | some owner =>
      simp only [howner]
      exact ⟨hτ.define (hv.mono hle), hle, trivial⟩
  openScope names hs hvs := by
    cases hs
    exact follows_self fun hτ hle =>
      ⟨hτ.extend.defineAll fun v hv => (hvs v hv).mono hle, hle, rfl⟩
  define names hs hvs := by
    cases hs
    exact follows_self fun hτ hle =>
      ⟨hτ.defineAll fun v hv => (hvs v hv).mono hle, hle, trivial⟩
  makeClosure name hc := by
    cases hc.eq not_false hc.2.2
    exact follows_self fun hτ hle => ⟨hτ.makeClosure _, hle, rfl, nofun⟩
  closure? {w id name} hid := by
    refine follows_self fun {τ} hτ hle => ⟨hτ, hle, ?_⟩
    cases hc : τ.closures[id]? with
    | none => exact .none
    | some c => exact .some ⟨rfl, .refl _, rfl⟩
  makeTable {w t} ht := by
    refine follows_self fun {τ} hτ hle => ?_
    have hentries : ∀ e ∈ t.entries, τ.heap.Has e.1 ∧ τ.heap.Has e.2 :=
      fun e he => ⟨(ht.entries e he).1.mono hle, (ht.entries e he).2.mono hle⟩
    exact ⟨hτ.heap (hτ.toHeap.addTable ht.coherent hentries) (Nat.le_refl _),
      hle, rfl, nofun⟩
  index {w o} k ho := by
    refine follows_self fun {τ} hτ hle => ?_
    unfold Action.index
    split
    · next id =>
      refine ⟨hτ, hle, rfl, fun id' hid => ?_⟩
      rcases Table.get_eq_nil_or_mem (τ.heap.table id) k with hnil |
          ⟨e, he, heq⟩
      · rw [hnil] at hid
        cases hid
      · exact hτ.points (.heap (.value he (heq ▸ hid)))
    · exact ⟨hτ, hle⟩
  setIndex {w o k v} ho hk hv := by
    refine follows_self fun {τ} hτ hle => ?_
    simp only [Action.setIndex]
    split
    · next id =>
      split
      · next hkey =>
        have hput := hτ.toHeap.putEntry id hkey (hk.mono hle) (hv.mono hle)
        exact ⟨hτ.heap hput (Nat.le_refl _), hle, trivial⟩
      · exact ⟨hτ, hle⟩
    · exact ⟨hτ, hle⟩
  advance {w id} hid := by
    refine follows_self fun {τ} hτ hle => ?_
    have hsize := Heap.size_iterators_advance τ.heap id
    have hsame : τ.heap.iterators.size ≤ (τ.heap.advance id).2.iterators.size :=
      Nat.le_of_eq hsize.symm
    refine ⟨hτ.heap (hτ.toHeap.advance id) hsame, Nat.le_trans hle hsame, rfl,
      fun row hrow v hv => ?_⟩
    have hrow := Heap.holds_of_advance
      (P := fun o => ∀ id, o = .iterator id → id < τ.heap.iterators.size)
      (fun o o' _ hpoints id heq => hτ.points (.heap (heq ▸ hpoints)))
      (fun id' heq => Nat.lt_of_lt_of_le (hid id' (congrArg some heq)) hle) hrow
      v hv
    exact fun id' hid' => Nat.lt_of_lt_of_le (hrow _ hid' id' rfl) hsame
  native {w args} id hargs := by
    refine follows_self fun {τ} hτ hle => ?_
    have hknown : ∀ v ∈ held ++ args, τ.heap.Has v := by
      intro v hv
      rcases List.mem_append.mp hv with hv | hv
      · exact hτ.held v hv
      · exact (hargs v hv).mono hle
    obtain ⟨hsound, hsize, hresult⟩ := hhost id args τ.heap hτ.toHeap hknown
    simp only [Action.native]
    split
    · next v heap heq =>
      rw [heq] at hsound hsize hresult
      exact ⟨hτ.heap hsound hsize, Nat.le_trans hle hsize, rfl, hresult v rfl⟩
    · next e heap heq =>
      rw [heq] at hsound hsize
      exact ⟨hτ.heap hsound hsize, Nat.le_trans hle hsize⟩
  enter h := h.elim
  enterLeft h := h.elim

theorem keeps {m m' : Action α} {Q : Nat → α → α → Prop} {σ τ : Store}
    (hσ : σ.Sound held)
    (h : (soundness held).Follows σ.heap.iterators.size m m' Q)
    (hτ : (m σ).store? = some τ) :
    τ.Sound held := by
  obtain ⟨_, _, _, _, hrel⟩ := (h σ σ ⟨rfl, hσ, Nat.le_refl _⟩).store? hτ
  exact hrel.2.1

end soundness

/-- The functions hold on to these values, touch nothing else on their own
account, and make no references up. -/
structure Host.Sound (host : Host) (held : List Value) : Prop where
  isLocalTo : ∀ id, (host id).IsLocalTo held
  keepsSound : ∀ id, (host id).KeepsSound held

theorem Machine.keeps_sound {host : Host} {held : List Value}
    (hhost : host.Sound held) (limit fuel : Nat) {σ : Store}
    (hσ : σ.Sound held) :
    let m := Machine.ofFuel host limit fuel
    (∀ e i τ, (m.expr e i σ).store? = some τ → τ.Sound held) ∧
    (∀ body i τ, (m.block body i σ).store? = some τ → τ.Sound held) := by
  intro m
  have hparts : (soundness held).Parts m m :=
    parts_ofFuel (soundness.upheld hhost.keepsSound) fuel fuel (Nat.le_refl _)
      fun h => h.elim
  exact ⟨fun e i τ => soundness.keeps hσ (hparts.expr (.refl e) rfl),
    fun body i τ => soundness.keeps hσ (hparts.block (.refl body) rfl)⟩

namespace Native

variable {held held' : List Value} {f : Native}

theorem KeepsSound.mono (h : f.KeepsSound held) (hsub : ∀ v ∈ held, v ∈ held') :
    f.KeepsSound held' := by
  refine fun args heap hheap hargs => h args heap hheap fun v hv => hargs v ?_
  exact List.mem_append.mpr ((List.mem_append.mp hv).imp_left (hsub v))

theorem keepsSound_idle : idle.KeepsSound held :=
  fun _ _ hh _ => ⟨hh, Nat.le_refl _, by rintro _ ⟨⟩; exact .of_plain (by simp)⟩

theorem keepsSound_print : print.KeepsSound held := by
  intro args h hh _
  unfold print Heap.printLine
  split
  · exact ⟨hh.output _, Nat.le_refl _,
      by rintro _ ⟨⟩; exact .of_plain (by simp)⟩
  · exact ⟨hh, Nat.le_refl _, nofun⟩

theorem keepsSound_of_newIterator {name : String} (it : Heap → Nat → Iterator)
    (hit : ∀ h id o, (it h id).Holds o →
      o = .table id ∨ h.Points (.table id) o) :
    KeepsSound held fun args h =>
      match tableArgument name args with
      | .ok id => newIterator h (it h id)
      | .error e => (.error e, h) := by
  intro args h hh _
  dsimp only
  split
  · next id _ =>
    have hholds : ∀ id', (it h id).Holds (.iterator id') →
        id' < h.iterators.size := by
      intro id' hn
      rcases hit h id _ hn with heq | hpoints
      · cases heq
      · exact hh.points hpoints
    refine ⟨hh.addIterator hholds, by simp [newIterator, Heap.addIterator], ?_⟩
    rintro _ ⟨⟩ _ ⟨⟩
    simp [newIterator, Heap.addIterator]
  · exact ⟨hh, Nat.le_refl _, by simp⟩

theorem builtin_keepsSound {name : String} (hf : (name, f) ∈ builtins) :
    f.KeepsSound held := by
  rcases eq_of_mem_builtins hf with rfl | rfl | rfl
  · exact keepsSound_print
  · exact keepsSound_of_newIterator _ pairs_holds
  · exact keepsSound_of_newIterator _ ipairs_holds

end Native

/-- The sessions in which the functions of the host hold on to these values, in
whichever order the host made them known, and make no references up. -/
inductive Session.Sound : List Value → Session → Prop
  | start (limit : Nat) (failure : Option String) :
      Sound [] (.start limit failure)
  | register {held more : List Value} {s : Session} {f : Native} (name : String)
      (hs : Sound held s) (hmore : ∀ v ∈ more, s.store.heap.Has v)
      (hlocal : f.IsLocalTo (more ++ held))
      (hkeeps : f.KeepsSound (more ++ held)) :
      Sound (more ++ held) (s.register name f)
  | addIterator {held : List Value} {s : Session} {it : Iterator}
      (hs : Sound held s)
      (hit : ∀ id, it.Holds (.iterator id) → id < s.store.heap.iterators.size) :
      Sound held (s.addIterator it).2
  | takeOutput {held : List Value} {s : Session} (hs : Sound held s) :
      Sound held s.takeOutput.2
  | interpret {held : List Value} {s : Session} (fuel : Nat) (c : Chunk)
      (hs : Sound held s) :
      Sound held (s.interpret fuel c).2

namespace Session.Sound

variable {held : List Value} {s : Session}

theorem natives (hs : s.Sound held) :
    ∀ f ∈ s.natives, f.IsLocalTo held ∧ f.KeepsSound held := by
  induction hs with
  | start limit failure =>
    intro f hf
    obtain ⟨name, hname⟩ := mem_natives_start hf
    exact ⟨(Native.isLocal_of_builtins hname).isLocalTo [],
      Native.builtin_keepsSound hname⟩
  | @register held more s f name _ _ hlocal hkeeps ih =>
    intro g hg
    rcases Array.mem_push.mp hg with hold | rfl
    · have hsub : ∀ v ∈ held, v ∈ more ++ held :=
        fun v hv => List.mem_append_right _ hv
      exact ⟨(ih g hold).1.mono hsub, (ih g hold).2.mono hsub⟩
    · exact ⟨hlocal, hkeeps⟩
  | addIterator _ _ ih => exact ih
  | takeOutput _ ih => exact ih
  | interpret fuel c _ ih => rwa [natives_interpret]

theorem host (hs : s.Sound held) : s.host.Sound held := by
  have hboth : ∀ id, (s.host id).IsLocalTo held ∧
      (s.host id).KeepsSound held := by
    intro id
    rcases s.host_eq_or_mem id with hidle | hmem
    · rw [hidle]
      exact ⟨Native.isLocal_idle.isLocalTo held, Native.keepsSound_idle⟩
    · exact hs.natives _ hmem
  exact ⟨fun id => (hboth id).1, fun id => (hboth id).2⟩

theorem store (hs : s.Sound held) : s.store.Sound held := by
  induction hs with
  | start limit failure =>
    have hempty : Store.Sound ⟨.root, #[], .empty failure, 0⟩ [] := by
      refine ⟨fun id => ?_,
        fun hpoints => absurd hpoints Store.not_points_blank,
        List.forall_mem_nil _⟩
      simpa [Heap.empty, Heap.table] using Table.empty_coherent
    have hnative : ∀ {σ : Store} {x : String} (id : Nat), σ.Sound [] →
        Store.Sound
          { σ with
            scopes := σ.scopes.define Scopes.rootId x (.ref (.native id x)) }
          [] :=
      fun id hσ => hσ.define (.of_native id _)
    exact hnative 2 (hnative 1 (hnative 0 hempty))
  | @register held more s f name _ hmore _ _ ih =>
    have hheld : s.store.Sound (more ++ held) :=
      ⟨ih.coherent, ih.points, List.forall_mem_append.mpr ⟨hmore, ih.held⟩⟩
    exact hheld.define (.of_native _ name)
  | addIterator _ hit ih =>
    exact ih.heap (ih.toHeap.addIterator hit) (by simp [Heap.addIterator])
  | takeOutput _ ih => exact ih.heap (ih.toHeap.output _) (Nat.le_refl _)
  | @interpret held s fuel c hs ih =>
    have U : (soundness held).Upheld s.host :=
      soundness.upheld hs.host.keepsSound
    have hparts : (soundness held).Parts (.ofFuel s.host s.limit fuel)
        (.ofFuel s.host s.limit fuel) :=
      parts_ofFuel U fuel fuel (Nat.le_refl _) fun h => h.elim
    have hhost : (soundness held).Upheld
        (Machine.ofFuel s.host s.limit fuel).host := by cases fuel <;> exact U
    have hkeeps := fun τ =>
      soundness.keeps (τ := τ) ih (hparts.topLevel hhost (.refl c.body) rfl)
    unfold Session.interpret
    cases hend : topLevel (.ofFuel s.host s.limit fuel) c.body s.store with
    | done v τ => exact hkeeps τ (by rw [hend]; rfl)
    | fail e τ => exact hkeeps τ (by rw [hend]; rfl)
    | outOfFuel => exact ih

end Session.Sound

end LuaCore
