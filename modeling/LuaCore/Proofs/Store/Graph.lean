import Mathlib.Logic.Relation
import LuaCore.Proofs.Table.Entry
import LuaCore.Proofs.Value.Host

/-! The objects of a store and what leads from one to another. -/

namespace LuaCore

inductive Object
  | scope (i : ScopeId)
  | closure (id : Nat)
  | table (id : Nat)
  | iterator (id : Nat)
deriving DecidableEq

/-- The object that a value refers to; functions of the host are no objects
of the store. -/
def Value.object? : Value → Option Object
  | .ref (.table id) => some (.table id)
  | .ref (.closure id _) => some (.closure id)
  | .ref (.iterator id) => some (.iterator id)
  | _ => none

def objectsOf (vs : List Value) : List Object := vs.filterMap Value.object?

theorem mem_objectsOf {vs : List Value} {o : Object} :
    o ∈ objectsOf vs ↔ ∃ v ∈ vs, v.object? = some o := by
  simp [objectsOf]

theorem objectsOf_mono {vs ws : List Value} (hsub : ∀ v ∈ vs, v ∈ ws)
    {o : Object} (ho : o ∈ objectsOf vs) :
    o ∈ objectsOf ws := by
  obtain ⟨v, hv, hn⟩ := mem_objectsOf.mp ho
  exact mem_objectsOf.mpr ⟨v, hsub v hv, hn⟩

theorem Value.object?_of_plain {v : Value} (h : ∀ r, v ≠ .ref r) :
    v.object? = none := by
  cases v with
  | ref r => exact absurd rfl (h r)
  | _ => rfl

inductive Iterator.Holds : Iterator → Object → Prop
  | row {rows : List (List Value)} {row : List Value} {v : Value} {o : Object}
      (hrow : row ∈ rows) (hv : v ∈ row) (hn : v.object? = some o) :
      Holds (.rows rows) o
  | table (id : Nat) (last : Float) : Holds (.indexed id last) (.table id)

namespace Heap

inductive Points (h : Heap) : Object → Object → Prop
  | key {id : Nat} {e : Value × Value} {o : Object}
      (he : e ∈ (h.table id).entries) (hn : e.1.object? = some o) :
      Points h (.table id) o
  | value {id : Nat} {e : Value × Value} {o : Object}
      (he : e ∈ (h.table id).entries) (hn : e.2.object? = some o) :
      Points h (.table id) o
  | iterator {id : Nat} {it : Iterator} {o : Object}
      (hit : h.iterators[id]? = some it) (hn : it.Holds o) :
      Points h (.iterator id) o

def IsNew (h : Heap) : Object → Prop
  | .table id => h.tables.size ≤ id
  | .iterator id => h.iterators.size ≤ id
  | _ => False

def SameAt (h h' : Heap) : Object → Prop
  | .table id => h'.tables[id]? = h.tables[id]?
  | .iterator id => h'.iterators[id]? = h.iterators[id]?
  | _ => True

def Reaches (h : Heap) (roots : List Object) (o : Object) : Prop :=
  ∃ r ∈ roots, Relation.ReflTransGen h.Points r o

variable {h h' : Heap} {o o' : Object}

theorem SameAt.refl (h : Heap) (o : Object) : h.SameAt h o := by
  cases o <;> simp [SameAt]

theorem SameAt.points (hsame : h.SameAt h' o) (hpoints : h'.Points o o') :
    h.Points o o' := by
  have table : ∀ {id}, h'.tables[id]? = h.tables[id]? →
      h'.table id = h.table id := by
    intro id heq
    simp only [Heap.table, Array.getD_eq_getD_getElem?, heq]
  cases hpoints with
  | key he hn => exact .key (table hsame ▸ he) hn
  | value he hn => exact .value (table hsame ▸ he) hn
  | iterator hit hn => exact .iterator (hsame ▸ hit) hn

end Heap

namespace Store

inductive Points (σ : Store) : Object → Object → Prop
  | outer {i j : ScopeId} (hj : j ∈ σ.scopes.outer i) :
      Points σ (.scope i) (.scope j)
  | variable {i : ScopeId} {b : String × Value} {o : Object}
      (hb : b ∈ σ.scopes.vars i) (hn : b.2.object? = some o) :
      Points σ (.scope i) o
  | captured {id : Nat} {c : Closure} (hc : σ.closures[id]? = some c) :
    Points σ (.closure id) (.scope c.scope)
  | heap {o o' : Object} (h : σ.heap.Points o o') : Points σ o o'

def IsNew (σ : Store) : Object → Prop
  | .scope i => σ.scopes.frames.size ≤ i
  | .closure id => σ.closures.size ≤ id
  | o => σ.heap.IsNew o

/-- The object has the same bindings, entries or rows, and the same
enclosing scopes. -/
def SameAt (σ τ : Store) : Object → Prop
  | .scope i => τ.scopes.frames[i]? = σ.scopes.frames[i]?
  | .closure id => τ.closures[id]? = σ.closures[id]?
  | o => σ.heap.SameAt τ.heap o

def Reaches (σ : Store) (roots : List Object) (o : Object) : Prop :=
  ∃ r ∈ roots, Relation.ReflTransGen σ.Points r o

variable {σ : Store} {roots : List Object} {o o' : Object}

theorem reaches_root (h : o ∈ roots) : σ.Reaches roots o := ⟨o, h, .refl⟩

theorem Reaches.step (h : σ.Reaches roots o) (hpoints : σ.Points o o') :
    σ.Reaches roots o' := by
  obtain ⟨r, hr, hpath⟩ := h
  exact ⟨r, hr, hpath.tail hpoints⟩

/-- Nothing leads out of a part of the store that holds all to which its
objects lead. -/
theorem Reaches.within {P : Object → Prop} (h : σ.Reaches roots o)
    (hroots : ∀ r ∈ roots, P r) (hclosed : ∀ o o', P o → σ.Points o o' → P o') :
    P o := by
  obtain ⟨r, hr, hpath⟩ := h
  induction hpath with
  | refl => exact hroots r hr
  | tail _ hpoints ih => exact hclosed _ _ ih hpoints

end Store

/-- What a function of the host may know of: the objects that its arguments lead
to, and those it makes. -/
def Heap.Known (h : Heap) (args : List Value) (o : Object) : Prop :=
  h.IsNew o ∨ h.Reaches (objectsOf args) o

/-- Of the objects that there are, the function touches only those that its
arguments lead to. -/
structure Native.IsLocal (f : Native) : Prop where
  keeps : ∀ {args} {h : Heap} {o}, ¬ h.Known args o → h.SameAt (f args h).2 o
  grows : ∀ {args} {h : Heap} {o}, (f args h).2.IsNew o → h.IsNew o
  result : ∀ {args} {h : Heap} {v o}, (f args h).1 = .ok v →
    v.object? = some o → h.Known args o
  closed : ∀ {args} {h : Heap} {o o'}, h.Known args o →
    (f args h).2.Points o o' → h.Known args o'

/-- The same of a function that holds on to some values from call to call. -/
structure Native.IsLocalTo (held : List Value) (f : Native) : Prop where
  keeps : ∀ {args} {h : Heap} {o}, ¬ h.Known (held ++ args) o →
    h.SameAt (f args h).2 o
  grows : ∀ {args} {h : Heap} {o}, (f args h).2.IsNew o → h.IsNew o
  result : ∀ {args} {h : Heap} {v o}, (f args h).1 = .ok v →
    v.object? = some o → h.Known (held ++ args) o
  closed : ∀ {args} {h : Heap} {o o'}, h.Known (held ++ args) o →
    (f args h).2.Points o o' →
    h.Known (held ++ args) o'

namespace Heap

variable {h : Heap} {args : List Value} {o o' : Object}

theorem known_of_mem {v : Value} (hv : v ∈ args) (hn : v.object? = some o) :
    h.Known args o :=
  .inr ⟨o, mem_objectsOf.mpr ⟨v, hv, hn⟩, .refl⟩

theorem not_points_of_isNew (hn : h.IsNew o) : ¬ h.Points o o' := by
  intro hpoints
  cases hpoints with
  | key he _ | value he _ =>
    simp only [Heap.table, Array.getD_eq_getD_getElem?,
      Array.getElem?_eq_none hn] at he
    simp [Table.empty] at he
  | iterator hit _ => simp [Array.getElem?_eq_none hn] at hit

theorem Known.step (hn : h.Known args o) (hpoints : h.Points o o') :
    h.Known args o' := by
  rcases hn with hnew | ⟨r, hr, hpath⟩
  · exact absurd hpoints (not_points_of_isNew hnew)
  · exact .inr ⟨r, hr, hpath.tail hpoints⟩

theorem Known.mono {args' : List Value} (hsub : ∀ v ∈ args, v ∈ args')
    (hn : h.Known args o) :
    h.Known args' o := by
  refine hn.imp id ?_
  rintro ⟨r, hr, hpath⟩
  exact ⟨r, objectsOf_mono hsub hr, hpath⟩

theorem points_addIterator {it : Iterator}
    (hpoints : (h.addIterator it).Points o o') :
    h.Points o o' ∨ o = .iterator h.iterators.size ∧ it.Holds o' := by
  cases hpoints with
  | key he hn => exact .inl (.key he hn)
  | value he hn => exact .inl (.value he hn)
  | @iterator id it' _ hit hn =>
    simp only [addIterator, Array.getElem?_push] at hit
    split at hit
    · next heq =>
      cases hit
      exact .inr ⟨by rw [heq], hn⟩
    · exact .inl (.iterator hit hn)

theorem points_addTable {t : Table} (hpoints : (h.addTable t).Points o o') :
    h.Points o o' ∨
      ∃ e ∈ t.entries, e.1.object? = some o' ∨ e.2.object? = some o' := by
  cases hpoints with
  | key he hn =>
    rw [table_addTable] at he
    split at he
    · exact .inr ⟨_, he, .inl hn⟩
    · exact .inl (.key he hn)
  | value he hn =>
    rw [table_addTable] at he
    split at he
    · exact .inr ⟨_, he, .inr hn⟩
    · exact .inl (.value he hn)
  | iterator hit hn => exact .inl (.iterator hit hn)

theorem mem_table_putEntry {id id' : Nat} {k : Key} {key v : Value}
    {e : Value × Value} (he : e ∈ ((h.putEntry id k key v).table id').entries) :
    e ∈ (h.table id').entries ∨
      id' = id ∧ e ∈ ((h.table id').put k key v).entries := by
  simp only [table, putEntry, Array.getD_eq_getD_getElem?,
    Array.getElem?_modify] at he ⊢
  split at he
  · next heq =>
    subst heq
    cases hid : h.tables[id]? with
    | none => simp [hid] at he; exact .inl he
    | some t => exact .inr ⟨rfl, by simpa [hid] using he⟩
  · exact .inl he

theorem points_putEntry {id : Nat} {k : Key} {key v : Value}
    (hpoints : (h.putEntry id k key v).Points o o') :
    h.Points o o' ∨ key.object? = some o' ∨ v.object? = some o' := by
  cases hpoints with
  | key he hn =>
    rcases mem_table_putEntry he with he | ⟨-, he⟩
    · exact .inl (.key he hn)
    · rcases (Table.mem_put he).1 with heq | ⟨e', he', heq⟩
      · exact .inr (.inl (heq ▸ hn))
      · exact .inl (.key he' (heq ▸ hn))
  | value he hn =>
    rcases mem_table_putEntry he with he | ⟨-, he⟩
    · exact .inl (.value he hn)
    · rcases (Table.mem_put he).2 with heq | ⟨e', he', heq⟩
      · exact .inr (.inr (heq ▸ hn))
      · exact .inl (.value he' (heq ▸ hn))
  | iterator hit hn => exact .inl (.iterator hit hn)

theorem points_setIterator {id : Nat} {it it' : Iterator}
    (hit : h.iterators[id]? = some it) (hholds : ∀ o, it'.Holds o → it.Holds o)
    (hpoints : (h.setIterator id it').Points o o') :
    h.Points o o' := by
  cases hpoints with
  | key he hn => exact .key he hn
  | value he hn => exact .value he hn
  | @iterator id' _ _ hit' hn =>
    by_cases heq : id = id'
    · subst heq
      have hlt : id < h.iterators.size := (Array.getElem?_eq_some_iff.mp hit).1
      simp only [setIterator, Array.getElem?_setIfInBounds_self_of_lt hlt,
        Option.some.injEq] at hit'
      subst hit'
      exact .iterator hit (hholds _ hn)
    · exact .iterator
        (by simpa [setIterator, Array.getElem?_setIfInBounds_ne heq] using hit')
        hn

theorem points_advance {id : Nat} (hpoints : (h.advance id).2.Points o o') :
    h.Points o o' := by
  unfold advance at hpoints
  split at hpoints
  · next row rows hit =>
    refine points_setIterator hit ?_ hpoints
    rintro _ ⟨hrow, hv, hn⟩
    exact .row (List.mem_cons_of_mem _ hrow) hv hn
  · exact hpoints
  · next hit =>
    have hholds : ∀ {table : Nat} {last next : Float} o,
        (Iterator.indexed table next).Holds o →
        (Iterator.indexed table last).Holds o := by
      rintro table last next _ ⟨⟩
      exact .table _ _
    dsimp only at hpoints
    split at hpoints <;> exact points_setIterator hit hholds hpoints
  · exact hpoints

theorem isNew_addTable {t : Table} (hnew : (h.addTable t).IsNew o) :
    h.IsNew o := by
  cases o with
  | table id => exact Nat.le_trans (by simp [addTable]) hnew
  | _ => exact hnew

theorem sameAt_addTable {t : Table} (ho : ¬ h.IsNew o) :
    h.SameAt (h.addTable t) o := by
  cases o with
  | table id =>
    have hne : id ≠ h.tables.size := by
      rintro rfl
      exact ho (Nat.le_refl _)
    simp [SameAt, addTable, Array.getElem?_push, hne]
  | _ => simp [SameAt, addTable]

theorem isNew_putEntry {id : Nat} {k : Key} {key v : Value}
    (hnew : (h.putEntry id k key v).IsNew o) :
    h.IsNew o := by
  cases o with
  | table id' => simpa [IsNew, putEntry] using hnew
  | _ => exact hnew

theorem sameAt_putEntry {id : Nat} {k : Key} {key v : Value}
    (ho : o ≠ .table id) :
    h.SameAt (h.putEntry id k key v) o := by
  cases o with
  | table id' =>
    have hne : id ≠ id' := fun heq => ho (by rw [heq])
    simp [SameAt, putEntry, Array.getElem?_modify, hne]
  | _ => simp [SameAt, putEntry]

theorem sameAt_advance {id : Nat} (ho : o ≠ .iterator id) :
    h.SameAt (h.advance id).2 o := by
  have hset : ∀ it, h.SameAt (h.setIterator id it) o := by
    intro it
    cases o with
    | iterator id' =>
      have hne : id ≠ id' := fun heq => ho (by rw [heq])
      simp [SameAt, setIterator, Array.getElem?_setIfInBounds_ne hne]
    | _ => simp [SameAt, setIterator]
  unfold advance
  split
  · exact hset _
  · exact .refl h o
  · dsimp only
    split <;> exact hset _
  · exact .refl h o

theorem isNew_advance {id : Nat} (ho : (h.advance id).2.IsNew o) :
    h.IsNew o := by
  have hset : ∀ it, (h.setIterator id it).IsNew o → h.IsNew o := by
    intro it ho
    cases o with
    | iterator id' => simpa [IsNew, setIterator] using ho
    | _ => exact ho
  unfold advance at ho
  split at ho
  · exact hset _ ho
  · exact ho
  · dsimp only at ho
    split at ho <;> exact hset _ ho
  · exact ho

end Heap

theorem Heap.holds_of_advance {h : Heap} {P : Object → Prop} {id : Nat}
    {row : List Value} (hP : ∀ o o', P o → h.Points o o' → P o')
    (hid : P (.iterator id)) (hrow : (h.advance id).1 = some row) :
    ∀ v ∈ row, ∀ o, v.object? = some o → P o := by
  unfold advance at hrow
  split at hrow
  · next hit =>
    cases hrow
    exact fun v hv o ho =>
      hP _ _ hid (.iterator hit (.row List.mem_cons_self hv ho))
  · cases hrow
  · next table last hit =>
    have htable : P (.table table) := hP _ _ hid (.iterator hit (.table _ _))
    dsimp only at hrow
    split at hrow <;> cases hrow
    intro v hv o ho
    rcases List.mem_cons.mp hv with rfl | hv
    · cases ho
    · obtain rfl := List.mem_singleton.mp hv
      rcases Table.get_eq_nil_or_mem (h.table table) (.number (last + 1.0))
        with hnil | ⟨e, he, heq⟩
      · rw [hnil] at ho
        cases ho
      · exact hP _ _ htable (.value he (heq ▸ ho))
  · cases hrow

namespace Native

theorem IsLocalTo.mono {held held' : List Value} {f : Native}
    (h : f.IsLocalTo held) (hsub : ∀ v ∈ held, v ∈ held') :
    f.IsLocalTo held' := by
  have known : ∀ {args} {heap : Heap} {o}, heap.Known (held ++ args) o →
      heap.Known (held' ++ args) o :=
    fun hn => hn.mono fun v hv =>
      List.mem_append.mpr ((List.mem_append.mp hv).imp_left (hsub v))
  refine ⟨fun hn => h.keeps fun hold => hn (known hold), h.grows,
    fun hv hn => known (h.result hv hn), ?_⟩
  intro args heap o o' hn hpoints
  by_cases hold : heap.Known (held ++ args) o
  · exact known (h.closed hold hpoints)
  · exact hn.step ((h.keeps hold).points hpoints)

theorem IsLocal.isLocalTo {f : Native} (h : f.IsLocal) (held : List Value) :
    f.IsLocalTo held :=
  IsLocalTo.mono ⟨h.keeps, h.grows, h.result, h.closed⟩ (List.forall_mem_nil _)

theorem isLocal_of_keepsHeap {f : Native}
    (hheap : ∀ args h, (f args h).2.tables = h.tables ∧
      (f args h).2.iterators = h.iterators)
    (hresult : ∀ args h v, (f args h).1 = .ok v → v.object? = none) :
    f.IsLocal where
  keeps {args h o} _ := by
    obtain ⟨htables, hiterators⟩ := hheap args h
    cases o <;> simp [Heap.SameAt, htables, hiterators]
  grows {args h o} hnew := by
    obtain ⟨htables, hiterators⟩ := hheap args h
    cases o with
    | table id => simpa [Heap.IsNew, htables] using hnew
    | iterator id => simpa [Heap.IsNew, hiterators] using hnew
    | _ => exact hnew
  result {args h v o} hv hn := by simp [hresult args h v hv] at hn
  closed {args h o o'} hn hpoints := by
    obtain ⟨htables, hiterators⟩ := hheap args h
    refine hn.step ?_
    cases hpoints with
    | key he hn => exact .key (by simpa [Heap.table, htables] using he) hn
    | value he hn => exact .value (by simpa [Heap.table, htables] using he) hn
    | iterator hit hn => exact .iterator (by simpa [hiterators] using hit) hn

theorem isLocal_of_newIterator {name : String} (it : Heap → Nat → Iterator)
    (hit : ∀ h id o, (it h id).Holds o →
      o = .table id ∨ h.Points (.table id) o) :
    IsLocal fun args h =>
      match tableArgument name args with
      | .ok id => newIterator h (it h id)
      | .error e => (.error e, h) := by
  have argument : ∀ {args id}, tableArgument name args = .ok id →
      ∃ v ∈ args, v.object? = some (.table id) := by
    intro args id h
    unfold tableArgument at h
    split at h <;> cases h
    exact ⟨_, List.mem_cons_self, rfl⟩
  refine ⟨?_, ?_, ?_, ?_⟩
  · intro args h o hn
    split
    · cases o with
      | iterator id =>
        have hlt : id < h.iterators.size :=
          Nat.lt_of_not_le fun hle => hn (.inl hle)
        simp [Heap.SameAt, newIterator, Heap.addIterator, Array.getElem?_push,
          Nat.ne_of_lt hlt]
      | _ => simp [Heap.SameAt, newIterator, Heap.addIterator]
    · exact .refl h o
  · intro args h o hnew
    split at hnew
    · cases o with
      | iterator id =>
        exact Nat.le_trans (by simp [newIterator, Heap.addIterator]) hnew
      | _ => exact hnew
    · exact hnew
  · intro args h v o hv hn
    split at hv
    · cases hv
      cases hn
      exact .inl (Nat.le_refl h.iterators.size)
    · cases hv
  · intro args h o o' hn hpoints
    split at hpoints
    · next id hid =>
      obtain ⟨v, hv, hnode⟩ := argument hid
      have htable : h.Known args (.table id) := Heap.known_of_mem hv hnode
      rcases Heap.points_addIterator hpoints with hold | ⟨-, hholds⟩
      · exact hn.step hold
      · rcases hit h id o' hholds with rfl | hpoints
        · exact htable
        · exact htable.step hpoints
    · exact hn.step hpoints

theorem isLocal_idle : idle.IsLocal :=
  isLocal_of_keepsHeap (fun _ _ => ⟨rfl, rfl⟩) fun _ _ v hv => by cases hv; rfl

theorem isLocal_print : print.IsLocal := by
  refine isLocal_of_keepsHeap (fun args h => ?_) fun args h v hv => ?_
  · unfold print Heap.printLine
    split <;> exact ⟨rfl, rfl⟩
  · unfold print Heap.printLine at hv
    split at hv <;> cases hv
    rfl

theorem pairs_holds (h : Heap) (id : Nat) (o : Object)
    (hholds :
      (Iterator.rows
        ((h.table id).entries.toList.map fun (key, value) =>
          [key, value])).Holds o) :
    o = .table id ∨ h.Points (.table id) o := by
  obtain @⟨_, _, v, _, hrow, hv, hn⟩ := hholds
  obtain ⟨e, he, rfl⟩ := List.mem_map.mp hrow
  have he := Array.mem_toList_iff.mp he
  have hv : v = e.1 ∨ v = e.2 := by simpa using hv
  rcases hv with rfl | rfl
  · exact .inr (.key he hn)
  · exact .inr (.value he hn)

theorem ipairs_holds (h : Heap) (id : Nat) (o : Object)
    (hholds : (Iterator.indexed id 0.0).Holds o) :
    o = .table id ∨ h.Points (.table id) o := by
  cases hholds
  exact .inl rfl

theorem isLocal_pairs : pairs.IsLocal := isLocal_of_newIterator _ pairs_holds

theorem isLocal_ipairs : ipairs.IsLocal := isLocal_of_newIterator _ ipairs_holds

theorem isLocal_of_builtins {name : String} {f : Native}
    (hf : (name, f) ∈ builtins) :
    f.IsLocal := by
  rcases eq_of_mem_builtins hf with rfl | rfl | rfl
  · exact isLocal_print
  · exact isLocal_pairs
  · exact isLocal_ipairs

end Native

theorem Session.host_isLocal {s : Session} (hs : ∀ f ∈ s.natives, f.IsLocal)
    (id : Nat) :
    (s.host id).IsLocal := by
  rcases s.host_eq_or_mem id with hidle | hmem
  · rw [hidle]
    exact Native.isLocal_idle
  · exact hs _ hmem

theorem Session.isLocal_of_mem_start {limit : Nat} {failure : Option String}
    {f : Native} (hf : f ∈ (start limit failure).natives) :
    f.IsLocal := by
  obtain ⟨name, hname⟩ := mem_natives_start hf
  exact Native.isLocal_of_builtins hname

end LuaCore
