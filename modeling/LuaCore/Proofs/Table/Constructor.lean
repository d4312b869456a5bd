import LuaCore.Proofs.Number.Sum
import LuaCore.Proofs.Table.Equality
import LuaCore.Evaluation.Expression
import LuaCore.Script.Text

namespace LuaCore

open LuaCore.Action
open LuaCore.Number (counter)

def Field.isItem : Field → Bool
  | .item _ => true
  | _ => false

/-- Each field with the number of items before it, on from this number. -/
def numberedFrom : Nat → List Field → List (Nat × Field)
  | _, [] => []
  | items, f :: fs => (items, f) :: numberedFrom (items + f.isItem.toNat) fs

def itemsBefore (fs : List Field) (i : Nat) : Nat :=
  (fs.take i).countP Field.isItem

theorem getElem?_numberedFrom (items : Nat) (fs : List Field) (i : Nat) :
    (numberedFrom items fs)[i]? =
      fs[i]?.map fun f => (items + itemsBefore fs i, f) := by
  induction fs generalizing items i with
  | nil => rfl
  | cons f fs ih =>
    cases i with
    | zero => rfl
    | succ i =>
      simp only [numberedFrom, List.getElem?_cons_succ, ih, itemsBefore,
        List.take_succ_cons, List.countP_cons]
      congr! 3
      cases f.isItem
      · simp
      · simp only [Bool.toNat_true, if_true]
        omega

/-- A field that comes after so many items, lowered: an item gets their number
as its name. -/
def Field.lowerAfter (items : Nat) : Field → Lowering Script.Property
  | .named key value => return .named key (← value.lower)
  | .keyed key value => do
    let key ← key.lower
    return .computed key (← value.lower)
  | .item value => return .named (toString items) (← value.lower)

theorem lowerFields_eq (items : Nat) (fs : List Field) :
    lowerFields items fs =
      (numberedFrom items fs).mapM fun (items, f) => f.lowerAfter items := by
  induction fs generalizing items with
  | nil => rfl
  | cons f fs ih =>
    cases f <;>
      simp [lowerFields, numberedFrom, Field.lowerAfter, Field.isItem, ih]

theorem Script.propertyTexts_eq_map (depth : Nat) (ps : List Script.Property) :
    Script.propertyTexts depth ps = ps.map (·.text depth) := by
  induction ps with
  | nil => rfl
  | cons p ps ih => simp [Script.propertyTexts, ih]

theorem Value.isKey_of_ofValue {v : Value} {k : Key}
    (h : Key.ofValue v = .ok k) :
    v.IsKey := by
  constructor
  · rintro rfl
    cases h
  · rintro x rfl
    exact (Key.ofValue_number_eq_ok_iff.mp h).1

/-- Nothing that can be a key equals a value that cannot. -/
theorem Value.equals_of_error {a b : Value} {fault : KeyFault} (ha : a.IsKey)
    (hb : Key.ofValue b = .error fault) :
    a.equals b = false := by
  obtain ⟨rfl, -⟩ | ⟨y, rfl, hnan, -⟩ := Table.ofValue_eq_error_iff.mp hb
  · cases a with
    | nil => exact absurd rfl ha.1
    | _ => rfl
  · cases a with
    | number x =>
      refine Bool.eq_false_iff.mpr fun heq => ?_
      obtain ⟨rfl, hx⟩ | ⟨-, hzero⟩ := Number.beq_iff.mp heq
      · rw [hx] at hnan
        cases hnan
      · obtain ⟨s, hs⟩ := Number.value?_eq_zero_iff.mp hzero
        rw [Number.isNaN_eq_false_iff.mpr (hs ▸ nofun)] at hnan
        cases hnan
    | _ => rfl

namespace Table

/-- The entries after a store, told by what equals what: `nil` takes the entry
under an equal key out, any other value goes where that entry stands, or to the
end if there is none. -/
def placed (entries : List (Value × Value)) (s : Value × Value) :
    List (Value × Value) :=
  if s.2 = .nil then entries.filter (! ·.1.equals s.1)
  else if entries.any (·.1.equals s.1) then
    entries.map fun entry =>
      if entry.1.equals s.1 then (entry.1, s.2) else entry
  else entries ++ [s]

variable {k : Key} {key : Value}

theorem isUnder_eq_equals {s : Value × Value} (hs : s.1.IsKey)
    (hkey : Key.ofValue key = .ok k) :
    isUnder k s = s.1.equals key := by
  obtain ⟨l, hl⟩ := hs.exists_ofValue
  rw [Bool.eq_iff_iff, isUnder_iff, hl, Except.ok.injEq,
    Key.eq_iff_equals hl hkey]

theorem lastStored_eq {history : List (Value × Value)}
    (hkeys : ∀ s ∈ history, s.1.IsKey) (key : Value) :
    lastStored history key =
      ((history.reverse.find? (·.1.equals key)).map (·.2)).getD .nil := by
  unfold lastStored
  cases hkey : Key.ofValue key with
  | ok k =>
    have hsame : history.reverse.find? (isUnder k) =
        history.reverse.find? (·.1.equals key) :=
      List.find?_congr fun s hs =>
        isUnder_eq_equals (hkeys s (List.mem_reverse.mp hs)) hkey
    simp only [hsame]
  | error fault =>
    have hnone : history.reverse.find? (·.1.equals key) = none :=
      List.find?_eq_none.mpr fun s hs => by
        simp [Value.equals_of_error (hkeys s (List.mem_reverse.mp hs)) hkey]
    simp only [hnone, Option.map_none, Option.getD_none]

theorem entriesAfter_eq_placed {entries : List (Value × Value)}
    (hentries : ∀ e ∈ entries, e.1.IsKey) (hkey : Key.ofValue key = .ok k)
    (value : Value) :
    entriesAfter entries k key value = placed entries (key, value) := by
  have hsame : ∀ e ∈ entries, isUnder k e = e.1.equals key :=
    fun e he => isUnder_eq_equals (hentries e he) hkey
  have hany : entries.any (isUnder k) = entries.any (·.1.equals key) := by
    rw [Bool.eq_iff_iff, List.any_eq_true, List.any_eq_true]
    exact exists_congr fun e => and_congr_right fun he => by rw [hsame e he]
  have hfilter : entries.filter (! isUnder k ·) =
      entries.filter (! ·.1.equals key) :=
    List.filter_congr fun e he => by rw [hsame e he]
  have hmap : (entries.map fun e => if isUnder k e then (e.1, value) else e) =
      entries.map fun e => if e.1.equals key then (e.1, value) else e :=
    List.map_congr_left fun e he => by rw [hsame e he]
  rw [entriesAfter, placed, hany, hfilter, hmap]

theorem Coherent.isKey {t : Table} (h : t.Coherent) {e : Value × Value}
    (he : e ∈ t.entries.toList) :
    e.1.IsKey := by
  obtain ⟨i, hi⟩ := List.mem_iff_getElem?.mp he
  rw [Array.getElem?_toList] at hi
  obtain ⟨k, hk, -⟩ := h.place hi
  exact Value.isKey_of_ofValue hk

theorem entries_storeAll {t : Table} (h : t.Coherent)
    {history : List (Value × Value)} (hkeys : ∀ s ∈ history, s.1.IsKey) :
    (t.storeAll history).entries.toList =
      history.foldl placed t.entries.toList := by
  induction history generalizing t with
  | nil => rfl
  | cons s history ih =>
    obtain ⟨hs, hrest⟩ := List.forall_mem_cons.mp hkeys
    obtain ⟨k, hk⟩ := hs.exists_ofValue
    calc
      (t.storeAll (s :: history)).entries.toList =
        history.foldl placed (t.store s.1 s.2).entries.toList :=
        ih (store_coherent h) hrest
      _ = (s :: history).foldl placed t.entries.toList := by
        rw [entries_store h hk, entriesAfter_eq_placed (fun _ => h.isKey) hk]
        rfl

end Table

namespace Machine

/-- The number that the evaluator stores an item under which comes after so
many items. -/
def itemKey (items : Nat) : Value := .number (counter 1.0 1.0 items)

/-- The key and the value of a field that comes after so many items: the key is
evaluated first. -/
def fieldEntry (m : Machine) (scope : ScopeId) (items : Nat) :
    Field → Action (Value × Value)
  | .named key value => return (.string key, ← m.expr value scope)
  | .keyed key value => do
    let k ← m.expr key scope
    return (k, ← m.expr value scope)
  | .item value => return (itemKey items, ← m.expr value scope)

/-- The fields are evaluated one after the other, each to an entry with
a valid key. -/
inductive FieldsStore (m : Machine) (scope : ScopeId) :
    List (Nat × Field) → Store → List (Value × Value) → Store → Prop
  | none (σ : Store) : FieldsStore m scope [] σ [] σ
  | field {items : Nat} {f : Field} {fs : List (Nat × Field)} {σ τ υ : Store}
      {entry : Value × Value} {stores : List (Value × Value)}
      (hentry : m.fieldEntry scope items f σ = .done entry τ)
      (hkey : entry.1.IsKey) (hrest : FieldsStore m scope fs τ stores υ) :
      FieldsStore m scope ((items, f) :: fs) σ (entry :: stores) υ

/-- A field fails or has an invalid key, after fields of which none does. -/
inductive FieldsFail (m : Machine) (scope : ScopeId) :
    List (Nat × Field) → Store → RuntimeError → Store → Prop
  | entry {items : Nat} {f : Field} {fs : List (Nat × Field)} {σ τ : Store}
      {e : RuntimeError} (hentry : m.fieldEntry scope items f σ = .fail e τ) :
      FieldsFail m scope ((items, f) :: fs) σ e τ
  | key {items : Nat} {f : Field} {fs : List (Nat × Field)} {σ τ : Store}
      {entry : Value × Value} {fault : KeyFault}
      (hentry : m.fieldEntry scope items f σ = .done entry τ)
      (hkey : Key.ofValue entry.1 = .error fault) :
      FieldsFail m scope ((items, f) :: fs) σ (.invalidKey fault) τ
  | later {items : Nat} {f : Field} {fs : List (Nat × Field)} {σ τ υ : Store}
      {entry : Value × Value} {e : RuntimeError}
      (hentry : m.fieldEntry scope items f σ = .done entry τ)
      (hkey : entry.1.IsKey) (hrest : FieldsFail m scope fs τ e υ) :
      FieldsFail m scope ((items, f) :: fs) σ e υ

variable {m : Machine} {scope : ScopeId} {σ τ : Store}

theorem fields_cons (t : Table) (items : Nat) (f : Field) (fs : List Field) :
    m.fields scope t (counter 1.0 1.0 items) (f :: fs) = (do
      let (k, v) ← m.fieldEntry scope items f
      m.fields scope (← storeField t k v)
        (counter 1.0 1.0 (items + f.isItem.toNat)) fs) := by
  cases f <;> simp [fields, fieldEntry, itemKey, Field.isItem, counter]

theorem storeField_of_isKey {t : Table} {key value : Value} (h : key.IsKey) :
    storeField t key value σ = .done (t.store key value) σ := by
  obtain ⟨k, hk⟩ := h.exists_ofValue
  simp [storeField, Table.store, Table.set, hk, pure_apply]

theorem storeField_of_error {t : Table} {key value : Value} {fault : KeyFault}
    (h : Key.ofValue key = .error fault) :
    storeField t key value σ = .fail (.invalidKey fault) σ := by
  simp [storeField, Table.set, h, fail]

section

variable {items : Nat} {f : Field} {fs : List Field} {t : Table}
    {entry : Value × Value}

theorem fields_cons_stored
    (hentry : m.fieldEntry scope items f σ = .done entry τ)
    (hkey : entry.1.IsKey) :
    m.fields scope t (counter 1.0 1.0 items) (f :: fs) σ =
      m.fields scope (t.store entry.1 entry.2)
        (counter 1.0 1.0 (items + f.isItem.toNat)) fs τ := by
  rw [fields_cons, bind_apply, hentry]
  dsimp only
  rw [bind_apply, storeField_of_isKey hkey]

theorem fields_cons_invalid {fault : KeyFault}
    (hentry : m.fieldEntry scope items f σ = .done entry τ)
    (hkey : Key.ofValue entry.1 = .error fault) :
    m.fields scope t (counter 1.0 1.0 items) (f :: fs) σ =
      .fail (.invalidKey fault) τ := by
  rw [fields_cons, bind_apply, hentry]
  dsimp only
  rw [bind_apply, storeField_of_error hkey]

theorem fields_cons_failed {e : RuntimeError}
    (hentry : m.fieldEntry scope items f σ = .fail e τ) :
    m.fields scope t (counter 1.0 1.0 items) (f :: fs) σ = .fail e τ := by
  rw [fields_cons, bind_apply, hentry]

theorem fields_cons_unfinished
    (hentry : m.fieldEntry scope items f σ = .outOfFuel) :
    m.fields scope t (counter 1.0 1.0 items) (f :: fs) σ = .outOfFuel := by
  rw [fields_cons, bind_apply, hentry]

end

def FieldsEnd (m : Machine) (scope : ScopeId) (items : Nat) (fs : List Field)
    (t : Table) (σ : Store) :
    Outcome Table → Prop
  | .done t' τ =>
    ∃ stores, m.FieldsStore scope (numberedFrom items fs) σ stores τ ∧
      t' = t.storeAll stores
  | .fail e τ => m.FieldsFail scope (numberedFrom items fs) σ e τ
  | .outOfFuel => True

theorem fields_end (m : Machine) (scope : ScopeId) (items : Nat)
    (fs : List Field) (t : Table) (σ : Store) :
    m.FieldsEnd scope items fs t σ
      (m.fields scope t (counter 1.0 1.0 items) fs σ) := by
  induction fs generalizing items t σ with
  | nil => exact ⟨[], .none σ, rfl⟩
  | cons f fs ih =>
    cases hentry : m.fieldEntry scope items f σ with
    | done entry τ =>
      cases hkey : Key.ofValue entry.1 with
      | ok k =>
        have hvalid := Value.isKey_of_ofValue hkey
        rw [fields_cons_stored hentry hvalid]
        have hrest := ih (items + f.isItem.toNat) (t.store entry.1 entry.2) τ
        revert hrest
        cases m.fields scope (t.store entry.1 entry.2)
          (counter 1.0 1.0 (items + f.isItem.toNat)) fs τ with
        | done t' υ =>
          rintro ⟨stores, hstores, rfl⟩
          exact ⟨entry :: stores, .field hentry hvalid hstores, rfl⟩
        | fail e υ => exact .later hentry hvalid
        | outOfFuel => exact id
      | error fault =>
        rw [fields_cons_invalid hentry hkey]
        exact .key hentry hkey
    | fail e τ =>
      rw [fields_cons_failed hentry]
      exact .entry hentry
    | outOfFuel =>
      rw [fields_cons_unfinished hentry]
      trivial

theorem FieldsStore.fields_eq {items : Nat} {fs : List Field}
    {stores : List (Value × Value)}
    (h : m.FieldsStore scope (numberedFrom items fs) σ stores τ) (t : Table) :
    m.fields scope t (counter 1.0 1.0 items) fs σ =
      .done (t.storeAll stores) τ := by
  induction fs generalizing items t σ stores with
  | nil =>
    cases h
    rfl
  | cons f fs ih =>
    cases h with
    | field hentry hkey hrest =>
      rw [fields_cons_stored hentry hkey]
      exact ih hrest _

theorem FieldsFail.fields_eq {items : Nat} {fs : List Field} {e : RuntimeError}
    (h : m.FieldsFail scope (numberedFrom items fs) σ e τ) (t : Table) :
    m.fields scope t (counter 1.0 1.0 items) fs σ = .fail e τ := by
  induction fs generalizing items t σ with
  | nil => cases h
  | cons f fs ih =>
    cases h with
    | entry hentry => exact fields_cons_failed hentry
    | key hentry hkey => exact fields_cons_invalid hentry hkey
    | later hentry hkey hrest =>
      rw [fields_cons_stored hentry hkey]
      exact ih hrest _

theorem fields_done_iff {items : Nat} {fs : List Field} {t t' : Table} :
    m.fields scope t (counter 1.0 1.0 items) fs σ = .done t' τ ↔
      ∃ stores, m.FieldsStore scope (numberedFrom items fs) σ stores τ ∧
        t' = t.storeAll stores := by
  constructor
  · intro h
    have hends := m.fields_end scope items fs t σ
    rwa [h] at hends
  · rintro ⟨stores, hstores, rfl⟩
    exact hstores.fields_eq t

theorem fields_fail_iff {items : Nat} {fs : List Field} {t : Table}
    {e : RuntimeError} :
    m.fields scope t (counter 1.0 1.0 items) fs σ = .fail e τ ↔
      m.FieldsFail scope (numberedFrom items fs) σ e τ := by
  constructor
  · intro h
    have hends := m.fields_end scope items fs t σ
    rwa [h] at hends
  · exact fun h => h.fields_eq t

theorem FieldsStore.getElem? {fs : List (Nat × Field)}
    {stores : List (Value × Value)} (h : m.FieldsStore scope fs σ stores τ)
    {i items : Nat} {f : Field} (hi : fs[i]? = some (items, f)) :
    ∃ entry υ φ, stores[i]? = some entry ∧
      m.fieldEntry scope items f υ = .done entry φ := by
  induction h generalizing i with
  | none => cases hi
  | field hentry _ _ ih =>
    cases i with
    | zero =>
      cases hi
      exact ⟨_, _, _, rfl, hentry⟩
    | succ i => exact ih hi

theorem FieldsStore.isKey {fs : List (Nat × Field)}
    {stores : List (Value × Value)} (h : m.FieldsStore scope fs σ stores τ) :
    ∀ s ∈ stores, s.1.IsKey := by
  induction h with
  | none => exact List.forall_mem_nil _
  | field _ hkey _ ih => exact List.forall_mem_cons.mpr ⟨hkey, ih⟩

theorem isKey_itemKey (items : Nat) : (itemKey items).IsKey := by
  refine ⟨nofun, fun x hx => ?_⟩
  cases hx
  exact Number.isNaN_counter (by decide +kernel) (by decide +kernel) items

theorem FieldsStore.getElem?_item {fs : List (Nat × Field)}
    {stores : List (Value × Value)} (h : m.FieldsStore scope fs σ stores τ)
    {i items : Nat} {value : Expr} (hi : fs[i]? = some (items, .item value)) :
    ∃ v, stores[i]? = some (itemKey items, v) := by
  obtain ⟨entry, υ, φ, hstore, hentry⟩ := h.getElem? hi
  simp only [fieldEntry, bind_apply] at hentry
  cases hv : m.expr value scope υ with
  | done v ψ =>
    rw [hv] at hentry
    cases hentry
    exact ⟨v, hstore⟩
  | _ =>
    rw [hv] at hentry
    cases hentry

/-- A table constructor evaluates its fields one after the other, gives the
items their numbers, and stores each field before it evaluates the next one; it
fails with the first field that fails or has an invalid key. Every key of the
table it makes has the value of the last field under an equal key, and the
entries stand in the order in which they came in. The generator lowers the same
fields in the same order, and counts the items from 0. -/
theorem table_stores_fields (m : Machine) (scope : ScopeId) (fs : List Field)
    (σ : Store) :
    let numbered := numberedFrom 0 fs
    let outcome := m.evalExpr (.table fs) scope σ
    (∀ i, numbered[i]? = fs[i]?.map fun f => (itemsBefore fs i, f)) ∧
      (∀ v τ, outcome = .done v τ ↔
        ∃ stores υ, m.FieldsStore scope numbered σ stores υ ∧
          v = .ref (.table υ.heap.tables.size) ∧
          τ = { υ with heap := υ.heap.addTable (.ofHistory stores) } ∧
          τ.heap.table υ.heap.tables.size = .ofHistory stores) ∧
      (∀ e τ, outcome = .fail e τ ↔ m.FieldsFail scope numbered σ e τ) ∧
      (∀ stores υ, m.FieldsStore scope numbered σ stores υ →
        (∀ i value, fs[i]? = some (.item value) →
            ∃ v, stores[i]? = some (itemKey (itemsBefore fs i), v)) ∧
          (∀ key, (Table.ofHistory stores).get key =
            ((stores.reverse.find? (·.1.equals key)).map (·.2)).getD .nil) ∧
          (Table.ofHistory stores).entries.toList =
            stores.foldl Table.placed []) ∧
      (∀ items, (itemKey items).IsKey) ∧
      (Expr.table fs).lower = (do
          return .object
            (← numbered.mapM fun (items, f) => f.lowerAfter items)) ∧
      (∀ properties depth, (Script.Expr.object properties).text depth =
        "\x7b" ++ Script.commaSeparated (properties.map (·.text depth)) ++
          "\x7d") ∧
      (∀ key value depth, (Script.Property.named key value).text depth =
        Script.quote key ++ ": " ++ value.text depth) ∧
      ∀ key value depth, (Script.Property.computed key value).text depth =
        "[" ++ key.text depth ++ "]: " ++ value.text depth := by
  intro numbered outcome
  have hnumbered : ∀ i, numbered[i]? =
      fs[i]?.map fun f => (itemsBefore fs i, f) := by
    intro i
    simpa using getElem?_numberedFrom 0 fs i
  have houtcome : outcome =
      (m.fields scope .empty (counter 1.0 1.0 0) fs >>= makeTable) σ := rfl
  refine ⟨hnumbered, fun v τ => ?_, fun e τ => ?_,
    fun stores υ h => ⟨fun i value hi => ?_, fun key => ?_, ?_⟩, isKey_itemKey,
    ?_, fun properties depth => ?_, fun key value depth => ?_,
    fun key value depth => ?_⟩
  · rw [houtcome, bind_apply]
    constructor
    · intro h
      cases hfields : m.fields scope .empty (counter 1.0 1.0 0) fs σ with
      | done t υ =>
        rw [hfields] at h
        obtain ⟨stores, hstores, rfl⟩ := fields_done_iff.mp hfields
        cases h
        have htable :=
          Heap.table_addTable υ.heap (.ofHistory stores) υ.heap.tables.size
        exact ⟨stores, υ, hstores, rfl, rfl, htable.trans (if_pos rfl)⟩
      | _ =>
        rw [hfields] at h
        cases h
    · rintro ⟨stores, υ, hstores, rfl, rfl, -⟩
      rw [hstores.fields_eq]
      rfl
  · rw [houtcome, bind_apply, ← fields_fail_iff (t := .empty)]
    cases m.fields scope .empty (counter 1.0 1.0 0) fs σ with
    | done t υ => simp [makeTable]
    | fail e' υ => simp only [Outcome.fail.injEq]
    | outOfFuel => simp only [reduceCtorEq]
  · exact h.getElem?_item (by rw [hnumbered, hi, Option.map_some])
  · rw [Table.get_ofHistory, Table.lastStored_eq h.isKey]
  · exact Table.entries_storeAll Table.empty_coherent h.isKey
  · rw [Expr.lower, lowerFields_eq]
  · rw [Script.Expr.text, Script.propertyTexts_eq_map]
  · rw [Script.Property.text]
  · rw [Script.Property.text]

/-- An item is stored in the place of a field with its number as its key; an
item that is `nil` counts as well. -/
example :
    [(.number 1.0, .string "x"), (itemKey 0, .string "a"), (itemKey 1, .nil),
          (itemKey 2, .string "c")].foldl Table.placed [] =
      [(.number 1.0, .string "a"), (.number 3.0, .string "c")] := by
  decide +kernel

end Machine

end LuaCore
