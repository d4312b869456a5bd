import LuaCore.Proofs.Table.Coherent

namespace LuaCore

namespace Table

variable {t : Table} {k : Key} {key value : Value}

/-- The table after a store, which leaves it as it was where it fails. -/
def store (t : Table) (key value : Value) : Table :=
  match t.set key value with
  | .ok t => t
  | .error _ => t

def storeAll (t : Table) (history : List (Value × Value)) : Table :=
  history.foldl (fun t s => t.store s.1 s.2) t

def ofHistory (history : List (Value × Value)) : Table := empty.storeAll history

/-- The value of the last store under the key of a value; `nil` if there is
none. -/
def lastStored (history : List (Value × Value)) (key : Value) : Value :=
  match Key.ofValue key with
  | .ok k => ((history.reverse.find? (isUnder k)).map (·.2)).getD .nil
  | .error _ => .nil

theorem ofValue_eq_error_iff {fault : KeyFault} :
    Key.ofValue key = .error fault ↔
      key = .nil ∧ fault = .nil ∨
        ∃ x, key = .number x ∧ x.isNaN = true ∧ fault = .nan := by
  cases key with
  | nil =>
    simp only [Key.ofValue, Except.error.injEq, reduceCtorEq, false_and,
      exists_false, or_false, true_and]
    exact eq_comm
  | number x =>
    cases hx : x.isNaN with
    | false =>
      have hvalid : Key.ofValue (.number x) = .ok (Key.ofNumber x) := by
        rw [Key.ofValue, hx]
        rfl
      rw [hvalid]
      constructor
      · exact fun h => nomatch h
      · rintro (⟨hnil, -⟩ | ⟨y, hy, hnan, -⟩)
        · exact nomatch hnil
        · rw [← Value.number.inj hy, hx] at hnan
          exact nomatch hnan
    | true =>
      simp only [Key.ofValue, hx, if_true, Except.error.injEq, reduceCtorEq,
        false_and, false_or]
      constructor
      · rintro rfl
        exact ⟨x, rfl, hx, rfl⟩
      · rintro ⟨_, _, _, rfl⟩
        rfl
  | bool _ => simp [Key.ofValue]
  | string _ => simp [Key.ofValue]
  | ref _ => simp [Key.ofValue]

theorem set_eq_error_iff {fault : KeyFault} :
    t.set key value = .error fault ↔ Key.ofValue key = .error fault := by
  unfold set
  cases Key.ofValue key <;> simp

theorem store_of_ok (hkey : Key.ofValue key = .ok k) :
    t.store key value = t.put k key value := by
  simp [store, set, hkey]

theorem store_of_error {fault : KeyFault}
    (hkey : Key.ofValue key = .error fault) :
    t.store key value = t := by
  simp [store, set, hkey]

theorem store_coherent (h : t.Coherent) : (t.store key value).Coherent := by
  cases hkey : Key.ofValue key with
  | ok k =>
    rw [store_of_ok hkey]
    exact put_coherent h hkey
  | error fault =>
    rw [store_of_error hkey]
    exact h

theorem find_store (h : t.Coherent) :
    (t.store key value).find k =
      if isUnder k (key, value) then value else t.find k := by
  cases hkey : Key.ofValue key with
  | ok l => simp [store_of_ok hkey, find_put h hkey, isUnder, hkey]
  | error fault => simp [store_of_error hkey, isUnder, hkey]

theorem entries_store (h : t.Coherent) (hkey : Key.ofValue key = .ok k) :
    (t.store key value).entries.toList =
      entriesAfter t.entries.toList k key value := by
  rw [store_of_ok hkey, entries_put h]

/-! Whole histories, by induction from what one store does. -/

theorem storeAll_coherent (h : t.Coherent) (history : List (Value × Value)) :
    (t.storeAll history).Coherent := by
  induction history generalizing t with
  | nil => exact h
  | cons s history ih => exact ih (store_coherent h)

theorem find_storeAll (h : t.Coherent) (history : List (Value × Value))
    (k : Key) :
    (t.storeAll history).find k =
      ((history.reverse.find? (isUnder k)).map (·.2)).getD (t.find k) := by
  induction history generalizing t with
  | nil => rfl
  | cons s history ih =>
    have hfirst : t.storeAll (s :: history) =
        (t.store s.1 s.2).storeAll history := rfl
    rw [hfirst, ih (store_coherent h), find_store h, List.reverse_cons,
      List.find?_append]
    -- a later store under the key hides the first one
    cases history.reverse.find? (isUnder k) with
    | some later => simp
    | none => cases hs : isUnder k s <;> simp [hs]

theorem get_ofHistory (history : List (Value × Value)) (key : Value) :
    (ofHistory history).get key = lastStored history key := by
  unfold get lastStored
  cases Key.ofValue key with
  | ok k =>
    have hempty : empty.find k = .nil := by simp [find, empty]
    simp only [ofHistory, find_storeAll empty_coherent, hempty]
  | error fault => rfl

/-- How a table answers to a store: what it refuses, and where the entries
then stand. -/
structure StoresInOrder (t : Table) : Prop where
  set_eq_error : ∀ key value fault, t.set key value = .error fault ↔
    key = .nil ∧ fault = .nil ∨
      ∃ x, key = .number x ∧ x.isNaN = true ∧ fault = .nan
  unchanged : ∀ key value fault, t.set key value = .error fault →
    t.store key value = t
  /-- A key that is present keeps its place, and so does every other entry. -/
  update : ∀ k key value, Key.ofValue key = .ok k → value ≠ .nil →
    t.entries.toList.any (isUnder k) = true →
    (t.store key value).entries.toList = t.entries.toList.map fun entry =>
        if isUnder k entry then (entry.1, value) else entry
  insert : ∀ k key value, Key.ofValue key = .ok k → value ≠ .nil →
    t.entries.toList.any (isUnder k) = false →
    (t.store key value).entries.toList = t.entries.toList ++ [(key, value)]
  remove : ∀ k key, Key.ofValue key = .ok k →
    (t.store key .nil).entries.toList = t.entries.toList.filter (! isUnder k ·)
  /-- A key that comes back comes last, whichever of its values it comes back
  as. -/
  reinsert : ∀ k key key' value, Key.ofValue key = .ok k →
    Key.ofValue key' = .ok k →
    value ≠ .nil →
    ((t.store key .nil).store key' value).entries.toList =
      t.entries.toList.filter (! isUnder k ·) ++ [(key', value)]

theorem Coherent.storesInOrder (h : t.Coherent) : t.StoresInOrder where
  set_eq_error := fun _ _ _ => set_eq_error_iff.trans ofValue_eq_error_iff
  unchanged := fun _ _ _ hset => store_of_error (set_eq_error_iff.mp hset)
  update := by
    intro k key value hkey hvalue hpresent
    rw [entries_store h hkey]
    simp only [entriesAfter, hvalue, hpresent, if_true, if_false]
  insert := by
    intro k key value hkey hvalue habsent
    rw [entries_store h hkey]
    simp [entriesAfter, hvalue, habsent]
  remove := by
    intro k key hkey
    rw [entries_store h hkey]
    simp [entriesAfter]
  reinsert := by
    intro k key key' value hkey hkey' hvalue
    have hout : (t.entries.toList.filter (! isUnder k ·)).any (isUnder k) =
        false := by
      simp
    rw [entries_store (store_coherent h) hkey', entries_store h hkey]
    simp only [entriesAfter, hvalue, if_true, if_false, hout,
      Bool.false_eq_true]

/-- After every history of stores a table is a map in insertion order: its index
and its entries agree, no two entries share a key, every key has the value of
the last store under it, and each further store leaves the entries in order. -/
theorem ofHistory_insertion_ordered (history : List (Value × Value)) :
    (ofHistory history).Coherent ∧
      (∀ (i j : Nat) (first second : Value × Value),
        (ofHistory history).entries[i]? = some first →
          (ofHistory history).entries[j]? = some second →
          Key.ofValue first.1 = Key.ofValue second.1 → i = j) ∧
      (∀ key, (ofHistory history).get key = lastStored history key) ∧
      (ofHistory history).StoresInOrder := by
  have h : (ofHistory history).Coherent :=
    storeAll_coherent empty_coherent history
  refine ⟨h, ?_, get_ofHistory history, h.storesInOrder⟩
  intro i j first second hi hj
  exact h.eq_of_ofValue_eq hi hj

/-- A removed key comes back at the end, and an update in between moves
nothing. -/
example :
    ((ofHistory [(.bool true, .bool true), (.string "b", .bool true),
          (.bool true, .nil), (.string "b", .bool false),
          (.bool true, .bool false)]).entries.toList) =
      [(.string "b", .bool false), (.bool true, .bool false)] := by
  cbv

end Table

end LuaCore
