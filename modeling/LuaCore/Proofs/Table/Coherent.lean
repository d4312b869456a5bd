import LuaCore.Table

namespace LuaCore

namespace Table

/-- The index knows the place of each entry and nothing else, and no entry
holds `nil`. -/
structure Coherent (t : Table) : Prop where
  size_index : t.index.size = t.entries.size
  place : ∀ {i : Nat} {key value : Value}, t.entries[i]? = some (key, value) →
    ∃ k, Key.ofValue key = .ok k ∧ t.index[k]? = some i
  entry : ∀ {k : Key} {i : Nat}, t.index[k]? = some i →
    ∃ key value, t.entries[i]? = some (key, value) ∧ Key.ofValue key = .ok k
  value_ne_nil : ∀ {i : Nat} {key value : Value},
    t.entries[i]? = some (key, value) → value ≠ .nil

theorem empty_coherent : empty.Coherent where
  size_index := by simp [empty]
  place := by simp [empty]
  entry := by simp [empty]
  value_ne_nil := by simp [empty]

variable {t : Table} {k k' : Key} {key value : Value} {i : Nat}

namespace Coherent

theorem eq_of_ofValue_eq (h : t.Coherent) {i j : Nat}
    {first second : Value × Value} (hi : t.entries[i]? = some first)
    (hj : t.entries[j]? = some second)
    (hkey : Key.ofValue first.1 = Key.ofValue second.1) :
    i = j := by
  obtain ⟨k, hk, hplace⟩ := h.place hi
  obtain ⟨l, hl, hplace'⟩ := h.place hj
  have hkl : k = l := by
    rw [hk, hl] at hkey
    exact Except.ok.inj hkey
  subst hkl
  rw [hplace] at hplace'
  exact Option.some.inj hplace'

theorem pairwise_ofValue_ne (h : t.Coherent) :
    t.entries.toList.Pairwise fun first second => Key.ofValue first.1 ≠
      Key.ofValue second.1 := by
  refine List.pairwise_iff_getElem.mpr fun i j hi hj hlt hkey =>
    Nat.ne_of_lt hlt ?_
  refine h.eq_of_ofValue_eq ?_ ?_ hkey <;> simp

theorem ne_nil_of_mem (h : t.Coherent) {entry : Value × Value}
    (hmem : entry ∈ t.entries.toList) :
    entry.1 ≠ .nil ∧ entry.2 ≠ .nil := by
  obtain ⟨i, hi⟩ := List.mem_iff_getElem?.mp hmem
  rw [Array.getElem?_toList] at hi
  obtain ⟨k, hkey, -⟩ := h.place hi
  refine ⟨fun hnil => ?_, h.value_ne_nil hi⟩
  rw [hnil] at hkey
  cases hkey

theorem lt_size (h : t.Coherent) (hi : t.index[k]? = some i) :
    i < t.entries.size := by
  obtain ⟨_, _, hentry, _⟩ := h.entry hi
  exact (Array.getElem?_eq_some_iff.mp hentry).1

theorem ofValue_ne (h : t.Coherent) (hnone : t.index[k]? = none)
    (hi : t.entries[i]? = some (key, value)) : Key.ofValue key ≠ .ok k := by
  intro hkey
  obtain ⟨l, hl, hplace⟩ := h.place hi
  rw [hkey] at hl
  cases hl
  simp [hnone] at hplace

end Coherent

/-! Each of the three operations keeps the index and the entries in step. -/

theorem append_coherent (h : t.Coherent) (hkey : Key.ofValue key = .ok k)
    (hnone : t.index[k]? = none) (hvalue : value ≠ .nil) :
    (t.append k key value).Coherent where
  size_index := by
    have habsent : k ∉ t.index := by
      simp [Std.HashMap.mem_iff_isSome_getElem?, hnone]
    simp [append, Std.HashMap.size_insert, habsent, h.size_index]
  place := by
    intro i key' value' hi
    simp only [append, Array.getElem?_push] at hi
    split at hi
    · next hsize =>
      cases hi
      exact ⟨k, hkey, by simp [append, hsize]⟩
    · obtain ⟨l, hl, hplace⟩ := h.place hi
      have hne : k ≠ l := by
        rintro rfl
        exact h.ofValue_ne hnone hi hl
      exact ⟨l, hl, by simp [append, Std.HashMap.getElem?_insert, hne, hplace]⟩
  entry := by
    intro l i hi
    simp only [append, Std.HashMap.getElem?_insert, beq_iff_eq] at hi
    split at hi
    · next hkl =>
      cases hi
      subst hkl
      exact ⟨key, value, by simp [append], hkey⟩
    · obtain ⟨key', value', hentry, hl⟩ := h.entry hi
      have hne : i ≠ t.entries.size := Nat.ne_of_lt (h.lt_size hi)
      exact ⟨key', value', by simp [append, Array.getElem?_push, hne, hentry],
        hl⟩
  value_ne_nil := by
    intro i key' value' hi
    simp only [append, Array.getElem?_push] at hi
    split at hi
    · cases hi
      exact hvalue
    · exact h.value_ne_nil hi

theorem replace_coherent (h : t.Coherent) (hvalue : value ≠ .nil) :
    (t.replace i value).Coherent where
  size_index := by simp [replace, h.size_index]
  place := by
    intro j key' value' hj
    simp only [replace, Array.getElem?_modify] at hj
    split at hj
    · obtain ⟨⟨first, second⟩, hentry, heq⟩ := Option.map_eq_some_iff.mp hj
      cases heq
      exact h.place hentry
    · exact h.place hj
  entry := by
    intro l j hj
    obtain ⟨key', value', hentry, hl⟩ := h.entry hj
    by_cases hij : i = j
    · exact ⟨key', value, by simp [replace, Array.getElem?_modify, hij, hentry],
        hl⟩
    · exact ⟨key', value',
        by simp [replace, Array.getElem?_modify, hij, hentry], hl⟩
  value_ne_nil := by
    intro j key' value' hj
    simp only [replace, Array.getElem?_modify] at hj
    split at hj
    · obtain ⟨_, _, heq⟩ := Option.map_eq_some_iff.mp hj
      cases heq
      exact hvalue
    · exact h.value_ne_nil hj

/-- The places after a removal: those behind the gap move up by one. -/
theorem getElem?_closeGap (index : Std.HashMap Key Nat) :
    (closeGap i index)[k]? =
      (index[k]?).map fun place => if i < place then place - 1 else place := by
  simp [closeGap, Std.HashMap.getElem?_map]

theorem getElem?_remove_entries (hi : i < t.entries.size) (j : Nat) :
    (t.remove k i).entries[j]? =
      if j < i then t.entries[j]? else t.entries[j + 1]? := by
  simp [remove, Array.eraseIdxIfInBounds_eq, hi, Array.getElem?_eraseIdx]

theorem remove_coherent (h : t.Coherent) (hi : t.index[k]? = some i) :
    (t.remove k i).Coherent where
  size_index := by
    have hlt := h.lt_size hi
    have hpresent : k ∈ t.index := by
      simp [Std.HashMap.mem_iff_isSome_getElem?, hi]
    simp [remove, closeGap, Std.HashMap.size_erase, hpresent,
      Array.eraseIdxIfInBounds_eq, hlt, h.size_index]
  place := by
    intro j key' value' hj
    rw [getElem?_remove_entries (h.lt_size hi)] at hj
    -- the entry stood at `j` or at `j + 1`, and its place is not the one
    -- that was erased
    split at hj
    · next hji =>
      obtain ⟨l, hl, hplace⟩ := h.place hj
      have hne : k ≠ l := by
        rintro rfl
        rw [hi] at hplace
        cases hplace
        omega
      refine ⟨l, hl, ?_⟩
      have hgap : ¬ i < j := by omega
      simp [remove, getElem?_closeGap, Std.HashMap.getElem?_erase, hne, hplace,
        hgap]
    · next hji =>
      obtain ⟨l, hl, hplace⟩ := h.place hj
      have hne : k ≠ l := by
        rintro rfl
        rw [hi] at hplace
        cases hplace
        omega
      refine ⟨l, hl, ?_⟩
      have hgap : i < j + 1 := by omega
      simp [remove, getElem?_closeGap, Std.HashMap.getElem?_erase, hne, hplace,
        hgap]
  entry := by
    intro l j hj
    simp only [remove, getElem?_closeGap, Option.map_eq_some_iff,
      Std.HashMap.getElem?_erase, beq_iff_eq] at hj
    obtain ⟨place, hplace, rfl⟩ := hj
    split at hplace
    · cases hplace
    · next hkl =>
      obtain ⟨key', value', hentry, hl⟩ := h.entry hplace
      have hne : place ≠ i := by
        rintro rfl
        obtain ⟨key'', value'', hentry', hk⟩ := h.entry hi
        rw [hentry] at hentry'
        cases hentry'
        rw [hl] at hk
        exact hkl (Except.ok.inj hk).symm
      refine ⟨key', value', ?_, hl⟩
      rw [getElem?_remove_entries (h.lt_size hi)]
      split
      · next hgap =>
        have hstep : place - 1 + 1 = place := by omega
        simp [hstep, hentry, show ¬ place - 1 < i by omega]
      · simp [hentry, show place < i by omega]
  value_ne_nil := by
    intro j key' value' hj
    rw [getElem?_remove_entries (h.lt_size hi)] at hj
    split at hj
    · exact h.value_ne_nil hj
    · exact h.value_ne_nil hj

theorem put_coherent (h : t.Coherent) (hkey : Key.ofValue key = .ok k) :
    (t.put k key value).Coherent := by
  unfold put
  split
  · next i hi => exact remove_coherent h hi
  · next hvalue => exact replace_coherent h hvalue
  · exact h
  · next hnone hvalue => exact append_coherent h hkey hnone hvalue

/-! The entries under a key, told without the index. -/

def isUnder (k : Key) (entry : Value × Value) : Bool :=
  match Key.ofValue entry.1 with
  | .ok l => l = k
  | .error _ => false

theorem isUnder_iff {entry : Value × Value} :
    isUnder k entry = true ↔ Key.ofValue entry.1 = .ok k := by
  unfold isUnder
  cases Key.ofValue entry.1 <;> simp

namespace Coherent

/-- A key with a place stands there and nowhere else. -/
theorem entries_eq_append (h : t.Coherent) (hi : t.index[k]? = some i) :
    ∃ before entry after, t.entries.toList = before ++ entry :: after ∧
      before.length = i ∧
      isUnder k entry = true ∧ (∀ e ∈ before, isUnder k e = false) ∧
      ∀ e ∈ after, isUnder k e = false := by
  have hlt : i < t.entries.toList.length := by simpa using h.lt_size hi
  obtain ⟨key, value, hentry, hkey⟩ := h.entry hi
  have elsewhere : ∀ j e, t.entries.toList[j]? = some e → j ≠ i →
      isUnder k e = false := by
    intro j e hj hji
    rw [Array.getElem?_toList] at hj
    rw [Bool.eq_false_iff, ne_eq, isUnder_iff]
    intro he
    exact hji (h.eq_of_ofValue_eq hj hentry (by rw [he, hkey]))
  refine ⟨t.entries.toList.take i, t.entries.toList[i],
    t.entries.toList.drop (i + 1), ?_, ?_, ?_, ?_, ?_⟩
  · rw [List.getElem_cons_drop, List.take_append_drop]
  · simp only [List.length_take]
    omega
  · have heq : t.entries.toList[i] = (key, value) := by
      simpa [Array.getElem?_eq_getElem (h.lt_size hi)] using hentry
    rw [heq, isUnder_iff]
    exact hkey
  · intro e he
    obtain ⟨j, hj⟩ := List.mem_iff_getElem?.mp he
    rw [List.getElem?_take] at hj
    split at hj
    · exact elsewhere j e hj (by omega)
    · cases hj
  · intro e he
    obtain ⟨j, hj⟩ := List.mem_iff_getElem?.mp he
    rw [List.getElem?_drop] at hj
    exact elsewhere (i + 1 + j) e hj (by omega)

theorem any_isUnder_iff (h : t.Coherent) :
    t.entries.toList.any (isUnder k) = true ↔ ∃ i, t.index[k]? = some i := by
  rw [List.any_eq_true]
  constructor
  · rintro ⟨e, he, hk⟩
    obtain ⟨i, hi⟩ := List.mem_iff_getElem?.mp he
    rw [Array.getElem?_toList] at hi
    obtain ⟨l, hl, hplace⟩ := h.place hi
    rw [isUnder_iff.mp hk] at hl
    cases hl
    exact ⟨i, hplace⟩
  · rintro ⟨i, hi⟩
    obtain ⟨before, e, after, heq, _, he, _⟩ := h.entries_eq_append hi
    exact ⟨e, by simp [heq], he⟩

theorem find_of_isUnder (h : t.Coherent) {entry : Value × Value}
    (hmem : entry ∈ t.entries.toList) (hk : isUnder k entry = true) :
    t.find k = entry.2 := by
  obtain ⟨i, hi⟩ := List.mem_iff_getElem?.mp hmem
  rw [Array.getElem?_toList] at hi
  obtain ⟨l, hl, hplace⟩ := h.place hi
  rw [isUnder_iff.mp hk] at hl
  cases hl
  simp [find, hplace, hi]

theorem find_of_absent (h : t.Coherent)
    (habsent : t.entries.toList.any (isUnder k) = false) :
    t.find k = .nil := by
  have hnone : t.index[k]? = none := by
    rw [Option.eq_none_iff_forall_ne_some]
    intro i hi
    simp [h.any_isUnder_iff.mpr ⟨i, hi⟩] at habsent
  simp [find, hnone]

end Coherent

/-- The entries after a store under a key: `nil` takes the entry out, any other
value goes where the entry stands, or to the end if there is none. -/
def entriesAfter (entries : List (Value × Value)) (k : Key)
    (key value : Value) :
    List (Value × Value) :=
  if value = .nil then entries.filter (! isUnder k ·)
  else if entries.any (isUnder k) then
    entries.map fun entry => if isUnder k entry then (entry.1, value) else entry
  else entries ++ [(key, value)]

theorem filter_eq_of_forall {entries : List (Value × Value)}
    (h : ∀ e ∈ entries, isUnder k e = false) :
    entries.filter (! isUnder k ·) = entries := by
  rw [List.filter_eq_self]
  intro e he
  simp [h e he]

theorem map_eq_of_forall {entries : List (Value × Value)}
    (h : ∀ e ∈ entries, isUnder k e = false) :
    (entries.map fun entry =>
        if isUnder k entry then (entry.1, value) else entry) = entries := by
  refine (List.map_congr_left fun e he => ?_).trans (List.map_id entries)
  simp [h e he]

theorem entries_put (h : t.Coherent) :
    (t.put k key value).entries.toList =
      entriesAfter t.entries.toList k key value := by
  cases hplace : t.index[k]? with
  | none =>
    have habsent : t.entries.toList.any (isUnder k) = false := by
      rw [Bool.eq_false_iff, ne_eq, h.any_isUnder_iff]
      simp [hplace]
    by_cases hvalue : value = .nil
    · have hfilter : t.entries.toList.filter (! isUnder k ·) =
          t.entries.toList :=
        filter_eq_of_forall fun e he =>
          Bool.eq_false_iff.mpr (List.any_eq_false.mp habsent e he)
      simp [put, hplace, hvalue, entriesAfter, hfilter]
    · simp [put, hplace, hvalue, entriesAfter, habsent, append]
  | some i =>
    obtain ⟨before, entry, after, heq, hlength, hentry, hbefore, hafter⟩ :=
      h.entries_eq_append hplace
    have hpresent := h.any_isUnder_iff.mpr ⟨i, hplace⟩
    subst hlength
    by_cases hvalue : value = .nil
    · subst hvalue
      calc
        (t.put k key .nil).entries.toList = before ++ after := by
          simp [put, hplace, remove, heq, List.eraseIdx_append]
        _ = t.entries.toList.filter (! isUnder k ·) := by
          rw [heq, List.filter_append, List.filter_cons]
          simp [hentry, filter_eq_of_forall hbefore, filter_eq_of_forall hafter]
        _ = entriesAfter t.entries.toList k key .nil := by simp [entriesAfter]
    · calc
        (t.put k key value).entries.toList =
          before ++ (entry.1, value) :: after := by
          simp [put, hplace, replace, heq, List.modify_eq_take_cons_drop]
        _ = t.entries.toList.map fun e =>
            if isUnder k e then (e.1, value) else e := by
          rw [heq, List.map_append, List.map_cons]
          simp [hentry, map_eq_of_forall hbefore, map_eq_of_forall hafter]
        _ = entriesAfter t.entries.toList k key value := by
          simp [entriesAfter, hvalue, hpresent]

theorem mem_entriesAfter (entries : List (Value × Value))
    (hkey : Key.ofValue key = .ok k) (hvalue : value ≠ .nil) :
    ∃ entry ∈ entriesAfter entries k key value, isUnder k entry = true ∧
      entry.2 = value := by
  unfold entriesAfter
  rw [if_neg hvalue]
  split
  · next hpresent =>
    obtain ⟨e, he, hk⟩ := List.any_eq_true.mp hpresent
    refine ⟨(e.1, value), List.mem_map.mpr ⟨e, he, by simp [hk]⟩, ?_, rfl⟩
    exact isUnder_iff.mpr (isUnder_iff.mp hk)
  · exact ⟨(key, value), by simp, isUnder_iff.mpr hkey, rfl⟩

theorem mem_entriesAfter_of_ne {entries : List (Value × Value)}
    (hkey : Key.ofValue key = .ok k) (hne : k ≠ k') {entry : Value × Value}
    (hk' : isUnder k' entry = true) :
    entry ∈ entriesAfter entries k key value ↔ entry ∈ entries := by
  have hother : ∀ e : Value × Value, e.1 = entry.1 → isUnder k e = false := by
    intro e he
    rw [Bool.eq_false_iff, ne_eq, isUnder_iff, he, isUnder_iff.mp hk']
    exact fun heq => hne (Except.ok.inj heq).symm
  unfold entriesAfter
  split
  · simp [hother entry rfl]
  · split
    · rw [List.mem_map]
      constructor
      · rintro ⟨e, he, heq⟩
        split at heq
        · next hk =>
          rw [← heq] at hk'
          rw [hother e (by rw [← heq])] at hk
          cases hk
        · rwa [← heq]
      · exact fun he => ⟨entry, he, by simp [hother entry rfl]⟩
    · have hnew : entry ≠ (key, value) := by
        rintro rfl
        exact hne (Except.ok.inj (hkey.symm.trans (isUnder_iff.mp hk')))
      simp [hnew]

theorem find_put (h : t.Coherent) (hkey : Key.ofValue key = .ok k) (k' : Key) :
    (t.put k key value).find k' = if k = k' then value else t.find k' := by
  have hput : (t.put k key value).Coherent := put_coherent h hkey
  split
  · next heq =>
    subst heq
    by_cases hvalue : value = .nil
    · rw [hput.find_of_absent, hvalue]
      simp [entries_put h, entriesAfter, hvalue]
    · obtain ⟨entry, hmem, hk, hentry⟩ :=
        mem_entriesAfter t.entries.toList hkey hvalue
      rw [← entries_put h] at hmem
      rw [hput.find_of_isUnder hmem hk, hentry]
  · next hne =>
    cases hpresent : t.entries.toList.any (isUnder k') with
    | true =>
      obtain ⟨entry, hmem, hk'⟩ := List.any_eq_true.mp hpresent
      rw [h.find_of_isUnder hmem hk']
      refine hput.find_of_isUnder ?_ hk'
      rw [entries_put h]
      exact (mem_entriesAfter_of_ne hkey hne hk').mpr hmem
    | false =>
      rw [h.find_of_absent hpresent, hput.find_of_absent]
      rw [List.any_eq_false] at hpresent ⊢
      intro entry hmem hk'
      rw [entries_put h, mem_entriesAfter_of_ne hkey hne hk'] at hmem
      exact hpresent entry hmem hk'

end Table

end LuaCore
