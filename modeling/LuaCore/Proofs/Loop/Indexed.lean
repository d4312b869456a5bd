import LuaCore.Evaluation.Action
import LuaCore.Proofs.Table.History
import Mathlib.Data.List.TakeWhile

namespace LuaCore

/-- What a program does with a table and an iterator over its indices. -/
inductive IndexUse
  | advance
  | store (key value : Value)

structure IndexAdvance where
  table : Table
  row? : Option (List Value)

namespace Heap

/-- A store in a table, which changes nothing where the key is none. -/
def store (h : Heap) (t : Nat) (key value : Value) : Heap :=
  match Key.ofValue key with
  | .ok k => h.putEntry t k key value
  | .error _ => h

def advances (t id : Nat) : Heap → List IndexUse → List IndexAdvance
  | _, [] => []
  | h, .advance :: uses =>
    ⟨h.table t, (h.advance id).1⟩ :: advances t id (h.advance id).2 uses
  | h, .store key value :: uses => advances t id (h.store t key value) uses

end Heap

/-- The number that is reached from 0 when 1 is added so many times. -/
def indexNumber : Nat → Float
  | 0 => 0.0
  | k + 1 => indexNumber k + 1.0

theorem Action.setIndex_table (t : Nat) (key value : Value) (σ : Store) :
    (setIndex (.ref (.table t)) key value σ).store? =
      some { σ with heap := σ.heap.store t key value } := by
  unfold setIndex Heap.store
  cases Key.ofValue key <;> rfl

namespace Table

def atIndex (t : Table) (k : Nat) : Value := t.get (.number (indexNumber k))

def indexRow? (t : Table) (k : Nat) : Option (List Value) :=
  if t.atIndex k = .nil then none
  else some [.number (indexNumber k), t.atIndex k]

theorem indexRow?_eq_none_iff {t : Table} {k : Nat} :
    t.indexRow? k = none ↔ t.atIndex k = .nil := by
  unfold indexRow?
  split
  · next hnil => exact iff_of_true rfl hnil
  · next hpresent => exact iff_of_false (Option.some_ne_none _) hpresent

theorem indexRow?_eq_some_iff {t : Table} {k : Nat} {row : List Value} :
    t.indexRow? k = some row ↔
      t.atIndex k ≠ .nil ∧ row = [.number (indexNumber k), t.atIndex k] := by
  unfold indexRow?
  split
  · next hnil => simp [hnil]
  · next hpresent => simp [hpresent, eq_comm]

end Table

/-- The rows are those of the first, second, … index at their moments, and after
an end there is none. -/
structure LeadingRun (as : List IndexAdvance) : Prop where
  rows : ∀ (k : Nat) (a : IndexAdvance), (as.filter (·.row?.isSome))[k]? =
    some a →
    a.table.atIndex (k + 1) ≠ .nil ∧
      a.row? = some [.number (indexNumber (k + 1)), a.table.atIndex (k + 1)]
  ended : as.Pairwise fun a b => a.row? = none → b.row? = none

theorem filter_isSome_eq_takeWhile {as : List IndexAdvance}
    (h : as.Pairwise fun a b => a.row? = none → b.row? = none) :
    as.filter (·.row?.isSome) = as.takeWhile (·.row?.isSome) := by
  induction as with
  | nil => rfl
  | cons a as ih =>
    obtain ⟨hfirst, hrest⟩ := List.pairwise_cons.mp h
    cases ha : a.row? with
    | some row => simp [ha, ih hrest]
    | none =>
      have hnone : ∀ b ∈ as, b.row? = none := fun b hb => hfirst b hb ha
      have hfilter : as.filter (·.row?.isSome) = [] :=
        List.filter_eq_nil_iff.mpr fun b hb => by simp [hnone b hb]
      simp [ha, hfilter]

namespace Heap

variable {h : Heap} {t id k : Nat}

theorem advance_indexed
    (hit : h.iterators[id]? = some (.indexed t (indexNumber k))) :
    (h.advance id).1 = (h.table t).indexRow? (k + 1) ∧
      (h.advance id).2.iterators[id]? =
        some (.indexed t (indexNumber (k + 1))) := by
  have hlt : id < h.iterators.size := (Array.getElem?_eq_some_iff.mp hit).1
  have hnext :
      (h.setIterator id (.indexed t (indexNumber (k + 1)))).iterators[id]? =
        some (.indexed t (indexNumber (k + 1))) := by
    simp [setIterator, hlt]
  unfold advance Table.indexRow? Table.atIndex
  rw [hit]
  dsimp only
  rw [indexNumber] at hnext ⊢
  split
  · exact ⟨rfl, hnext⟩
  · exact ⟨rfl, hnext⟩

theorem iterators_store (key value : Value) :
    (h.store t key value).iterators = h.iterators := by
  unfold store
  split <;> rfl

theorem advances_eq (hit : h.iterators[id]? = some (.indexed t (indexNumber k)))
    (uses : List IndexUse) (j : Nat) (a : IndexAdvance)
    (ha : (h.advances t id uses)[j]? = some a) :
    a.row? = a.table.indexRow? (k + j + 1) := by
  induction uses generalizing h k j with
  | nil => simp [advances] at ha
  | cons use uses ih =>
    cases use with
    | store key value =>
      have hit' : (h.store t key value).iterators[id]? =
          some (.indexed t (indexNumber k)) := by
        rw [iterators_store, hit]
      exact ih hit' j ha
    | advance =>
      obtain ⟨hrow, hit'⟩ := advance_indexed hit
      cases j with
      | zero =>
        cases ha
        exact hrow
      | succ j =>
        rw [ih hit' j ha]
        congr 1
        omega

theorem table_store (ht : t < h.tables.size) (key value : Value) :
    (h.store t key value).table t = (h.table t).store key value := by
  unfold store
  cases hkey : Key.ofValue key with
  | ok k =>
    simp [Table.store_of_ok hkey, putEntry, table, ht,
      Array.getElem_modify_self]
  | error fault => rw [Table.store_of_error hkey]

/-- An iterator over a table that nothing is stored in gives the rows of the
indices in order, the holes with them. -/
theorem advances_replicate
    (hit : h.iterators[id]? = some (.indexed t (indexNumber k))) (n : Nat) :
    h.advances t id (.replicate n .advance) = (List.range n).map fun j =>
        ⟨h.table t, (h.table t).indexRow? (k + j + 1)⟩ := by
  induction n generalizing h k with
  | zero => rfl
  | succ n ih =>
    obtain ⟨hrow, hit'⟩ := advance_indexed hit
    have htable : (h.advance id).2.table t = h.table t := by
      rw [table, tables_advance, table]
    rw [List.replicate_succ, advances, ih hit', htable, hrow,
      List.range_succ_eq_map, List.map_cons, List.map_map]
    congr 2
    funext j
    simp [Nat.add_assoc, Nat.add_comm 1]

end Heap

namespace Native

/-- The iterator of a table gives, the k-th time that it is asked, the
k-th index and what the table holds there then, and signals its end if
that is nothing. So the rows are the leading run of the table and the end
is final exactly if no index is present when it is asked for after an
index that was absent. -/
theorem ipairs_leadingRun_iff (h : Heap) (t : Nat) (more : List Value)
    (uses : List IndexUse) :
    let id := h.iterators.size
    let asked := (ipairs (.ref (.table t) :: more) h).2.advances t id uses
    (ipairs (.ref (.table t) :: more) h).1 = .ok (.ref (.iterator id)) ∧
    (∀ (j : Nat) (a : IndexAdvance), asked[j]? = some a →
      a.row? = a.table.indexRow? (j + 1)) ∧
    (LeadingRun asked ↔ ∀ (i j : Nat) (a b : IndexAdvance), i < j →
        asked[i]? = some a → asked[j]? = some b →
        a.table.atIndex (i + 1) = .nil → b.table.atIndex (j + 1) = .nil) := by
  intro id asked
  have hit : (h.addIterator (.indexed t 0.0)).iterators[id]? =
      some (.indexed t (indexNumber 0)) := by
    simp [Heap.addIterator, id, indexNumber]
  have hrows : ∀ (j : Nat) (a : IndexAdvance), asked[j]? = some a →
      a.row? = a.table.indexRow? (j + 1) := by
    intro j a ha
    have hrow := Heap.advances_eq hit uses j a ha
    rwa [Nat.zero_add] at hrow
  refine ⟨rfl, hrows, fun hrun i j a b hij hi hj hnil => ?_, fun hend => ?_⟩
  · obtain ⟨hi', rfl⟩ := List.getElem?_eq_some_iff.mp hi
    obtain ⟨hj', rfl⟩ := List.getElem?_eq_some_iff.mp hj
    have hfirst := (hrows i _ hi).trans (Table.indexRow?_eq_none_iff.mpr hnil)
    have hsecond :=
      List.pairwise_iff_getElem.mp hrun.ended i j hi' hj' hij hfirst
    exact Table.indexRow?_eq_none_iff.mp ((hrows j _ hj).symm.trans hsecond)
  · have hended : asked.Pairwise fun a b => a.row? = none → b.row? = none := by
      refine List.pairwise_iff_getElem.mpr fun i j hi hj hij hfirst => ?_
      have hi' := List.getElem?_eq_getElem hi
      have hj' := List.getElem?_eq_getElem hj
      rw [hrows i _ hi', Table.indexRow?_eq_none_iff] at hfirst
      rw [hrows j _ hj', Table.indexRow?_eq_none_iff]
      exact hend i j _ _ hij hi' hj' hfirst
    refine ⟨fun k a ha => ?_, hended⟩
    -- what has a row stands before everything that has none, so its place is
    -- that of its index
    rw [filter_isSome_eq_takeWhile hended] at ha
    have hplace : asked[k]? = some a := by
      obtain ⟨hk, rfl⟩ := List.getElem?_eq_some_iff.mp ha
      exact List.prefix_iff_getElem?.mp (List.takeWhile_prefix _) k hk
    have hsome : a.row?.isSome = true := List.mem_takeWhile_imp
      (p := fun a : IndexAdvance => a.row?.isSome) (List.mem_of_getElem? ha)
    obtain ⟨row, hrow⟩ := Option.isSome_iff_exists.mp hsome
    obtain ⟨hpresent, rfl⟩ :=
      Table.indexRow?_eq_some_iff.mp ((hrows k a hplace).symm.trans hrow)
    exact ⟨hpresent, hrow⟩

/-- The end at the hole before the last entry is not final. -/
theorem not_leadingRun_of_hole :
    let h : Heap := ⟨#[.empty], #[], ⟨"", none⟩⟩
    let uses : List IndexUse := [.store (.number 1.0) (.bool true),
      .store (.number 3.0) (.bool true), .advance, .advance, .advance]
    ¬ LeadingRun ((ipairs [.ref (.table 0)] h).2.advances 0 0 uses) := by
  intro h uses hrun
  let t : Table :=
    .ofHistory [(.number 1.0, .bool true), (.number 3.0, .bool true)]
  let stored :=
    ((h.addIterator (.indexed 0 0.0)).store 0 (.number 1.0) (.bool true)).store
      0 (.number 3.0) (.bool true)
  have htable : stored.table 0 = t := by
    rw [Heap.table_store (by decide), Heap.table_store (by decide)]
    rfl
  have hit : stored.iterators[0]? = some (.indexed 0 (indexNumber 0)) := by
    rw [Heap.iterators_store, Heap.iterators_store]
    rfl
  have hended : (stored.advances 0 0 (.replicate 3 .advance)).Pairwise
      fun a b => a.row? = none → b.row? = none :=
    hrun.ended
  have hsecond : t.indexRow? 2 = none := by
    rw [Table.indexRow?_eq_none_iff, Table.atIndex, Table.get_ofHistory]
    decide +kernel
  have hthird : t.indexRow? 3 = none := by
    rw [Heap.advances_replicate hit, htable] at hended
    exact List.pairwise_iff_getElem.mp hended 1 2 (by decide) (by decide)
      (by decide) hsecond
  rw [Table.indexRow?_eq_none_iff, Table.atIndex, Table.get_ofHistory] at hthird
  exact absurd hthird (by decide +kernel)

end Native

end LuaCore
