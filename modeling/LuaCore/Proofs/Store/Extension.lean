import LuaCore.Proofs.Store.Complete
import LuaCore.Proofs.Value.Renaming

namespace LuaCore

/-- A later store that has nothing but more tables and functions. -/
structure Store.Extends (σ τ : Store) : Prop where
  scopes : τ.scopes = σ.scopes
  closures : σ.closures.toList <+: τ.closures.toList
  tables : σ.heap.tables.toList <+: τ.heap.tables.toList
  iterators : τ.heap.iterators = σ.heap.iterators
  output : τ.heap.output = σ.heap.output
  depth : τ.depth = σ.depth

/-- The numbers from `first` on move up to make room for `room` others. -/
def shift (first room n : Nat) : Nat := if n < first then n else n + room

section

variable {first room n : Nat}

theorem shift_of_lt (h : n < first) : shift first room n = n := if_pos h

theorem shift_of_le (h : first ≤ n) : shift first room n = n + room :=
  if_neg (Nat.not_lt.mpr h)

theorem shift_succ (h : first ≤ n) :
    shift first room (n + 1) = shift first room n + 1 := by
  rw [shift_of_le h, shift_of_le (Nat.le_succ_of_le h), Nat.add_right_comm]

theorem shift_injective : Function.Injective (shift first room) := by
  intro a b h
  unfold shift at h
  split at h <;> split at h <;> omega

end

/-- What there was in the first store keeps its number, and whatever is made
gets one that the second store has not given yet. -/
def Renaming.past (σ σ' : Store) : Renaming where
  table := shift σ.heap.tables.size (σ'.heap.tables.size - σ.heap.tables.size)
  closure := shift σ.closures.size (σ'.closures.size - σ.closures.size)
  table_injective := shift_injective
  closure_injective := shift_injective

/-- The stores that two runs have reached, one from `σ` and one from `σ'`: each
has gained the same tables and functions. -/
structure Store.Copies (σ σ' τ τ' : Store) : Prop where
  left : σ.Extends τ
  right : σ'.Extends τ'
  tables : ∀ id, Table.Renamed (.past σ σ') (τ.heap.table id)
    (τ'.heap.table ((Renaming.past σ σ').table id))
  closures : ∀ id, τ'.closures[(Renaming.past σ σ').closure id]? =
    τ.closures[id]?
  size_tables : τ'.heap.tables.size =
    (Renaming.past σ σ').table τ.heap.tables.size
  size_closures : τ'.closures.size =
    (Renaming.past σ σ').closure τ.closures.size

namespace Store

variable {σ τ : Store}

namespace Extends

theorem refl (σ : Store) : σ.Extends σ :=
  ⟨rfl, List.prefix_rfl, List.prefix_rfl, rfl, rfl, rfl⟩

theorem addTable (h : σ.Extends τ) (t : Table) :
    σ.Extends { τ with heap := τ.heap.addTable t } :=
  { h with tables := h.tables.trans (by simp [Heap.addTable]) }

theorem makeClosure (h : σ.Extends τ) (c : Closure) :
    σ.Extends { τ with closures := τ.closures.push c } :=
  { h with closures := h.closures.trans (by simp) }

theorem size_tables (h : σ.Extends τ) :
    σ.heap.tables.size ≤ τ.heap.tables.size := by
  simpa using h.tables.length_le

theorem size_closures (h : σ.Extends τ) :
    σ.closures.size ≤ τ.closures.size := by
  simpa using h.closures.length_le

theorem table (h : σ.Extends τ) {id : Nat} (hid : id < σ.heap.tables.size) :
    τ.heap.table id = σ.heap.table id := by
  have hget := List.prefix_iff_getElem?.mp h.tables id (by simpa using hid)
  simp only [Array.getElem?_toList] at hget
  simp [Heap.table, Array.getD_eq_getD_getElem?, hget, hid]

theorem getElem?_closures (h : σ.Extends τ) {id : Nat}
    (hid : id < σ.closures.size) :
    τ.closures[id]? = σ.closures[id]? := by
  have hget := List.prefix_iff_getElem?.mp h.closures id (by simpa using hid)
  simp only [Array.getElem?_toList] at hget
  simp [hget, hid]

end Extends

end Store

theorem Heap.table_of_size_le {h : Heap} {id : Nat} (hid : h.tables.size ≤ id) :
    h.table id = .empty := by
  simp [table, Array.getD_eq_getD_getElem?, Array.getElem?_eq_none hid]

section

variable {σ σ' τ τ' : Store}

theorem Renaming.table_past_of_lt {id : Nat} (hid : id < σ.heap.tables.size) :
    (past σ σ').table id = id :=
  shift_of_lt hid

theorem Renaming.closure_past_of_lt {id : Nat} (hid : id < σ.closures.size) :
    (past σ σ').closure id = id :=
  shift_of_lt hid

theorem Renaming.le_table_past (h : σ.Extends σ') {id : Nat}
    (hid : σ.heap.tables.size ≤ id) :
    σ'.heap.tables.size ≤ (Renaming.past σ σ').table id := by
  have hle := h.size_tables
  simp only [past, shift_of_le hid]
  omega

theorem Renaming.le_closure_past (h : σ.Extends σ') {id : Nat}
    (hid : σ.closures.size ≤ id) :
    σ'.closures.size ≤ (Renaming.past σ σ').closure id := by
  have hle := h.size_closures
  simp only [past, shift_of_le hid]
  omega

theorem Value.renamed_past {v : Value} (hv : v.Within σ.Contains) :
    v.renamed (.past σ σ') = v := by
  cases v with
  | ref o =>
    cases o with
    | table id =>
      have hid : id < σ.heap.tables.size := Nat.not_le.mp (hv _ rfl)
      simp [renamed, Ref.renamed, Renaming.table_past_of_lt hid]
    | closure id name =>
      have hid : id < σ.closures.size := Nat.not_le.mp (hv _ rfl)
      simp [renamed, Ref.renamed, Renaming.closure_past_of_lt hid]
    | _ => rfl
  | _ => rfl

namespace Store.Copies

theorem start {held : List Value} (hσ : σ.Complete held) (h : σ.Extends σ') :
    σ.Copies σ' σ σ' where
  left := .refl σ
  right := .refl σ'
  tables id := by
    by_cases hid : id < σ.heap.tables.size
    · rw [Renaming.table_past_of_lt hid, h.table hid]
      refine .of_fixed (hσ.coherent id) fun e he => ?_
      rw [Table.renamedEntry,
        Value.renamed_past fun o ho => hσ.points (.heap (.key he ho)),
        Value.renamed_past fun o ho => hσ.points (.heap (.value he ho))]
    · rw [Heap.table_of_size_le (Nat.not_lt.mp hid),
        Heap.table_of_size_le (Renaming.le_table_past h (Nat.not_lt.mp hid))]
      exact .empty
  closures id := by
    by_cases hid : id < σ.closures.size
    · rw [Renaming.closure_past_of_lt hid, h.getElem?_closures hid]
    · rw [Array.getElem?_eq_none (Nat.not_lt.mp hid),
        Array.getElem?_eq_none (Renaming.le_closure_past h (Nat.not_lt.mp hid))]
  size_tables := by
    have hle := h.size_tables
    simp only [Renaming.past, shift_of_le (Nat.le_refl _)]
    omega
  size_closures := by
    have hle := h.size_closures
    simp only [Renaming.past, shift_of_le (Nat.le_refl _)]
    omega

variable (h : σ.Copies σ' τ τ')
include h

theorem addTable {t t' : Table} (ht : Table.Renamed (.past σ σ') t t') :
    σ.Copies σ' { τ with heap := τ.heap.addTable t }
      { τ' with heap := τ'.heap.addTable t' } where
  left := h.left.addTable t
  right := h.right.addTable t'
  tables id := by
    simp only [Heap.table_addTable, h.size_tables,
      (Renaming.past σ σ').table_injective.eq_iff]
    split
    · exact ht
    · exact h.tables id
  closures := h.closures
  size_tables := by
    simp only [Heap.addTable, Array.size_push, h.size_tables]
    exact (shift_succ h.left.size_tables).symm
  size_closures := h.size_closures

theorem makeClosure (c : Closure) :
    σ.Copies σ' { τ with closures := τ.closures.push c }
      { τ' with closures := τ'.closures.push c } where
  left := h.left.makeClosure c
  right := h.right.makeClosure c
  tables := h.tables
  closures id := by
    simp only [Array.getElem?_push, h.size_closures,
      (Renaming.past σ σ').closure_injective.eq_iff, h.closures]
  size_tables := h.size_tables
  size_closures := by
    simp only [Array.size_push, h.size_closures]
    exact (shift_succ h.left.size_closures).symm

end Store.Copies

end

end LuaCore
