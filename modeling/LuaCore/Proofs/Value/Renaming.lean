import LuaCore.Proofs.Table.History
import LuaCore.Value.Operation
import Mathlib.Logic.Function.Basic

namespace LuaCore

/-- Other numbers for tables and for functions of the program, different ones
for different objects. -/
structure Renaming where
  table : Nat → Nat
  closure : Nat → Nat
  table_injective : Function.Injective table
  closure_injective : Function.Injective closure

def Ref.renamed (r : Renaming) : Ref → Ref
  | .table id => .table (r.table id)
  | .closure id name => .closure (r.closure id) name
  | .native id name => .native id name
  | .iterator id => .iterator id

def Value.renamed (r : Renaming) : Value → Value
  | .ref o => .ref (o.renamed r)
  | v => v

def Key.renamed (r : Renaming) : Key → Key
  | .ref o => .ref (o.renamed r)
  | k => k

variable {r : Renaming}

theorem Ref.renamed_injective : Function.Injective (Ref.renamed r) := by
  intro a b h
  cases a with
  | table => cases b <;> simp_all [renamed, r.table_injective.eq_iff]
  | closure => cases b <;> simp_all [renamed, r.closure_injective.eq_iff]
  | _ => cases b <;> simp_all [renamed]

@[simp] theorem Ref.kind_renamed (o : Ref) : (o.renamed r).kind = o.kind := by
  cases o <;> rfl

@[simp] theorem Ref.display_renamed (o : Ref) :
    (o.renamed r).display = o.display := by
  cases o <;> rfl

namespace Value

@[simp] theorem renamed_eq_nil_iff {v : Value} :
    v.renamed r = nil ↔ v = nil := by
  cases v <;> simp [renamed]

@[simp] theorem kind_renamed (v : Value) : (v.renamed r).kind = v.kind := by
  cases v <;> simp [renamed, kind]

@[simp] theorem truthy_renamed (v : Value) :
    (v.renamed r).truthy = v.truthy := by
  cases v <;> rfl

@[simp] theorem display_renamed (v : Value) :
    (v.renamed r).display = v.display := by
  cases v <;> simp [renamed, display]

@[simp] theorem joins_renamed (v : Value) : (v.renamed r).joins = v.joins := by
  cases v <;> rfl

theorem equals_renamed (a b : Value) :
    (a.renamed r).equals (b.renamed r) = a.equals b := by
  cases a with
  | ref x =>
    cases b with
    | ref y =>
      rw [Bool.eq_iff_iff]
      simp only [renamed, equals, beq_iff_eq, Ref.renamed_injective.eq_iff]
    | _ => rfl
  | _ => cases b <;> rfl

theorem arithmetic_renamed (op : BinaryOp) (f : Float → Float → Float)
    (a b : Value) :
    arithmetic op f (a.renamed r) (b.renamed r) =
      (arithmetic op f a b).map (renamed r) := by
  cases a with
  | number x => cases b <;> simp [arithmetic, renamed, Except.map, kind]
  | ref x => simp [arithmetic, renamed, Except.map, kind]
  | _ => rfl

theorem compare_renamed (holds : Ordering → Bool) (a b : Value) :
    compare holds (a.renamed r) (b.renamed r) =
      (compare holds a b).map (renamed r) := by
  cases a <;> cases b <;> simp [compare, renamed, Except.map, kind]

theorem join_renamed (a b : Value) :
    join (a.renamed r) (b.renamed r) = (join a b).map (renamed r) := by
  simp only [join, joins_renamed, display_renamed, kind_renamed]
  split
  · split <;> rfl
  · rfl

end Value

theorem BinaryOp.apply_renamed (op : BinaryOp) (a b : Value) :
    op.apply (a.renamed r) (b.renamed r) =
      (op.apply a b).map (Value.renamed r) := by
  cases op with
  | or | and =>
    simp only [apply, Value.truthy_renamed]
    split <;> rfl
  | equal | notEqual =>
    simp only [apply, Value.equals_renamed]
    rfl
  | less | lessEqual | greater | greaterEqual =>
    exact Value.compare_renamed _ a b
  | concat => exact Value.join_renamed a b
  | add | sub | mul | div | mod | pow => exact Value.arithmetic_renamed _ _ a b

theorem UnaryOp.apply_renamed (op : UnaryOp) (a : Value) :
    op.apply (a.renamed r) = (op.apply a).map (Value.renamed r) := by
  cases op with
  | not =>
    simp only [apply, Value.truthy_renamed]
    rfl
  | neg | length =>
    cases a <;> simp [apply, Value.renamed, Except.map, Value.kind]

namespace Key

theorem renamed_injective : Function.Injective (Key.renamed r) := by
  intro a b h
  cases a with
  | ref x => cases b <;> simp_all [renamed, Ref.renamed_injective.eq_iff]
  | _ => cases b <;> simp_all [renamed]

theorem ofNumber_ne_ref (x : Float) (o : Ref) : ofNumber x ≠ .ref o := by
  unfold ofNumber
  split
  · split <;> nofun
  · nofun

theorem ofValue_renamed (v : Value) :
    ofValue (v.renamed r) = (ofValue v).map (Key.renamed r) := by
  cases v with
  | number x =>
    simp only [Value.renamed, ofValue]
    split
    · rfl
    · cases hx : ofNumber x with
      | ref o => exact absurd hx (ofNumber_ne_ref x o)
      | _ => rfl
  | _ => rfl

theorem ofValue_renamed_ok {v : Value} {k : Key} (h : ofValue v = .ok k) :
    ofValue (v.renamed r) = .ok (k.renamed r) := by
  rw [ofValue_renamed, h]
  rfl

theorem ofValue_renamed_error {v : Value} {fault : KeyFault}
    (h : ofValue v = .error fault) :
    ofValue (v.renamed r) = .error fault := by
  rw [ofValue_renamed, h]
  rfl

end Key

namespace Table

def renamedEntry (r : Renaming) (e : Value × Value) : Value × Value :=
  (e.1.renamed r, e.2.renamed r)

structure Renamed (r : Renaming) (t t' : Table) : Prop where
  coherent : t.Coherent
  coherent' : t'.Coherent
  entries : t'.entries.toList = t.entries.toList.map (renamedEntry r)

variable {t t' : Table} {k : Key}

theorem isUnder_renamed (k : Key) (e : Value × Value) :
    isUnder (k.renamed r) (renamedEntry r e) = isUnder k e := by
  rw [Bool.eq_iff_iff, isUnder_iff, isUnder_iff, renamedEntry,
    Key.ofValue_renamed]
  cases Key.ofValue e.1 with
  | ok l => simp [Except.map, Key.renamed_injective.eq_iff]
  | error fault => simp [Except.map]

theorem entriesAfter_renamed (entries : List (Value × Value)) (k : Key)
    (key value : Value) :
    entriesAfter (entries.map (renamedEntry r)) (k.renamed r) (key.renamed r)
        (value.renamed r) =
      (entriesAfter entries k key value).map (renamedEntry r) := by
  unfold entriesAfter
  have hunder : isUnder (k.renamed r) ∘ renamedEntry r = isUnder k :=
    funext (isUnder_renamed k)
  simp only [Value.renamed_eq_nil_iff, List.any_map, hunder]
  split
  · rw [List.filter_map]
    refine congrArg (List.map _) (List.filter_congr fun e _ => ?_)
    simp [isUnder_renamed]
  · split
    · simp only [List.map_map]
      refine List.map_congr_left fun e _ => ?_
      simp only [Function.comp, isUnder_renamed]
      split <;> rfl
    · simp [renamedEntry]

namespace Renamed

theorem of_fixed (ht : t.Coherent)
    (hfixed : ∀ e ∈ t.entries, renamedEntry r e = e) :
    Renamed r t t where
  coherent := ht
  coherent' := ht
  entries := by
    rw [List.map_congr_left fun e he => hfixed e (Array.mem_toList_iff.mp he),
      List.map_id']

theorem empty : Renamed r empty empty :=
  of_fixed empty_coherent (by simp [Table.empty])

variable (h : Renamed r t t')
include h

theorem find (k : Key) : t'.find (k.renamed r) = (t.find k).renamed r := by
  cases hpresent : t.entries.toList.any (isUnder k) with
  | true =>
    obtain ⟨e, he, hk⟩ := List.any_eq_true.mp hpresent
    have he' : renamedEntry r e ∈ t'.entries.toList :=
      h.entries ▸ List.mem_map_of_mem he
    rw [h.coherent.find_of_isUnder he hk,
      h.coherent'.find_of_isUnder he' (by rw [isUnder_renamed, hk])]
    rfl
  | false =>
    have habsent : t'.entries.toList.any (isUnder (k.renamed r)) = false := by
      rw [h.entries, List.any_map, ← hpresent]
      exact congrArg (List.any _) (funext (isUnder_renamed k))
    rw [h.coherent.find_of_absent hpresent, h.coherent'.find_of_absent habsent]
    rfl

theorem get (key : Value) : t'.get (key.renamed r) = (t.get key).renamed r := by
  unfold Table.get
  cases hkey : Key.ofValue key with
  | ok k =>
    rw [Key.ofValue_renamed_ok hkey]
    exact h.find k
  | error fault =>
    rw [Key.ofValue_renamed_error hkey]
    rfl

theorem store (key value : Value) :
    Renamed r (t.store key value)
      (t'.store (key.renamed r) (value.renamed r)) where
  coherent := store_coherent h.coherent
  coherent' := store_coherent h.coherent'
  entries := by
    cases hkey : Key.ofValue key with
    | ok k =>
      rw [entries_store h.coherent hkey,
        entries_store h.coherent' (Key.ofValue_renamed_ok hkey), h.entries,
        entriesAfter_renamed]
    | error fault =>
      rw [store_of_error hkey, store_of_error (Key.ofValue_renamed_error hkey),
        h.entries]

end Renamed

end Table

end LuaCore
