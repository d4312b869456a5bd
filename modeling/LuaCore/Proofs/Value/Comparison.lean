import LuaCore.Proofs.Number.Equality
import LuaCore.Proofs.Number.Sum
import LuaCore.Value.Operation

namespace LuaCore

/-- Where the two first differ both go on, and the first one with the
lesser byte. -/
inductive FirstLess : List UInt8 → List UInt8 → Prop
  | head {a b : UInt8} {xs ys : List UInt8} (h : a < b) :
      FirstLess (a :: xs) (b :: ys)
  | tail {a : UInt8} {xs ys : List UInt8} (h : FirstLess xs ys) :
      FirstLess (a :: xs) (a :: ys)

namespace FirstLess

variable {xs ys : List UInt8} {m n : Nat}

theorem append_lt (h : FirstLess xs ys) (p q : List UInt8) :
    xs ++ p < ys ++ q := by
  induction h with
  | head h => exact List.cons_lt_cons_iff.mpr (.inl h)
  | tail h ih => exact List.cons_lt_cons_iff.mpr (.inr ⟨rfl, ih⟩)

theorem not_append_lt (h : FirstLess xs ys) (p q : List UInt8) :
    ¬ys ++ q < xs ++ p := by
  induction h with
  | head h =>
    intro hlt
    rcases List.cons_lt_cons_iff.mp hlt with hlt | ⟨rfl, -⟩
    · exact UInt8.lt_asymm h hlt
    · exact UInt8.lt_irrefl _ h
  | tail h ih =>
    intro hlt
    rcases List.cons_lt_cons_iff.mp hlt with hlt | ⟨-, hlt⟩
    · exact UInt8.lt_irrefl _ hlt
    · exact ih hlt

theorem of_lt (h : m < n) (hn : n < 256) :
    FirstLess (.ofNat m :: xs) (.ofNat n :: ys) := by
  refine .head (UInt8.lt_iff_toNat_lt.mpr ?_)
  rw [UInt8.toNat_ofNat_of_lt' (Nat.lt_trans h hn), UInt8.toNat_ofNat_of_lt' hn]
  exact h

theorem of_le (h : m ≤ n) (hn : n < 256) (htail : m = n → FirstLess xs ys) :
    FirstLess (.ofNat m :: xs) (.ofNat n :: ys) := by
  rcases Nat.lt_or_eq_of_le h with hlt | rfl
  · exact of_lt hlt hn
  · exact .tail (htail rfl)

end FirstLess

/-- The bytes of a character begin with how many they are, and then its digits
of six bits follow. -/
theorem utf8EncodeChar_firstLess {c d : Char} (h : c < d) :
    FirstLess (String.utf8EncodeChar c) (String.utf8EncodeChar d) := by
  have hlt : c.val.toNat < d.val.toNat :=
    UInt32.lt_iff_toNat_lt.mp (Char.lt_def.mp h)
  have hlimit : d.val.toNat < 0x110000 := by
    have hvalid := d.valid
    simp only [UInt32.isValidChar, Nat.isValidChar] at hvalid
    omega
  unfold String.utf8EncodeChar
  generalize c.val.toNat = m at hlt
  generalize d.val.toNat = n at hlt hlimit
  dsimp only
  split
  · split
    · exact .of_lt hlt (by omega)
    · split
      · exact .of_lt (by omega) (by omega)
      · split <;> exact .of_lt (by omega) (by omega)
  · rw [if_neg (by omega : ¬n ≤ 127)]
    split
    · split
      · exact .of_le (by omega) (by omega) fun _ => .of_lt (by omega) (by omega)
      · split <;> exact .of_lt (by omega) (by omega)
    · rw [if_neg (by omega : ¬n ≤ 2047)]
      split
      · split
        · exact .of_le (by omega) (by omega) fun _ =>
            .of_le (by omega) (by omega) fun _ =>
            .of_lt (by omega) (by omega)
        · exact .of_lt (by omega) (by omega)
      · rw [if_neg (by omega : ¬n ≤ 65535)]
        exact .of_le (by omega) (by omega) fun _ =>
          .of_le (by omega) (by omega) fun _ =>
          .of_le (by omega) (by omega) fun _ => .of_lt (by omega) (by omega)

theorem append_lt_append_iff (p xs ys : List UInt8) :
    p ++ xs < p ++ ys ↔ xs < ys := by
  induction p with
  | nil => rfl
  | cons a p ih => simp [ih]

theorem utf8_lt_iff (cs ds : List Char) :
    cs.flatMap String.utf8EncodeChar < ds.flatMap String.utf8EncodeChar ↔
      cs < ds := by
  induction cs generalizing ds with
  | nil =>
    cases ds with
    | nil => exact iff_of_false (List.not_lt_nil _) (List.not_lt_nil _)
    | cons d ds =>
      obtain ⟨b, bs, hbs⟩ :=
        List.exists_cons_of_ne_nil (String.utf8EncodeChar_ne_nil (c := d))
      rw [List.flatMap_nil, List.flatMap_cons, hbs]
      exact iff_of_true (List.nil_lt_cons _ _) (List.nil_lt_cons _ _)
  | cons c cs ih =>
    cases ds with
    | nil => exact iff_of_false (List.not_lt_nil _) (List.not_lt_nil _)
    | cons d ds =>
      rw [List.flatMap_cons, List.flatMap_cons, List.cons_lt_cons_iff]
      rcases lt_trichotomy c d with hlt | rfl | hgt
      · exact iff_of_true ((utf8EncodeChar_firstLess hlt).append_lt _ _)
          (.inl hlt)
      · rw [append_lt_append_iff, ih]
        simp
      · refine iff_of_false
          ((utf8EncodeChar_firstLess hgt).not_append_lt _ _) ?_
        rintro (hlt | ⟨rfl, -⟩)
        · exact lt_asymm hlt hgt
        · exact lt_irrefl c hgt

theorem scalars_lt_iff (cs ds : List Char) :
    cs.map Char.toNat < ds.map Char.toNat ↔ cs < ds := by
  induction cs generalizing ds with
  | nil => cases ds <;> simp
  | cons c cs ih =>
    cases ds with
    | nil => simp
    | cons d ds =>
      rw [List.map_cons, List.map_cons, List.cons_lt_cons_iff,
        List.cons_lt_cons_iff, ih, Char.toNat_inj]
      exact Iff.rfl

def textBytes (s : String) : List UInt8 := s.toUTF8.data.toList

def textScalars (s : String) : List Nat := s.toList.map Char.toNat

theorem textBytes_eq (s : String) :
    textBytes s = s.toList.flatMap String.utf8EncodeChar := by
  rw [textBytes, String.toUTF8_eq_toByteArray, ← String.utf8Encode_toList]
  exact List.toList_data_toByteArray

theorem textBytes_lt_iff {s t : String} :
    textBytes s < textBytes t ↔ s < t := by
  rw [textBytes_eq, textBytes_eq, utf8_lt_iff, String.lt_iff_toList_lt]

theorem textScalars_lt_iff {s t : String} :
    textScalars s < textScalars t ↔ s < t := by
  rw [textScalars, textScalars, scalars_lt_iff, String.lt_iff_toList_lt]

theorem stringOrder_swap (s t : String) :
    stringOrder t s = (stringOrder s t).swap := by
  unfold stringOrder
  rcases lt_trichotomy s t with hlt | rfl | hgt
  · rw [if_neg (lt_asymm hlt), if_neg hlt.ne', if_pos hlt]
    rfl
  · rw [if_neg (lt_irrefl s), if_pos rfl]
    rfl
  · rw [if_pos hgt, if_neg (lt_asymm hgt), if_neg hgt.ne']
    rfl

theorem stringOrder_eq_lt_iff {s t : String} :
    stringOrder s t = .lt ↔ s < t := by
  unfold stringOrder
  split
  · next hlt => exact iff_of_true rfl hlt
  · next hge => split <;> exact iff_of_false nofun hge

theorem stringOrder_eq_gt_iff {s t : String} :
    stringOrder s t = .gt ↔ t < s := by
  rw [← stringOrder_eq_lt_iff, stringOrder_swap s t]
  cases stringOrder s t <;> decide

namespace Number

open Float.Model UnpackedFloat

theorem digits_swap (e e' : Int) (m m' : Nat) :
    (compare e' e).then (compare m' m) =
      ((compare e e').then (compare m m')).swap := by
  rw [Ordering.swap_then, ← Std.OrientedCmp.eq_swap, ← Std.OrientedCmp.eq_swap]

theorem compare_swap (u v : UnpackedFloat) :
    v.compare u = (u.compare v).map Ordering.swap := by
  cases u with
  | notANumber => cases v <;> rfl
  | infinity s =>
    cases v with
    | infinity s' => cases s <;> cases s' <;> rfl
    | _ => cases s <;> rfl
  | zero s =>
    cases v with
    | finite s' => cases s' <;> rfl
    | infinity s' => cases s' <;> rfl
    | _ => rfl
  | finite s m e h =>
    cases v with
    | finite s' m' e' h' =>
      cases s <;> cases s' <;>
        simp [UnpackedFloat.compare, digits_swap e e' m m']
    | infinity s' => cases s' <;> rfl
    | _ => cases s <;> rfl

theorem lt_iff (x y : Float) :
    x < y ↔ x.toModel.unpack.compare y.toModel.unpack = some .lt := by
  change Float.lt x y = true ↔ _
  rw [Float.lt, decide_eq_true_iff]
  exact beq_iff_eq

theorem order?_eq_compare (x y : Float) :
    order? x y = x.toModel.unpack.compare y.toModel.unpack := by
  have heq : (x == y) = true ↔
      x.toModel.unpack.compare y.toModel.unpack = some .eq := by
    change (x.toModel.unpack.compare y.toModel.unpack == some .eq) = true ↔ _
    exact beq_iff_eq
  simp only [order?, lt_iff, heq,
    compare_swap x.toModel.unpack y.toModel.unpack]
  rcases x.toModel.unpack.compare y.toModel.unpack with _ | _ | _ | _ <;> rfl

theorem order?_swap (x y : Float) :
    order? y x = (order? x y).map Ordering.swap := by
  rw [order?_eq_compare, order?_eq_compare, compare_swap]

theorem order?_of_isNaN {x y : Float} (h : x.isNaN = true ∨ y.isNaN = true) :
    order? x y = none := by
  have hnan : ∀ z : Float, z.isNaN = true → z.toModel.unpack = .notANumber := by
    intro z hz
    by_contra hne
    rw [isNaN_eq_false_iff.mpr hne] at hz
    cases hz
  rw [order?_eq_compare]
  rcases h with h | h
  · rw [hnan x h]
    cases y.toModel.unpack <;> rfl
  · rw [hnan y h]
    cases x.toModel.unpack <;> rfl

end Number

def ExactlyOne (p q r : Prop) : Prop := p ∧ ¬q ∧ ¬r ∨ ¬p ∧ q ∧ ¬r ∨ ¬p ∧ ¬q ∧ r

inductive Value.Comparable : Value → Value → Prop
  | numbers (x y : Float) : Comparable (.number x) (.number y)
  | strings (s t : String) : Comparable (.string s) (.string t)

namespace Value

theorem compare_of_not_comparable {a b : Value} (h : ¬Comparable a b)
    (holds : Ordering → Bool) :
    compare holds a b = .error (.compare a.kind b.kind) := by
  unfold compare
  split
  · exact absurd (.numbers _ _) h
  · exact absurd (.strings _ _) h
  · rfl

theorem compare_of_isNaN {x y : Float} (h : x.isNaN = true ∨ y.isNaN = true)
    (holds : Ordering → Bool) :
    compare holds (.number x) (.number y) = .ok (.bool false) := by
  rw [compare, Number.order?_of_isNaN h]
  rfl

theorem Comparable.symm {a b : Value} (h : Comparable a b) :
    Comparable b a := by
  cases h with
  | numbers x y => exact .numbers y x
  | strings s t => exact .strings t s

theorem Comparable.compare_swap {a b : Value} (h : Comparable a b)
    {holds holds' : Ordering → Bool} (hswap : ∀ o, holds' o.swap = holds o) :
    ∃ r, compare holds a b = .ok (.bool r) ∧
      compare holds' b a = .ok (.bool r) := by
  cases h with
  | numbers x y =>
    refine ⟨_, rfl, ?_⟩
    rw [compare, Number.order?_swap x y, Option.any_map]
    exact congrArg (fun f => Except.ok (bool ((Number.order? x y).any f)))
      (funext hswap)
  | strings s t =>
    refine ⟨_, rfl, ?_⟩
    rw [compare, stringOrder_swap s t, hswap]

end Value

namespace BinaryOp

open Value

def Relates (op : BinaryOp) (s t : String) : Prop :=
  op.apply (.string s) (.string t) = .ok (.bool true)

instance (op : BinaryOp) (s t : String) : Decidable (op.Relates s t) :=
  inferInstanceAs
    (Decidable (op.apply (.string s) (.string t) = .ok (.bool true)))

/-- The operator says what the other one says of the operands exchanged, and
both fail where there is no order. -/
def Converse (op op' : BinaryOp) : Prop :=
  ∀ a b, (Comparable a b ∧
    ∃ r, op.apply a b = .ok (.bool r) ∧ op'.apply b a = .ok (.bool r)) ∨
    (¬Comparable a b ∧ op.apply a b = .error (.compare a.kind b.kind) ∧
      op'.apply b a = .error (.compare b.kind a.kind))

theorem converse_of_swap {op op' : BinaryOp} {holds holds' : Ordering → Bool}
    (hop : ∀ a b, op.apply a b = compare holds a b)
    (hop' : ∀ a b, op'.apply a b = compare holds' a b)
    (hswap : ∀ o, holds' o.swap = holds o) :
    op.Converse op' := by
  intro a b
  rw [hop, hop']
  by_cases h : Comparable a b
  · exact .inl ⟨h, h.compare_swap hswap⟩
  · exact .inr ⟨h, compare_of_not_comparable h _,
        compare_of_not_comparable (fun h' => h h'.symm) _⟩

theorem greater_converse_less : Converse .greater .less :=
  converse_of_swap (fun _ _ => rfl) (fun _ _ => rfl) fun o => by cases o <;> rfl

theorem greaterEqual_converse_lessEqual : Converse .greaterEqual .lessEqual :=
  converse_of_swap (fun _ _ => rfl) (fun _ _ => rfl) fun o => by cases o <;> rfl

theorem less_strings (s t : String) :
    less.apply (.string s) (.string t) = .ok (.bool (decide (s < t))) := by
  have hless : (stringOrder s t == .lt) = decide (s < t) := by
    rw [beq_eq_decide, decide_eq_decide]
    exact stringOrder_eq_lt_iff
  exact congrArg (fun b => Except.ok (bool b)) hless

theorem lessEqual_strings (s t : String) :
    lessEqual.apply (.string s) (.string t) = .ok (.bool !decide (t < s)) := by
  have hgreater : (stringOrder s t == .gt) = decide (t < s) := by
    rw [beq_eq_decide, decide_eq_decide]
    exact stringOrder_eq_gt_iff
  exact congrArg (fun b => Except.ok (bool !b)) hgreater

theorem relates_less_iff {s t : String} : less.Relates s t ↔ s < t := by
  rw [Relates, less_strings]
  simp

theorem relates_equal_iff {s t : String} : equal.Relates s t ↔ s = t := by
  simp [Relates, apply, equals]

theorem exactlyOne_relates (s t : String) :
    ExactlyOne (less.Relates s t) (equal.Relates s t) (less.Relates t s) := by
  rw [relates_less_iff, relates_equal_iff, relates_less_iff]
  rcases lt_trichotomy s t with hlt | rfl | hgt
  · exact .inl ⟨hlt, hlt.ne, lt_asymm hlt⟩
  · exact .inr (.inl ⟨lt_irrefl s, rfl, lt_irrefl s⟩)
  · exact .inr (.inr ⟨lt_asymm hgt, hgt.ne', hgt⟩)

theorem apply_of_isNaN {x y : Float} (h : x.isNaN = true ∨ y.isNaN = true) :
    ∀ op ∈ [less, greater, lessEqual, greaterEqual],
      op.apply (.number x) (.number y) = .ok (.bool false) := by
  intro op hop
  simp only [List.mem_cons, List.not_mem_nil, or_false] at hop
  rcases hop with rfl | rfl | rfl | rfl <;> exact compare_of_isNaN h _

/-- Strings are ordered as their UTF-8 bytes and as their scalar values,
strictly and totally. Of any two values `>` and `>=` say what `<` and `<=` say
of them exchanged, and a NaN is in no order with any number. -/
theorem comparison_coherent :
    (∀ s t : String, less.apply (.string s) (.string t) =
        .ok (.bool (decide (textBytes s < textBytes t))) ∧
      (textBytes s < textBytes t ↔ textScalars s < textScalars t)) ∧
    (∀ s t : String,
      ExactlyOne (less.Relates s t) (equal.Relates s t) (less.Relates t s)) ∧
    (∀ s t u : String, less.Relates s t → less.Relates t u → less.Relates s u) ∧
    (∀ s t : String, ∃ r, less.apply (.string t) (.string s) = .ok (.bool r) ∧
      lessEqual.apply (.string s) (.string t) = .ok (.bool !r)) ∧
    greater.Converse less ∧ greaterEqual.Converse lessEqual ∧
    (∀ x y : Float, x.isNaN = true ∨ y.isNaN = true →
      ∀ op ∈ [less, greater, lessEqual, greaterEqual],
        op.apply (.number x) (.number y) = .ok (.bool false)) ∧
    ∀ a b : Value, ∃ r, equal.apply a b = .ok (.bool r) ∧
      notEqual.apply a b = .ok (.bool !r) := by
  refine ⟨fun s t => ⟨?_, ?_⟩, exactlyOne_relates, fun s t u hst htu => ?_,
    fun s t => ?_, greater_converse_less, greaterEqual_converse_lessEqual,
    fun x y => apply_of_isNaN, fun a b => ⟨a.equals b, rfl, rfl⟩⟩
  · rw [less_strings, decide_eq_decide.mpr textBytes_lt_iff]
  · rw [textBytes_lt_iff, textScalars_lt_iff]
  · rw [relates_less_iff] at hst htu ⊢
    exact lt_trans hst htu
  · exact ⟨_, less_strings t s, lessEqual_strings s t⟩

/-- The last character takes four bytes, and in other encodings a unit that is
less than the one before it. -/
theorem comparison_coherent_high :
    less.Relates "\uffff" "\uffff!" ∧ less.Relates "\uffff!" "😀" ∧
      less.Relates "\uffff" "😀" ∧
      less.apply (.number (0 / 0)) (.number 1) = .ok (.bool false) := by
  have hshort : less.Relates "\uffff" "\uffff!" := by decide +kernel
  have hhigh : less.Relates "\uffff!" "😀" := by decide +kernel
  refine ⟨hshort, hhigh, comparison_coherent.2.2.1 _ _ _ hshort hhigh, ?_⟩
  exact comparison_coherent.2.2.2.2.2.2.1 (0 / 0) 1
    (.inl (by decide +kernel)) less List.mem_cons_self

end BinaryOp

end LuaCore
