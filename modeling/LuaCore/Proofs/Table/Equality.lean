import LuaCore.Proofs.Number.Equality
import LuaCore.Proofs.Table.History

namespace LuaCore

namespace Key

variable {x y : Float}

theorem ofNumber_eq_integer_iff {n : Int} :
    ofNumber x = .integer n ↔
      Number.value? x = some (n : ℚ) ∧ n.natAbs < integralLimit := by
  rw [← Number.integer?_eq_some_iff]
  unfold ofNumber
  cases Number.integer? x with
  | none => simp
  | some m =>
    dsimp only
    split
    · next hlt =>
      simp only [Key.integer.injEq, Option.some.injEq]
      constructor
      · rintro rfl
        exact ⟨rfl, hlt⟩
      · exact And.left
    · next hge =>
      simp only [reduceCtorEq, Option.some.injEq, false_iff]
      rintro ⟨rfl, hlt⟩
      exact hge hlt

theorem ofNumber_eq_integer_or_bits (x : Float) :
    (∃ n, ofNumber x = .integer n) ∨ ofNumber x = .bits x.toBits := by
  unfold ofNumber
  split
  · split
    · exact .inl ⟨_, rfl⟩
    · exact .inr rfl
  · exact .inr rfl

theorem ofNumber_eq_bits
    (h : ∀ n : Int, Number.value? x = some (n : ℚ) → integralLimit ≤ n.natAbs) :
    ofNumber x = .bits x.toBits := by
  obtain ⟨n, hn⟩ | hbits := ofNumber_eq_integer_or_bits x
  · obtain ⟨hvalue, hlt⟩ := ofNumber_eq_integer_iff.mp hn
    exact absurd (h n hvalue) (Nat.not_le.mpr hlt)
  · exact hbits

theorem ofNumber_eq_iff (hx : x.isNaN = false) :
    ofNumber x = ofNumber y ↔ (x == y) = true := by
  rw [Number.beq_iff]
  constructor
  · intro h
    obtain ⟨n, hn⟩ | hbits := ofNumber_eq_integer_or_bits x
    · have hvalue := (ofNumber_eq_integer_iff.mp hn).1
      have hvalue' := (ofNumber_eq_integer_iff.mp (h ▸ hn)).1
      by_cases hzero : n = 0
      · subst hzero
        exact .inr ⟨by simpa using hvalue, by simpa using hvalue'⟩
      · exact .inl
          ⟨Number.eq_of_value?_eq hvalue hvalue' (by exact_mod_cast hzero), hx⟩
    · obtain ⟨n, hn⟩ | hbits' := ofNumber_eq_integer_or_bits y
      · rw [hbits, hn] at h
        cases h
      · rw [hbits, hbits'] at h
        exact .inl ⟨Number.eq_of_toBits_eq (Key.bits.inj h), hx⟩
  · rintro (⟨rfl, -⟩ | ⟨hzero, hzero'⟩)
    · rfl
    · have isZero : ∀ {z : Float}, Number.value? z = some 0 →
          ofNumber z = .integer 0 :=
        fun hz => ofNumber_eq_integer_iff.mpr ⟨by simpa using hz, by decide⟩
      rw [isZero hzero, isZero hzero']

theorem ofNumber_ne {k : Key} (hinteger : ∀ n, k ≠ .integer n)
    (hbits : ∀ b, k ≠ .bits b) :
    ofNumber x ≠ k := by
  intro heq
  obtain ⟨n, hn⟩ | hn := ofNumber_eq_integer_or_bits x
  · exact hinteger n (heq.symm.trans hn)
  · exact hbits _ (heq.symm.trans hn)

theorem ofValue_number_eq_ok_iff {k : Key} :
    ofValue (.number x) = .ok k ↔ x.isNaN = false ∧ ofNumber x = k := by
  cases hx : x.isNaN <;> simp only [ofValue, hx] <;> simp

theorem eq_iff_equals {a b : Value} {k l : Key} (ha : ofValue a = .ok k)
    (hb : ofValue b = .ok l) :
    k = l ↔ a.equals b = true := by
  cases a with
  | nil => cases ha
  | number x =>
    obtain ⟨hx, rfl⟩ := ofValue_number_eq_ok_iff.mp ha
    cases b with
    | nil => cases hb
    | number y =>
      obtain ⟨-, rfl⟩ := ofValue_number_eq_ok_iff.mp hb
      exact ofNumber_eq_iff hx
    | _ =>
      cases hb
      simp [Value.equals, ofNumber_ne]
  | _ =>
    cases ha
    cases b with
    | nil => cases hb
    | number y =>
      obtain ⟨-, rfl⟩ := ofValue_number_eq_ok_iff.mp hb
      simp [Value.equals, (ofNumber_ne _ _).symm]
    | _ =>
      cases hb
      simp [Value.equals]

/-! Objects of all sorts are told apart by their addresses. -/

/-- The key with the address of an object in its place. -/
def located (address : Ref → Nat) : Key → Key ⊕ Nat
  | .ref r => .inr (address r)
  | k => .inl k

theorem ofValue_eq_ref_iff {a : Value} {r : Ref} :
    ofValue a = .ok (.ref r) ↔ a = .ref r := by
  cases a with
  | number x =>
    rw [ofValue_number_eq_ok_iff]
    simp [ofNumber_ne]
  | _ => simp [ofValue]

theorem located_eq_iff {address : Ref → Nat} {k l : Key}
    (hdistinct : ∀ r s, k = .ref r → l = .ref s → address r = address s →
      r = s) :
    k.located address = l.located address ↔ k = l := by
  constructor
  · intro h
    cases k with
    | ref r =>
      cases l with
      | ref s => rw [hdistinct r s rfl rfl (Sum.inr.inj h)]
      | _ => cases h
    | _ =>
      cases l with
      | ref s => cases h
      | _ => exact Sum.inl.inj h
  · exact congrArg _

end Key

/-- The values that tables take as keys. -/
def Value.IsKey (v : Value) : Prop :=
  v ≠ .nil ∧ ∀ x, v = .number x → x.isNaN = false

theorem Value.IsKey.exists_ofValue {v : Value} (h : v.IsKey) :
    ∃ k, Key.ofValue v = .ok k := by
  cases hkey : Key.ofValue v with
  | ok k => exact ⟨k, rfl⟩
  | error fault =>
    obtain ⟨hnil, -⟩ | ⟨x, hx, hnan, -⟩ := Table.ofValue_eq_error_iff.mp hkey
    · exact absurd hnil h.1
    · rw [h.2 x hx] at hnan
      cases hnan

namespace Table

variable {a b : Value}

theorem get_storeAll_append (ha : a.IsKey) (hb : b.IsKey) {t : Table}
    (ht : t.Coherent) (history : List (Value × Value)) (value : Value) :
    (t.storeAll (history ++ [(a, value)])).get b =
      if a.equals b then value else (t.storeAll history).get b := by
  obtain ⟨k, hk⟩ := ha.exists_ofValue
  obtain ⟨l, hl⟩ := hb.exists_ofValue
  have hlast : t.storeAll (history ++ [(a, value)]) =
      (t.storeAll history).store a value := by
    simp [storeAll, List.foldl_append]
  have hunder : isUnder l (a, value) = a.equals b := by
    rw [Bool.eq_iff_iff, isUnder_iff, hk, Except.ok.injEq,
      Key.eq_iff_equals hk hl]
  rw [hlast]
  simp only [get, hl]
  rw [find_store (storeAll_coherent ht history), hunder]

/-- Values that can be keys have the same key exactly if they are equal, where
objects of all sorts are told apart by their addresses; and a store under one of
them is seen under the other exactly then. The key of a number is its value if
that is an integer below the limit, and otherwise its bits. -/
theorem key_agrees_with_equality (ha : a.IsKey) (hb : b.IsKey)
    (address : Ref → Nat)
    (hdistinct : ∀ r s, a = .ref r → b = .ref s → address r = address s →
      r = s) :
    (∃ k l, Key.ofValue a = .ok k ∧ Key.ofValue b = .ok l ∧
      (k.located address = l.located address ↔ a.equals b = true)) ∧
    (∀ history value, (ofHistory (history ++ [(a, value)])).get b =
      if a.equals b then value else (ofHistory history).get b) ∧
    ∀ x, a = .number x →
      (∀ n : Int, Number.value? x = some (n : ℚ) →
        n.natAbs < Key.integralLimit → Key.ofValue a = .ok (.integer n)) ∧
      ((∀ n : Int, Number.value? x = some (n : ℚ) →
          Key.integralLimit ≤ n.natAbs) →
        Key.ofValue a = .ok (.bits x.toBits)) := by
  obtain ⟨k, hk⟩ := ha.exists_ofValue
  obtain ⟨l, hl⟩ := hb.exists_ofValue
  refine ⟨?_, get_storeAll_append ha hb empty_coherent, ?_⟩
  · refine ⟨k, l, hk, hl, ?_⟩
    rw [← Key.eq_iff_equals hk hl]
    apply Key.located_eq_iff
    rintro r s rfl rfl
    exact hdistinct r s (Key.ofValue_eq_ref_iff.mp hk)
      (Key.ofValue_eq_ref_iff.mp hl)
  · rintro x rfl
    have hx := ha.2 x rfl
    constructor
    · intro n hvalue hlt
      exact Key.ofValue_number_eq_ok_iff.mpr
        ⟨hx, Key.ofNumber_eq_integer_iff.mpr ⟨hvalue, hlt⟩⟩
    · intro hlarge
      exact Key.ofValue_number_eq_ok_iff.mpr ⟨hx, Key.ofNumber_eq_bits hlarge⟩

/-- What is stored under a zero is found under the other one; a table and an
iterator are two keys. -/
theorem key_agrees_with_equality_zeros_and_objects :
    (ofHistory [(.number 0.0, .bool true)]).get (.number (-0.0)) = .bool true ∧
      ∃ k l, Key.ofValue (.ref (.table 3)) = .ok k ∧
        Key.ofValue (.ref (.iterator 3)) = .ok l ∧
        k.located (fun r => if r = .table 3 then 0x10 else 0x20) ≠
          l.located (fun r => if r = .table 3 then 0x10 else 0x20) := by
  have hnan : (0.0 : Float).isNaN = false ∧ (-0.0 : Float).isNaN = false := by
    decide +kernel
  have hbeq : Value.equals (.number 0.0) (.number (-0.0)) = true := by
    decide +kernel
  constructor
  · have hzeros := key_agrees_with_equality (a := .number 0.0)
      (b := .number (-0.0)) ⟨nofun, fun _ h => Value.number.inj h ▸ hnan.1⟩
      ⟨nofun, fun _ h => Value.number.inj h ▸ hnan.2⟩ (fun _ => 0) nofun
    have hget := hzeros.2.1 [] (.bool true)
    rwa [if_pos hbeq] at hget
  · obtain ⟨⟨k, l, hk, hl, hiff⟩, -⟩ := key_agrees_with_equality (a := .ref
        (.table 3)) (b := .ref (.iterator 3)) ⟨nofun, nofun⟩ ⟨nofun, nofun⟩
      (fun r => if r = .table 3 then 0x10 else 0x20) (by rintro _ _ ⟨⟩ ⟨⟩; simp)
    exact ⟨k, l, hk, hl, fun heq => absurd (hiff.mp heq) (by decide)⟩

end Table

end LuaCore
