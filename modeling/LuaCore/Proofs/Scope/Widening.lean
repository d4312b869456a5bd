import LuaCore.Proofs.Scope.Binding

namespace LuaCore.Scopes

variable {s s' s'' : Scopes} {i j : ScopeId} {x y : String} {v : Value}

/-- Scopes that came from others. Of the scopes that there were, each keeps
those that enclose it and the names that it binds, and gets new names only
where it may. -/
structure Widens (s s' : Scopes) (may : ScopeId → String → Prop) : Prop where
  size_le : s.frames.size ≤ s'.frames.size
  outer_eq : ∀ {i}, i < s.frames.size → s'.outer i = s.outer i
  keeps : ∀ {i x}, (s.here? i x).isSome → (s'.here? i x).isSome
  adds : ∀ {i x}, i < s.frames.size → (s'.here? i x).isSome →
    (s.here? i x).isSome ∨ may i x

@[simp] theorem outer_root : root.outer i = [] := by
  unfold outer root
  cases i <;> simp

namespace Widens

variable {may may' : ScopeId → String → Prop}

theorem refl (s : Scopes) : s.Widens s may :=
  ⟨Nat.le_refl _, fun _ => rfl, id, fun _ => Or.inl⟩

theorem trans (h : s.Widens s' may) (h' : s'.Widens s'' may) :
    s.Widens s'' may where
  size_le := Nat.le_trans h.size_le h'.size_le
  outer_eq hi := (h'.outer_eq (Nat.lt_of_lt_of_le hi h.size_le)).trans
    (h.outer_eq hi)
  keeps hx := h'.keeps (h.keeps hx)
  adds hi hx := by
    rcases h'.adds (Nat.lt_of_lt_of_le hi h.size_le) hx with hx | hmay
    · exact h.adds hi hx
    · exact Or.inr hmay

theorem imp (h : s.Widens s' may)
    (himp : ∀ i x, i < s.frames.size → may i x → may' i x) :
    s.Widens s' may' where
  size_le := h.size_le
  outer_eq := h.outer_eq
  keeps := h.keeps
  adds hi hx := (h.adds hi hx).imp_right (himp _ _ hi)

end Widens

theorem widens_extend (s : Scopes) (i : ScopeId) :
    s.Widens (s.extend i) fun _ _ => False where
  size_le := by simp
  outer_eq hj := by simp [outer_extend, nextId, Nat.ne_of_lt hj]
  keeps hx := by simpa using hx
  adds _ hx := Or.inl (by simpa using hx)

theorem widens_define (s : Scopes) (i : ScopeId) (x : String) (v : Value) :
    s.Widens (s.define i x v) fun j y => j = i ∧ y = x where
  size_le := by simp
  outer_eq _ := outer_define
  keeps {j y} hy := by
    rw [here?_define]
    split
    · rfl
    · exact hy
  adds {j y} _ hy := by
    rw [here?_define] at hy
    split at hy
    · next h => exact Or.inr ⟨h.1.symm, h.2.2.symm⟩
    · exact Or.inl hy

theorem widens_defineAll (s : Scopes) (i : ScopeId) (xs : List String)
    (vs : List Value) :
    s.Widens (s.defineAll i xs vs) fun j y => j = i ∧ y ∈ xs := by
  induction xs generalizing s vs with
  | nil => exact .refl s
  | cons x xs ih =>
    have step : ∀ v vs, s.Widens ((s.define i x v).defineAll i xs vs) fun j y =>
        j = i ∧ y ∈ x :: xs := by
      intro v vs
      refine ((widens_define s i x v).imp ?_).trans ((ih _ vs).imp ?_)
      · rintro j y - ⟨rfl, rfl⟩
        exact ⟨rfl, by simp⟩
      · rintro j y - ⟨rfl, hy⟩
        exact ⟨rfl, by simp [hy]⟩
    cases vs with
    | nil => exact step .nil []
    | cons v vs => exact step v vs

theorem widens_rebind (h : (s.here? i x).isSome) (v : Value) :
    s.Widens (s.define i x v) fun _ _ => False where
  size_le := by simp
  outer_eq _ := outer_define
  keeps := (widens_define s i x v).keeps
  adds hj hy := by
    rcases (widens_define s i x v).adds hj hy with hy | ⟨rfl, rfl⟩
    · exact Or.inl hy
    · exact Or.inl h

theorem here?_of_firstBinding? {is : List ScopeId} {owner : ScopeId × Value}
    (h : s.firstBinding? x is = some owner) :
    owner.1 ∈ is ∧ s.here? owner.1 x = some owner.2 := by
  induction is with
  | nil => cases h
  | cons i is ih =>
    unfold firstBinding? at h
    split at h
    · next v hv =>
      cases h
      exact ⟨by simp, hv⟩
    · exact ⟨by simp [(ih h).1], (ih h).2⟩

theorem here?_of_owner? {owner : ScopeId} (h : s.owner? i x = some owner) :
    (s.here? owner x).isSome := by
  obtain ⟨binding, hbinding, rfl⟩ := Option.map_eq_some_iff.mp h
  simp [(here?_of_firstBinding? hbinding).2]

theorem isSome_get?_iff : (s.get? i x).isSome ↔ s.Binds i x := by
  constructor
  · intro h
    obtain ⟨v, hv⟩ := Option.isSome_iff_exists.mp h
    obtain ⟨binding, hbinding, -⟩ := Option.map_eq_some_iff.mp hv
    obtain ⟨hmem, hhere⟩ := here?_of_firstBinding? hbinding
    exact ⟨binding.1, hmem, binding.2, hhere⟩
  · intro h
    obtain ⟨v, hv⟩ := h.get?
    simp [hv]

theorem Widens.isSome_get? (h : s.Widens s' fun _ _ => False)
    (hi : i < s.frames.size) (houter : ∀ j ∈ s.outer i, j < s.frames.size)
    (x : String) :
    (s'.get? i x).isSome = (s.get? i x).isSome := by
  have hchain : s'.chain i = s.chain i := by rw [chain, chain, h.outer_eq hi]
  rw [Bool.eq_iff_iff, isSome_get?_iff, isSome_get?_iff]
  unfold Binds
  rw [hchain]
  constructor
  · rintro ⟨j, hj, v, hv⟩
    -- a scope opened since then may bind the name, but encloses none of those
    -- that there were
    have hlt : j < s.frames.size := by
      rcases List.mem_cons.mp hj with rfl | hj
      · exact hi
      · exact houter j hj
    rcases h.adds hlt (x := x) (by simp [hv]) with hhere | hfalse
    · exact ⟨j, hj, Option.isSome_iff_exists.mp hhere⟩
    · exact hfalse.elim
  · rintro ⟨j, hj, v, hv⟩
    exact ⟨j, hj, Option.isSome_iff_exists.mp (h.keeps (by simp [hv]))⟩

end LuaCore.Scopes
