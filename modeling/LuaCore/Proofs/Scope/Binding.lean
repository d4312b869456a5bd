import LuaCore.Scope

namespace LuaCore

theorem Bindings.find?_of_mem {x : String} {bs : Bindings}
    (h : x ∈ bs.map (·.1)) :
    ∃ v, bs.find? x = some v := by
  induction bs with
  | nil => cases h
  | cons b bs ih =>
    obtain ⟨y, w⟩ := b
    by_cases hxy : x = y
    · exact ⟨w, by simp [find?, hxy]⟩
    · have hrest : x ∈ bs.map (·.1) := by simpa [hxy] using h
      obtain ⟨v, hv⟩ := ih hrest
      exact ⟨v, by simp [find?, hxy, hv]⟩

theorem Bindings.mem_put {x : String} {v : Value} {b : String × Value}
    {bs : Bindings} (h : b ∈ put x v bs) :
    b ∈ bs ∨ b.2 = v := by
  induction bs with
  | nil =>
    obtain rfl := List.mem_singleton.mp h
    exact .inr rfl
  | cons c bs ih =>
    unfold put at h
    split at h <;> rcases List.mem_cons.mp h with rfl | h
    · exact .inr rfl
    · exact .inl (List.mem_cons_of_mem _ h)
    · exact .inl List.mem_cons_self
    · exact (ih h).imp_left (List.mem_cons_of_mem _)

theorem Bindings.mem_of_find? {x : String} {v : Value} {bs : Bindings}
    (h : bs.find? x = some v) :
    (x, v) ∈ bs := by
  induction bs with
  | nil => cases h
  | cons b bs ih =>
    unfold find? at h
    split at h
    · next heq =>
      cases h
      simp [heq]
    · exact List.mem_cons_of_mem _ (ih h)

namespace Scopes

variable {s s' s'' : Scopes} {i j : ScopeId} {x y : String} {v : Value}

/-! What the operations do to the frame of each scope. -/

@[simp] theorem size_define : (s.define i x v).frames.size = s.frames.size := by
  simp [define]

@[simp] theorem size_extend : (s.extend i).frames.size = s.frames.size + 1 := by
  simp [extend]

@[simp] theorem outer_define : (s.define i x v).outer j = s.outer j := by
  simp only [outer, define, Array.getElem?_modify]
  by_cases hij : i = j
  · subst hij
    cases s.frames[i]? <;> simp
  · simp [hij]

theorem vars_define : (s.define i x v).vars j =
    if i = j ∧ j < s.frames.size then (s.vars j).put x v else s.vars j := by
  simp only [vars, define, Array.getElem?_modify]
  by_cases hij : i = j
  · subst hij
    by_cases hlt : i < s.frames.size
    · simp [hlt]
    · simp [hlt]
  · simp [hij]

theorem outer_extend :
    (s.extend i).outer j = if j = s.nextId then s.chain i else s.outer j := by
  simp only [outer, extend, nextId, Array.getElem?_push]
  by_cases hj : j = s.frames.size <;> simp [hj]

@[simp] theorem vars_extend : (s.extend i).vars j = s.vars j := by
  simp only [vars, extend, Array.getElem?_push]
  by_cases hj : j = s.frames.size <;> simp [hj]

theorem here?_define : (s.define i x v).here? j y =
    if i = j ∧ j < s.frames.size ∧ x = y then some v else s.here? j y := by
  simp only [here?, vars_define]
  by_cases hij : i = j ∧ j < s.frames.size
  · by_cases hxy : x = y
    · simp [hij, hxy]
    · simp [hij, hxy, Bindings.find?_put_of_ne (Ne.symm hxy)]
  · rw [if_neg hij, if_neg fun h => hij ⟨h.1, h.2.1⟩]

@[simp] theorem here?_extend : (s.extend i).here? j x = s.here? j x := by
  simp [here?]

/-- The name resolves from the scope: the scope or one that encloses it
binds the name. -/
def Binds (s : Scopes) (i : ScopeId) (x : String) : Prop :=
  ∃ j ∈ s.chain i, ∃ v, s.here? j x = some v

theorem firstBinding?_eq_some {is : List ScopeId}
    (h : ∃ j ∈ is, ∃ v, s.here? j x = some v) :
    ∃ owner, s.firstBinding? x is = some owner := by
  induction is with
  | nil => simp at h
  | cons i is ih =>
    cases hi : s.here? i x with
    | some v => exact ⟨(i, v), by simp [firstBinding?, hi]⟩
    | none =>
      obtain ⟨j, hj, v, hv⟩ := h
      rcases List.mem_cons.mp hj with rfl | hj
      · simp [hi] at hv
      · obtain ⟨owner, howner⟩ := ih ⟨j, hj, v, hv⟩
        exact ⟨owner, by simp [firstBinding?, hi, howner]⟩

theorem Binds.get? (h : s.Binds i x) : ∃ v, s.get? i x = some v := by
  obtain ⟨owner, howner⟩ := firstBinding?_eq_some h
  exact ⟨owner.2, by simp [Scopes.get?, howner]⟩

theorem Binds.owner? (h : s.Binds i x) :
    ∃ owner, s.owner? i x = some owner := by
  obtain ⟨owner, howner⟩ := firstBinding?_eq_some h
  exact ⟨owner.1, by simp [Scopes.owner?, howner]⟩

theorem binds_of_here? (h : s.here? i x = some v) : s.Binds i x :=
  ⟨i, by simp [chain], v, h⟩

structure Grows (s s' : Scopes) : Prop where
  size_le : s.frames.size ≤ s'.frames.size
  binds : ∀ {i x}, s.Binds i x → s'.Binds i x

namespace Grows

theorem refl (s : Scopes) : s.Grows s := ⟨Nat.le_refl _, id⟩

theorem trans (h : s.Grows s') (h' : s'.Grows s'') : s.Grows s'' :=
  ⟨Nat.le_trans h.size_le h'.size_le, fun hb => h'.binds (h.binds hb)⟩

end Grows

theorem grows_define (s : Scopes) (i : ScopeId) (x : String) (v : Value) :
    s.Grows (s.define i x v) where
  size_le := by simp
  binds := by
    rintro k y ⟨j, hj, w, hw⟩
    refine ⟨j, by simpa [chain] using hj, ?_⟩
    rw [here?_define]
    split
    · exact ⟨v, rfl⟩
    · exact ⟨w, hw⟩

theorem grows_extend (s : Scopes) (i : ScopeId) : s.Grows (s.extend i) where
  size_le := by simp
  binds := by
    rintro k y ⟨j, hj, w, hw⟩
    refine ⟨j, ?_, w, by simpa using hw⟩
    -- the new scope has a chain that it had not, which is where it stands first
    by_cases hk : k = s.nextId
    · have houter : s.outer k = [] := by simp [outer, hk, nextId]
      have hjk : j = k := by simpa [chain, houter] using hj
      simp [chain, hjk]
    · simpa [chain, outer_extend, hk] using hj

theorem grows_defineAll (s : Scopes) (i : ScopeId) (xs : List String)
    (vs : List Value) :
    s.Grows (s.defineAll i xs vs) := by
  induction xs generalizing s vs with
  | nil => exact Grows.refl s
  | cons x xs ih =>
    cases vs with
    | nil => exact (grows_define s i x .nil).trans (ih _ [])
    | cons v vs => exact (grows_define s i x v).trans (ih _ vs)

/-! Names known to resolve from an existing scope. -/

structure Knows (s : Scopes) (i : ScopeId) (names : List String) : Prop where
  lt_size : i < s.frames.size
  binds : ∀ x ∈ names, s.Binds i x

namespace Knows

variable {names more : List String}

theorem mono (h : s.Knows i names) (hg : s.Grows s') : s'.Knows i names :=
  ⟨Nat.lt_of_lt_of_le h.lt_size hg.size_le, fun x hx => hg.binds (h.binds x hx)⟩

theorem append (h : s.Knows i names) (h' : s.Knows i more) :
    s.Knows i (names ++ more) := by
  refine ⟨h.lt_size, fun x hx => ?_⟩
  rcases List.mem_append.mp hx with hx | hx
  · exact h.binds x hx
  · exact h'.binds x hx

end Knows

theorem binds_define (hlt : i < s.frames.size) : (s.define i x v).Binds i x :=
  binds_of_here? (v := v) (by simp [here?_define, hlt])

theorem knows_defineAll (hlt : i < s.frames.size) (xs : List String)
    (vs : List Value) :
    (s.defineAll i xs vs).Knows i xs := by
  induction xs generalizing s vs with
  | nil => exact ⟨hlt, by simp⟩
  | cons x xs ih =>
    have first :
        ∀ v vs, ((s.define i x v).defineAll i xs vs).Knows i (x :: xs) := by
      intro v vs
      have hlt' : i < (s.define i x v).frames.size := by simpa using hlt
      have hx : (s.define i x v).Knows i [x] :=
        ⟨hlt', by simpa using binds_define hlt⟩
      exact (hx.mono (grows_defineAll _ i xs vs)).append (ih hlt' vs)
    cases vs with
    | nil => exact first .nil []
    | cons v vs => exact first v vs

theorem knows_extend {names : List String} (h : ∀ x ∈ names, s.Binds i x) :
    (s.extend i).Knows s.nextId names := by
  refine ⟨by simp [nextId], fun x hx => ?_⟩
  obtain ⟨j, hj, v, hv⟩ := h x hx
  exact ⟨j, by simp [chain, outer_extend, List.mem_cons.mp hj], v,
    by simpa using hv⟩

theorem knows_extend_defineAll {names : List String}
    (h : ∀ x ∈ names, s.Binds i x) (xs : List String) (vs : List Value) :
    ((s.extend i).defineAll s.nextId xs vs).Knows s.nextId (xs ++ names) :=
  (knows_defineAll (by simp [nextId]) xs vs).append
    ((knows_extend h).mono (grows_defineAll _ _ xs vs))

end Scopes

end LuaCore
