import LuaCore.Proofs.Scope.Locality
import LuaCore.Proofs.Simulation.Fuel

namespace LuaCore

open LuaCore.Action LuaCore.Simulation

/-- How the scopes of two stores correspond. -/
structure ScopePairing where
  pairs : ScopeId → ScopeId → Prop
  /-- The scopes that only the first store has. -/
  left : ScopeId → Prop
  /-- The scopes that only the second store has. -/
  right : ScopeId → Prop
  /-- The scopes from which names mean the same. -/
  sees : ScopeId → ScopeId → Prop
  sees_of_pairs : ∀ {i j}, pairs i j → sees i j

namespace ScopePairing

/-- Scopes in a row that correspond, but for those that only one store has. -/
inductive Lines (w : ScopePairing) : List ScopeId → List ScopeId → Prop
  | nil : Lines w [] []
  | both {i j : ScopeId} {is js : List ScopeId} (hij : w.pairs i j)
      (h : Lines w is js) :
      Lines w (i :: is) (j :: js)
  | left {i : ScopeId} {is js : List ScopeId} (hi : w.left i)
      (h : Lines w is js) :
      Lines w (i :: is) js
  | right {j : ScopeId} {is js : List ScopeId} (hj : w.right j)
      (h : Lines w is js) :
      Lines w is (j :: js)

structure Le (w w' : ScopePairing) : Prop where
  pairs : ∀ {i j}, w.pairs i j → w'.pairs i j
  left : ∀ {i}, w.left i → w'.left i
  right : ∀ {j}, w.right j → w'.right j
  sees : ∀ {i j}, w.sees i j → w'.sees i j

def LikeClosure (w : ScopePairing) (c c' : Closure) : Prop :=
  c'.params = c.params ∧ BlockAlike True c.body c'.body ∧
    w.sees c.scope c'.scope

def flip (w : ScopePairing) : ScopePairing where
  pairs i j := w.pairs j i
  left := w.right
  right := w.left
  sees i j := w.sees j i
  sees_of_pairs h := w.sees_of_pairs h

def same (size : Nat) : ScopePairing where
  pairs i j := j = i ∧ i < size
  left _ := False
  right _ := False
  sees i j := j = i ∧ i < size
  sees_of_pairs h := h

def withPair (w : ScopePairing) (i j : ScopeId) : ScopePairing where
  pairs i' j' := w.pairs i' j' ∨ i' = i ∧ j' = j
  left := w.left
  right := w.right
  sees i' j' := w.sees i' j' ∨ i' = i ∧ j' = j
  sees_of_pairs h := h.imp_left w.sees_of_pairs

/-- With a scope of the second store that has no counterpart, from which names
mean the same as from `i`. -/
def withRight (w : ScopePairing) (i j : ScopeId) : ScopePairing where
  pairs := w.pairs
  left := w.left
  right j' := w.right j' ∨ j' = j
  sees i' j' := w.sees i' j' ∨ i' = i ∧ j' = j
  sees_of_pairs h := .inl (w.sees_of_pairs h)

variable {w w' w'' : ScopePairing} {is js : List ScopeId}

theorem Le.refl (w : ScopePairing) : w.Le w := ⟨id, id, id, id⟩

theorem Le.trans (h : w.Le w') (h' : w'.Le w'') : w.Le w'' :=
  ⟨h'.pairs ∘ h.pairs, h'.left ∘ h.left, h'.right ∘ h.right, h'.sees ∘ h.sees⟩

theorem Le.flip (h : w.Le w') : w.flip.Le w'.flip :=
  ⟨h.pairs, h.right, h.left, h.sees⟩

theorem le_withPair (w : ScopePairing) (i j : ScopeId) :
    w.Le (w.withPair i j) :=
  ⟨.inl, id, id, .inl⟩

theorem le_withRight (w : ScopePairing) (i j : ScopeId) :
    w.Le (w.withRight i j) :=
  ⟨id, id, .inl, .inl⟩

theorem Lines.mono (h : w.Lines is js) (hle : w.Le w') : w'.Lines is js := by
  induction h with
  | nil => exact .nil
  | both hij _ ih => exact .both (hle.pairs hij) ih
  | left hi _ ih => exact .left (hle.left hi) ih
  | right hj _ ih => exact .right (hle.right hj) ih

theorem Lines.flip (h : w.Lines is js) : w.flip.Lines js is := by
  induction h with
  | nil => exact .nil
  | both hij _ ih => exact .both hij ih
  | left hi _ ih => exact .right hi ih
  | right hj _ ih => exact .left hj ih

theorem likeClosure_mono {c c' : Option Closure}
    (h : Option.Rel w.LikeClosure c c') (hle : w.Le w') :
    Option.Rel w'.LikeClosure c c' := by
  cases h with
  | some hc => exact .some ⟨hc.1, hc.2.1, hle.sees hc.2.2⟩
  | none => exact .none

theorem LikeClosure.flip {c c' : Closure} (h : w.LikeClosure c c') :
    w.flip.LikeClosure c' c :=
  ⟨h.1.symm, h.2.1.symm, h.2.2⟩

end ScopePairing

/-- Stores that differ in scopes without variables only. The same tables,
iterators and output are there; functions with the same numbers are alike;
scopes that correspond have the same variables, and such scopes enclose them. -/
structure Store.Matches (w : ScopePairing) (σ τ : Store) : Prop where
  heap : τ.heap = σ.heap
  depth : τ.depth = σ.depth
  closures : ∀ id : Nat,
    Option.Rel w.LikeClosure σ.closures[id]? τ.closures[id]?
  firsts : ∀ i, i < σ.scopes.frames.size ↔ w.left i ∨ ∃ j, w.pairs i j
  seconds : ∀ j, j < τ.scopes.frames.size ↔ w.right j ∨ ∃ i, w.pairs i j
  unique : ∀ {i j i' j'}, w.pairs i j → w.pairs i' j' → (i = i' ↔ j = j')
  left : ∀ {i}, w.left i → σ.scopes.vars i = [] ∧ ∀ j, ¬ w.pairs i j
  right : ∀ {j}, w.right j → τ.scopes.vars j = [] ∧ ∀ i, ¬ w.pairs i j
  vars : ∀ {i j}, w.pairs i j → τ.scopes.vars j = σ.scopes.vars i
  exist : ∀ {i j}, w.sees i j →
    i < σ.scopes.frames.size ∧ j < τ.scopes.frames.size
  lines : ∀ {i j}, w.sees i j → w.Lines (σ.scopes.chain i) (τ.scopes.chain j)

theorem Scopes.vars_nextId (s : Scopes) : s.vars s.nextId = [] := by
  simp [vars, nextId]

theorem Scopes.chain_extend_of_lt {s : Scopes} {i j : ScopeId}
    (hj : j < s.frames.size) :
    (s.extend i).chain j = s.chain j := by
  rw [chain, chain, outer_extend,
    if_neg (show j ≠ s.nextId from Nat.ne_of_lt hj)]

theorem Scopes.chain_extend_nextId {s : Scopes} {i : ScopeId} :
    (s.extend i).chain s.nextId = s.nextId :: s.chain i := by
  rw [chain, outer_extend, if_pos rfl]

namespace Store.Matches

variable {w : ScopePairing} {σ τ : Store} {i j : ScopeId} {x : String}
    {v : Value}

theorem flip (h : σ.Matches w τ) : τ.Matches w.flip σ where
  heap := h.heap.symm
  depth := h.depth.symm
  closures id := by
    have hrel := h.closures id
    revert hrel
    generalize σ.closures[id]? = c
    generalize τ.closures[id]? = c'
    rintro (hc | _)
    · exact .some hc.flip
    · exact .none
  firsts := h.seconds
  seconds := h.firsts
  unique hij hij' := (h.unique hij hij').symm
  left := h.right
  right := h.left
  vars hij := (h.vars hij).symm
  exist hij := (h.exist hij).symm
  lines hij := (h.lines hij).flip

theorem same (hσ : σ.Reachable) : σ.Matches (.same σ.scopes.frames.size) σ where
  heap := rfl
  depth := rfl
  closures id := by
    cases hc : σ.closures[id]? with
    | none => exact .none
    | some c =>
      exact .some ⟨rfl, .refl _, rfl,
          hσ.closure_scope_lt_size c (Array.mem_of_getElem? hc)⟩
  firsts i := ⟨fun hi => .inr ⟨i, rfl, hi⟩,
    fun h => h.elim False.elim fun ⟨_, _, hi⟩ => hi⟩
  seconds j := ⟨fun hj => .inr ⟨j, rfl, hj⟩,
    fun h => h.elim False.elim fun ⟨_, heq, hi⟩ => heq ▸ hi⟩
  unique := by
    rintro i _ i' _ ⟨rfl, _⟩ ⟨rfl, _⟩
    exact Iff.rfl
  left h := h.elim
  right h := h.elim
  vars := by
    rintro i _ ⟨rfl, _⟩
    rfl
  exist := by
    rintro i _ ⟨rfl, hi⟩
    exact ⟨hi, hi⟩
  lines := by
    rintro i _ ⟨rfl, hi⟩
    have lines_self :
        ∀ is : List ScopeId, (∀ i ∈ is, i < σ.scopes.frames.size) →
        (ScopePairing.same σ.scopes.frames.size).Lines is is := by
      intro is his
      induction is with
      | nil => exact .nil
      | cons i is ih =>
        have his := List.forall_mem_cons.mp his
        exact .both ⟨rfl, his.1⟩ (ih his.2)
    refine lines_self _ fun j hj => ?_
    rcases List.mem_cons.mp hj with rfl | hj
    · exact hi
    · exact hσ.outer_lt_size _ j hj

/-- From scopes that see the same, the nearest binding of a name is the same. -/
theorem firstBinding? (h : σ.Matches w τ) {is js : List ScopeId}
    (hlines : w.Lines is js) (x : String) :
    Option.Rel (fun b b' => w.pairs b.1 b'.1 ∧ b'.2 = b.2)
      (σ.scopes.firstBinding? x is) (τ.scopes.firstBinding? x js) := by
  induction hlines with
  | nil => exact .none
  | @both i j is js hij _ ih =>
    unfold Scopes.firstBinding? Scopes.here?
    rw [h.vars hij]
    cases (σ.scopes.vars i).find? x with
    | none => exact ih
    | some v => exact .some ⟨hij, rfl⟩
  | @left i is js hi _ ih =>
    have hnone : σ.scopes.here? i x = none := by
      rw [Scopes.here?, (h.left hi).1, Bindings.find?]
    rw [Scopes.firstBinding?, hnone]
    exact ih
  | @right j is js hj _ ih =>
    have hnone : τ.scopes.here? j x = none := by
      rw [Scopes.here?, (h.right hj).1, Bindings.find?]
    rw [Scopes.firstBinding?, hnone]
    exact ih

theorem withHeap (h : σ.Matches w τ) (heap : Heap) :
    Store.Matches w { σ with heap := heap } { τ with heap := heap } :=
  { h with heap := rfl }

theorem setDepth (h : σ.Matches w τ) (n : Nat) :
    (setDepth n σ).Matches w (setDepth n τ) :=
  { h with depth := rfl }

theorem size_closures (h : σ.Matches w τ) :
    τ.closures.size = σ.closures.size := by
  have hsome : ∀ id : Nat, σ.closures[id]?.isSome = τ.closures[id]?.isSome := by
    intro id
    have hrel := h.closures id
    revert hrel
    generalize σ.closures[id]? = c
    generalize τ.closures[id]? = c'
    rintro (_ | _) <;> rfl
  refine Nat.le_antisymm ?_ ?_
  · simpa using hsome σ.closures.size
  · simpa using hsome τ.closures.size

theorem makeClosure (h : σ.Matches w τ) {c c' : Closure}
    (hc : w.LikeClosure c c') :
    Store.Matches w { σ with closures := σ.closures.push c }
      { τ with closures := τ.closures.push c' } :=
  { h with
    closures := fun id => by
      simp only [Array.getElem?_push, h.size_closures]
      split
      · exact .some hc
      · exact h.closures id }

theorem define (h : σ.Matches w τ) (hij : w.pairs i j) (x : String)
    (v : Value) :
    Store.Matches w { σ with scopes := σ.scopes.define i x v }
      { τ with scopes := τ.scopes.define j x v } where
  heap := h.heap
  depth := h.depth
  closures := h.closures
  firsts i := by simpa using h.firsts i
  seconds j := by simpa using h.seconds j
  unique := h.unique
  left {i'} hi' := by
    have hne : i ≠ i' := by
      rintro rfl
      exact (h.left hi').2 j hij
    simpa [Scopes.vars_define, hne] using h.left hi'
  right {j'} hj' := by
    have hne : j ≠ j' := by
      rintro rfl
      exact (h.right hj').2 i hij
    simpa [Scopes.vars_define, hne] using h.right hj'
  vars {i' j'} hij' := by
    obtain ⟨hi, hj⟩ := h.exist (w.sees_of_pairs hij')
    simp only [Scopes.vars_define, h.vars hij', hi, hj, and_true,
      h.unique hij hij']
  exist hij := by simpa using h.exist hij
  lines hij := by simpa [Scopes.chain] using h.lines hij

theorem defineAll (h : σ.Matches w τ) (hij : w.pairs i j) (xs : List String)
    (vs : List Value) :
    Store.Matches w { σ with scopes := σ.scopes.defineAll i xs vs }
      { τ with scopes := τ.scopes.defineAll j xs vs } := by
  induction xs generalizing σ τ vs with
  | nil => exact h
  | cons x xs ih =>
    cases vs with
    | nil => exact ih (h.define hij x .nil) []
    | cons v vs => exact ih (h.define hij x v) vs

theorem extend (h : σ.Matches w τ) (hij : w.sees i j) :
    Store.Matches (w.withPair σ.scopes.nextId τ.scopes.nextId)
      { σ with scopes := σ.scopes.extend i }
      { τ with scopes := τ.scopes.extend j } where
  heap := h.heap
  depth := h.depth
  closures id := ScopePairing.likeClosure_mono (h.closures id)
    (w.le_withPair _ _)
  firsts k := by
    simp only [Scopes.size_extend, Nat.lt_succ_iff_lt_or_eq, h.firsts k]
    constructor
    · rintro ((hk | ⟨j, hk⟩) | rfl)
      · exact .inl hk
      · exact .inr ⟨j, .inl hk⟩
      · exact .inr ⟨_, .inr ⟨rfl, rfl⟩⟩
    · rintro (hk | ⟨j, hk | ⟨rfl, _⟩⟩)
      · exact .inl (.inl hk)
      · exact .inl (.inr ⟨j, hk⟩)
      · exact .inr rfl
  seconds k := by
    simp only [Scopes.size_extend, Nat.lt_succ_iff_lt_or_eq, h.seconds k]
    constructor
    · rintro ((hk | ⟨i, hk⟩) | rfl)
      · exact .inl hk
      · exact .inr ⟨i, .inl hk⟩
      · exact .inr ⟨_, .inr ⟨rfl, rfl⟩⟩
    · rintro (hk | ⟨i, hk | ⟨_, rfl⟩⟩)
      · exact .inl (.inl hk)
      · exact .inl (.inr ⟨i, hk⟩)
      · exact .inr rfl
  unique := by
    have hnew : ∀ {k l}, w.pairs k l →
        k ≠ σ.scopes.nextId ∧ l ≠ τ.scopes.nextId := fun hk =>
      (h.exist (w.sees_of_pairs hk)).imp Nat.ne_of_lt Nat.ne_of_lt
    rintro k l k' l' (hk | ⟨rfl, rfl⟩) (hk' | ⟨rfl, rfl⟩)
    · exact h.unique hk hk'
    · exact iff_of_false (hnew hk).1 (hnew hk).2
    · exact iff_of_false (hnew hk').1.symm (hnew hk').2.symm
    · exact iff_of_true rfl rfl
  left {k} hk := by
    refine ⟨by simpa using (h.left hk).1, ?_⟩
    rintro l (hl | ⟨rfl, _⟩)
    · exact (h.left hk).2 l hl
    · exact Nat.lt_irrefl _ ((h.firsts _).mpr (.inl hk))
  right {k} hk := by
    refine ⟨by simpa using (h.right hk).1, ?_⟩
    rintro l (hl | ⟨_, rfl⟩)
    · exact (h.right hk).2 l hl
    · exact Nat.lt_irrefl _ ((h.seconds _).mpr (.inl hk))
  vars := by
    rintro _ _ (hk | ⟨rfl, rfl⟩)
    · simpa using h.vars hk
    · simp [Scopes.vars_nextId]
  exist := by
    simp only [Scopes.size_extend]
    rintro _ _ (hk | ⟨rfl, rfl⟩)
    · exact (h.exist hk).imp Nat.lt_succ_of_lt Nat.lt_succ_of_lt
    · exact ⟨Nat.lt_succ_self _, Nat.lt_succ_self _⟩
  lines := by
    rintro _ _ (hk | ⟨rfl, rfl⟩)
    · obtain ⟨hi, hj⟩ := h.exist hk
      rw [Scopes.chain_extend_of_lt hi, Scopes.chain_extend_of_lt hj]
      exact (h.lines hk).mono (w.le_withPair _ _)
    · rw [Scopes.chain_extend_nextId, Scopes.chain_extend_nextId]
      exact .both (.inr ⟨rfl, rfl⟩) ((h.lines hij).mono (w.le_withPair _ _))

theorem extendRight (h : σ.Matches w τ) (hij : w.sees i j) :
    Store.Matches (w.withRight i τ.scopes.nextId) σ
      { τ with scopes := τ.scopes.extend j } where
  heap := h.heap
  depth := h.depth
  closures id := ScopePairing.likeClosure_mono (h.closures id)
    (w.le_withRight _ _)
  firsts := h.firsts
  seconds k := by
    simp only [Scopes.size_extend, Nat.lt_succ_iff_lt_or_eq, h.seconds k]
    constructor
    · rintro ((hk | hk) | rfl)
      · exact .inl (.inl hk)
      · exact .inr hk
      · exact .inl (.inr rfl)
    · rintro ((hk | rfl) | hk)
      · exact .inl (.inl hk)
      · exact .inr rfl
      · exact .inl (.inr hk)
  unique := h.unique
  left := h.left
  right := by
    rintro k (hk | rfl)
    · exact ⟨by simpa using (h.right hk).1, (h.right hk).2⟩
    · refine ⟨by simp [Scopes.vars_nextId], fun i hi => ?_⟩
      exact Nat.lt_irrefl _ (h.exist (w.sees_of_pairs hi)).2
  vars hk := by simpa using h.vars hk
  exist := by
    simp only [Scopes.size_extend]
    rintro _ _ (hk | ⟨rfl, rfl⟩)
    · exact (h.exist hk).imp_right Nat.lt_succ_of_lt
    · exact ⟨(h.exist hij).1, Nat.lt_succ_self _⟩
  lines := by
    rintro _ _ (hk | ⟨rfl, rfl⟩)
    · rw [Scopes.chain_extend_of_lt (h.exist hk).2]
      exact (h.lines hk).mono (w.le_withRight _ _)
    · rw [Scopes.chain_extend_nextId]
      exact .right (.inr rfl) ((h.lines hij).mono (w.le_withRight _ _))

end Store.Matches

/-- A run beside one of code in which single statements have blocks of their
own. -/
def wrapping : Simulation where
  World := ScopePairing
  le := ScopePairing.Le
  le_refl := .refl
  le_trans := .trans
  rel w σ τ := σ.Matches w τ
  good _ _ := True
  good_le _ _ := trivial
  sees := ScopePairing.sees
  sees_le hle := hle.sees
  owns := ScopePairing.pairs
  owns_le hle := hle.pairs
  sees_of_owns {w} _ _ := w.sees_of_pairs
  blocks := True

namespace wrapping

variable {w : wrapping.World} {i j : ScopeId}

/-- What is done to the heap, and what comes of it, is the same in both runs. -/
theorem follows_heap {α : Type} {m : Action α}
    {Q : wrapping.World → α → α → Prop} (hQ : ∀ a, Q w a a)
    (hm : ∀ scopes closures heap depth scopes' closures',
      (∃ a heap',
        m ⟨scopes, closures, heap, depth⟩ =
            .done a ⟨scopes, closures, heap', depth⟩ ∧
          m ⟨scopes', closures', heap, depth⟩ =
            .done a ⟨scopes', closures', heap', depth⟩) ∨
      ∃ e heap',
        m ⟨scopes, closures, heap, depth⟩ =
            .fail e ⟨scopes, closures, heap', depth⟩ ∧
          m ⟨scopes', closures', heap, depth⟩ =
            .fail e ⟨scopes', closures', heap', depth⟩) :
    wrapping.Follows w m m Q := by
  rintro ⟨scopes, closures, heap, depth⟩
    ⟨scopes', closures', heap', depth'⟩ hrel
  obtain rfl : heap' = heap := hrel.heap
  obtain rfl : depth' = depth := hrel.depth
  rcases hm scopes closures heap' depth' scopes' closures'
    with ⟨a, heap, hl, hr⟩ | ⟨e, heap, hl, hr⟩
  · rw [hl, hr]
    exact ⟨w, .refl w, hrel.withHeap heap, hQ a⟩
  · rw [hl, hr]
    exact ⟨rfl, w, .refl w, hrel.withHeap heap⟩

theorem upheld (host : Host) : wrapping.Upheld host where
  depth_eq h := h.depth
  setDepth n h := h.setDepth n
  plain _ := trivial
  lookup {w i j} x hs := by
    intro σ τ hrel
    have hfirst := hrel.firstBinding? (hrel.lines hs) x
    simp only [Action.lookup, Scopes.get?]
    revert hfirst
    generalize σ.scopes.firstBinding? x (σ.scopes.chain i) = b
    generalize τ.scopes.firstBinding? x (τ.scopes.chain j) = b'
    rintro (⟨_, hv⟩ | _)
    · exact ⟨w, .refl w, hrel, hv, trivial⟩
    · exact ⟨rfl, w, .refl w, hrel⟩
  assign {w i j v} x hs _ := by
    intro σ τ hrel
    have hfirst := hrel.firstBinding? (hrel.lines hs) x
    simp only [Action.assign, Scopes.owner?]
    revert hfirst
    generalize σ.scopes.firstBinding? x (σ.scopes.chain i) = b
    generalize τ.scopes.firstBinding? x (τ.scopes.chain j) = b'
    rintro (⟨hpair, _⟩ | _)
    · exact ⟨w, .refl w, hrel.define hpair x v, trivial⟩
    · exact ⟨rfl, w, .refl w, hrel⟩
  openScope {w i j vs} names hs _ := by
    intro σ τ hrel
    have hnew : (w.withPair σ.scopes.nextId τ.scopes.nextId).pairs
        σ.scopes.nextId τ.scopes.nextId :=
      .inr ⟨rfl, rfl⟩
    exact ⟨_, w.le_withPair _ _, (hrel.extend hs).defineAll hnew names vs, hnew⟩
  define {w i j vs} names hs _ := fun σ τ hrel =>
    ⟨w, .refl w, hrel.defineAll hs names vs, trivial⟩
  makeClosure {w c c'} name hc := by
    intro σ τ hrel
    refine ⟨w, .refl w, hrel.makeClosure hc, ?_, trivial⟩
    rw [hrel.size_closures]
  closure? {w id name} _ := fun σ τ hrel => ⟨w, .refl w, hrel, hrel.closures id⟩
  makeTable {w t} _ := follows_heap (fun v => ⟨rfl, trivial⟩)
    fun _ _ heap _ _ _ =>
    .inl ⟨_, heap.addTable t, rfl, rfl⟩
  index {w o} k _ := by
    refine follows_heap (fun v => ⟨rfl, trivial⟩) fun _ _ heap _ _ _ => ?_
    unfold Action.index
    split
    · exact .inl ⟨_, heap, rfl, rfl⟩
    · exact .inr ⟨_, heap, rfl, rfl⟩
  setIndex {w o k v} _ _ _ := by
    refine follows_heap (fun _ => trivial) fun _ _ heap _ _ _ => ?_
    simp only [Action.setIndex]
    split
    · next id _ =>
      split
      · next key _ => exact .inl ⟨_, heap.putEntry id key k v, rfl, rfl⟩
      · exact .inr ⟨_, heap, rfl, rfl⟩
    · exact .inr ⟨_, heap, rfl, rfl⟩
  advance {w id} _ := follows_heap (fun row => ⟨rfl, fun _ _ _ _ => trivial⟩)
    fun _ _ heap _ _ _ =>
    .inl ⟨_, (heap.advance id).2, rfl, rfl⟩
  native {w args} id _ := by
    refine follows_heap (fun v => ⟨rfl, trivial⟩) fun _ _ heap _ _ _ => ?_
    simp only [Action.native]
    split
    · next v heap' heq => exact .inl ⟨v, heap', rfl, rfl⟩
    · next e heap' heq => exact .inr ⟨e, heap', rfl, rfl⟩
  enter {w i j} _ hs := fun σ τ hrel =>
    ⟨_, w.le_withRight i τ.scopes.nextId, hrel.extendRight hs, .inr ⟨rfl, rfl⟩⟩
  enterLeft {w i j} _ hs := fun σ τ hrel =>
    ⟨(w.flip.withRight j σ.scopes.nextId).flip,
      (w.flip.le_withRight j σ.scopes.nextId).flip,
      (hrel.flip.extendRight hs).flip, .inr ⟨rfl, rfl⟩⟩

end wrapping

namespace Session

variable {s : Session} {c c' : Chunk}

theorem interpret_alike (hs : s.Reachable) (h : BlockAlike True c.body c'.body)
    {n k : Nat} (hle : 2 * n ≤ k) (hends : (s.interpret n c).1 ≠ .unfinished) :
    (s.interpret k c').1 = (s.interpret n c).1 ∧
      ∃ w τ τ', τ.Matches w τ' ∧ (s.interpret n c).2 = { s with store := τ } ∧
        (s.interpret k c').2 = { s with store := τ' } := by
  have hroot : wrapping.owns
      (.same s.store.scopes.frames.size) Scopes.rootId Scopes.rootId :=
    ⟨rfl, hs.store.rootId_lt_size⟩
  exact Simulation.interpret (wrapping.upheld s.host)
    (Nat.le_trans (Nat.le_mul_of_pos_left n Nat.two_pos) hle)
    (fun _ => hle) h hroot (.same hs.store) hends

/-- A program in which statements that declare nothing are put in blocks of
their own, or taken out of such blocks, ends if and only if it did so before,
with the same answer. The session is as it would have been, with the same
printed text, but for the numbers of scopes, for scopes without variables around
them, and for those blocks in the bodies of functions. -/
theorem interpret_wrapped (hs : s.Reachable)
    (h : BlockAlike True c.body c'.body) :
    ((∃ fuel, (s.interpret fuel c).1 ≠ .unfinished) ↔
      ∃ fuel, (s.interpret fuel c').1 ≠ .unfinished) ∧
      ∀ fuel fuel', (s.interpret fuel c).1 ≠ .unfinished →
        (s.interpret fuel' c').1 ≠ .unfinished →
        (s.interpret fuel' c').1 = (s.interpret fuel c).1 ∧
          ∃ w τ τ', τ.Matches w τ' ∧
            (s.interpret fuel c).2 = { s with store := τ } ∧
            (s.interpret fuel' c').2 = { s with store := τ' } := by
  refine ⟨⟨?_, ?_⟩, ?_⟩
  · rintro ⟨n, hends⟩
    exact ⟨2 * n, by rwa [(interpret_alike hs h (Nat.le_refl _) hends).1]⟩
  · rintro ⟨n, hends⟩
    exact ⟨2 * n, by rwa [(interpret_alike hs h.symm (Nat.le_refl _) hends).1]⟩
  · intro n k hends hends'
    -- a run with enough fuel for both
    have hruns := interpret_alike hs h (Nat.le_max_left (2 * n) k) hends
    rwa [interpret_of_le (Nat.le_max_right (2 * n) k) hends'] at hruns

/-- A function that is made inside such a block lies in one more scope, and
returns the same. -/
theorem interpret_wrapped_return :
    let inner : Stat := .return [.function [] [.return [.name "x"]]]
    let program (s : Stat) : Chunk :=
      ⟨[.local ["x"] [.string "a"], .function (some (.name "f")) true []
            [.expr (.assign [.name "x"] [.string "b"]), s],
          .return [.call (.call (.name "f") []) []]], []⟩
    let s := start 200 none
    s.Reachable ∧
      BlockAlike True (program inner).body (program (.do [inner])).body ∧
      (s.interpret 9 (program (.do [inner]))).1 = .value (.string "b") ∧
      (s.interpret 9 (program inner)).2.store.scopes.frames.size = 3 ∧
      (s.interpret 9 (program (.do [inner]))).2.store.scopes.frames.size =
        4 := by
  intro inner program s
  have hs : s.Reachable := .start 200 none
  have halike :
      BlockAlike True (program inner).body (program (.do [inner])).body :=
    .cons (.refl _) (.cons (.function true [] (.refl _) (.cons (.refl _)
      (.wrap trivial rfl (.refl inner) .nil))) (.refl _))
  have hends : (s.interpret 9 (program inner)).1 ≠ .unfinished := nofun
  have hends' : (s.interpret 9 (program (.do [inner]))).1 ≠ .unfinished := nofun
  refine ⟨hs, halike, ?_, by decide +kernel, by decide +kernel⟩
  rw [((interpret_wrapped hs halike).2 9 9 hends hends').1]
  rfl

end Session

end LuaCore
