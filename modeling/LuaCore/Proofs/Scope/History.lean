import LuaCore.Evaluation.Action
import LuaCore.Proofs.Scope.Widening

namespace LuaCore

namespace Scopes

inductive Operation
  | extend (i : ScopeId)
  | define (i : ScopeId) (x : String) (v : Value)
  | assign (i : ScopeId) (x : String) (v : Value)
  | get (i : ScopeId) (x : String)
  | lookup (i : ScopeId) (x : String)

namespace Operation

def scope : Operation → ScopeId
  | extend i | define i _ _ | assign i _ _ | get i _ | lookup i _ => i

def defines (i : ScopeId) (x : String) : Operation → Bool
  | define j y _ => j = i && y = x
  | _ => false

end Operation

/-- An assignment to a name that nothing binds changes nothing, and neither
does reading. -/
def perform (s : Scopes) : Operation → Scopes
  | .extend i => s.extend i
  | .define i x v => s.define i x v
  | .assign i x v => (s.assign? i x v).getD s
  | .get _ _ | .lookup _ _ => s

/-- What was done since there was only the root, the latest operation first. -/
abbrev History := List Operation

namespace History

def scopes : History → Scopes
  | [] => root
  | op :: h => (scopes h).perform op

/-! What a history says by itself. -/

def size : History → Nat
  | [] => 1
  | .extend _ :: h => size h + 1
  | _ :: h => size h

/-- Every operation was done on a scope that there was by then. -/
def Proper : History → Prop
  | [] => True
  | op :: h => op.scope < size h ∧ Proper h

/-- The scope in which another one was opened. -/
def parent? : History → ScopeId → Option ScopeId
  | [], _ => none
  | .extend p :: h, i => if i = size h then some p else parent? h i
  | _ :: h, i => parent? h i

def chain : History → ScopeId → List ScopeId
  | [], i => [i]
  | .extend p :: h, i => if i = size h then i :: chain h p else chain h i
  | _ :: h, i => chain h i

def Defines (h : History) (i : ScopeId) (x : String) : Prop :=
  ∃ v, .define i x v ∈ h

/-- The nearest scope on which the name was ever defined. -/
def nearest? (h : History) (i : ScopeId) (x : String) : Option ScopeId :=
  (chain h i).find? fun j => h.any (Operation.defines j x)

/-- The value last written to a name of a scope. -/
def lastWritten? (j : ScopeId) (x : String) : History → Option Value
  | [] => none
  | .define i y v :: h => if i = j ∧ y = x then some v else lastWritten? j x h
  | .assign i y v :: h =>
    if y = x ∧ nearest? h i x = some j then some v else lastWritten? j x h
  | _ :: h => lastWritten? j x h

instance decidableProper : (h : History) → Decidable (Proper h)
  | [] => isTrue trivial
  | op :: h =>
    have := decidableProper h
    inferInstanceAs (Decidable (op.scope < size h ∧ Proper h))

end History

variable {s : Scopes} {h : History} {i j : ScopeId} {x y : String} {v : Value}

theorem any_defines_iff :
    h.any (Operation.defines i x) = true ↔ h.Defines i x := by
  simp only [List.any_eq_true, History.Defines]
  constructor
  · rintro ⟨op, hop, hdefines⟩
    cases op with
    | define j y v =>
      obtain ⟨rfl, rfl⟩ : j = i ∧ y = x := by
        simpa [Operation.defines] using hdefines
      exact ⟨v, hop⟩
    | _ => cases hdefines
  · rintro ⟨v, hv⟩
    exact ⟨_, hv, by simp [Operation.defines]⟩

/-! What one operation does to a chain and to a binding. -/

theorem owner?_eq_find? :
    s.owner? i x = (s.chain i).find? fun j => (s.here? j x).isSome := by
  unfold owner?
  induction s.chain i with
  | nil => rfl
  | cons j is ih =>
    unfold firstBinding?
    cases hj : s.here? j x with
    | some v => simp [hj]
    | none => simpa [hj] using ih

theorem get?_eq_bind :
    s.get? i x = (s.owner? i x).bind fun j => s.here? j x := by
  unfold get? owner?
  cases hfirst : s.firstBinding? x (s.chain i) with
  | none => rfl
  | some owner => simpa using (here?_of_firstBinding? hfirst).2.symm

theorem lt_size_of_here? (hv : s.here? i x = some v) : i < s.frames.size := by
  refine Nat.lt_of_not_le fun hle => ?_
  have hnone : s.frames[i]? = none := Array.getElem?_eq_none hle
  simp [here?, vars, hnone, Bindings.find?] at hv

@[simp] theorem chain_define : (s.define i x v).chain j = s.chain j := by
  simp [chain]

/-- Where a definition leaves the owner of a name another one than it was, that
is the scope defined on. -/
theorem owner?_define : (s.define i x v).owner? j y = s.owner? j y ∨
    y = x ∧ (s.define i x v).owner? j y = some i := by
  have hfind : ∀ is : List ScopeId,
      (is.find? fun k => ((s.define i x v).here? k y).isSome) =
        is.find? (fun k => (s.here? k y).isSome) ∨
        y = x ∧
          (is.find? fun k => ((s.define i x v).here? k y).isSome) = some i := by
    intro is
    induction is with
    | nil => exact .inl rfl
    | cons k is ih =>
      by_cases hk : i = k ∧ k < s.frames.size ∧ x = y
      · obtain ⟨rfl, hlt, rfl⟩ := hk
        exact .inr ⟨rfl, List.find?_cons_of_pos (by simp [here?_define, hlt])⟩
      · have hkept : (s.define i x v).here? k y = s.here? k y := by
          rw [here?_define, if_neg hk]
        simp only [List.find?_cons, hkept]
        cases (s.here? k y).isSome with
        | true => exact .inl rfl
        | false => exact ih
  simpa only [owner?_eq_find?, chain_define] using hfind (s.chain j)

/-- A definition changes what a name means only where it is the nearest one
of this name. -/
theorem get?_define_of_ne (hne : (s.define i x v).get? j y ≠ s.get? j y) :
    y = x ∧ (s.define i x v).owner? j y = some i := by
  rcases owner?_define (s := s) (i := i) (x := x) (v := v) (j := j) (y := y)
    with hsame | hnearest
  · by_cases howner : s.owner? j y = some i ∧ y = x
    · exact ⟨howner.2, hsame.trans howner.1⟩
    · refine absurd ?_ hne
      rw [get?_eq_bind, get?_eq_bind, hsame]
      cases hk : s.owner? j y with
      | none => rfl
      | some k =>
        have hother : ¬(i = k ∧ k < s.frames.size ∧ x = y) := by
          rintro ⟨rfl, -, rfl⟩
          exact howner ⟨hk, rfl⟩
        simp [here?_define, hother]
  · exact hnearest

theorem here?_perform_assign :
    (s.perform (.assign i y v)).here? j x =
      if y = x ∧ s.owner? i x = some j then some v else s.here? j x := by
  simp only [perform, assign?]
  cases howner : s.owner? i y with
  | none =>
    have hnot : ¬(y = x ∧ s.owner? i x = some j) := by
      rintro ⟨rfl, hj⟩
      rw [howner] at hj
      cases hj
    simp [hnot]
  | some k =>
    obtain ⟨w, hw⟩ := Option.isSome_iff_exists.mp (here?_of_owner? howner)
    have hiff : (k = j ∧ j < s.frames.size ∧ y = x) ↔
        (y = x ∧ s.owner? i x = some j) := by
      constructor
      · rintro ⟨rfl, -, rfl⟩
        exact ⟨rfl, howner⟩
      · rintro ⟨rfl, hj⟩
        obtain rfl : k = j := Option.some.inj (howner.symm.trans hj)
        exact ⟨rfl, lt_size_of_here? hw, rfl⟩
    simp only [Option.map_some, Option.getD_some, here?_define]
    simp only [hiff]

theorem chain_perform_assign :
    (s.perform (.assign i x v)).chain j = s.chain j := by
  simp only [perform, assign?]
  cases s.owner? i x <;> simp

theorem size_perform_assign :
    (s.perform (.assign i x v)).frames.size = s.frames.size := by
  simp only [perform, assign?]
  cases s.owner? i x <;> simp

namespace History

/-! Whole histories, by induction from what one operation does. -/

theorem size_scopes (h : History) : h.scopes.frames.size = h.size := by
  induction h with
  | nil => rfl
  | cons op h ih =>
    cases op with
    | extend p => simp [scopes, perform, size, ih]
    | define i x v => simp [scopes, perform, size, ih]
    | assign i x v => simp [scopes, size_perform_assign, size, ih]
    | get i x => exact ih
    | lookup i x => exact ih

theorem chain_scopes (h : History) (i : ScopeId) :
    h.scopes.chain i = h.chain i := by
  induction h generalizing i with
  | nil => simp [scopes, Scopes.chain, chain]
  | cons op h ih =>
    cases op with
    | extend p =>
      simp only [scopes, perform, chain, Scopes.chain, outer_extend, nextId,
        size_scopes]
      split
      · rw [← ih p]
        rfl
      · exact ih i
    | define j x v => simpa [scopes, perform, chain] using ih i
    | assign j x v => simpa [scopes, chain_perform_assign, chain] using ih i
    | get j x => exact ih i
    | lookup j x => exact ih i

theorem isSome_lastWritten?_iff :
    (lastWritten? j x h).isSome ↔ Defines h j x := by
  induction h with
  | nil => simp [lastWritten?, Defines]
  | cons op h ih =>
    have hlater : Defines h j x → Defines (op :: h) j x :=
      fun ⟨v, hv⟩ => ⟨v, List.mem_cons_of_mem _ hv⟩
    cases op with
    | define i y v =>
      unfold lastWritten?
      split
      · next heq =>
        obtain ⟨rfl, rfl⟩ := heq
        exact iff_of_true rfl ⟨v, List.mem_cons_self⟩
      · next hne =>
        rw [ih]
        refine ⟨hlater, fun ⟨w, hw⟩ => ?_⟩
        rcases List.mem_cons.mp hw with heq | hw
        · cases heq
          exact absurd ⟨rfl, rfl⟩ hne
        · exact ⟨w, hw⟩
    | assign i y v =>
      have hiff : Defines (.assign i y v :: h) j x ↔ Defines h j x := by
        simp [Defines]
      unfold lastWritten?
      split
      · next heq =>
        -- an assignment writes only where the name was defined before
        have hfound := List.find?_some heq.2
        exact iff_of_true rfl (hlater (any_defines_iff.mp hfound))
      · rw [ih, hiff]
    | extend i => simpa [lastWritten?, Defines] using ih
    | get i y => simpa [lastWritten?, Defines] using ih
    | lookup i y => simpa [lastWritten?, Defines] using ih

theorem nearest?_eq_find? :
    h.nearest? i x =
      (h.chain i).find? fun j => (lastWritten? j x h).isSome := by
  unfold nearest?
  congr 1
  funext j
  rw [Bool.eq_iff_iff, any_defines_iff, isSome_lastWritten?_iff]

theorem owner?_of_here? (hhere : ∀ j, h.scopes.here? j x = lastWritten? j x h) :
    h.scopes.owner? i x = h.nearest? i x := by
  rw [owner?_eq_find?, nearest?_eq_find?, chain_scopes]
  simp only [hhere]

theorem here?_scopes (hproper : h.Proper) (j : ScopeId) (x : String) :
    h.scopes.here? j x = lastWritten? j x h := by
  induction h generalizing j x with
  | nil =>
    unfold scopes here? vars root
    cases j <;> simp [lastWritten?, Bindings.find?]
  | cons op h ih =>
    obtain ⟨hscope, hproper⟩ := hproper
    have ih := ih hproper
    cases op with
    | extend p => simpa [scopes, perform, lastWritten?] using ih j x
    | define i y v =>
      have hiff : (i = j ∧ j < size h ∧ y = x) ↔ (i = j ∧ y = x) := by
        refine ⟨fun hall => ⟨hall.1, hall.2.2⟩, ?_⟩
        rintro ⟨rfl, rfl⟩
        exact ⟨rfl, hscope, rfl⟩
      simp only [scopes, perform, here?_define, lastWritten?, size_scopes, ih]
      simp only [hiff]
    | assign i y v =>
      simp only [scopes, here?_perform_assign, lastWritten?,
        owner?_of_here? (ih · x), ih]
    | get i y => exact ih j x
    | lookup i y => exact ih j x

theorem owner?_scopes (hproper : h.Proper) :
    h.scopes.owner? i x = h.nearest? i x :=
  owner?_of_here? fun j => here?_scopes hproper j x

theorem parent?_lt (hproper : h.Proper) {p : ScopeId}
    (hp : h.parent? i = some p) :
    p < i ∧ i < h.size := by
  induction h with
  | nil => cases hp
  | cons op h ih =>
    obtain ⟨hscope, hproper⟩ := hproper
    have ih := ih hproper
    cases op with
    | extend q =>
      unfold parent? at hp
      split at hp
      · next heq =>
        cases hp
        subst heq
        exact ⟨hscope, Nat.lt_succ_self _⟩
      · exact ⟨(ih hp).1, Nat.lt_succ_of_lt (ih hp).2⟩
    | define j y v => exact ih hp
    | assign j y v => exact ih hp
    | get j y => exact ih hp
    | lookup j y => exact ih hp

theorem chain_eq (hproper : h.Proper) (i : ScopeId) :
    h.chain i = i :: (h.parent? i).elim [] h.chain := by
  induction h generalizing i with
  | nil => rfl
  | cons op h ih =>
    obtain ⟨hscope, hproper⟩ := hproper
    have ih := ih hproper
    cases op with
    | extend p =>
      have hother : ∀ q, q < size h → chain (.extend p :: h) q = chain h q :=
        fun q hq => by
        simp only [chain, if_neg (Nat.ne_of_lt hq)]
      by_cases hi : i = size h
      · subst hi
        have hp : chain (.extend p :: h) p = chain h p := hother p hscope
        rw [parent?, if_pos rfl, Option.elim, hp, chain, if_pos rfl]
      · simp only [chain, parent?, if_neg hi]
        rw [ih i]
        cases hq : parent? h i with
        | none => rfl
        | some q =>
          obtain ⟨hlt, hsize⟩ := parent?_lt hproper hq
          exact congrArg (i :: ·) (hother q (Nat.lt_trans hlt hsize)).symm
    | define j y v => exact ih i
    | assign j y v => exact ih i
    | get j y => exact ih i
    | lookup j y => exact ih i

end History

/-- The answers of scopes are those that a history tells. -/
structure AnswerAs (s : Scopes) (h : History) : Prop where
  /-- A scope stands in an older one, so that every chain ends. -/
  parent_lt : ∀ i p, h.parent? i = some p → p < i
  chain : ∀ i, s.chain i = i :: (h.parent? i).elim [] s.chain
  /-- The owner of a name is found by going up the chain. -/
  climb : ∀ i x, s.owner? i x =
    if (s.here? i x).isSome then some i
    else (h.parent? i).bind fun p => s.owner? p x
  owner : ∀ i x, s.owner? i x =
    (s.chain i).find? fun j => h.any (Operation.defines j x)
  get : ∀ i x, s.get? i x =
    (s.owner? i x).bind fun j => History.lastWritten? j x h
  /-- Reading and assigning fail for a name without an owner, and change
  nothing then. -/
  unbound : ∀ i x, s.owner? i x = none → ∀ closures heap depth,
    let σ : Store := ⟨s, closures, heap, depth⟩
    Action.lookup i x σ = .fail (.undefinedVariable x) σ ∧
      ∀ v, Action.assign i x v σ = .fail (.undefinedVariable x) σ
  /-- The owner of a name has a value for it, so that nothing else fails. -/
  bound : ∀ i x j, s.owner? i x = some j → ∀ closures heap depth,
    let σ : Store := ⟨s, closures, heap, depth⟩
    (∃ v, s.here? j x = some v ∧ Action.lookup i x σ = .done v σ) ∧
      ∀ v, Action.assign i x v σ =
        .done () ⟨s.perform (.assign i x v), closures, heap, depth⟩
  define : ∀ i x v j y, (s.define i x v).get? j y ≠ s.get? j y →
    y = x ∧ (s.define i x v).owner? j y = some i

/-- The scopes that a program has at any time answer as a textbook environment
does: as told by the history of all that was done to them. -/
theorem History.scopes_answerAs (h : History) (hproper : h.Proper) :
    h.scopes.AnswerAs h where
  parent_lt i p hp := (parent?_lt hproper hp).1
  chain i := by
    simp only [chain_scopes, funext (chain_scopes h)]
    exact chain_eq hproper i
  climb i x := by
    rw [owner?_eq_find?, chain_scopes, chain_eq hproper, List.find?_cons]
    cases (h.scopes.here? i x).isSome with
    | true => rfl
    | false =>
      cases h.parent? i with
      | none => rfl
      | some p => simp [owner?_eq_find?, chain_scopes]
  owner i x := by rw [owner?_scopes hproper, chain_scopes, nearest?]
  get i x := by
    rw [get?_eq_bind]
    simp only [here?_scopes hproper]
  unbound i x hnone closures heap depth := by
    have hget : h.scopes.get? i x = none := by
      rw [get?_eq_bind, hnone, Option.bind_none]
    constructor
    · simp only [Action.lookup, hget]
    · intro v
      simp only [Action.assign, hnone]
  bound i x j howner closures heap depth := by
    obtain ⟨w, hw⟩ := Option.isSome_iff_exists.mp (here?_of_owner? howner)
    have hget : h.scopes.get? i x = some w := by
      rw [get?_eq_bind, howner, Option.bind_some, hw]
    constructor
    · exact ⟨w, hw, by simp only [Action.lookup, hget]⟩
    · intro v
      simp only [Action.assign, howner, perform, assign?, Option.map_some,
        Option.getD_some]
  define i x v j y hne := get?_define_of_ne hne

/-- A definition in between changes which binding an inner scope sees, and where
its assignments go. -/
theorem History.scopes_answerAs_late_definition :
    let h : History := [.get 2 "x", .assign 2 "x" .nil,
      .define 1 "x" (.bool true), .assign 2 "x" (.bool false),
      .define 0 "x" (.bool true), .extend 1, .extend 0]
    h.Proper ∧ h.scopes.AnswerAs h ∧ h.scopes.owner? 2 "x" = some 1 ∧
      h.scopes.get? 2 "x" = some .nil ∧
        h.scopes.get? 0 "x" = some (.bool false) :=
  ⟨by decide, scopes_answerAs _ (by decide), by decide, by decide, by decide⟩

end Scopes

end LuaCore
