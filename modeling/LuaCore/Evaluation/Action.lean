import LuaCore.Native
import LuaCore.Scope
import LuaCore.Tree

/-! Actions read and change the store of a running program. They end with a
value or an error, or run out of fuel. -/

namespace LuaCore

structure Closure where
  params : List String
  body : Block
  scope : ScopeId

/-- All that a running program can change. The depth is the number of
calls under way. -/
structure Store where
  scopes : Scopes
  closures : Array Closure
  heap : Heap
  depth : Nat

inductive Outcome (α : Type)
  | done (value : α) (σ : Store)
  | fail (e : RuntimeError) (σ : Store)
  | outOfFuel

namespace Outcome

/-- The store that a run leaves, if it ends. -/
def store? {α : Type} : Outcome α → Option Store
  | done _ σ => some σ
  | fail _ σ => some σ
  | outOfFuel => none

end Outcome

def Action (α : Type) := Store → Outcome α

namespace Action

@[always_inline, inline]
protected def pure {α : Type} (a : α) : Action α := fun σ => .done a σ

@[always_inline, inline]
protected def bind {α β : Type} (m : Action α) (f : α → Action β) : Action β :=
  fun σ =>
  match m σ with
  | .done a σ => f a σ
  | .fail e σ => .fail e σ
  | .outOfFuel => .outOfFuel

instance : Monad Action where
  pure := Action.pure
  bind := Action.bind

theorem pure_apply {α : Type} (a : α) (σ : Store) :
    (pure a : Action α) σ = .done a σ :=
  rfl

theorem bind_apply {α β : Type} (m : Action α) (f : α → Action β) (σ : Store) :
    (m >>= f) σ =
      match m σ with
      | .done a σ => f a σ
      | .fail e σ => .fail e σ
      | .outOfFuel => .outOfFuel := rfl

theorem id_map_apply {α : Type} (m : Action α) (σ : Store) :
    (id <$> m) σ = m σ := by
  show Action.bind m _ σ = m σ
  unfold Action.bind
  cases m σ <;> rfl

theorem bind_assoc_apply {α β γ : Type} (m : Action α) (f : α → Action β)
    (g : β → Action γ) (σ : Store) :
    (m >>= f >>= g) σ = (m >>= fun a => f a >>= g) σ := by
  simp only [bind_apply]
  cases m σ <;> rfl

instance : LawfulMonad Action :=
  LawfulMonad.mk' Action (fun m => funext (id_map_apply m)) (fun _ _ => rfl)
    (fun m f g => funext (bind_assoc_apply m f g))

def outOfFuel {α : Type} : Action α := fun _ => .outOfFuel

def fail {α : Type} (e : RuntimeError) : Action α := fun σ => .fail e σ

def ofExcept {α : Type} : Except RuntimeError α → Action α
  | .ok a => pure a
  | .error e => fail e

def openScope (scope : ScopeId) (names : List String) (values : List Value) :
    Action ScopeId :=
  fun ⟨scopes, closures, heap, depth⟩ =>
    let id := scopes.nextId
    .done id
      ⟨(scopes.extend scope).defineAll id names values, closures, heap, depth⟩

def define (scope : ScopeId) (names : List String) (values : List Value) :
    Action Unit :=
  fun ⟨scopes, closures, heap, depth⟩ =>
    .done () ⟨scopes.defineAll scope names values, closures, heap, depth⟩

def lookup (scope : ScopeId) (x : String) : Action Value := fun σ =>
  match σ.scopes.get? scope x with
  | some v => .done v σ
  | none => .fail (.undefinedVariable x) σ

def assign (scope : ScopeId) (x : String) (v : Value) : Action Unit :=
  fun ⟨scopes, closures, heap, depth⟩ =>
    match scopes.owner? scope x with
    | some owner => .done () ⟨scopes.define owner x v, closures, heap, depth⟩
    | none => .fail (.undefinedVariable x) ⟨scopes, closures, heap, depth⟩

def makeClosure (name : String) (c : Closure) : Action Value :=
  fun ⟨scopes, closures, heap, depth⟩ =>
    let id := closures.size
    .done (.ref (.closure id name)) ⟨scopes, closures.push c, heap, depth⟩

def closure? (id : Nat) : Action (Option Closure) :=
  fun σ => .done σ.closures[id]? σ

def makeTable (t : Table) : Action Value :=
  fun ⟨scopes, closures, heap, depth⟩ =>
  let id := heap.tables.size
  .done (.ref (.table id)) ⟨scopes, closures, heap.addTable t, depth⟩

def index (object key : Value) : Action Value := fun σ =>
  match object with
  | .ref (.table id) => .done ((σ.heap.table id).get key) σ
  | other => .fail (.indexNonTable other.kind) σ

def setIndex (object key value : Value) : Action Unit :=
  fun ⟨scopes, closures, heap, depth⟩ =>
  match object with
  | .ref (.table id) =>
    match Key.ofValue key with
    | .ok k => .done () ⟨scopes, closures, heap.putEntry id k key value, depth⟩
    | .error fault => .fail (.invalidKey fault) ⟨scopes, closures, heap, depth⟩
  | other => .fail (.indexNonTable other.kind) ⟨scopes, closures, heap, depth⟩

def advance (id : Nat) : Action (Option (List Value)) :=
  fun ⟨scopes, closures, heap, depth⟩ =>
  let (row, heap) := heap.advance id
  .done row ⟨scopes, closures, heap, depth⟩

def native (f : Native) (args : List Value) : Action Value :=
  fun ⟨scopes, closures, heap, depth⟩ =>
  match f args heap with
  | (.ok v, heap) => .done v ⟨scopes, closures, heap, depth⟩
  | (.error e, heap) => .fail e ⟨scopes, closures, heap, depth⟩

def depth : Action Nat := fun σ => .done σ.depth σ

def setDepth (n : Nat) : Store → Store := fun ⟨scopes, closures, heap, _⟩ =>
  ⟨scopes, closures, heap, n⟩

/-- Runs an action one call deeper, and gives the depth back however it ends. -/
def nested {α : Type} (m : Action α) : Action α :=
  fun ⟨scopes, closures, heap, depth⟩ =>
  match m ⟨scopes, closures, heap, depth + 1⟩ with
  | .done a σ => .done a (setDepth (σ.depth - 1) σ)
  | .fail e σ => .fail e (setDepth (σ.depth - 1) σ)
  | .outOfFuel => .outOfFuel

end Action

end LuaCore
