import LuaCore.Value

/-! A forest of frames that bind names: a name means its binding in the nearest
enclosing frame that has one. -/

namespace LuaCore

abbrev Bindings := List (String × Value)

namespace Bindings

def find? (x : String) : Bindings → Option Value
  | [] => none
  | (y, v) :: bs => if x = y then some v else find? x bs

def put (x : String) (v : Value) : Bindings → Bindings
  | [] => [(x, v)]
  | (y, w) :: bs => if x = y then (y, v) :: bs else (y, w) :: put x v bs

@[simp] theorem find?_put_self (x : String) (v : Value) (bs : Bindings) :
    (put x v bs).find? x = some v := by
  induction bs with
  | nil => simp [put, find?]
  | cons b bs ih =>
    obtain ⟨y, w⟩ := b
    by_cases h : x = y <;> simp [put, find?, h]
    simpa [h] using ih

theorem find?_put_of_ne {x y : String} (h : x ≠ y) (v : Value) (bs : Bindings) :
    (put y v bs).find? x = bs.find? x := by
  induction bs with
  | nil => simp [put, find?, h]
  | cons b bs ih =>
    obtain ⟨z, w⟩ := b
    by_cases hy : y = z
    · subst hy
      simp [put, find?, h]
    · by_cases hx : x = z <;> simp [put, find?, hy, hx]
      simpa [hx] using ih

end Bindings

abbrev ScopeId := Nat

/-- The bindings of a frame, and the frames that enclose it, from the
nearest on. -/
structure Frame where
  vars : Bindings
  outer : List ScopeId
deriving Inhabited

def Frame.parent? (f : Frame) : Option ScopeId := f.outer.head?

structure Scopes where
  frames : Array Frame

namespace Scopes

def rootId : ScopeId := 0

def root : Scopes := ⟨#[⟨[], []⟩]⟩

def vars (s : Scopes) (i : ScopeId) : Bindings :=
  match s.frames[i]? with
  | some f => f.vars
  | none => []

def outer (s : Scopes) (i : ScopeId) : List ScopeId :=
  match s.frames[i]? with
  | some f => f.outer
  | none => []

def chain (s : Scopes) (i : ScopeId) : List ScopeId := i :: s.outer i

def here? (s : Scopes) (i : ScopeId) (x : String) : Option Value :=
  (s.vars i).find? x

def nextId (s : Scopes) : ScopeId := s.frames.size

def extend (s : Scopes) (i : ScopeId) : Scopes :=
  ⟨s.frames.push ⟨[], s.chain i⟩⟩

def define (s : Scopes) (i : ScopeId) (x : String) (v : Value) : Scopes :=
  ⟨s.frames.modify i fun f => { f with vars := f.vars.put x v }⟩

def defineAll (s : Scopes) (i : ScopeId) : List String → List Value → Scopes
  | [], _ => s
  | x :: xs, [] => defineAll (s.define i x .nil) i xs []
  | x :: xs, v :: vs => defineAll (s.define i x v) i xs vs

def firstBinding? (s : Scopes) (x : String) :
    List ScopeId → Option (ScopeId × Value)
  | [] => none
  | i :: is =>
    match s.here? i x with
    | some v => some (i, v)
    | none => firstBinding? s x is

def owner? (s : Scopes) (i : ScopeId) (x : String) : Option ScopeId :=
  (s.firstBinding? x (s.chain i)).map (·.1)

def get? (s : Scopes) (i : ScopeId) (x : String) : Option Value :=
  (s.firstBinding? x (s.chain i)).map (·.2)

def assign? (s : Scopes) (i : ScopeId) (x : String) (v : Value) :
    Option Scopes :=
  (s.owner? i x).map fun owner => s.define owner x v

end Scopes

end LuaCore
