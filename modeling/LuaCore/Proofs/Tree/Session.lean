import LuaCore.Proofs.Evaluation.Construct
import LuaCore.Proofs.Reader.WellFormed
import LuaCore.Proofs.Value.Host

namespace LuaCore

open LuaCore.Action LuaCore.Contract LuaCore.Policy

theorem Expr.isSome_dottedName?_of_isDotted {target : Expr}
    (h : target.isDotted = true) :
    target.dottedName?.isSome = true := by
  fun_induction Expr.isDotted target with
  | case1 x => rfl
  | case2 object x ih => simpa [Expr.dottedName?] using ih h
  | case3 => cases h

theorem Expr.isSome_dottedName?_of_namesFunction {target : Expr}
    {params : List String} (h : target.namesFunction params = true) :
    target.dottedName?.isSome = true := by
  simp only [Expr.namesFunction, Bool.or_eq_true, Bool.and_eq_true] at h
  rcases h with hdotted | ⟨hmethod, -⟩
  · exact Expr.isSome_dottedName?_of_isDotted hdotted
  · unfold Expr.isMethodName at hmethod
    split at hmethod
    · simpa [Expr.dottedName?] using Expr.isSome_dottedName?_of_isDotted hmethod
    · cases hmethod

def RuntimeError.isAboutTree : RuntimeError → Bool
  | methodOutsideCall | invalidAssignTarget => true
  | _ => false

def Native.NeverBlamesTree (f : Native) : Prop :=
  ∀ args h e, (f args h).1 = .error e → e.isAboutTree = false

theorem Native.neverBlamesTree_of_builtins {name : String} {f : Native}
    (hf : (name, f) ∈ builtins) :
    f.NeverBlamesTree := by
  intro args h e he
  have hbuiltin := builtin_error hf he
  cases e with
  | methodOutsideCall | invalidAssignTarget => cases hbuiltin
  | _ => rfl

def wellFormedCode : Policy where
  inv σ := ∀ c ∈ σ.closures, blockWellFormed c.body = true
  step _ _ := True
  error e := e.isAboutTree = false
  refl _ := trivial
  trans _ _ := trivial
  valid _ _ := True
  own _ _ := True
  stops _ := False
  valid_step _ _ := trivial

namespace wellFormedCode

theorem upheld {host : Host} (hhost : ∀ id, (host id).NeverBlamesTree)
    (limit : Nat) :
    wellFormedCode.Upheld host limit where
  ordinary {e} he := by
    cases e with
    | methodOutsideCall | invalidAssignTarget => cases he
    | _ => rfl
  overflow := rfl
  openScope _ _ _ := ⟨fun hinv => ⟨hinv, trivial⟩,
    fun _ => ⟨trivial, fun _ => trivial⟩⟩
  define _ _ _ _ hinv := ⟨hinv, trivial⟩
  assign _ _ hinv := ⟨hinv, trivial⟩
  makeClosure {c σ} _ hc hinv := by
    have hbody := hc.resolve_right nofun
    refine ⟨fun c' hc' => ?_, trivial⟩
    rcases Array.mem_push.mp hc' with hold | rfl
    · exact hinv c' hold
    · exact hbody
  closure hinv hc := ⟨trivial, Or.inl (hinv _ hc)⟩
  heap _ hinv := ⟨hinv, trivial⟩
  native _ _ _ hinv := ⟨hinv, trivial⟩
  nativeError he := hhost _ _ _ _ he

theorem nests : wellFormedCode.Nests where
  nestsIn _ := ⟨id, fun _ hinv _ => ⟨hinv, trivial⟩, id, id, id⟩
  valid_enter := id

end wellFormedCode

/-- The sessions in which only source texts were run, and no function of the
host blames a tree. -/
inductive Session.OfSources : Session → Prop
  | start (limit : Nat) (failure : Option String) :
      OfSources (.start limit failure)
  | register {s : Session} {f : Native} (name : String) (hs : OfSources s)
      (hf : f.NeverBlamesTree) :
      OfSources (s.register name f)
  | addIterator {s : Session} (it : Iterator) (hs : OfSources s) :
      OfSources (s.addIterator it).2
  | takeOutput {s : Session} (hs : OfSources s) : OfSources s.takeOutput.2
  | run {s : Session} (fuel : Nat) (source : String) (hs : OfSources s) :
      OfSources (s.run fuel source).2

structure Session.HoldsWellFormed (s : Session) : Prop where
  natives : ∀ f ∈ s.natives, f.NeverBlamesTree
  closures : wellFormedCode.inv s.store

namespace Session

variable {s : Session}

namespace HoldsWellFormed

theorem host (h : s.HoldsWellFormed) (id : Nat) :
    (s.host id).NeverBlamesTree := by
  rcases s.host_eq_or_mem id with hidle | hmem
  · rw [hidle]
    exact nofun
  · exact h.natives _ hmem

theorem start (limit : Nat) (failure : Option String) :
    (Session.start limit failure).HoldsWellFormed where
  natives f hf := by
    obtain ⟨name, hname⟩ := mem_natives_start hf
    exact Native.neverBlamesTree_of_builtins hname
  closures := by
    simp [wellFormedCode, Session.start, Native.builtins, Session.register]

theorem register (h : s.HoldsWellFormed) (name : String) {f : Native}
    (hf : f.NeverBlamesTree) :
    (s.register name f).HoldsWellFormed where
  natives g hg := by
    rcases Array.mem_push.mp hg with hold | rfl
    · exact h.natives g hold
    · exact hf
  closures := h.closures

theorem interpret (h : s.HoldsWellFormed) {c : Chunk} (hc : c.body.WellFormed)
    (fuel : Nat) :
    (s.interpret fuel c).2.HoldsWellFormed ∧
      ∀ e, (s.interpret fuel c).1 = .failed e → e.isAboutTree = false := by
  obtain ⟨hclosures, -, herror⟩ :=
    Policy.interpret (wellFormedCode.upheld h.host s.limit) wellFormedCode.nests
      fuel c (Or.inl hc) trivial (fun _ _ => trivial) h.closures
  exact ⟨⟨s.natives_interpret fuel c ▸ h.natives, hclosures⟩, herror⟩

theorem run (h : s.HoldsWellFormed) (fuel : Nat) (source : String) :
    (s.run fuel source).2.HoldsWellFormed ∧
      ∀ e, (s.run fuel source).1 = .failed e → e.isAboutTree = false := by
  unfold Session.run
  split
  · next c hc => exact h.interpret (Chunk.wellFormed_of_ofSource hc) fuel
  · exact ⟨h, nofun⟩

end HoldsWellFormed

theorem OfSources.holdsWellFormed (h : s.OfSources) : s.HoldsWellFormed := by
  induction h with
  | start limit failure => exact .start limit failure
  | register name _ hf ih => exact ih.register name hf
  | addIterator it _ ih => exact ⟨ih.natives, ih.closures⟩
  | takeOutput _ ih => exact ⟨ih.natives, ih.closures⟩
  | run fuel source _ ih => exact (ih.run fuel source).1

/-- A source text that can be read expresses a well-formed tree, in which each
function statement has a dotted name; functions in expressions have none, and
clauses of an `if` no clauses of their own, by the form of trees. Where only
source texts are run, none of them ever fails for a malformed tree, whatever
functions the texts before it left behind. -/
theorem run_ne_malformed (hs : s.OfSources) (fuel : Nat) (source : String) :
    (∀ c, Chunk.ofSource source = .ok c → c.body.WellFormed) ∧
    (∀ (target : Expr) params, target.namesFunction params = true →
      target.dottedName?.isSome = true) ∧
    (s.run fuel source).1 ≠ .failed .methodOutsideCall ∧
    (s.run fuel source).1 ≠ .failed .invalidAssignTarget := by
  have hrun := (hs.holdsWellFormed.run fuel source).2
  refine ⟨fun c hc => Chunk.wellFormed_of_ofSource hc,
    fun _ _ => Expr.isSome_dottedName?_of_namesFunction, fun hfailed => ?_,
    fun hfailed => ?_⟩
  · cases hrun _ hfailed
  · cases hrun _ hfailed

/-- A function that an earlier text defined fails, but not for its tree. -/
theorem run_ne_malformed_earlier_function :
    let s := ((start 200 none).run 9 "function f() f.x = 1 end").2
    s.OfSources ∧ ((s.run 9 "f()").1 matches .failed _) = true ∧
      (s.run 9 "f()").1 ≠ .failed .invalidAssignTarget := by
  intro s
  have hs : s.OfSources := .run 9 _ (.start 200 none)
  exact ⟨hs, by decide +kernel, (run_ne_malformed hs 9 "f()").2.2.2⟩

end Session

end LuaCore
