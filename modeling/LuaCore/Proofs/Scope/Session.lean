import LuaCore.Proofs.Scope.Safety

namespace LuaCore

open LuaCore.Action LuaCore.Contract

def Session.globals (s : Session) : List String :=
  (s.store.scopes.vars Scopes.rootId).map (·.1)

/-- The sessions in which every program was well-scoped for the names then bound
at the top level, and no function of the host answers that a name is unbound. -/
inductive Session.WellScoped : Session → Prop
  | start (limit : Nat) (failure : Option String) :
      WellScoped (.start limit failure)
  | register {s : Session} {f : Native} (name : String) (hs : WellScoped s)
      (hf : f.KnowsNames) :
      WellScoped (s.register name f)
  | addIterator {s : Session} (it : Iterator) (hs : WellScoped s) :
      WellScoped (s.addIterator it).2
  | takeOutput {s : Session} (hs : WellScoped s) : WellScoped s.takeOutput.2
  | interpret {s : Session} {c : Chunk} (fuel : Nat) (hs : WellScoped s)
    (hc : c.scopedIn s.globals = true) : WellScoped (s.interpret fuel c).2

/-- What every program of a session may rely on. -/
structure Session.Ready (s : Session) : Prop where
  natives : ∀ f ∈ s.natives, f.KnowsNames
  store : scoping.inv s.store
  root : Scopes.rootId < s.store.scopes.frames.size

namespace Native

theorem idle_knowsNames : idle.KnowsNames := nofun

theorem print_knowsNames : print.KnowsNames := by
  intro args heap x h
  unfold print Heap.printLine at h
  split at h <;> cases h

theorem tableArgument_error {function x : String} {args : List Value} :
    tableArgument function args ≠ .error (.undefinedVariable x) := by
  unfold tableArgument
  split <;> nofun

theorem pairs_knowsNames : pairs.KnowsNames := by
  intro args heap x h
  unfold pairs at h
  split at h
  · cases h
  · next heq =>
    cases h
    exact tableArgument_error heq

theorem ipairs_knowsNames : ipairs.KnowsNames := by
  intro args heap x h
  unfold ipairs at h
  split at h
  · cases h
  · next heq =>
    cases h
    exact tableArgument_error heq

end Native

namespace Session

variable {s : Session} {c : Chunk}

namespace Ready

theorem host (h : s.Ready) (id : Nat) : (s.host id).KnowsNames := by
  unfold Session.host
  rw [Array.getD_eq_getD_getElem?]
  cases hf : s.natives[id]? with
  | none => exact Native.idle_knowsNames
  | some f => exact h.natives f (Array.mem_of_getElem? hf)

theorem register (h : s.Ready) (name : String) {f : Native}
    (hf : f.KnowsNames) :
    (s.register name f).Ready where
  natives := by
    intro g hg
    rcases Array.mem_push.mp hg with hold | hnew
    · exact h.natives g hold
    · rwa [hnew]
  store := by
    intro c hc
    exact (h.store c hc).mono (Scopes.grows_define _ _ _ _)
  root := by
    have hroot := h.root
    simpa [Session.register] using hroot

theorem start (limit : Nat) (failure : Option String) :
    (Session.start limit failure).Ready := by
  have hempty : Ready ⟨#[], limit, ⟨.root, #[], .empty failure, 0⟩⟩ :=
    ⟨by simp, by simp [scoping], by simp [Scopes.root, Scopes.rootId]⟩
  exact ((hempty.register "print" Native.print_knowsNames).register "pairs"
    Native.pairs_knowsNames).register "ipairs" Native.ipairs_knowsNames

theorem knows (h : s.Ready) : s.store.scopes.Knows Scopes.rootId s.globals := by
  refine ⟨h.root, fun x hx => ?_⟩
  obtain ⟨v, hv⟩ := Bindings.find?_of_mem hx
  exact Scopes.binds_of_here? hv

theorem topLevel (h : s.Ready) (hc : c.scopedIn s.globals = true) (fuel : Nat) :
    scoping.Meets (Session.topLevel (.ofFuel s.host s.limit fuel) c.body)
      s.store fun _ _ => True := by
  have hm := Machine.scoped_ofFuel h.host s.limit fuel
  refine meets_bind (hm.block hc h.knows) fun flow τ _ _ => ?_
  cases flow with
  | normal => exact meets_pure trivial
  | returned v => exact meets_pure trivial
  | broke => exact meets_fail nofun

theorem interpret (h : s.Ready) (hc : c.scopedIn s.globals = true)
    (fuel : Nat) :
    (s.interpret fuel c).2.Ready ∧
      ∀ x, (s.interpret fuel c).1 ≠ .failed (.undefinedVariable x) := by
  have hrun := h.topLevel hc fuel h.store
  unfold Session.interpret
  cases hend : Session.topLevel
    (.ofFuel s.host s.limit fuel) c.body s.store with
  | done v σ =>
    rw [hend] at hrun
    obtain ⟨hinv, hgrows, _⟩ := hrun
    exact ⟨⟨h.natives, hinv, Nat.lt_of_lt_of_le h.root hgrows.size_le⟩, nofun⟩
  | fail e σ =>
    rw [hend] at hrun
    obtain ⟨hinv, hgrows, herror⟩ := hrun
    refine ⟨⟨h.natives, hinv, Nat.lt_of_lt_of_le h.root hgrows.size_le⟩, ?_⟩
    intro x hx
    cases hx
    exact herror x rfl
  | outOfFuel => exact ⟨h, nofun⟩

end Ready

theorem WellScoped.ready (h : s.WellScoped) : s.Ready := by
  induction h with
  | start limit failure => exact Ready.start limit failure
  | register name _ hf ih => exact ih.register name hf
  | addIterator it _ ih => exact ⟨ih.natives, ih.store, ih.root⟩
  | takeOutput _ ih => exact ⟨ih.natives, ih.store, ih.root⟩
  | interpret fuel _ hc ih => exact (ih.interpret hc fuel).1

/-- In a session of well-scoped programs no program fails for an unbound
name. -/
theorem interpret_ne_undefinedVariable (hs : s.WellScoped)
    (hc : c.scopedIn s.globals = true) (fuel : Nat) (x : String) :
    (s.interpret fuel c).1 ≠ .failed (.undefinedVariable x) :=
  (hs.ready.interpret hc fuel).2 x

/-- A program may use what a failed one bound, a function its own name, and the
condition of a `repeat` what its body binds. -/
theorem interpret_after_failure_ne_undefinedVariable :
    let failed : Chunk := ⟨[.local ["a"] [], .expr (.call (.name "a") [])], []⟩
    let s := ((start 200 none).interpret 9 failed).2
    let c : Chunk :=
      ⟨[.function (some (.name "f")) true ["x"] [.return [.name "f"]],
          .repeat [.local ["y"] [.call (.name "f") [.name "a"]]] (.name "y")],
        []⟩
    s.WellScoped ∧ c.scopedIn s.globals = true ∧
      (s.interpret 9 c).1 ≠ .failed (.undefinedVariable "y") := by
  intro failed s c
  have hs : s.WellScoped := .interpret 9 (.start 200 none) (by decide)
  have hc : c.scopedIn s.globals = true := by decide
  exact ⟨hs, hc, interpret_ne_undefinedVariable hs hc 9 "y"⟩

end Session

end LuaCore
