import LuaCore.Proofs.Loop.Call
import LuaCore.Proofs.Evaluation.Construct
import LuaCore.Proofs.Value.Host

namespace LuaCore

open LuaCore.Action LuaCore.Contract

/-- Every `break` lies in a loop of its function body, or of the program where
it lies in no function body. -/
def Chunk.loopsBreaks (c : Chunk) : Bool := Block.loopsBreaks c.body

/-- The sessions of such programs, in which no function of the host answers that
a `break` stands outside of a loop. -/
inductive Session.LoopsBreaks : Session → Prop
  | start (limit : Nat) (failure : Option String) :
      LoopsBreaks (.start limit failure)
  | register {s : Session} {f : Native} (name : String) (hs : LoopsBreaks s)
      (hf : f.KnowsLoops) :
      LoopsBreaks (s.register name f)
  | addIterator {s : Session} (it : Iterator) (hs : LoopsBreaks s) :
      LoopsBreaks (s.addIterator it).2
  | takeOutput {s : Session} (hs : LoopsBreaks s) : LoopsBreaks s.takeOutput.2
  | interpret {s : Session} {c : Chunk} (fuel : Nat) (hs : LoopsBreaks s)
      (hc : c.loopsBreaks = true) :
      LoopsBreaks (s.interpret fuel c).2

namespace Native

theorem idle_knowsLoops : idle.KnowsLoops := nofun

theorem builtin_knowsLoops {name : String} {f : Native}
    (hf : (name, f) ∈ builtins) :
    f.KnowsLoops :=
  fun _ _ he => absurd (builtin_error hf he) (by decide)

end Native

namespace Session

variable {s : Session} {c : Chunk}

theorem topLevel_looping {m : Machine} (hm : m.Loops) {body : Block}
    (hbody : Block.loopsBreaks body = true) (σ : Store) :
    looping.Meets (topLevel m body) σ fun _ _ => True := by
  refine meets_bind (hm.body hbody) fun flow τ _ hflow => ?_
  cases flow with
  | normal => exact meets_pure trivial
  | returned v => exact meets_pure trivial
  | broke => exact absurd rfl hflow

theorem interpret_looping (hhost : ∀ id, (s.host id).KnowsLoops)
    (hs : looping.inv s.store) (hc : c.loopsBreaks = true) (fuel : Nat) :
    looping.inv (s.interpret fuel c).2.store ∧
      (s.interpret fuel c).1 ≠ .failed .breakOutsideLoop := by
  have hrun :=
    topLevel_looping (Machine.loops_ofFuel hhost s.limit fuel) hc s.store hs
  unfold Session.interpret
  cases hend : topLevel (.ofFuel s.host s.limit fuel) c.body s.store with
  | done v σ =>
    rw [hend] at hrun
    exact ⟨hrun.1, nofun⟩
  | fail e σ =>
    rw [hend] at hrun
    exact ⟨hrun.1, fun h => hrun.2.2 (Answer.failed.inj h)⟩
  | outOfFuel => exact ⟨hs, nofun⟩

namespace LoopsBreaks

theorem natives (hs : s.LoopsBreaks) : ∀ f ∈ s.natives, f.KnowsLoops := by
  induction hs with
  | start limit failure =>
    intro f hf
    obtain ⟨name, hname⟩ := mem_natives_start hf
    exact Native.builtin_knowsLoops hname
  | register name _ hf ih =>
    intro g hg
    rcases Array.mem_push.mp hg with hold | rfl
    · exact ih g hold
    · exact hf
  | addIterator it _ ih => exact ih
  | takeOutput _ ih => exact ih
  | interpret fuel _ _ ih => rwa [natives_interpret]

theorem host (hs : s.LoopsBreaks) (id : Nat) : (s.host id).KnowsLoops := by
  rcases s.host_eq_or_mem id with hidle | hmem
  · rw [hidle]
    exact Native.idle_knowsLoops
  · exact hs.natives _ hmem

theorem store (hs : s.LoopsBreaks) : looping.inv s.store := by
  induction hs with
  | start limit failure =>
    simp [looping, Session.start, Native.builtins, Session.register]
  | register name _ _ ih => exact ih
  | addIterator it _ ih => exact ih
  | takeOutput _ ih => exact ih
  | interpret fuel hs hc ih => exact (interpret_looping hs.host ih hc fuel).1

end LoopsBreaks

/-- In a session of programs whose every `break` lies in a loop, neither a
program nor a call of a function fails for a `break`; and whatever
functions it calls, a statement without a `break` outside its own loops
does not end with one. -/
theorem break_stays_in_loop (hs : s.LoopsBreaks) (fuel : Nat) :
    let m := Machine.ofFuel s.host s.limit fuel
    (∀ c : Chunk, c.loopsBreaks = true →
      (s.interpret fuel c).1 ≠ .failed .breakOutsideLoop) ∧
    (∀ f args τ, m.call f args s.store ≠ .fail .breakOutsideLoop τ) ∧
    ∀ stat scope σ τ, stat.breaks = false →
      m.evalStat stat scope σ ≠ .done .broke τ := by
  intro m
  refine ⟨fun c hc => (interpret_looping hs.host hs.store hc fuel).2,
    fun f args τ hfail => ?_, fun stat scope σ τ hstat hdone => ?_⟩
  · have hcall :=
      (Machine.loops_ofFuel hs.host s.limit fuel).call f args hs.store
    rw [hfail] at hcall
    exact hcall.2.2 rfl
  · have hends : anyRun.Meets (m.evalStat stat scope) σ
        fun flow _ => flow ≠ .broke :=
      (Machine.breaks_ofFuel s.host s.limit fuel).evalStat hstat
    have hends := hends trivial
    rw [hdone] at hends
    exact hends.2.2 rfl

/-- A function that breaks out of a loop of its own is called in a loop,
which goes on. -/
theorem break_stays_in_loop_nested :
    let broken : Block :=
      [.while (.bool true) [.if (.name "x") [.break] [] none]]
    let first : Chunk := ⟨[.function (some (.name "f")) true ["x"] broken], []⟩
    let s := ((start 200 none).interpret 9 first).2
    let c : Chunk :=
      ⟨[.repeat [.expr (.call (.name "f") [.bool true])] (.bool true)], []⟩
    s.LoopsBreaks ∧ c.loopsBreaks = true ∧
      (s.interpret 9 c).1 ≠ .failed .breakOutsideLoop := by
  intro broken first s c
  have hs : s.LoopsBreaks := .interpret 9 (.start 200 none) (by decide)
  have hc : c.loopsBreaks = true := by decide
  exact ⟨hs, hc, (break_stays_in_loop hs 9).1 c hc⟩

end Session

end LuaCore
