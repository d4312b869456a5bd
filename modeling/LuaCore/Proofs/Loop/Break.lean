import LuaCore.Proofs.Evaluation.Contract
import LuaCore.Proofs.Value.Operation

namespace LuaCore

open LuaCore.Action LuaCore.Contract

mutual

/-- A `break` stands in the statement, outside the loops and the function
bodies in it. -/
def Stat.breaks : Stat → Bool
  | .break => true
  | .do body => statsBreak body
  | .if _ body clauses none => statsBreak body || clausesBreak clauses
  | .if _ body clauses (some otherwise) =>
    statsBreak body || clausesBreak clauses || statsBreak otherwise
  | _ => false

def statsBreak : List Stat → Bool
  | [] => false
  | s :: ss => s.breaks || statsBreak ss

def Clause.breaks : Clause → Bool
  | .mk _ body => statsBreak body

def clausesBreak : List Clause → Bool
  | [] => false
  | c :: cs => c.breaks || clausesBreak cs

end

mutual

/-- In each of the function bodies in the expression, every `break` lies in a
loop of that body. -/
def Expr.loopsBreaks : Expr → Bool
  | .name _ | .nil | .bool _ | .number _ | .string _ => true
  | .unary _ operand => operand.loopsBreaks
  | .binary _ left right => left.loopsBreaks && right.loopsBreaks
  | .call callee args => callee.loopsBreaks && exprsLoopBreaks args
  | .member object _ key => object.loopsBreaks && key.loopsBreaks
  | .assign targets values => exprsLoopBreaks targets && exprsLoopBreaks values
  | .table fields => fieldsLoopBreaks fields
  | .function _ body => !statsBreak body && statsLoopBreaks body

def exprsLoopBreaks : List Expr → Bool
  | [] => true
  | e :: es => e.loopsBreaks && exprsLoopBreaks es

def Field.loopsBreaks : Field → Bool
  | .named _ value => value.loopsBreaks
  | .keyed key value => key.loopsBreaks && value.loopsBreaks
  | .item value => value.loopsBreaks

def fieldsLoopBreaks : List Field → Bool
  | [] => true
  | f :: fs => f.loopsBreaks && fieldsLoopBreaks fs

def Stat.loopsBreaks : Stat → Bool
  | .do body => statsLoopBreaks body
  | .break => true
  | .return values => exprsLoopBreaks values
  | .expr e => e.loopsBreaks
  | .function none _ _ body => !statsBreak body && statsLoopBreaks body
  | .function (some target) _ _ body =>
    target.loopsBreaks && (!statsBreak body && statsLoopBreaks body)
  | .local _ values => exprsLoopBreaks values
  | .if test body clauses none =>
    test.loopsBreaks && statsLoopBreaks body && clausesLoopBreaks clauses
  | .if test body clauses (some otherwise) =>
    test.loopsBreaks && statsLoopBreaks body && clausesLoopBreaks clauses &&
      statsLoopBreaks otherwise
  | .forRange _ start stop step body =>
    start.loopsBreaks && stop.loopsBreaks && step.loopsBreaks &&
      statsLoopBreaks body
  | .forEach _ source body => source.loopsBreaks && statsLoopBreaks body
  | .while test body => test.loopsBreaks && statsLoopBreaks body
  | .repeat body test => statsLoopBreaks body && test.loopsBreaks

def statsLoopBreaks : List Stat → Bool
  | [] => true
  | s :: ss => s.loopsBreaks && statsLoopBreaks ss

def Clause.loopsBreaks : Clause → Bool
  | .mk test body => test.loopsBreaks && statsLoopBreaks body

def clausesLoopBreaks : List Clause → Bool
  | [] => true
  | c :: cs => c.loopsBreaks && clausesLoopBreaks cs

end

-- Their equations are made here, once for all that is proved with them.
attribute [grind =] Stat.breaks statsBreak Clause.breaks clausesBreak
  Expr.loopsBreaks exprsLoopBreaks Field.loopsBreaks fieldsLoopBreaks
  Stat.loopsBreaks statsLoopBreaks Clause.loopsBreaks clausesLoopBreaks

def Block.loopsBreaks (body : Block) : Bool :=
  !statsBreak body && statsLoopBreaks body

def anyRun : Contract where
  inv _ := True
  step _ _ := True
  error _ := True
  refl _ := trivial
  trans _ _ := trivial

theorem anyRun_meets {α : Type} (m : Action α) (σ : Store) :
    anyRun.Meets m σ fun _ _ => True := by
  intro _
  cases m σ <;> simp [Allows, anyRun]

/-- What is known of the value however the action was run may be added to
a contract. -/
theorem Contract.Meets.value {C : Contract} {α : Type} {m : Action α}
    {σ : Store} {P : α → Store → Prop} {Q : α → Prop} (h : C.Meets m σ P)
    (hvalue : anyRun.Meets m σ fun a _ => Q a) :
    C.Meets m σ fun a _ => Q a := by
  intro hinv
  have h := h hinv
  have hvalue := hvalue trivial
  cases hrun : m σ with
  | done a τ =>
    rw [hrun] at h hvalue
    exact ⟨h.1, h.2.1, hvalue.2.2⟩
  | fail e τ =>
    rw [hrun] at h
    exact h
  | outOfFuel => trivial

structure Machine.Breaks (m : Machine) : Prop where
  block : ∀ {body : Block} {scope : ScopeId} {σ : Store},
    statsBreak body = false →
    anyRun.Meets (m.block body scope) σ fun flow _ => flow ≠ .broke

namespace Machine.Breaks

variable {m : Machine} {scope : ScopeId} {σ : Store}

theorem blockIn (hm : m.Breaks) {body : Block}
    (hbody : statsBreak body = false) :
    anyRun.Meets (m.blockIn scope body) σ fun flow _ => flow ≠ .broke :=
  meets_bind (anyRun_meets _ _) fun _ _ _ _ => hm.block hbody

theorem branch? {cs : List Clause} {otherwise : Option Block}
    (hcs : clausesBreak cs = false)
    (hother : ∀ block, otherwise = some block → statsBreak block = false) :
    anyRun.Meets (m.branch? scope otherwise cs) σ fun block? _ =>
      ∀ block, block? = some block → statsBreak block = false := by
  induction cs generalizing σ with
  | nil => exact meets_pure hother
  | cons c cs ih =>
    obtain ⟨test, body⟩ := c
    simp only [clausesBreak, Clause.breaks, Bool.or_eq_false_iff] at hcs
    refine meets_bind (anyRun_meets _ _) fun v τ _ _ => ?_
    split
    · refine meets_pure ?_
      rintro block ⟨⟩
      exact hcs.1
    · exact ih hcs.2

theorem meets_afterBody {α : Type} {state : α} {flow : Flow} :
    anyRun.Meets (pure (Turn.afterBody state flow)) σ
      fun t _ => ∀ flow, t = .ended flow → flow ≠ .broke := by
  refine meets_pure fun flow' h => ?_
  cases flow <;> cases h <;> simp

theorem meets_ended {α : Type} :
    anyRun.Meets (pure (Turn.ended .normal : Turn α)) σ
      fun t _ => ∀ flow, t = .ended flow → flow ≠ .broke := by
  refine meets_pure ?_
  rintro _ ⟨⟩
  simp

theorem rangeTurn {x : String} {stop step current : Float} {body : Block} :
    anyRun.Meets (m.rangeTurn scope x stop step body current) σ
      fun t _ => ∀ flow, t = .ended flow → flow ≠ .broke := by
  unfold Machine.rangeTurn
  split
  · exact meets_bind (anyRun_meets _ _) fun _ _ _ _ =>
      meets_bind (anyRun_meets _ _) fun _ _ _ _ => meets_afterBody
  · exact meets_ended

theorem eachTurn {names : List String} {source : Value} {body : Block} :
    anyRun.Meets (m.eachTurn scope names source body) σ
      fun t _ => ∀ flow, t = .ended flow → flow ≠ .broke := by
  refine meets_bind (anyRun_meets _ _) fun row? _ _ _ => ?_
  cases row? with
  | some row => exact meets_bind (anyRun_meets _ _) fun _ _ _ _ =>
      meets_bind (anyRun_meets _ _) fun _ _ _ _ => meets_afterBody
  | none => exact meets_ended

theorem whileTurn {test : Expr} {body : Block} :
    anyRun.Meets (m.whileTurn scope test body) σ
      fun t _ => ∀ flow, t = .ended flow → flow ≠ .broke := by
  refine meets_bind (anyRun_meets _ _) fun v _ _ _ => ?_
  split
  · exact meets_bind (anyRun_meets _ _) fun _ _ _ _ => meets_afterBody
  · exact meets_ended

theorem repeatTurn {test : Expr} {body : Block} :
    anyRun.Meets (m.repeatTurn scope body test) σ
      fun t _ => ∀ flow, t = .ended flow → flow ≠ .broke := by
  refine meets_bind (anyRun_meets _ _) fun inner _ _ _ => ?_
  refine meets_bind (anyRun_meets _ _) fun flow _ _ _ => ?_
  cases flow with
  | normal =>
    refine meets_bind (anyRun_meets _ _) fun v _ _ _ => ?_
    split
    · exact meets_ended
    · exact meets_pure nofun
  | broke => exact meets_afterBody
  | returned v => exact meets_afterBody

theorem evalStat (hm : m.Breaks) {s : Stat} (hs : s.breaks = false) :
    anyRun.Meets (m.evalStat s scope) σ fun flow _ => flow ≠ .broke := by
  cases s with
  | «do» body => exact hm.blockIn hs
  | «break» => cases hs
  | «return» values =>
    exact meets_bind (anyRun_meets _ _) fun _ _ _ _ => meets_pure nofun
  | expr e =>
    exact meets_bind (anyRun_meets _ _) fun _ _ _ _ => meets_pure nofun
  | function target isLocal params body =>
    exact meets_bind (anyRun_meets _ _) fun _ _ _ _ =>
      meets_bind (anyRun_meets _ _) fun _ _ _ _ => meets_pure nofun
  | «local» names values =>
    exact meets_bind (anyRun_meets _ _) fun _ _ _ _ =>
      meets_bind (anyRun_meets _ _) fun _ _ _ _ => meets_pure nofun
  | «if» test body clauses otherwise =>
    have hbranch : anyRun.Meets
        (m.branch? scope otherwise (.mk test body :: clauses)) σ fun block? _ =>
        ∀ block, block? = some block → statsBreak block = false := by
      cases otherwise with
      | none =>
        exact branch?
          (by simpa [clausesBreak, Clause.breaks, Stat.breaks] using hs) nofun
      | some block =>
        simp only [Stat.breaks, Bool.or_eq_false_iff] at hs
        refine branch? (by simp [clausesBreak, Clause.breaks, hs]) ?_
        rintro _ ⟨⟩
        exact hs.2
    refine meets_bind hbranch fun block? _ _ hblock => ?_
    cases block? with
    | some block => exact hm.blockIn (hblock block rfl)
    | none => exact meets_pure nofun
  | forRange x start stop step body =>
    exact meets_bind (anyRun_meets _ _) fun _ _ _ _ =>
      meets_bind (anyRun_meets _ _) fun _ _ _ _ =>
        meets_bind (anyRun_meets _ _) fun _ _ _ _ =>
          meets_loop (fun _ _ _ => rangeTurn) m.rounds _
  | forEach names source body =>
    exact meets_bind (anyRun_meets _ _) fun _ _ _ _ =>
      meets_loop (fun _ _ _ => eachTurn) m.rounds ()
  | «while» test body => exact meets_loop (fun _ _ _ => whileTurn) m.rounds ()
  | «repeat» body test => exact meets_loop (fun _ _ _ => repeatTurn) m.rounds ()

theorem evalBlock (hm : m.Breaks) {body : Block}
    (hbody : statsBreak body = false) :
    anyRun.Meets (m.evalBlock body scope) σ fun flow _ => flow ≠ .broke := by
  induction body generalizing σ with
  | nil => exact meets_pure nofun
  | cons s ss ih =>
    simp only [statsBreak, Bool.or_eq_false_iff] at hbody
    refine meets_bind (hm.evalStat hbody.1) fun flow τ _ hflow => ?_
    cases flow with
    | normal => exact ih hbody.2
    | broke => exact meets_pure hflow
    | returned v => exact meets_pure nofun

end Machine.Breaks

theorem Machine.breaks_ofFuel (host : Host) (limit fuel : Nat) :
    (Machine.ofFuel host limit fuel).Breaks := by
  induction fuel with
  | zero => exact ⟨fun _ => meets_outOfFuel⟩
  | succ n ih => exact ⟨ih.evalBlock⟩

end LuaCore
