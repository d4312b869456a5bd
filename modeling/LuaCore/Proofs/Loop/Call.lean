import LuaCore.Proofs.Loop.Break
import LuaCore.Session

namespace LuaCore

open LuaCore.Action LuaCore.Contract

def Native.KnowsLoops (f : Native) : Prop :=
  ∀ args h, (f args h).1 ≠ .error .breakOutsideLoop

/-- The bodies of all closures keep to their loops, and no `break` is ever found
outside of one. -/
def looping : Contract where
  inv σ := ∀ c ∈ σ.closures, Block.loopsBreaks c.body = true
  step _ _ := True
  error e := e ≠ .breakOutsideLoop
  refl _ := trivial
  trans _ _ := trivial

theorem looping_error_of_operands {e : RuntimeError}
    (h : e.isAboutOperands = true) :
    looping.error e := by
  rintro rfl
  cases h

namespace Action

variable {σ : Store}

theorem lookup_looping (scope : ScopeId) (x : String) :
    looping.Meets (lookup scope x) σ fun _ _ => True := by
  intro hinv
  unfold lookup
  split
  · exact ⟨hinv, trivial, trivial⟩
  · exact ⟨hinv, trivial, nofun⟩

theorem assign_looping (scope : ScopeId) (x : String) (v : Value) :
    looping.Meets (assign scope x v) σ fun _ _ => True := by
  intro hinv
  simp only [assign]
  split
  · exact ⟨hinv, trivial, trivial⟩
  · exact ⟨hinv, trivial, nofun⟩

theorem openScope_looping (scope : ScopeId) (names : List String)
    (values : List Value) :
    looping.Meets (openScope scope names values) σ fun _ _ => True :=
  fun hinv => ⟨hinv, trivial, trivial⟩

theorem define_looping (scope : ScopeId) (names : List String)
    (values : List Value) :
    looping.Meets (define scope names values) σ fun _ _ => True :=
  fun hinv => ⟨hinv, trivial, trivial⟩

theorem makeClosure_looping {name : String} {c : Closure}
    (hc : Block.loopsBreaks c.body = true) :
    looping.Meets (makeClosure name c) σ fun _ _ => True := by
  intro hinv
  refine ⟨fun c' hc' => ?_, trivial, trivial⟩
  rcases Array.mem_push.mp hc' with hold | rfl
  · exact hinv c' hold
  · exact hc

theorem closure?_looping (id : Nat) :
    looping.Meets (closure? id) σ fun c? _ => ∀ c, c? = some c →
      Block.loopsBreaks c.body = true :=
  fun hinv => ⟨hinv, trivial, fun c hc => hinv c (Array.mem_of_getElem? hc)⟩

theorem makeTable_looping (t : Table) :
    looping.Meets (makeTable t) σ fun _ _ => True :=
  fun hinv => ⟨hinv, trivial, trivial⟩

theorem index_looping (object key : Value) :
    looping.Meets (index object key) σ fun _ _ => True := by
  intro hinv
  unfold index
  split
  · exact ⟨hinv, trivial, trivial⟩
  · exact ⟨hinv, trivial, nofun⟩

theorem setIndex_looping (object key value : Value) :
    looping.Meets (setIndex object key value) σ fun _ _ => True := by
  intro hinv
  simp only [setIndex]
  split
  · split
    · exact ⟨hinv, trivial, trivial⟩
    · exact ⟨hinv, trivial, nofun⟩
  · exact ⟨hinv, trivial, nofun⟩

theorem advance_looping (id : Nat) :
    looping.Meets (advance id) σ fun _ _ => True :=
  fun hinv => ⟨hinv, trivial, trivial⟩

theorem native_looping {f : Native} (hf : f.KnowsLoops) (args : List Value) :
    looping.Meets (native f args) σ fun _ _ => True := by
  intro hinv
  have hf := hf args σ.heap
  simp only [native]
  split
  · exact ⟨hinv, trivial, trivial⟩
  · next e _ heq =>
    refine ⟨hinv, trivial, ?_⟩
    rintro rfl
    exact hf (by rw [heq])

theorem depth_looping : looping.Meets depth σ fun _ _ => True :=
  fun hinv => ⟨hinv, trivial, trivial⟩

theorem nested_looping {α : Type} {m : Action α} {P : α → Prop}
    (h : ∀ σ, looping.Meets m σ fun a _ => P a) :
    looping.Meets (nested m) σ fun a _ => P a := by
  intro hinv
  obtain ⟨scopes, closures, heap, depth⟩ := σ
  have h := h ⟨scopes, closures, heap, depth + 1⟩ hinv
  simp only [nested]
  cases hrun : m ⟨scopes, closures, heap, depth + 1⟩ with
  | done a τ =>
    rw [hrun] at h
    exact h
  | fail e τ =>
    rw [hrun] at h
    exact h
  | outOfFuel => trivial

end Action

structure Machine.Loops (m : Machine) : Prop where
  host : ∀ id, (m.host id).KnowsLoops
  breaks : m.Breaks
  expr : ∀ {e : Expr} {scope : ScopeId} {σ : Store}, e.loopsBreaks = true →
    looping.Meets (m.expr e scope) σ fun _ _ => True
  block : ∀ {body : Block} {scope : ScopeId} {σ : Store},
    statsLoopBreaks body = true →
    looping.Meets (m.block body scope) σ fun _ _ => True

namespace Machine.Loops

variable {m : Machine} {scope : ScopeId} {σ : Store}

theorem exprs (hm : m.Loops) {es : List Expr}
    (hes : exprsLoopBreaks es = true) :
    looping.Meets (m.exprs scope es) σ fun _ _ => True := by
  induction es generalizing σ with
  | nil => exact meets_pure trivial
  | cons e es ih =>
    simp only [exprsLoopBreaks, Bool.and_eq_true] at hes
    exact meets_bind (hm.expr hes.1) fun _ _ _ _ =>
      meets_bind (ih hes.2) fun _ _ _ _ => meets_pure trivial

theorem memberKey (hm : m.Loops) (access : Access) {key : Expr}
    (hkey : key.loopsBreaks = true) :
    looping.Meets (m.memberKey access key scope) σ fun _ _ => True := by
  unfold Machine.memberKey
  split
  · exact meets_pure trivial
  · exact meets_pure trivial
  · exact hm.expr hkey

theorem member (hm : m.Loops) {object key : Expr} (access : Access)
    (ho : object.loopsBreaks = true) (hkey : key.loopsBreaks = true) {α : Type}
    {next : Value → Value → Action α} {Q : α → Store → Prop}
    (hnext : ∀ o k τ, looping.Meets (next o k) τ Q) :
    looping.Meets (do
      let o ← m.expr object scope
      let k ← m.memberKey access key scope
      next o k) σ Q :=
  meets_bind (hm.expr ho) fun o _ _ _ =>
    meets_bind (hm.memberKey access hkey) fun k _ _ _ => hnext o k _

theorem store (hm : m.Loops) {target : Expr} (ht : target.loopsBreaks = true)
    (v : Value) :
    looping.Meets (m.store scope target v) σ fun _ _ => True := by
  unfold Machine.store
  split
  · exact assign_looping _ _ _
  · exact meets_fail nofun
  · simp only [Expr.loopsBreaks, Bool.and_eq_true] at ht
    exact hm.member _ ht.1 ht.2 fun o k _ => setIndex_looping o k v
  · exact meets_fail nofun

theorem storeAll (hm : m.Loops) {targets : List Expr}
    (hts : exprsLoopBreaks targets = true) (vs : List Value) :
    looping.Meets (m.storeAll scope targets vs) σ fun _ _ => True := by
  induction targets generalizing σ vs with
  | nil => cases vs <;> exact meets_pure trivial
  | cons target targets ih =>
    simp only [exprsLoopBreaks, Bool.and_eq_true] at hts
    cases vs with
    | nil => exact meets_bind (hm.store hts.1 .nil) fun _ _ _ _ => ih hts.2 []
    | cons v vs =>
      exact meets_bind (hm.store hts.1 v) fun _ _ _ _ => ih hts.2 vs

theorem storeField (t : Table) (key value : Value) :
    looping.Meets (Machine.storeField t key value) σ fun _ _ => True := by
  unfold Machine.storeField
  split
  · exact meets_pure trivial
  · exact meets_fail nofun

theorem fields (hm : m.Loops) {fs : List Field}
    (hfs : fieldsLoopBreaks fs = true) (t : Table) (position : Float) :
    looping.Meets (m.fields scope t position fs) σ fun _ _ => True := by
  induction fs generalizing σ t position with
  | nil => exact meets_pure trivial
  | cons f fs ih =>
    simp only [fieldsLoopBreaks, Bool.and_eq_true] at hfs
    cases f with
    | named key value =>
      exact meets_bind (hm.expr hfs.1) fun v _ _ _ =>
        meets_bind (storeField t _ v) fun t _ _ _ => ih hfs.2 t position
    | keyed key value =>
      simp only [Field.loopsBreaks, Bool.and_eq_true] at hfs
      exact meets_bind (hm.expr hfs.1.1) fun k _ _ _ =>
        meets_bind (hm.expr hfs.1.2) fun v _ _ _ =>
        meets_bind (storeField t k v) fun t _ _ _ => ih hfs.2 t position
    | item value =>
      exact meets_bind (hm.expr hfs.1) fun v _ _ _ =>
        meets_bind (storeField t _ v) fun t _ _ _ => ih hfs.2 t (position + 1.0)

theorem body (hm : m.Loops) {body : Block}
    (hbody : Block.loopsBreaks body = true) :
    looping.Meets (m.block body scope) σ fun flow _ => flow ≠ .broke := by
  simp only [Block.loopsBreaks, Bool.and_eq_true, Bool.not_eq_true'] at hbody
  exact (hm.block hbody.2).value (hm.breaks.block hbody.1)

theorem callClosure (hm : m.Loops) {c : Closure}
    (hc : Block.loopsBreaks c.body = true) (args : List Value) :
    looping.Meets (m.callClosure c args) σ fun _ _ => True := by
  unfold Machine.callClosure
  refine meets_bind depth_looping fun n τ _ _ => ?_
  split
  · exact meets_fail nofun
  · refine meets_bind (openScope_looping _ _ _) fun inner υ _ _ => ?_
    refine meets_bind (nested_looping fun _ => hm.body hc)
      fun flow φ _ hflow => ?_
    cases flow with
    | normal => exact meets_pure trivial
    | returned v => exact meets_pure trivial
    | broke => exact absurd rfl hflow

theorem call (hm : m.Loops) (f : Value) (args : List Value) :
    looping.Meets (m.call f args) σ fun _ _ => True := by
  unfold Machine.call
  split
  · next id _ =>
    refine meets_bind (closure?_looping id) fun c? τ _ hc? => ?_
    cases c? with
    | some c => exact hm.callClosure (hc? c rfl) args
    | none => exact meets_fail nofun
  · next id _ => exact native_looping (hm.host id) args
  · exact meets_fail nofun

theorem callee (hm : m.Loops) {e : Expr} (he : e.loopsBreaks = true) :
    looping.Meets (m.callee scope e) σ fun _ _ => True := by
  unfold Machine.callee
  split
  · simp only [Expr.loopsBreaks, Bool.and_eq_true] at he
    exact hm.member .colon he.1 he.2 fun o k _ =>
      meets_bind (index_looping o k) fun _ _ _ _ => meets_pure trivial
  · exact meets_bind (hm.expr he) fun _ _ _ _ => meets_pure trivial

theorem evalBinary (hm : m.Loops) {op : BinaryOp} {left right : Expr}
    (hl : left.loopsBreaks = true) (hr : right.loopsBreaks = true) :
    looping.Meets (m.evalBinary scope op left right) σ fun _ _ => True := by
  unfold Machine.evalBinary
  refine meets_bind (hm.expr hl) fun a τ _ _ => ?_
  split
  · split
    · exact meets_pure trivial
    · exact hm.expr hr
  · split
    · exact hm.expr hr
    · exact meets_pure trivial
  · exact meets_bind (hm.expr hr) fun b υ _ _ =>
      meets_ofExcept (fun _ _ => trivial) fun _ h =>
        looping_error_of_operands (BinaryOp.apply_error h)

theorem evalExpr (hm : m.Loops) {e : Expr} (he : e.loopsBreaks = true) :
    looping.Meets (m.evalExpr e scope) σ fun _ _ => True := by
  cases e with
  | name x => exact lookup_looping scope x
  | nil | bool _ | number _ | string _ => exact meets_pure trivial
  | unary op operand =>
    exact meets_bind (hm.expr he) fun v τ _ _ =>
      meets_ofExcept (fun _ _ => trivial) fun _ h =>
        looping_error_of_operands (UnaryOp.apply_error h)
  | binary op left right =>
    simp only [Expr.loopsBreaks, Bool.and_eq_true] at he
    exact hm.evalBinary he.1 he.2
  | call callee args =>
    simp only [Expr.loopsBreaks, Bool.and_eq_true] at he
    refine meets_bind (hm.callee he.1) fun f τ _ _ => ?_
    exact meets_bind (hm.exprs he.2) fun others υ _ _ =>
      hm.call f.1 (f.2 ++ others)
  | member object access key =>
    simp only [Expr.loopsBreaks, Bool.and_eq_true] at he
    have hread : ∀ access, looping.Meets (do
        let o ← m.expr object scope
        let k ← m.memberKey access key scope
        index o k) σ fun _ _ => True :=
      fun access => hm.member access he.1 he.2 fun o k _ => index_looping o k
    cases access with
    | dot => exact hread .dot
    | bracket => exact hread .bracket
    | colon => exact meets_fail nofun
  | assign targets values =>
    simp only [Expr.loopsBreaks, Bool.and_eq_true] at he
    exact meets_bind (hm.exprs he.2) fun vs _ _ _ =>
      meets_bind (hm.storeAll he.1 vs) fun _ _ _ _ => meets_pure trivial
  | table fs =>
    exact meets_bind (hm.fields he .empty 1.0) fun t _ _ _ =>
      makeTable_looping t
  | function params body => exact makeClosure_looping he

theorem blockIn (hm : m.Loops) {body : Block}
    (hbody : statsLoopBreaks body = true) :
    looping.Meets (m.blockIn scope body) σ fun _ _ => True :=
  meets_bind (openScope_looping _ _ _) fun _ _ _ _ => hm.block hbody

theorem branch? (hm : m.Loops) {cs : List Clause} {otherwise : Option Block}
    (hcs : clausesLoopBreaks cs = true)
    (hother : ∀ block, otherwise = some block → statsLoopBreaks block = true) :
    looping.Meets (m.branch? scope otherwise cs) σ fun block? _ =>
      ∀ block, block? = some block → statsLoopBreaks block = true := by
  induction cs generalizing σ with
  | nil => exact meets_pure hother
  | cons c cs ih =>
    obtain ⟨test, body⟩ := c
    simp only [clausesLoopBreaks, Clause.loopsBreaks, Bool.and_eq_true] at hcs
    refine meets_bind (hm.expr hcs.1.1) fun v τ _ _ => ?_
    split
    · refine meets_pure ?_
      rintro block ⟨⟩
      exact hcs.1.2
    · exact ih hcs.2

theorem rangeNumber (hm : m.Loops) {e : Expr} (he : e.loopsBreaks = true)
    (part : RangePart) :
    looping.Meets (m.rangeNumber scope part e) σ fun _ _ => True := by
  refine meets_bind (hm.expr he) fun v τ _ _ => ?_
  split
  · exact meets_pure trivial
  · exact meets_fail nofun

theorem rangeTurn (hm : m.Loops) {x : String} {body : Block}
    (hbody : statsLoopBreaks body = true) (stop step current : Float) :
    looping.Meets (m.rangeTurn scope x stop step body current) σ fun _ _ =>
      True := by
  unfold Machine.rangeTurn
  split
  · exact meets_bind (openScope_looping _ _ _) fun _ _ _ _ =>
      meets_bind (hm.block hbody) fun _ _ _ _ => meets_pure trivial
  · exact meets_pure trivial

theorem nextRow? (hm : m.Loops) (source : Value) :
    looping.Meets (m.nextRow? source) σ fun _ _ => True := by
  unfold Machine.nextRow?
  split
  · exact advance_looping _
  · refine meets_bind (hm.call _ []) fun v τ _ _ => ?_
    split <;> exact meets_pure trivial
  · refine meets_bind (hm.call _ []) fun v τ _ _ => ?_
    split <;> exact meets_pure trivial
  · exact meets_fail nofun

theorem eachTurn (hm : m.Loops) {names : List String} {body : Block}
    (hbody : statsLoopBreaks body = true) (source : Value) :
    looping.Meets (m.eachTurn scope names source body) σ fun _ _ => True := by
  refine meets_bind (hm.nextRow? source) fun row? τ _ _ => ?_
  cases row? with
  | some row =>
    exact meets_bind (openScope_looping _ _ _) fun _ _ _ _ =>
      meets_bind (hm.block hbody) fun _ _ _ _ => meets_pure trivial
  | none => exact meets_pure trivial

theorem whileTurn (hm : m.Loops) {test : Expr} {body : Block}
    (htest : test.loopsBreaks = true) (hbody : statsLoopBreaks body = true) :
    looping.Meets (m.whileTurn scope test body) σ fun _ _ => True := by
  refine meets_bind (hm.expr htest) fun v τ _ _ => ?_
  split
  · exact meets_bind (hm.blockIn hbody) fun _ _ _ _ => meets_pure trivial
  · exact meets_pure trivial

theorem repeatTurn (hm : m.Loops) {test : Expr} {body : Block}
    (hbody : statsLoopBreaks body = true) (htest : test.loopsBreaks = true) :
    looping.Meets (m.repeatTurn scope body test) σ fun _ _ => True := by
  refine meets_bind (openScope_looping _ _ _) fun inner τ _ _ => ?_
  refine meets_bind (hm.block hbody) fun flow υ _ _ => ?_
  cases flow with
  | normal =>
    refine meets_bind (hm.expr htest) fun v φ _ _ => ?_
    split <;> exact meets_pure trivial
  | broke => exact meets_pure trivial
  | returned v => exact meets_pure trivial

theorem storeFunction (hm : m.Loops) {target : Option Expr}
    (ht : ∀ t, target = some t → t.loopsBreaks = true) (f : Value) :
    looping.Meets (m.storeFunction scope target f) σ fun _ _ => True := by
  unfold Machine.storeFunction
  split
  · exact define_looping _ _ _
  · have ht := ht _ rfl
    simp only [Expr.loopsBreaks, Bool.and_eq_true] at ht
    exact hm.member _ ht.1 ht.2 fun o k _ => setIndex_looping o k f
  · exact meets_fail nofun

theorem functionStat (hm : m.Loops) {target : Option Expr} {isLocal : Bool}
    {params : List String} {body : Block}
    (hs : (Stat.function target isLocal params body).loopsBreaks = true) :
    looping.Meets (m.evalStat (.function target isLocal params body) scope) σ
      fun _ _ => True := by
  have hparts : (∀ t, target = some t → t.loopsBreaks = true) ∧
      Block.loopsBreaks body = true := by
    cases target with
    | none => exact ⟨nofun, hs⟩
    | some target =>
      have hs := Bool.and_eq_true_iff.mp hs
      refine ⟨?_, hs.2⟩
      rintro _ ⟨⟩
      exact hs.1
  exact meets_bind (makeClosure_looping hparts.2) fun f _ _ _ =>
    meets_bind (hm.storeFunction hparts.1 f) fun _ _ _ _ => meets_pure trivial

theorem evalStat (hm : m.Loops) {s : Stat} (hs : s.loopsBreaks = true) :
    looping.Meets (m.evalStat s scope) σ fun _ _ => True := by
  cases s with
  | «do» body => exact hm.blockIn hs
  | «break» => exact meets_pure trivial
  | «return» values =>
    exact meets_bind (hm.exprs hs) fun _ _ _ _ => meets_pure trivial
  | expr e => exact meets_bind (hm.expr hs) fun _ _ _ _ => meets_pure trivial
  | function target isLocal params body => exact hm.functionStat hs
  | «local» names values =>
    exact meets_bind (hm.exprs hs) fun _ _ _ _ =>
      meets_bind (define_looping _ _ _) fun _ _ _ _ => meets_pure trivial
  | «if» test body clauses otherwise =>
    have hbranch : looping.Meets
        (m.branch? scope otherwise (.mk test body :: clauses)) σ fun block? _ =>
        ∀ block, block? = some block → statsLoopBreaks block = true := by
      cases otherwise with
      | none => exact hm.branch? hs nofun
      | some block =>
        simp only [Stat.loopsBreaks, Bool.and_eq_true] at hs
        refine hm.branch?
          (by simp [clausesLoopBreaks, Clause.loopsBreaks, hs]) ?_
        rintro _ ⟨⟩
        exact hs.2
    refine meets_bind hbranch fun block? _ _ hblock => ?_
    cases block? with
    | some block => exact hm.blockIn (hblock block rfl)
    | none => exact meets_pure trivial
  | forRange x start stop step body =>
    simp only [Stat.loopsBreaks, Bool.and_eq_true] at hs
    refine meets_bind (hm.rangeNumber hs.1.1.1 _) fun start _ _ _ => ?_
    refine meets_bind (hm.rangeNumber hs.1.1.2 _) fun stop _ _ _ => ?_
    refine meets_bind (hm.rangeNumber hs.1.2 _) fun step _ _ _ => ?_
    exact meets_loop (fun _ _ _ => (hm.rangeTurn hs.2 stop step _).imp
        fun _ _ _ _ _ _ => trivial) m.rounds _
  | forEach names source body =>
    simp only [Stat.loopsBreaks, Bool.and_eq_true] at hs
    refine meets_bind (hm.expr hs.1) fun v _ _ _ => ?_
    exact meets_loop (fun _ _ _ => (hm.eachTurn hs.2 v).imp fun _ _ _ _ _ _ =>
        trivial) m.rounds ()
  | «while» test body =>
    simp only [Stat.loopsBreaks, Bool.and_eq_true] at hs
    exact meets_loop (fun _ _ _ =>
        (hm.whileTurn hs.1 hs.2).imp fun _ _ _ _ _ _ => trivial) m.rounds ()
  | «repeat» body test =>
    simp only [Stat.loopsBreaks, Bool.and_eq_true] at hs
    exact meets_loop (fun _ _ _ =>
        (hm.repeatTurn hs.1 hs.2).imp fun _ _ _ _ _ _ => trivial) m.rounds ()

theorem evalBlock (hm : m.Loops) {body : Block}
    (hbody : statsLoopBreaks body = true) :
    looping.Meets (m.evalBlock body scope) σ fun _ _ => True := by
  induction body generalizing σ with
  | nil => exact meets_pure trivial
  | cons s ss ih =>
    simp only [statsLoopBreaks, Bool.and_eq_true] at hbody
    refine meets_bind (hm.evalStat hbody.1) fun flow τ _ _ => ?_
    cases flow with
    | normal => exact ih hbody.2
    | broke => exact meets_pure trivial
    | returned v => exact meets_pure trivial

end Machine.Loops

theorem Machine.loops_ofFuel {host : Host} (hhost : ∀ id, (host id).KnowsLoops)
    (limit fuel : Nat) :
    (Machine.ofFuel host limit fuel).Loops := by
  induction fuel with
  | zero =>
    exact ⟨hhost, Machine.breaks_ofFuel host limit 0, fun _ => meets_outOfFuel,
      fun _ => meets_outOfFuel⟩
  | succ n ih =>
    exact ⟨hhost, Machine.breaks_ofFuel host limit (n + 1), ih.evalExpr,
      ih.evalBlock⟩

end LuaCore
