import LuaCore.Proofs.Evaluation.Primitive
import LuaCore.Proofs.Tree.Runnable
import LuaCore.Session

/-! Policies that the primitive actions uphold are upheld by all evaluation. -/

namespace LuaCore

open LuaCore.Action LuaCore.Contract LuaCore.Policy

namespace Machine

def calling (m inner : Machine) : Machine := { m with block := inner.block }

def eachTurnCalling (m inner : Machine) (scope : ScopeId) (names : List String)
    (source : Value) (body : Block) : Action (Turn Unit) := do
  match ← (m.calling inner).nextRow? source with
  | some row =>
    let inside ← openScope scope names row
    return .afterBody () (← m.block body inside)
  | none => return .ended .normal

/-- Only a loop over the results of a function calls one by itself, other
statements by an expression. -/
def evalStatCalling (m inner : Machine) (s : Stat) (scope : ScopeId) :
    Action Flow :=
  match s with
  | .forEach names source body => do
    let source ← m.expr source scope
    loop (fun _ => m.eachTurnCalling inner scope names source body) m.rounds ()
  | s => m.evalStat s scope

def evalBlockCalling (m inner : Machine) (body : Block) (scope : ScopeId) :
    Action Flow :=
  match body with
  | [] => return .normal
  | s :: ss => do
    match ← m.evalStatCalling inner s scope with
    | .normal => evalBlockCalling m inner ss scope
    | flow => return flow

theorem evalStatCalling_self (m : Machine) (s : Stat) (scope : ScopeId) :
    m.evalStatCalling m s scope = m.evalStat s scope := by
  cases s <;> rfl

theorem evalBlockCalling_self (m : Machine) (body : Block) (scope : ScopeId) :
    m.evalBlockCalling m body scope = m.evalBlock body scope := by
  induction body with
  | nil => rfl
  | cons s ss ih =>
    unfold evalBlockCalling evalBlock
    rw [evalStatCalling_self]
    refine bind_congr fun flow => ?_
    cases flow with
    | normal => exact ih
    | broke => rfl
    | returned v => rfl

end Machine

structure Policy.ExprParts (P : Policy) (m m' : Machine) : Prop where
  expr : ∀ {e scope σ}, P.Admits e.isRunnable → P.valid scope σ →
    P.Agree (m.expr e scope) (m'.expr e scope) σ

/-- A machine that has another one run the bodies of functions agrees on all
parts with a third machine. -/
structure Policy.Parts (P : Policy) (m inner m' : Machine) :
    Prop extends P.ExprParts m m' where
  rounds : m.rounds = m'.rounds
  block : ∀ {body scope σ}, P.Admits (blockWellFormed body) → P.valid scope σ →
    (∀ x ∈ body.flatMap Stat.declares, P.own scope x) →
    P.Agree (m.block body scope) (m'.block body scope) σ
  call : ∀ f args {σ},
    P.Agree ((m.calling inner).call f args) (m'.call f args) σ

namespace Policy

variable {P : Policy} {host : Host} {limit : Nat} {m inner m' : Machine}
    {σ : Store} {scope : ScopeId} {body : Block}

namespace ExprParts

theorem calling (h : P.ExprParts m m') (inner : Machine) :
    P.ExprParts (m.calling inner) m' :=
  ⟨h.expr⟩

theorem wellFormedExpr (h : P.ExprParts m m') {e : Expr}
    (he : P.Admits (e.wellFormed false)) (hv : P.valid scope σ) :
    P.Agree (m.expr e scope) (m'.expr e scope) σ :=
  h.expr (he.imp Expr.isRunnable_of_wellFormed) hv

theorem exprs (h : P.ExprParts m m') {es : List Expr}
    (hes : P.Admits (exprsWellFormed es)) (hv : P.valid scope σ) :
    P.Agree (m.exprs scope es) (m'.exprs scope es) σ := by
  induction es generalizing σ with
  | nil => exact follows_pure trivial
  | cons e es ih =>
    simp only [exprsWellFormed, admits_and] at hes
    refine follows_bind (h.wellFormedExpr hes.1 hv) fun v τ hτ _ => ?_
    refine follows_bind (ih hes.2 (P.valid_step hv hτ)) fun vs υ _ _ => ?_
    exact follows_pure trivial

theorem memberKey (h : P.ExprParts m m') {access : Access} {key : Expr}
    (hkey : P.Admits (access.quotes key || key.wellFormed false))
    (hv : P.valid scope σ) :
    P.Agree (m.memberKey access key scope)
      (m'.memberKey access key scope) σ := by
  unfold Machine.memberKey
  split
  · exact follows_pure trivial
  · exact follows_pure trivial
  · next hdot hcolon =>
    refine h.wellFormedExpr (hkey.imp fun hkey => ?_) hv
    cases access <;> cases key <;> simp_all [Access.quotes, Expr.isName]

theorem store (h : P.ExprParts m m') (U : P.Upheld host limit) {target : Expr}
    (ht : P.Admits (target.isTarget && target.wellFormed false))
    (hv : P.valid scope σ) (v : Value) :
    P.Agree (m.store scope target v) (m'.store scope target v) σ := by
  unfold Machine.store
  split
  · exact U.agree_assign _ v
  · refine follows_fail ?_
    rcases (admits_and.mp ht).2 with hwf | htolerant
    · exact absurd hwf (Expr.not_wellFormed_method _ _)
    · exact htolerant.2
  · have hparts :=
      admits_and.mp ((admits_and.mp ht).2.imp Expr.wellFormed_member)
    refine follows_bind (h.wellFormedExpr hparts.1 hv) fun object τ hτ _ => ?_
    refine follows_bind (h.memberKey hparts.2 (P.valid_step hv hτ))
      fun key υ _ _ => ?_
    exact U.agree_setIndex object key v
  · next hname _ hmember =>
    refine follows_fail ?_
    rcases ht with hwf | htolerant
    · cases target <;> simp_all [Expr.isTarget]
    · exact htolerant.2

theorem storeAll (h : P.ExprParts m m') (U : P.Upheld host limit)
    {targets : List Expr}
    (hts : P.Admits (targets.all Expr.isTarget && exprsWellFormed targets))
    (hv : P.valid scope σ) (vs : List Value) :
    P.Agree (m.storeAll scope targets vs) (m'.storeAll scope targets vs) σ := by
  induction targets generalizing σ vs with
  | nil => cases vs <;> exact follows_pure trivial
  | cons target targets ih =>
    simp only [List.all_cons, exprsWellFormed, admits_and] at hts
    obtain ⟨⟨htarget, htargets⟩, hwf, hwfs⟩ := hts
    have first :
        ∀ v vs, P.Agree (do m.store scope target v; m.storeAll scope targets vs)
          (do m'.store scope target v; m'.storeAll scope targets vs) σ := by
      intro v vs
      refine follows_bind (h.store U (admits_and.mpr ⟨htarget, hwf⟩) hv v)
        fun _ τ hτ _ => ?_
      exact ih (admits_and.mpr ⟨htargets, hwfs⟩) (P.valid_step hv hτ) vs
    cases vs with
    | nil => exact first .nil []
    | cons v vs => exact first v vs

theorem agree_storeField (U : P.Upheld host limit) (t : Table)
    (key value : Value) :
    P.Agree (Machine.storeField t key value)
      (Machine.storeField t key value) σ := by
  unfold Machine.storeField
  split
  · exact follows_pure trivial
  · exact U.agree_fail rfl

theorem fields (h : P.ExprParts m m') (U : P.Upheld host limit)
    {fs : List Field} (hfs : P.Admits (fieldsWellFormed fs))
    (hv : P.valid scope σ) (t : Table) (position : Float) :
    P.Agree (m.fields scope t position fs)
      (m'.fields scope t position fs) σ := by
  induction fs generalizing σ t position with
  | nil => exact follows_pure trivial
  | cons f fs ih =>
    simp only [fieldsWellFormed, admits_and] at hfs
    obtain ⟨hf, hfs⟩ := hfs
    cases f with
    | named key value =>
      refine follows_bind (h.wellFormedExpr hf hv) fun v τ hτ _ => ?_
      refine follows_bind (agree_storeField U t (.string key) v)
        fun t υ hυ _ => ?_
      exact ih hfs (P.valid_step (P.valid_step hv hτ) hυ) t position
    | keyed key value =>
      simp only [Field.wellFormed, admits_and] at hf
      refine follows_bind (h.wellFormedExpr hf.1 hv) fun k τ hτ _ => ?_
      have hvτ := P.valid_step hv hτ
      refine follows_bind (h.wellFormedExpr hf.2 hvτ) fun v υ hυ _ => ?_
      refine follows_bind (agree_storeField U t k v) fun t φ hφ _ => ?_
      exact ih hfs (P.valid_step (P.valid_step hvτ hυ) hφ) t position
    | item value =>
      refine follows_bind (h.wellFormedExpr hf hv) fun v τ hτ _ => ?_
      refine follows_bind (agree_storeField U t (.number position) v)
        fun t υ hυ _ => ?_
      exact ih hfs (P.valid_step (P.valid_step hv hτ) hυ) t (position + 1.0)

theorem callee (h : P.ExprParts m m') (U : P.Upheld host limit) {e : Expr}
    (he : P.Admits (e.wellFormed true)) (hv : P.valid scope σ) :
    P.Agree (m.callee scope e) (m'.callee scope e) σ := by
  unfold Machine.callee
  split
  · have hparts := admits_and.mp (he.imp Expr.wellFormed_member)
    refine follows_bind (h.wellFormedExpr hparts.1 hv) fun o τ hτ _ => ?_
    refine follows_bind (h.memberKey hparts.2 (P.valid_step hv hτ))
      fun k υ _ _ => ?_
    exact follows_bind (U.agree_index o k) fun _ _ _ _ => follows_pure trivial
  · next hmethod =>
    refine follows_bind (h.wellFormedExpr (he.imp fun he => ?_) hv)
      fun _ _ _ _ => follows_pure trivial
    exact Expr.wellFormed_of_callee he hmethod

theorem evalBinary (h : P.ExprParts m m') (U : P.Upheld host limit)
    {op : BinaryOp} {left right : Expr} (hl : P.Admits (left.wellFormed false))
    (hr : P.Admits (right.wellFormed false)) (hv : P.valid scope σ) :
    P.Agree (m.evalBinary scope op left right)
      (m'.evalBinary scope op left right) σ := by
  unfold Machine.evalBinary
  refine follows_bind (h.wellFormedExpr hl hv) fun a τ hτ _ => ?_
  have hright := h.wellFormedExpr hr (P.valid_step hv hτ)
  split
  · split
    · exact follows_pure trivial
    · exact hright
  · split
    · exact hright
    · exact follows_pure trivial
  · exact follows_bind hright fun b υ _ _ => U.agree_ofExcept fun _ he =>
      BinaryOp.apply_error he

theorem evalExpr (h : P.ExprParts m m') (U : P.Upheld host limit)
    (hcall : ∀ f args {σ}, P.Agree (m.call f args) (m'.call f args) σ)
    {e : Expr} (he : P.Admits e.isRunnable) (hv : P.valid scope σ) :
    P.Agree (m.evalExpr e scope) (m'.evalExpr e scope) σ := by
  cases e with
  | name x => exact U.agree_lookup x
  | nil | bool _ | number _ | string _ => exact follows_pure trivial
  | unary op operand =>
    refine follows_bind (h.wellFormedExpr he hv) fun v τ _ _ => ?_
    exact U.agree_ofExcept fun _ he => UnaryOp.apply_error he
  | binary op left right =>
    simp only [Expr.isRunnable, Expr.wellFormed, admits_and] at he
    exact h.evalBinary U he.1 he.2 hv
  | call callee args =>
    simp only [Expr.isRunnable, Expr.wellFormed, admits_and] at he
    refine follows_bind (h.callee U he.1 hv) fun f τ hτ _ => ?_
    refine follows_bind (h.exprs he.2 (P.valid_step hv hτ))
      fun others υ _ _ => ?_
    exact hcall f.1 (f.2 ++ others)
  | member object access key =>
    have hparts := admits_and.mp (he.imp Expr.wellFormed_member)
    have hread : P.Agree (do
          let o ← m.expr object scope
          let k ← m.memberKey access key scope
          index o k) (do
          let o ← m'.expr object scope
          let k ← m'.memberKey access key scope
          index o k) σ := by
      refine follows_bind (h.wellFormedExpr hparts.1 hv) fun o τ hτ _ => ?_
      refine follows_bind (h.memberKey hparts.2 (P.valid_step hv hτ))
        fun k υ _ _ => ?_
      exact U.agree_index o k
    cases access with
    | dot => exact hread
    | bracket => exact hread
    | colon =>
      refine follows_fail ?_
      rcases he with hwf | htolerant
      · exact absurd hwf (Expr.not_wellFormed_method object key)
      · exact htolerant.1
  | assign targets values =>
    simp only [Expr.isRunnable, admits_and] at he
    obtain ⟨⟨htargets, hwf⟩, hvalues⟩ := he
    refine follows_bind (h.exprs hvalues hv) fun vs τ hτ _ => ?_
    have hstore :=
      h.storeAll U (admits_and.mpr ⟨htargets, hwf⟩) (P.valid_step hv hτ) vs
    exact follows_bind hstore fun _ _ _ _ => follows_pure trivial
  | table fs =>
    exact follows_bind (h.fields U he hv .empty 1.0) fun t τ _ _ =>
      U.agree_makeTable t
  | function params body => exact U.agree_makeClosure _ hv he

end ExprParts

theorem agree_body (U : P.Upheld host limit)
    (hbody : ∀ {scope σ}, σ.depth < limit → P.valid scope σ →
      (∀ x, P.own scope x) →
      P.Agree (nested (m.block body scope)) (nested (m'.block body scope)) σ)
    (hlt : σ.depth < limit) (hv : P.valid scope σ) (params : List String)
    (args : List Value) :
    P.Agree
      (do
        let scope ← openScope scope params args
        match ← nested (m.block body scope) with
        | .normal => return .nil
        | .returned v => return v
        | .broke => fail .breakOutsideLoop)
      (do
        let scope ← openScope scope params args
        match ← nested (m'.block body scope) with
        | .normal => return .nil
        | .returned v => return v
        | .broke => fail .breakOutsideLoop) σ := by
  refine follows_bind (U.follows_openScope hv params args)
    fun inside τ _ hτ => ?_
  obtain ⟨hvalid, hown, hdepth⟩ := hτ
  refine follows_bind (hbody (hdepth ▸ hlt) hvalid hown) fun flow υ _ _ => ?_
  cases flow with
  | normal => exact follows_pure trivial
  | returned v => exact follows_pure trivial
  | broke => exact U.agree_fail rfl

/-- The first machine may have a smaller limit if it may stop early where a call
exceeds it. -/
theorem agree_callClosure (U : P.Upheld m'.host m'.limit)
    (hle : m.limit ≤ m'.limit)
    (hstops : m.limit = m'.limit ∨ P.stops (.stackOverflow m.limit))
    (hbody : ∀ {body scope σ}, σ.depth < m'.limit →
      P.Admits (blockWellFormed body) → P.valid scope σ → (∀ x, P.own scope x) →
      P.Agree (nested (m.block body scope)) (nested (m'.block body scope)) σ)
    {c : Closure} (hv : P.valid c.scope σ)
    (hc : P.Admits (blockWellFormed c.body)) (args : List Value) :
    P.Agree (m.callClosure c args) (m'.callClosure c args) σ := by
  refine follows_bind (Q := fun n τ => n = τ.depth) (follows_done rfl
      (fun hinv => ⟨hinv, P.refl σ⟩) fun _ => rfl) fun n τ hτ hn => ?_
  by_cases hfull : m'.limit ≤ n
  · rw [if_pos hfull, if_pos (Nat.le_trans hle hfull)]
    rcases hstops with heq | hstops
    · rw [heq]
      exact follows_fail U.overflow
    · exact follows_stop hstops (follows_fail U.overflow)
  · have hlt : τ.depth < m'.limit := hn ▸ Nat.lt_of_not_le hfull
    have hrun := agree_body (m := m) U (fun hlt => hbody hlt hc) hlt
      (P.valid_step hv hτ) c.params args
    rw [if_neg hfull]
    by_cases hsmall : m.limit ≤ n
    · rw [if_pos hsmall]
      rcases hstops with heq | hstops
      · exact absurd (heq ▸ hsmall) hfull
      · exact follows_stop hstops hrun
    · rw [if_neg hsmall]
      exact hrun

theorem agree_call (U : P.Upheld m'.host m'.limit) (hhost : m.host = m'.host)
    (hle : m.limit ≤ m'.limit)
    (hstops : m.limit = m'.limit ∨ P.stops (.stackOverflow m.limit))
    (hbody : ∀ {body scope σ}, σ.depth < m'.limit →
      P.Admits (blockWellFormed body) → P.valid scope σ → (∀ x, P.own scope x) →
      P.Agree (nested (m.block body scope)) (nested (m'.block body scope)) σ)
    (f : Value) (args : List Value) :
    P.Agree (m.call f args) (m'.call f args) σ := by
  unfold Machine.call
  split
  · next id _ =>
    refine follows_bind (U.follows_closure? id) fun c? τ _ hc? => ?_
    cases c? with
    | some c =>
      exact agree_callClosure U hle hstops hbody (hc? c rfl).1
        (hc? c rfl).2 args
    | none => exact U.agree_fail rfl
  · next id _ =>
    rw [hhost]
    exact U.agree_native id args
  · exact U.agree_fail rfl

namespace Parts

theorem calledRow? (h : P.Parts m inner m') (source : Value) :
    P.Agree (do
        match ← (m.calling inner).call source [] with
        | .nil => return none
        | v => return some [v]) (do
        match ← m'.call source [] with
        | .nil => return none
        | v => return some [v]) σ := by
  refine follows_bind (h.call source []) fun v τ _ _ => ?_
  cases v <;> exact follows_pure trivial

theorem nextRow? (h : P.Parts m inner m') (U : P.Upheld host limit)
    (source : Value) :
    P.Agree ((m.calling inner).nextRow? source) (m'.nextRow? source) σ := by
  unfold Machine.nextRow?
  split
  · exact U.agree_advance _
  · exact h.calledRow? _
  · exact h.calledRow? _
  · exact U.agree_fail rfl

theorem blockInside (h : P.Parts m inner m')
    (hbody : P.Admits (blockWellFormed body)) {depth : Nat}
    (hinside : P.valid scope σ ∧ (∀ x, P.own scope x) ∧ σ.depth = depth) :
    P.Agree (m.block body scope) (m'.block body scope) σ :=
  h.block hbody hinside.1 fun x _ => hinside.2.1 x

theorem blockIn (h : P.Parts m inner m') (U : P.Upheld host limit)
    {body : Block} (hbody : P.Admits (blockWellFormed body))
    (hv : P.valid scope σ) :
    P.Agree (m.blockIn scope body) (m'.blockIn scope body) σ :=
  follows_bind (U.follows_openScope hv [] []) fun _ _ _ hinside =>
    h.blockInside hbody hinside

theorem branch? (h : P.Parts m inner m') {cs : List Clause}
    {otherwise : Option Block} (hcs : P.Admits (clausesWellFormed cs))
    (hother : ∀ block, otherwise = some block →
      P.Admits (blockWellFormed block)) (hv : P.valid scope σ) :
    P.Follows (m.branch? scope otherwise cs) (m'.branch? scope otherwise cs) σ
      fun block? _ =>
      ∀ block, block? = some block → P.Admits (blockWellFormed block) := by
  induction cs generalizing σ with
  | nil => exact follows_pure hother
  | cons c cs ih =>
    obtain ⟨test, body⟩ := c
    simp only [clausesWellFormed, Clause.wellFormed, admits_and] at hcs
    refine follows_bind (h.wellFormedExpr hcs.1.1 hv) fun v τ hτ _ => ?_
    split
    · apply follows_pure
      intro block hblock
      cases hblock
      exact hcs.1.2
    · exact ih hcs.2 (P.valid_step hv hτ)

theorem rangeNumber (h : P.Parts m inner m') (U : P.Upheld host limit)
    {e : Expr} (he : P.Admits (e.wellFormed false)) (hv : P.valid scope σ)
    (part : RangePart) :
    P.Agree (m.rangeNumber scope part e) (m'.rangeNumber scope part e) σ := by
  refine follows_bind (h.wellFormedExpr he hv) fun v τ _ _ => ?_
  split
  · exact follows_pure trivial
  · exact U.agree_fail rfl

theorem rangeTurn (h : P.Parts m inner m') (U : P.Upheld host limit)
    (x : String) {body : Block} (hbody : P.Admits (blockWellFormed body))
    (hv : P.valid scope σ) (stop step current : Float) :
    P.Agree (m.rangeTurn scope x stop step body current)
      (m'.rangeTurn scope x stop step body current) σ := by
  unfold Machine.rangeTurn
  split
  · refine follows_bind (U.follows_openScope hv [x] _)
      fun inside τ _ hinside => ?_
    exact follows_bind (h.blockInside hbody hinside) fun _ _ _ _ =>
      follows_pure trivial
  · exact follows_pure trivial

theorem eachTurn (h : P.Parts m inner m') (U : P.Upheld host limit)
    (names : List String) (source : Value) {body : Block}
    (hbody : P.Admits (blockWellFormed body)) (hv : P.valid scope σ) :
    P.Agree (m.eachTurnCalling inner scope names source body)
      (m'.eachTurn scope names source body) σ := by
  refine follows_bind (h.nextRow? U source) fun row? τ hτ _ => ?_
  cases row? with
  | some row =>
    refine follows_bind (U.follows_openScope (P.valid_step hv hτ) names row)
      fun inside υ _ hinside => ?_
    exact follows_bind (h.blockInside hbody hinside) fun _ _ _ _ =>
      follows_pure trivial
  | none => exact follows_pure trivial

theorem whileTurn (h : P.Parts m inner m') (U : P.Upheld host limit)
    {test : Expr} {body : Block} (htest : P.Admits (test.wellFormed false))
    (hbody : P.Admits (blockWellFormed body)) (hv : P.valid scope σ) :
    P.Agree (m.whileTurn scope test body) (m'.whileTurn scope test body) σ := by
  refine follows_bind (h.wellFormedExpr htest hv) fun v τ hτ _ => ?_
  split
  · exact follows_bind (h.blockIn U hbody (P.valid_step hv hτ)) fun _ _ _ _ =>
      follows_pure trivial
  · exact follows_pure trivial

theorem repeatTurn (h : P.Parts m inner m') (U : P.Upheld host limit)
    {test : Expr} {body : Block} (hbody : P.Admits (blockWellFormed body))
    (htest : P.Admits (test.wellFormed false)) (hv : P.valid scope σ) :
    P.Agree (m.repeatTurn scope body test)
      (m'.repeatTurn scope body test) σ := by
  refine follows_bind (U.follows_openScope hv [] [])
    fun inside τ _ hinside => ?_
  refine follows_bind (h.blockInside hbody hinside) fun flow υ hυ _ => ?_
  cases flow with
  | normal =>
    refine follows_bind (h.wellFormedExpr htest (P.valid_step hinside.1 hυ))
      fun v φ _ _ => ?_
    split <;> exact follows_pure trivial
  | broke => exact follows_pure trivial
  | returned v => exact follows_pure trivial

theorem storeFunction (h : P.Parts m inner m') (U : P.Upheld host limit)
    {target : Option Expr} {isLocal : Bool} {params : List String}
    {body : Block}
    (hs : P.Admits (Stat.function target isLocal params body).wellFormed)
    (hv : P.valid scope σ) (hown : ∀ x ∈ functionNames target, P.own scope x)
    (f : Value) :
    P.Agree (m.storeFunction scope target f)
      (m'.storeFunction scope target f) σ := by
  unfold Machine.storeFunction
  split
  · next x => exact U.agree_define hv [x] [f] hown
  · have hparts := admits_and.mp (hs.imp Stat.wellFormed_memberFunction)
    refine follows_bind (h.wellFormedExpr hparts.1 hv) fun t τ hτ _ => ?_
    refine follows_bind (h.memberKey hparts.2 (P.valid_step hv hτ))
      fun k υ _ _ => ?_
    exact U.agree_setIndex t k f
  · next hname hmember =>
    refine follows_fail ?_
    rcases hs with hwf | htolerant
    · exact (Stat.not_wellFormed_function hname hmember hwf).elim
    · exact htolerant.2

theorem evalStat (h : P.Parts m inner m') (U : P.Upheld host limit) {s : Stat}
    (hs : P.Admits s.wellFormed) (hv : P.valid scope σ)
    (hown : ∀ x ∈ s.declares, P.own scope x) :
    P.Agree (m.evalStatCalling inner s scope) (m'.evalStat s scope) σ := by
  cases s with
  | «do» body => exact h.blockIn U hs hv
  | «break» => exact follows_pure trivial
  | «return» values =>
    exact follows_bind (h.exprs hs hv) fun _ _ _ _ => follows_pure trivial
  | expr e =>
    have he := h.expr (hs.imp Stat.isRunnable_of_wellFormed) hv
    exact follows_bind he fun _ _ _ _ => follows_pure trivial
  | function target isLocal params body =>
    have hbody := hs.imp Stat.wellFormed_function
    refine follows_bind (U.agree_makeClosure _ hv hbody) fun f τ hτ _ => ?_
    exact follows_bind (h.storeFunction U hs (P.valid_step hv hτ) hown f)
      fun _ _ _ _ =>
      follows_pure trivial
  | «local» names values =>
    have hvalues : P.Admits (exprsWellFormed values) := by
      simp only [Stat.wellFormed, admits_and] at hs
      exact hs.2
    refine follows_bind (h.exprs hvalues hv) fun vs τ hτ _ => ?_
    exact follows_bind (U.agree_define (P.valid_step hv hτ) names vs hown)
      fun _ _ _ _ =>
      follows_pure trivial
  | «if» test body cs otherwise =>
    have hcases : P.Admits (clausesWellFormed (.mk test body :: cs)) ∧
        ∀ block, otherwise = some block → P.Admits (blockWellFormed block) := by
      cases otherwise with
      | none =>
        simp only [Stat.wellFormed, admits_and] at hs
        simpa [clausesWellFormed, Clause.wellFormed] using hs
      | some block =>
        simp only [Stat.wellFormed, admits_and] at hs
        simpa [clausesWellFormed, Clause.wellFormed, and_assoc] using hs
    refine follows_bind (h.branch? hcases.1 hcases.2 hv)
      fun block? τ hτ hblock => ?_
    cases block? with
    | some block => exact h.blockIn U (hblock block rfl) (P.valid_step hv hτ)
    | none => exact follows_pure trivial
  | forRange x start stop step body =>
    simp only [Stat.wellFormed, admits_and] at hs
    obtain ⟨⟨⟨hstart, hstop⟩, hstep⟩, hbody⟩ := hs
    refine follows_bind (h.rangeNumber U hstart hv _) fun a τ hτ _ => ?_
    have hvτ := P.valid_step hv hτ
    refine follows_bind (h.rangeNumber U hstop hvτ _) fun b υ hυ _ => ?_
    have hvυ := P.valid_step hvτ hυ
    refine follows_bind (h.rangeNumber U hstep hvυ _) fun c φ hφ _ => ?_
    rw [h.rounds]
    exact agree_loop (fun current ψ hψ =>
      h.rangeTurn U x hbody
        (P.valid_step (P.valid_step hvυ hφ) hψ) b c current) _ a
  | forEach names source body =>
    simp only [Stat.wellFormed, admits_and] at hs
    refine follows_bind (h.wellFormedExpr hs.1.2 hv) fun v τ hτ _ => ?_
    rw [h.rounds]
    exact agree_loop (fun _ υ hυ =>
      h.eachTurn U names v hs.2 (P.valid_step (P.valid_step hv hτ) hυ)) _ ()
  | «while» test body =>
    simp only [Stat.wellFormed, admits_and] at hs
    show P.Agree (loop _ m.rounds ()) (loop _ m'.rounds ()) σ
    rw [h.rounds]
    exact agree_loop
      (fun _ τ hτ => h.whileTurn U hs.1 hs.2 (P.valid_step hv hτ)) _ ()
  | «repeat» body test =>
    simp only [Stat.wellFormed, admits_and] at hs
    show P.Agree (loop _ m.rounds ()) (loop _ m'.rounds ()) σ
    rw [h.rounds]
    exact agree_loop
      (fun _ τ hτ => h.repeatTurn U hs.1 hs.2 (P.valid_step hv hτ)) _ ()

theorem evalBlock (h : P.Parts m inner m') (U : P.Upheld host limit)
    {body : Block} (hbody : P.Admits (blockWellFormed body))
    (hv : P.valid scope σ)
    (hown : ∀ x ∈ body.flatMap Stat.declares, P.own scope x) :
    P.Agree (m.evalBlockCalling inner body scope)
      (m'.evalBlock body scope) σ := by
  induction body generalizing σ with
  | nil => exact follows_pure trivial
  | cons s ss ih =>
    simp only [blockWellFormed, admits_and] at hbody
    simp only [List.flatMap_cons, List.mem_append] at hown
    refine follows_bind (h.evalStat U hbody.1.1 hv fun x hx => hown x (.inl hx))
      fun flow τ hτ _ => ?_
    cases flow with
    | normal =>
      exact ih hbody.2 (P.valid_step hv hτ) fun x hx => hown x (.inr hx)
    | broke => exact follows_pure trivial
    | returned v => exact follows_pure trivial

theorem topLevel (h : P.Parts m inner m') (U : P.Upheld host limit)
    {body : Block} (hbody : P.Admits (blockWellFormed body))
    (hv : P.valid Scopes.rootId σ)
    (hown : ∀ x ∈ body.flatMap Stat.declares, P.own Scopes.rootId x) :
    P.Agree (Session.topLevel m body) (Session.topLevel m' body) σ := by
  refine follows_bind (h.block hbody hv hown) fun flow τ _ _ => ?_
  cases flow with
  | normal => exact follows_pure trivial
  | returned v => exact follows_pure trivial
  | broke => exact U.agree_fail rfl

/-! A machine that runs the bodies of functions itself. -/

theorem evalStat_self (h : P.Parts m m m') (U : P.Upheld host limit) {s : Stat}
    (hs : P.Admits s.wellFormed) (hv : P.valid scope σ)
    (hown : ∀ x ∈ s.declares, P.own scope x) :
    P.Agree (m.evalStat s scope) (m'.evalStat s scope) σ := by
  rw [← Machine.evalStatCalling_self]
  exact h.evalStat U hs hv hown

theorem evalBlock_self (h : P.Parts m m m') (U : P.Upheld host limit)
    {body : Block} (hbody : P.Admits (blockWellFormed body))
    (hv : P.valid scope σ)
    (hown : ∀ x ∈ body.flatMap Stat.declares, P.own scope x) :
    P.Agree (m.evalBlock body scope) (m'.evalBlock body scope) σ := by
  rw [← Machine.evalBlockCalling_self]
  exact h.evalBlock U hbody hv hown

end Parts

theorem parts_self (U : P.Upheld m'.host m'.limit) (hP : P.Nests)
    (hrounds : m.rounds = m'.rounds) (hhost : m.host = m'.host)
    (hle : m.limit ≤ m'.limit)
    (hstops : m.limit = m'.limit ∨ P.stops (.stackOverflow m.limit))
    (hexpr : P.ExprParts m m')
    (hblock : ∀ {body scope σ}, P.Admits (blockWellFormed body) →
      P.valid scope σ → (∀ x ∈ body.flatMap Stat.declares, P.own scope x) →
      P.Agree (m.block body scope) (m'.block body scope) σ) :
    P.Parts m m m' :=
  ⟨hexpr, hrounds, hblock, fun f args _ =>
    agree_call (m := m) U hhost hle hstops (fun _ hbody hv hown =>
      agree_nested (hP.nestsIn _)
        (hblock hbody (hP.valid_enter hv) fun x _ => hown x)) f args⟩

/-- Machines with one host agree if they have one limit, or if the first one has
a smaller limit and may stop early for it. -/
theorem parts_ofFuel (U : P.Upheld host limit) (hP : P.Nests) {small : Nat}
    (hle : small ≤ limit)
    (hstops : small = limit ∨ P.stops (.stackOverflow small)) (fuel : Nat) :
    P.Parts (.ofFuel host small fuel) (.ofFuel host small fuel)
      (.ofFuel host limit fuel) := by
  induction fuel with
  | zero =>
    exact parts_self U hP rfl rfl hle hstops ⟨fun _ _ =>
        follows_self meets_outOfFuel⟩ fun _ _ _ => follows_self meets_outOfFuel
  | succ n ih =>
    -- the parts of a machine are evaluated by the machine with one unit
    -- of fuel less
    exact parts_self U hP rfl rfl hle hstops ⟨ih.evalExpr U ih.call⟩
      (ih.evalBlock_self U)

theorem interpret {s : Session} (U : P.Upheld s.host s.limit) (hP : P.Nests)
    (fuel : Nat) (c : Chunk) (hbody : P.Admits (blockWellFormed c.body))
    (hv : P.valid Scopes.rootId s.store)
    (hown : ∀ x ∈ c.body.flatMap Stat.declares, P.own Scopes.rootId x)
    (hinv : P.inv s.store) :
    P.inv (s.interpret fuel c).2.store ∧
      P.step s.store (s.interpret fuel c).2.store ∧
      ∀ e, (s.interpret fuel c).1 = .failed e → P.error e := by
  have hparts := parts_ofFuel U hP (Nat.le_refl _) (Or.inl rfl) fuel
  have hallows := (hparts.topLevel U hbody hv hown hinv).1
  unfold Session.interpret
  cases hend : Session.topLevel
    (.ofFuel s.host s.limit fuel) c.body s.store with
  | done v τ =>
    rw [hend] at hallows
    exact ⟨hallows.1, hallows.2.1, nofun⟩
  | fail e τ =>
    rw [hend] at hallows
    refine ⟨hallows.1, hallows.2.1, ?_⟩
    rintro e' ⟨⟩
    exact hallows.2.2
  | outOfFuel => exact ⟨hinv, P.refl s.store, nofun⟩

end Policy

theorem Session.natives_interpret (s : Session) (fuel : Nat) (c : Chunk) :
    (s.interpret fuel c).2.natives = s.natives := by
  unfold Session.interpret
  split <;> rfl

end LuaCore
