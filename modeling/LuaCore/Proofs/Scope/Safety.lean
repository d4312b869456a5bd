import LuaCore.Proofs.Scope.Contract
import LuaCore.Session

namespace LuaCore

open LuaCore.Action LuaCore.Contract

def Native.KnowsNames (f : Native) : Prop :=
  ∀ args heap x, (f args heap).1 ≠ .error (.undefinedVariable x)

structure Machine.Scoped (m : Machine) : Prop where
  host : ∀ id, (m.host id).KnowsNames
  expr : ∀ {e : Expr} {scope : ScopeId} {names : List String} {σ : Store},
    e.scopedIn names = true → σ.scopes.Knows scope names →
    scoping.Meets (m.expr e scope) σ fun _ _ => True
  block : ∀ {body : Block} {scope : ScopeId} {names : List String} {σ : Store},
    statsScopedIn names body = true → σ.scopes.Knows scope names →
    scoping.Meets (m.block body scope) σ fun flow τ =>
      flow = .normal →
        τ.scopes.Knows scope (body.flatMap Stat.declares ++ names)

namespace Machine.Scoped

variable {m : Machine} {scope : ScopeId} {names : List String} {σ : Store}

theorem exprs (hm : m.Scoped) {es : List Expr}
    (hes : exprsScopedIn names es = true) (hk : σ.scopes.Knows scope names) :
    scoping.Meets (m.exprs scope es) σ fun _ _ => True := by
  induction es generalizing σ with
  | nil => exact meets_pure trivial
  | cons e es ih =>
    simp only [exprsScopedIn, Bool.and_eq_true] at hes
    refine meets_bind (hm.expr hes.1 hk) fun v τ hτ _ => ?_
    refine meets_bind (ih hes.2 (hk.mono hτ)) fun vs υ _ _ => ?_
    exact meets_pure trivial

theorem memberKey (hm : m.Scoped) {access : Access} {key : Expr}
    (hkey : (access.quotes key || key.scopedIn names) = true)
    (hk : σ.scopes.Knows scope names) :
    scoping.Meets (m.memberKey access key scope) σ fun _ _ => True := by
  unfold Machine.memberKey
  split
  · exact meets_pure trivial
  · exact meets_pure trivial
  · next hdot hcolon =>
    have hquotes : access.quotes key = false := by
      cases access <;> cases key <;> simp_all [Access.quotes, Expr.isName]
    rw [hquotes, Bool.false_or] at hkey
    exact hm.expr hkey hk

theorem store (hm : m.Scoped) {target : Expr}
    (ht : target.scopedIn names = true) (hk : σ.scopes.Knows scope names)
    (v : Value) :
    scoping.Meets (m.store scope target v) σ fun _ _ => True := by
  unfold Machine.store
  split
  · next x =>
    exact assign_scoped (hk.binds x (by simpa [Expr.scopedIn] using ht))
  · exact meets_fail nofun
  · simp only [Expr.scopedIn, Bool.and_eq_true] at ht
    refine meets_bind (hm.expr ht.1 hk) fun object τ hτ _ => ?_
    refine meets_bind (hm.memberKey ht.2 (hk.mono hτ)) fun key υ _ _ => ?_
    exact setIndex_scoped object key v
  · exact meets_fail nofun

theorem storeAll (hm : m.Scoped) {targets : List Expr}
    (hts : exprsScopedIn names targets = true) (hk : σ.scopes.Knows scope names)
    (vs : List Value) :
    scoping.Meets (m.storeAll scope targets vs) σ fun _ _ => True := by
  induction targets generalizing σ vs with
  | nil => cases vs <;> exact meets_pure trivial
  | cons target targets ih =>
    simp only [exprsScopedIn, Bool.and_eq_true] at hts
    cases vs with
    | nil =>
      refine meets_bind (hm.store hts.1 hk .nil) fun _ τ hτ _ => ?_
      exact ih hts.2 (hk.mono hτ) []
    | cons v vs =>
      refine meets_bind (hm.store hts.1 hk v) fun _ τ hτ _ => ?_
      exact ih hts.2 (hk.mono hτ) vs

theorem storeField (t : Table) (key value : Value) :
    scoping.Meets (Machine.storeField t key value) σ fun _ _ => True := by
  unfold Machine.storeField
  split
  · exact meets_pure trivial
  · exact meets_fail nofun

theorem fields (hm : m.Scoped) {fs : List Field}
    (hfs : fieldsScopedIn names fs = true) (hk : σ.scopes.Knows scope names)
    (t : Table) (position : Float) :
    scoping.Meets (m.fields scope t position fs) σ fun _ _ => True := by
  induction fs generalizing σ t position with
  | nil => exact meets_pure trivial
  | cons f fs ih =>
    simp only [fieldsScopedIn, Bool.and_eq_true] at hfs
    cases f with
    | named key value =>
      refine meets_bind (hm.expr hfs.1 hk) fun v τ hτ _ => ?_
      refine meets_bind (storeField t _ v) fun t υ hυ _ => ?_
      exact ih hfs.2 ((hk.mono hτ).mono hυ) t position
    | keyed key value =>
      simp only [Field.scopedIn, Bool.and_eq_true] at hfs
      refine meets_bind (hm.expr hfs.1.1 hk) fun k τ hτ _ => ?_
      refine meets_bind (hm.expr hfs.1.2 (hk.mono hτ)) fun v υ hυ _ => ?_
      refine meets_bind (storeField t k v) fun t φ hφ _ => ?_
      exact ih hfs.2 (((hk.mono hτ).mono hυ).mono hφ) t position
    | item value =>
      refine meets_bind (hm.expr hfs.1 hk) fun v τ hτ _ => ?_
      refine meets_bind (storeField t _ v) fun t υ hυ _ => ?_
      exact ih hfs.2 ((hk.mono hτ).mono hυ) t (position + 1.0)

/-- The body of a closure runs in a scope that knows its parameters and all that
its own scope knows. -/
theorem callClosure (hm : m.Scoped) {c : Closure} (hc : c.ScopedIn σ.scopes)
    (args : List Value) :
    scoping.Meets (m.callClosure c args) σ fun _ _ => True := by
  unfold Machine.callClosure
  refine meets_bind depth_scoped fun n τ hτ _ => ?_
  split
  · exact meets_fail nofun
  · obtain ⟨names, hnames, hbody⟩ := hc.mono hτ
    refine meets_bind (openScope_scoped hnames c.params args)
      fun inner υ _ hinner => ?_
    have hnested :
        scoping.Meets (nested (m.block c.body inner)) υ fun _ _ => True :=
      nested_scoped fun υ' hsame =>
        (hm.block hbody (by rwa [hsame])).imp fun _ _ _ _ => trivial
    refine meets_bind hnested fun flow φ _ _ => ?_
    cases flow with
    | normal => exact meets_pure trivial
    | returned v => exact meets_pure trivial
    | broke => exact meets_fail nofun

theorem call (hm : m.Scoped) (f : Value) (args : List Value) :
    scoping.Meets (m.call f args) σ fun _ _ => True := by
  unfold Machine.call
  split
  · next id _ =>
    refine meets_bind (closure?_scoped id) fun c? τ _ hc? => ?_
    cases c? with
    | some c => exact hm.callClosure (hc? c rfl) args
    | none => exact meets_fail nofun
  · next id _ => exact native_scoped (hm.host id) args
  · exact meets_fail nofun

theorem callee (hm : m.Scoped) {e : Expr} (he : e.scopedIn names = true)
    (hk : σ.scopes.Knows scope names) :
    scoping.Meets (m.callee scope e) σ fun _ _ => True := by
  unfold Machine.callee
  split
  · simp only [Expr.scopedIn, Bool.and_eq_true] at he
    refine meets_bind (hm.expr he.1 hk) fun o τ hτ _ => ?_
    refine meets_bind (hm.memberKey he.2 (hk.mono hτ)) fun k υ _ _ => ?_
    exact meets_bind (index_scoped o k) fun _ _ _ _ => meets_pure trivial
  · exact meets_bind (hm.expr he hk) fun _ _ _ _ => meets_pure trivial

theorem evalBinary (hm : m.Scoped) {op : BinaryOp} {left right : Expr}
    (hl : left.scopedIn names = true) (hr : right.scopedIn names = true)
    (hk : σ.scopes.Knows scope names) :
    scoping.Meets (m.evalBinary scope op left right) σ fun _ _ => True := by
  unfold Machine.evalBinary
  refine meets_bind (hm.expr hl hk) fun a τ hτ _ => ?_
  have hright := hm.expr hr (hk.mono hτ)
  split
  · split
    · exact meets_pure trivial
    · exact hright
  · split
    · exact hright
    · exact meets_pure trivial
  · refine meets_bind hright fun b υ _ _ => ?_
    exact meets_ofExcept (fun _ _ => trivial) fun _ h =>
      scoping_error_of_operands (BinaryOp.apply_error h)

theorem evalExpr (hm : m.Scoped) {e : Expr} (he : e.scopedIn names = true)
    (hk : σ.scopes.Knows scope names) :
    scoping.Meets (m.evalExpr e scope) σ fun _ _ => True := by
  cases e with
  | name x =>
    exact lookup_scoped (hk.binds x (by simpa [Expr.scopedIn] using he))
  | nil | bool _ | number _ | string _ => exact meets_pure trivial
  | unary op operand =>
    refine meets_bind (hm.expr he hk) fun v τ _ _ => ?_
    exact meets_ofExcept (fun _ _ => trivial) fun _ h =>
      scoping_error_of_operands (UnaryOp.apply_error h)
  | binary op left right =>
    simp only [Expr.scopedIn, Bool.and_eq_true] at he
    exact hm.evalBinary he.1 he.2 hk
  | call callee args =>
    simp only [Expr.scopedIn, Bool.and_eq_true] at he
    refine meets_bind (hm.callee he.1 hk) fun f τ hτ _ => ?_
    refine meets_bind (hm.exprs he.2 (hk.mono hτ)) fun others υ _ _ => ?_
    exact hm.call f.1 (f.2 ++ others)
  | member object access key =>
    simp only [Expr.scopedIn, Bool.and_eq_true] at he
    have hread : scoping.Meets (do
        let o ← m.expr object scope
        let k ← m.memberKey access key scope
        index o k) σ fun _ _ => True := by
      refine meets_bind (hm.expr he.1 hk) fun o τ hτ _ => ?_
      refine meets_bind (hm.memberKey he.2 (hk.mono hτ)) fun k υ _ _ => ?_
      exact index_scoped o k
    cases access with
    | dot => exact hread
    | bracket => exact hread
    | colon => exact meets_fail nofun
  | assign targets values =>
    simp only [Expr.scopedIn, Bool.and_eq_true] at he
    refine meets_bind (hm.exprs he.2 hk) fun vs τ hτ _ => ?_
    exact meets_bind (hm.storeAll he.1 (hk.mono hτ) vs) fun _ _ _ _ =>
      meets_pure trivial
  | table fs =>
    refine meets_bind (hm.fields he hk .empty 1.0) fun t τ _ _ => ?_
    exact makeTable_scoped t
  | function params body => exact makeClosure_scoped ⟨names, hk.binds, he⟩

theorem blockIn (hm : m.Scoped) {body : Block}
    (hbody : statsScopedIn names body = true)
    (hk : σ.scopes.Knows scope names) :
    scoping.Meets (m.blockIn scope body) σ fun _ _ => True := by
  refine meets_bind (openScope_scoped hk.binds [] []) fun inner τ _ hinner => ?_
  exact (hm.block hbody hinner).imp fun _ _ _ _ => trivial

theorem branch? (hm : m.Scoped) {cs : List Clause} {otherwise : Option Block}
    (hcs : clausesScopedIn names cs = true)
    (hother : ∀ block, otherwise = some block →
      statsScopedIn names block = true) (hk : σ.scopes.Knows scope names) :
    scoping.Meets (m.branch? scope otherwise cs) σ fun block? _ =>
      ∀ block, block? = some block → statsScopedIn names block = true := by
  induction cs generalizing σ with
  | nil => exact meets_pure hother
  | cons c cs ih =>
    obtain ⟨test, body⟩ := c
    simp only [clausesScopedIn, Clause.scopedIn, Bool.and_eq_true] at hcs
    refine meets_bind (hm.expr hcs.1.1 hk) fun v τ hτ _ => ?_
    split
    · apply meets_pure
      intro block hblock
      cases hblock
      exact hcs.1.2
    · exact ih hcs.2 (hk.mono hτ)

theorem rangeNumber (hm : m.Scoped) {e : Expr} (he : e.scopedIn names = true)
    (hk : σ.scopes.Knows scope names) (part : RangePart) :
    scoping.Meets (m.rangeNumber scope part e) σ fun _ _ => True := by
  refine meets_bind (hm.expr he hk) fun v τ _ _ => ?_
  split
  · exact meets_pure trivial
  · exact meets_fail nofun

theorem rangeTurn (hm : m.Scoped) {x : String} {body : Block}
    (hbody : statsScopedIn ([x] ++ names) body = true)
    (hk : σ.scopes.Knows scope names) (stop step current : Float) :
    scoping.Meets (m.rangeTurn scope x stop step body current) σ fun _ _ =>
      True := by
  unfold Machine.rangeTurn
  split
  · refine meets_bind (openScope_scoped hk.binds [x] _)
      fun inner τ _ hinner => ?_
    exact meets_bind (hm.block hbody hinner) fun _ _ _ _ => meets_pure trivial
  · exact meets_pure trivial

theorem nextRow? (hm : m.Scoped) (source : Value) :
    scoping.Meets (m.nextRow? source) σ fun _ _ => True := by
  unfold Machine.nextRow?
  split
  · exact advance_scoped _
  · refine meets_bind (hm.call _ []) fun v τ _ _ => ?_
    split <;> exact meets_pure trivial
  · refine meets_bind (hm.call _ []) fun v τ _ _ => ?_
    split <;> exact meets_pure trivial
  · exact meets_fail nofun

theorem eachTurn (hm : m.Scoped) {xs : List String} {body : Block}
    (hbody : statsScopedIn (xs ++ names) body = true)
    (hk : σ.scopes.Knows scope names) (source : Value) :
    scoping.Meets (m.eachTurn scope xs source body) σ fun _ _ => True := by
  refine meets_bind (hm.nextRow? source) fun row? τ hτ _ => ?_
  cases row? with
  | some row =>
    refine meets_bind (openScope_scoped (hk.mono hτ).binds xs row)
      fun inner υ _ hinner => ?_
    exact meets_bind (hm.block hbody hinner) fun _ _ _ _ => meets_pure trivial
  | none => exact meets_pure trivial

theorem whileTurn (hm : m.Scoped) {test : Expr} {body : Block}
    (htest : test.scopedIn names = true)
    (hbody : statsScopedIn names body = true)
    (hk : σ.scopes.Knows scope names) :
    scoping.Meets (m.whileTurn scope test body) σ fun _ _ => True := by
  refine meets_bind (hm.expr htest hk) fun v τ hτ _ => ?_
  split
  · exact meets_bind (hm.blockIn hbody (hk.mono hτ)) fun _ _ _ _ =>
      meets_pure trivial
  · exact meets_pure trivial

/-- The condition is read only after a body that ended normally, when all its
names are bound. -/
theorem repeatTurn (hm : m.Scoped) {test : Expr} {body : Block}
    (hbody : statsScopedIn names body = true)
    (htest : test.scopedIn (body.flatMap Stat.declares ++ names) = true)
    (hk : σ.scopes.Knows scope names) :
    scoping.Meets (m.repeatTurn scope body test) σ fun _ _ => True := by
  refine meets_bind (openScope_scoped hk.binds [] []) fun inner τ _ hinner => ?_
  refine meets_bind (hm.block hbody hinner) fun flow υ _ hflow => ?_
  cases flow with
  | normal =>
    refine meets_bind (hm.expr htest (hflow rfl)) fun v φ _ _ => ?_
    split <;> exact meets_pure trivial
  | broke => exact meets_pure trivial
  | returned v => exact meets_pure trivial

/-- A function statement with a bare name makes a closure and binds it at once,
so that the body knows the name as soon as the closure can be reached. -/
theorem makeClosure_define {name x : String} {params : List String}
    {body : Block}
    (hbody : statsScopedIn (params ++ ([x] ++ names)) body = true)
    (hk : σ.scopes.Knows scope names) :
    scoping.Meets (do
      let f ← makeClosure name ⟨params, body, scope⟩
      define scope [x] [f]
      return Flow.normal) σ fun _ τ => τ.scopes.Knows scope ([x] ++ names) := by
  intro hinv
  obtain ⟨scopes, closures, heap, depth⟩ := σ
  let f := Value.ref (.closure closures.size name)
  have hgrows : scopes.Grows (scopes.defineAll scope [x] [f]) :=
    Scopes.grows_defineAll _ _ _ _
  have hknows : (scopes.defineAll scope [x] [f]).Knows scope ([x] ++ names) :=
    (Scopes.knows_defineAll hk.lt_size [x] [f]).append (hk.mono hgrows)
  refine ⟨fun c hc => ?_, hgrows, hknows⟩
  rcases Array.mem_push.mp hc with hold | hnew
  · exact (hinv c hold).mono hgrows
  · rw [hnew]
    exact ⟨[x] ++ names, hknows.binds, hbody⟩

theorem functionStat (hm : m.Scoped) {target : Option Expr} {isLocal : Bool}
    {params : List String} {body : Block}
    (hs : (Stat.function target isLocal params body).scopedIn names = true)
    (hk : σ.scopes.Knows scope names) :
    scoping.Meets (m.evalStat (.function target isLocal params body) scope) σ
      fun _ τ =>
      τ.scopes.Knows scope (functionNames target ++ names) := by
  cases target with
  | none =>
    refine meets_bind (makeClosure_scoped ⟨names, hk.binds, hs⟩)
      fun f τ hτ _ => ?_
    exact meets_bind (P := fun _ _ => False) (meets_fail nofun)
      fun _ _ _ hfalse => hfalse.elim
  | some target =>
    simp only [Stat.scopedIn, Bool.and_eq_true] at hs
    cases target with
    | name x => exact makeClosure_define hs.2 hk
    | member object access key =>
      simp only [Expr.isName, Bool.false_or, Expr.scopedIn, Bool.and_eq_true]
        at hs
      refine meets_bind (makeClosure_scoped ⟨names, hk.binds, hs.2⟩)
        fun f τ hτ _ => ?_
      have hτk := hk.mono hτ
      have hstore : scoping.Meets (m.storeFunction scope
            (some (.member object access key)) f) τ fun _ _ => True := by
        refine meets_bind (hm.expr hs.1.1 hτk) fun t υ hυ _ => ?_
        refine meets_bind (hm.memberKey hs.1.2 (hτk.mono hυ)) fun k φ _ _ => ?_
        exact setIndex_scoped t k f
      exact meets_bind hstore fun _ υ hυ _ => meets_pure (hτk.mono hυ)
    | _ =>
      refine meets_bind (makeClosure_scoped ⟨names, hk.binds, hs.2⟩)
        fun f τ hτ _ => ?_
      exact meets_bind (P := fun _ _ => False) (meets_fail nofun)
        fun _ _ _ hfalse => hfalse.elim

theorem evalStat (hm : m.Scoped) {s : Stat} (hs : s.scopedIn names = true)
    (hk : σ.scopes.Knows scope names) :
    scoping.Meets (m.evalStat s scope) σ fun flow τ =>
      flow = .normal → τ.scopes.Knows scope (s.declares ++ names) := by
  -- a statement that declares nothing has only to keep the contract
  have keeps :
      ∀ {action : Action Flow}, scoping.Meets action σ (fun _ _ => True) →
      scoping.Meets action σ fun flow τ => flow = .normal →
        τ.scopes.Knows scope ([] ++ names) :=
    fun h => h.imp fun _ _ hτ _ _ => hk.mono hτ
  cases s with
  | «do» body => exact keeps (hm.blockIn hs hk)
  | «break» => exact meets_pure nofun
  | «return» values =>
    exact meets_bind (hm.exprs hs hk) fun _ _ _ _ => meets_pure nofun
  | expr e =>
    exact keeps (meets_bind (hm.expr hs hk) fun _ _ _ _ => meets_pure trivial)
  | function target isLocal params body =>
    exact (hm.functionStat hs hk).imp fun _ _ _ hknows _ => hknows
  | «local» xs values =>
    refine meets_bind (hm.exprs hs hk) fun vs τ hτ _ => ?_
    have hτk := hk.mono hτ
    refine meets_bind (define_scoped hτk.lt_size xs vs) fun _ υ hυ hxs => ?_
    exact meets_pure fun _ => hxs.append (hτk.mono hυ)
  | «if» test body cs otherwise =>
    have hparts :
        (test.scopedIn names = true ∧ statsScopedIn names body = true) ∧
        clausesScopedIn names cs = true := by
      cases otherwise with
      | none => simpa only [Stat.scopedIn, Bool.and_eq_true] using hs
      | some block =>
        simp only [Stat.scopedIn, Bool.and_eq_true] at hs
        exact hs.1
    have hotherwise : ∀ block, otherwise = some block →
        statsScopedIn names block = true := by
      rintro block rfl
      simp only [Stat.scopedIn, Bool.and_eq_true] at hs
      exact hs.2
    have hcases : clausesScopedIn names (.mk test body :: cs) = true := by
      simp [clausesScopedIn, Clause.scopedIn, hparts]
    refine keeps (meets_bind (hm.branch? hcases hotherwise hk)
        fun block? τ hτ hblock => ?_)
    cases block? with
    | some block => exact hm.blockIn (hblock block rfl) (hk.mono hτ)
    | none => exact meets_pure trivial
  | forRange x start stop step body =>
    simp only [Stat.scopedIn, Bool.and_eq_true] at hs
    obtain ⟨⟨⟨hstart, hstop⟩, hstep⟩, hbody⟩ := hs
    refine keeps (meets_bind (hm.rangeNumber hstart hk _) fun a τ hτ _ => ?_)
    refine meets_bind (hm.rangeNumber hstop (hk.mono hτ) _) fun b υ hυ _ => ?_
    refine meets_bind (hm.rangeNumber hstep ((hk.mono hτ).mono hυ) _)
      fun c φ hφ _ => ?_
    have hφk := ((hk.mono hτ).mono hυ).mono hφ
    refine meets_loop (fun current ψ hψ => ?_) m.rounds a
    exact (hm.rangeTurn hbody (hφk.mono hψ) b c current).imp
      fun _ _ _ _ _ _ => trivial
  | forEach xs source body =>
    simp only [Stat.scopedIn, Bool.and_eq_true] at hs
    refine keeps (meets_bind (hm.expr hs.1 hk) fun v τ hτ _ => ?_)
    refine meets_loop (fun _ υ hυ => ?_) m.rounds ()
    exact (hm.eachTurn hs.2 ((hk.mono hτ).mono hυ) v).imp
      fun _ _ _ _ _ _ => trivial
  | «while» test body =>
    simp only [Stat.scopedIn, Bool.and_eq_true] at hs
    refine keeps (meets_loop (fun _ τ hτ => ?_) m.rounds ())
    exact (hm.whileTurn hs.1 hs.2 (hk.mono hτ)).imp fun _ _ _ _ _ _ => trivial
  | «repeat» body test =>
    simp only [Stat.scopedIn, Bool.and_eq_true] at hs
    refine keeps (meets_loop (fun _ τ hτ => ?_) m.rounds ())
    exact (hm.repeatTurn hs.1 hs.2 (hk.mono hτ)).imp fun _ _ _ _ _ _ => trivial

theorem evalBlock (hm : m.Scoped) {body : Block}
    (hbody : statsScopedIn names body = true)
    (hk : σ.scopes.Knows scope names) :
    scoping.Meets (m.evalBlock body scope) σ fun flow τ =>
      flow = .normal →
        τ.scopes.Knows scope (body.flatMap Stat.declares ++ names) := by
  induction body generalizing σ names with
  | nil => exact meets_pure fun _ => hk
  | cons s ss ih =>
    simp only [statsScopedIn, Bool.and_eq_true] at hbody
    refine meets_bind (hm.evalStat hbody.1 hk) fun flow τ _ hflow => ?_
    cases flow with
    | normal =>
      refine (ih hbody.2 (hflow rfl)).imp fun flow υ _ hknows hnormal => ?_
      have hknows := hknows hnormal
      refine ⟨hknows.lt_size, fun x hx => hknows.binds x ?_⟩
      rw [List.flatMap_cons, List.append_assoc, List.mem_append] at hx
      rw [List.mem_append, List.mem_append]
      rcases hx with hfirst | hrest
      · exact Or.inr (Or.inl hfirst)
      · exact (List.mem_append.mp hrest).imp id Or.inr
    | broke => exact meets_pure nofun
    | returned v => exact meets_pure nofun

end Machine.Scoped

theorem Machine.scoped_ofFuel {host : Host} (hhost : ∀ id, (host id).KnowsNames)
    (limit fuel : Nat) :
    (Machine.ofFuel host limit fuel).Scoped := by
  induction fuel with
  | zero =>
    exact ⟨hhost, fun _ _ => meets_outOfFuel, fun _ _ => meets_outOfFuel⟩
  | succ n ih => exact ⟨hhost, ih.evalExpr, ih.evalBlock⟩

end LuaCore
