import LuaCore.Proofs.Tree.WellFormed
import LuaCore.Reader.Statement

namespace LuaCore

theorem exprsWellFormed_iff {es : List Expr} :
    exprsWellFormed es = true ↔ ∀ e ∈ es, e.wellFormed false = true := by
  induction es with
  | nil => simp [exprsWellFormed]
  | cons e es ih => simp [exprsWellFormed, ih]

theorem Expr.wellFormed_callee {e : Expr} (h : e.wellFormed false = true) :
    e.wellFormed true = true := by
  unfold Expr.wellFormed at h ⊢
  split at h <;> simp_all

theorem Stat.wellFormed_named (target : Expr) (params : List String)
    (body : Block) :
    (Stat.function (some target) false params body).wellFormed =
      (target.namesFunction params && blockWellFormed body) := by
  cases target <;> rfl

namespace Reader

/-- What holds of every value that a reader returns. -/
def Yields {α : Type} (p : Reader α) (P : α → Prop) : Prop :=
  ∀ ⦃c a d⦄, p c = .ok a d → P a

section Rules

variable {α β : Type} {p : Reader α} {f : α → Reader β} {P P' : α → Prop}
    {Q : β → Prop} {a : α}

theorem yields_pure (h : P a) : Yields (pure a) P := by
  rintro c b d ⟨⟩
  exact h

theorem yields_fail {fault : SyntaxFault} : Yields (fail fault) P := by
  intro c a d h
  simp [fail] at h

theorem Yields.imp (h : Yields p P) (hP : ∀ a, P a → P' a) : Yields p P' :=
  fun _ _ _ hrun => hP _ (h hrun)

theorem yields_bind (hp : Yields p P) (hf : ∀ a, P a → Yields (f a) Q) :
    Yields (p >>= f) Q := by
  intro c b d h
  obtain ⟨a, c', hp', hf'⟩ := bind_eq_ok.mp h
  exact hf a (hp hp') hf'

theorem yields_then (hf : ∀ a, Yields (f a) Q) : Yields (p >>= f) Q :=
  yields_bind (P := fun _ => True) (fun _ _ _ _ => trivial) fun a _ => hf a

theorem yields_madeExpr {e : Expr} {P : Expr → Prop} (h : P e) :
    Yields (madeExpr e) P :=
  yields_then fun _ => yields_pure h

theorem yields_madeStat {s : Stat} {P : Stat → Prop} (h : P s) :
    Yields (madeStat s) P :=
  yields_then fun _ => yields_pure h

theorem yields_madeField {f : Field} {P : Field → Prop} (h : P f) :
    Yields (madeField f) P :=
  yields_then fun _ => yields_pure h

theorem yields_afterCommas (hp : Yields p P) (rounds : Nat) :
    Yields (afterCommas p rounds) fun as => ∀ a ∈ as, P a := by
  induction rounds with
  | zero => exact yields_pure (by simp)
  | succ rounds ih =>
    refine yields_then fun more => ?_
    cases more with
    | false => exact yields_pure (by simp)
    | true =>
      refine yields_bind hp fun a ha => ?_
      refine yields_bind ih fun as has => ?_
      exact yields_pure (List.forall_mem_cons.mpr ⟨ha, has⟩)

theorem yields_separatedByCommas (hp : Yields p P) (rounds : Nat) :
    Yields (separatedByCommas p rounds) fun as => as ≠ [] ∧ ∀ a ∈ as, P a := by
  refine yields_bind hp fun a ha => ?_
  refine yields_bind (yields_afterCommas hp rounds) fun as has => ?_
  exact yields_pure ⟨List.cons_ne_nil _ _, List.forall_mem_cons.mpr ⟨ha, has⟩⟩

end Rules

end Reader

open Reader

/-- A well-formed statement that may stand before others; a `return`
ends its block. -/
def Stat.WellFormedAnywhere (s : Stat) : Prop :=
  s.wellFormed = true ∧ s.isReturn = false

/-- Blocks and operands one level deeper are well-formed. -/
structure Deeper.WellFormed (deeper : Deeper) : Prop where
  block : Yields deeper.block fun body => blockWellFormed body = true
  operand : ∀ limit,
    Yields (deeper.operand limit) fun e => e.wellFormed false = true

namespace Deeper.WellFormed

variable {deeper : Deeper}

theorem expr (h : deeper.WellFormed) :
    Yields deeper.expr fun e => e.wellFormed false = true :=
  h.operand 1

theorem exprs (h : deeper.WellFormed) :
    Yields deeper.exprs fun es => es.isEmpty = false ∧
      exprsWellFormed es = true :=
  (yields_separatedByCommas h.expr deeper.rounds).imp fun _ hes =>
    ⟨List.isEmpty_eq_false_iff.mpr hes.1, exprsWellFormed_iff.mpr hes.2⟩

theorem functionBody (h : deeper.WellFormed) (isMethod : Bool) (opened : Nat) :
    Yields (functionBody deeper isMethod opened) fun f =>
      (isMethod = true → f.1.head? = some "self") ∧
        blockWellFormed f.2 = true := by
  have afterSelf : Yields (do
      let params ←
        if ← check (.symbol .rightParen) then pure []
        else separatedByCommas functionBody.param deeper.rounds
      expect (.symbol .rightParen)
      let body ← deeper.block
      expectClosing (.keyword .end) (.keyword .function) opened
      return (if isMethod then "self" :: params else params, body)) fun f =>
        (isMethod = true → f.1.head? = some "self") ∧
          blockWellFormed f.2 = true := by
    have rest : ∀ params : List String, Yields (do
        expect (.symbol .rightParen)
        let body ← deeper.block
        expectClosing (.keyword .end) (.keyword .function) opened
        return (if isMethod then "self" :: params else params, body)) fun f =>
          (isMethod = true → f.1.head? = some "self") ∧
            blockWellFormed f.2 = true := by
      intro params
      refine yields_then fun _ => yields_bind h.block fun body hbody =>
        yields_then fun _ => ?_
      exact yields_pure ⟨fun hmethod => by simp [hmethod], hbody⟩
    refine yields_then fun closed => ?_
    cases closed with
    | false => exact yields_then rest
    | true => exact rest []
  refine yields_then fun _ => ?_
  cases isMethod with
  | false => exact afterSelf
  | true => exact yields_then fun _ => afterSelf

theorem field (h : deeper.WellFormed) :
    Yields (field deeper) fun f => f.wellFormed = true := by
  refine yields_then fun keyed => ?_
  cases keyed with
  | true =>
    refine yields_bind h.expr fun key hkey => yields_then fun _ =>
      yields_then fun _ => ?_
    refine yields_bind h.expr fun value hvalue => yields_madeField ?_
    simp [Field.wellFormed, hkey, hvalue]
  | false =>
    refine yields_bind h.expr fun first hfirst => yields_then fun assigned => ?_
    cases assigned with
    | false => exact yields_madeField hfirst
    | true =>
      cases first with
      | name key =>
        exact yields_then fun _ => yields_bind h.expr fun value hvalue =>
          yields_madeField hvalue
      | _ => exact yields_fail

theorem fields (h : deeper.WellFormed) (rounds : Nat) :
    Yields (fields deeper rounds) fun fs => fieldsWellFormed fs = true := by
  induction rounds with
  | zero => exact yields_pure rfl
  | succ rounds ih =>
    refine yields_then fun closed => ?_
    cases closed with
    | true => exact yields_pure rfl
    | false =>
      refine yields_bind h.field fun f hf => yields_then fun more => ?_
      cases more with
      | true =>
        refine yields_bind ih fun fs hfs => yields_pure ?_
        simp [fieldsWellFormed, hf, hfs]
      | false => exact yields_pure (by simp [fieldsWellFormed, hf])

theorem table (h : deeper.WellFormed) (isCallee : Bool) :
    Yields (table deeper) fun e => e.wellFormed isCallee = true :=
  yields_then fun _ => yields_then fun _ =>
    yields_bind (h.fields _) fun _ hfs =>
    yields_then fun _ => yields_madeExpr hfs

theorem arguments (h : deeper.WellFormed) :
    Yields (arguments deeper) fun es => exprsWellFormed es = true := by
  refine yields_then fun kind => ?_
  split
  · refine yields_then fun _ => yields_bind
      (yields_madeExpr (P := fun e => e.wellFormed false = true) rfl)
      fun e he => yields_pure ?_
    simp [exprsWellFormed, he]
  · refine yields_bind (h.table false) fun e he => yields_pure ?_
    simp [exprsWellFormed, he]
  · refine yields_then fun _ => yields_then fun _ =>
      yields_then fun closed => ?_
    cases closed with
    | true => exact yields_pure rfl
    | false =>
      exact yields_bind h.exprs fun args hargs => yields_then fun _ =>
        yields_pure hargs.2
  · exact yields_fail

theorem prefixExpr (h : deeper.WellFormed) :
    Yields (prefixExpr deeper) fun e => e.wellFormed false = true := by
  refine yields_then fun kind => ?_
  split
  · exact yields_then fun _ => yields_pure rfl
  · refine yields_then fun _ => yields_then fun _ =>
      yields_bind h.expr fun e he => ?_
    exact yields_then fun _ => yields_pure he
  · exact yields_fail

/-- A method reference is made only to be called at once. -/
theorem link? (h : deeper.WellFormed) {e : Expr}
    (he : e.wellFormed false = true) :
    Yields (link? deeper e) fun longer => ∀ e', longer = some e' →
      e'.wellFormed false = true := by
  have called : ∀ callee : Expr, callee.wellFormed true = true → Yields (do
      let args ← Reader.arguments deeper
      return some (← madeExpr (.call callee args))) fun longer =>
        ∀ e', longer = some e' → e'.wellFormed false = true := by
    intro callee hcallee
    refine yields_bind h.arguments fun args hargs => ?_
    refine yields_bind (yields_madeExpr
        (P := fun e => e.wellFormed false = true) ?_) fun e' he' => ?_
    · simp [Expr.wellFormed, hcallee, hargs]
    · exact yields_pure (by simpa using he')
  refine yields_then fun kind => ?_
  split
  · refine yields_then fun _ => yields_then fun key => ?_
    refine yields_bind (yields_madeExpr
        (P := fun e => e.wellFormed false = true) he) fun e' he' => ?_
    exact yields_pure (by simpa using he')
  · refine yields_then fun _ => yields_bind h.expr fun key hkey =>
      yields_then fun _ => ?_
    refine yields_bind (yields_madeExpr
        (P := fun e => e.wellFormed false = true) ?_) fun e' he' => ?_
    · simp [Expr.wellFormed, he, hkey]
    · exact yields_pure (by simpa using he')
  · refine yields_then fun _ => yields_then fun key => ?_
    refine yields_bind
      (yields_madeExpr (P := fun e => e.wellFormed true = true) ?_) called
    simp [Expr.wellFormed, he]
  · exact called e (Expr.wellFormed_callee he)
  · exact called e (Expr.wellFormed_callee he)
  · exact called e (Expr.wellFormed_callee he)
  · exact yields_pure nofun

theorem links (h : deeper.WellFormed) (rounds : Nat) {e : Expr}
    (he : e.wellFormed false = true) :
    Yields (links deeper rounds e) fun e => e.wellFormed false = true := by
  induction rounds generalizing e with
  | zero => exact yields_pure he
  | succ rounds ih =>
    refine yields_bind (h.link? he) fun longer hlonger => ?_
    cases longer with
    | some longer => exact ih (hlonger longer rfl)
    | none => exact yields_pure he

theorem primary (h : deeper.WellFormed) :
    Yields (primary deeper) fun e => e.wellFormed false = true :=
  yields_bind h.prefixExpr fun _ he => h.links _ he

theorem simple (h : deeper.WellFormed) :
    Yields (simple deeper) fun e => e.wellFormed false = true := by
  have literal : ∀ e : Expr, e.wellFormed false = true →
      Yields (literal e) fun e => e.wellFormed false = true :=
    fun e he => yields_then fun _ => yields_madeExpr he
  refine yields_then fun kind => ?_
  split
  · exact literal _ rfl
  · exact literal _ rfl
  · exact literal _ rfl
  · exact literal _ rfl
  · exact literal _ rfl
  · exact h.table false
  · refine yields_then fun opened => yields_then fun _ => ?_
    exact yields_bind (h.functionBody false opened) fun f hf =>
      yields_madeExpr hf.2
  · exact yields_fail
  · exact h.primary

theorem unary (h : deeper.WellFormed) :
    Yields (unary deeper) fun e => e.wellFormed false = true := by
  refine yields_then fun kind => ?_
  split
  · exact yields_then fun _ => yields_bind (h.operand _) fun operand hoperand =>
      yields_madeExpr hoperand
  · exact h.simple

theorem operators (h : deeper.WellFormed) (limit rounds : Nat) {left : Expr}
    (hleft : left.wellFormed false = true) :
    Yields (operators deeper limit rounds left) fun e => e.wellFormed false =
      true := by
  induction rounds generalizing left with
  | zero => exact yields_pure hleft
  | succ rounds ih =>
    refine yields_then fun kind => ?_
    split
    · split
      · refine yields_then fun _ =>
          yields_bind (h.operand _) fun right hright => ?_
        refine yields_bind (yields_madeExpr
            (P := fun e => e.wellFormed false = true) ?_) fun e he => ih he
        simp [Expr.wellFormed, hleft, hright]
      · exact yields_pure hleft
    · exact yields_pure hleft

theorem readOperand (h : deeper.WellFormed) (limit : Nat) :
    Yields (Reader.operand deeper limit) fun e => e.wellFormed false = true :=
  yields_bind h.unary fun _ he => h.operators limit _ he

theorem returnStat (h : deeper.WellFormed) :
    Yields (returnStat deeper) fun s => s.wellFormed = true := by
  refine yields_then fun _ => yields_then fun kind => ?_
  split
  · exact yields_madeStat rfl
  · exact yields_bind h.exprs fun values hvalues => yields_madeStat hvalues.2

theorem dottedName (rounds : Nat) {target : Expr}
    (ht : target.isDotted = true) :
    Yields (dottedName rounds target) fun e => e.isDotted = true := by
  induction rounds generalizing target with
  | zero => exact yields_pure ht
  | succ rounds ih =>
    refine yields_then fun more => ?_
    cases more with
    | true =>
      refine yields_then fun key => ?_
      exact yields_bind (yields_madeExpr (P := fun e => e.isDotted = true) ht)
        fun _ he => ih he
    | false => exact yields_pure ht

theorem namedFunction (h : deeper.WellFormed) {isMethod : Bool} {target : Expr}
    (opened : Nat)
    (htarget :
      (if isMethod then target.isMethodName else target.isDotted) = true) :
    Yields (do
      let (params, body) ← Reader.functionBody deeper isMethod opened
      madeStat (.function (some target) false params body))
        Stat.WellFormedAnywhere := by
  refine yields_bind (h.functionBody isMethod opened) fun f hf =>
    yields_madeStat ⟨?_, rfl⟩
  rw [Stat.wellFormed_named]
  cases isMethod with
  | true =>
    have hmethod : target.isMethodName = true := htarget
    simp [Expr.namesFunction, hmethod, hf.1 rfl, hf.2]
  | false =>
    have hdotted : target.isDotted = true := htarget
    simp [Expr.namesFunction, hdotted, hf.2]

theorem functionStat (h : deeper.WellFormed) :
    Yields (functionStat deeper) Stat.WellFormedAnywhere := by
  refine yields_then fun opened => yields_then fun _ =>
    yields_then fun first => ?_
  have hfirst : (Expr.name first).isDotted = true := rfl
  refine yields_bind (dottedName deeper.rounds hfirst) fun owner howner => ?_
  refine yields_then fun isMethod => ?_
  cases isMethod with
  | true =>
    refine yields_then fun key => ?_
    have hmade := yields_madeExpr (e := .member owner .colon (.name key))
      (P := (·.isMethodName = true)) howner
    exact yields_bind hmade fun _ htarget => h.namedFunction opened htarget
  | false => exact h.namedFunction opened howner

theorem localStat (h : deeper.WellFormed) (opened : Nat) :
    Yields (localStat deeper opened) Stat.WellFormedAnywhere := by
  refine yields_then fun _ => yields_then fun isFunction => ?_
  cases isFunction with
  | true =>
    refine yields_then fun x => ?_
    exact yields_bind (h.functionBody false opened) fun f hf =>
      yields_madeStat ⟨hf.2, rfl⟩
  | false =>
    refine yields_bind (yields_separatedByCommas (P := fun _ => True)
        (fun _ _ _ _ => trivial) _) fun names hnames => ?_
    have hnames : names.isEmpty = false :=
      List.isEmpty_eq_false_iff.mpr hnames.1
    refine yields_then fun assigned => ?_
    cases assigned with
    | true =>
      refine yields_bind h.exprs fun values hvalues => yields_madeStat ⟨?_, rfl⟩
      simp [Stat.wellFormed, hnames, hvalues.2]
    | false =>
      exact yields_madeStat
        ⟨by simp [Stat.wellFormed, hnames, exprsWellFormed], rfl⟩

theorem branch (h : deeper.WellFormed) :
    Yields (branch deeper) fun b => b.1.wellFormed false = true ∧
      blockWellFormed b.2 = true :=
  yields_bind h.expr fun _ htest => yields_then fun _ =>
    yields_bind h.block fun _ hbody =>
    yields_pure ⟨htest, hbody⟩

theorem clauses (h : deeper.WellFormed) (rounds : Nat) :
    Yields (clauses deeper rounds) fun cs => clausesWellFormed cs = true := by
  induction rounds with
  | zero => exact yields_pure rfl
  | succ rounds ih =>
    refine yields_then fun more => ?_
    cases more with
    | true =>
      refine yields_bind h.branch fun b hb => yields_then fun _ => ?_
      refine yields_bind ih fun cs hcs => yields_pure ?_
      simp [clausesWellFormed, Clause.wellFormed, hb, hcs]
    | false => exact yields_pure rfl

theorem ifStat (h : deeper.WellFormed) :
    Yields (ifStat deeper) Stat.WellFormedAnywhere := by
  refine yields_then fun opened => yields_then fun _ => ?_
  refine yields_bind h.branch fun b hb =>
    yields_bind (h.clauses _) fun cs hcs => ?_
  have rest : ∀ otherwise : Option Block,
      (∀ block, otherwise = some block → blockWellFormed block = true) →
      Yields (do
        expectClosing (.keyword .end) (.keyword .if) opened
        madeStat (.if b.1 b.2 cs otherwise)) Stat.WellFormedAnywhere := by
    intro otherwise hotherwise
    refine yields_then fun _ => yields_madeStat ⟨?_, rfl⟩
    cases otherwise with
    | none => simp [Stat.wellFormed, hb, hcs]
    | some block => simp [Stat.wellFormed, hb, hcs, hotherwise block rfl]
  refine yields_then fun more => ?_
  cases more with
  | true =>
    exact yields_bind h.block fun block hblock =>
      rest (some block) (by simpa using hblock)
  | false => exact rest none (by simp)

theorem loopBody (h : deeper.WellFormed) (opener : Keyword) (opened : Nat) :
    Yields (loopBody deeper opener opened)
      fun body => blockWellFormed body = true :=
  yields_then fun _ => yields_bind h.block fun _ hbody => yields_then fun _ =>
    yields_pure hbody

theorem rangeLoop (h : deeper.WellFormed) (x : String) (opened : Nat) :
    Yields (rangeLoop deeper x opened) Stat.WellFormedAnywhere := by
  refine yields_then fun _ => yields_bind h.expr fun start hstart =>
    yields_then fun _ => ?_
  refine yields_bind h.expr fun stop hstop => yields_then fun more => ?_
  have rest : ∀ step : Expr, step.wellFormed false = true → Yields (do
      let body ← Reader.loopBody deeper .for opened
      madeStat (.forRange x start stop step body)) Stat.WellFormedAnywhere := by
    intro step hstep
    refine yields_bind (h.loopBody _ _) fun body hbody =>
      yields_madeStat ⟨?_, rfl⟩
    simp [Stat.wellFormed, hstart, hstop, hstep, hbody]
  cases more with
  | true => exact yields_bind h.expr rest
  | false =>
    exact yields_bind
      (yields_madeExpr (P := fun e => e.wellFormed false = true) rfl) rest

theorem eachLoop (h : deeper.WellFormed) (first : String) (opened : Nat) :
    Yields (eachLoop deeper first opened) Stat.WellFormedAnywhere := by
  refine yields_then fun others => yields_then fun _ =>
    yields_bind h.expr fun source hsource => ?_
  refine yields_bind (h.loopBody _ _) fun body hbody =>
    yields_madeStat ⟨?_, rfl⟩
  simp [Stat.wellFormed, hsource, hbody]

theorem forStat (h : deeper.WellFormed) :
    Yields (forStat deeper) Stat.WellFormedAnywhere := by
  refine yields_then fun opened => yields_then fun _ => yields_then fun first =>
    yields_then fun kind => ?_
  split
  · exact h.rangeLoop first opened
  · exact h.eachLoop first opened
  · exact h.eachLoop first opened
  · exact yields_fail

theorem assignTarget {e : Expr} (he : e.wellFormed false = true) :
    Yields (assignTarget e) fun t => t.isTarget = true ∧
      t.wellFormed false = true := by
  unfold Reader.assignTarget
  split
  · exact yields_pure ⟨rfl, he⟩
  · exact yields_pure ⟨rfl, he⟩
  · exact yields_fail

theorem exprStat (h : deeper.WellFormed) :
    Yields (exprStat deeper) Stat.WellFormedAnywhere := by
  refine yields_bind h.primary fun first hfirst => yields_then fun kind => ?_
  have assigned : Yields (do
      let target ← Reader.assignTarget first
      let others ← Reader.afterCommas
        (do Reader.assignTarget (← Reader.primary deeper)) deeper.rounds
      expect (.symbol .assign)
      let values ← deeper.exprs
      let e ← madeExpr (.assign (target :: others) values)
      madeStat (.expr e)) Stat.WellFormedAnywhere := by
    refine yields_bind (assignTarget hfirst) fun target htarget => ?_
    have hother := yields_bind h.primary fun _ he => assignTarget he
    refine yields_bind (yields_afterCommas hother _) fun others hothers =>
      yields_then fun _ => ?_
    refine yields_bind h.exprs fun values hvalues => ?_
    have hall : ∀ t ∈ target :: others, t.isTarget = true ∧
        t.wellFormed false = true :=
      List.forall_mem_cons.mpr ⟨htarget, hothers⟩
    have htargets : (target :: others).all Expr.isTarget = true :=
      List.all_eq_true.mpr fun t ht => (hall t ht).1
    have hwf : exprsWellFormed (target :: others) = true :=
      exprsWellFormed_iff.mpr fun t ht => (hall t ht).2
    refine yields_bind
      (yields_madeExpr (P := fun e => (Stat.expr e).wellFormed = true) ?_)
      fun e he => yields_madeStat ⟨he, rfl⟩
    simp only [Stat.wellFormed, htargets, hwf, hvalues.1, hvalues.2]
    rfl
  split
  · exact assigned
  · exact assigned
  · cases first with
    | call callee args => exact yields_madeStat ⟨hfirst, rfl⟩
    | _ => exact yields_fail

theorem stat (h : deeper.WellFormed) :
    Yields (stat deeper) Stat.WellFormedAnywhere := by
  refine yields_then fun opened => yields_then fun kind => ?_
  split
  · refine yields_then fun _ => yields_bind h.block fun body hbody => ?_
    exact yields_then fun _ => yields_madeStat ⟨hbody, rfl⟩
  · exact yields_then fun _ => yields_madeStat ⟨rfl, rfl⟩
  · exact h.functionStat
  · exact h.localStat opened
  · exact h.ifStat
  · exact h.forStat
  · refine yields_then fun _ => yields_bind h.expr fun test htest => ?_
    refine yields_bind (h.loopBody _ _) fun body hbody =>
      yields_madeStat ⟨?_, rfl⟩
    simp [Stat.wellFormed, htest, hbody]
  · refine yields_then fun _ => yields_bind h.block fun body hbody =>
      yields_then fun _ => ?_
    refine yields_bind h.expr fun test htest => yields_madeStat ⟨?_, rfl⟩
    simp [Stat.wellFormed, htest, hbody]
  · exact h.exprStat

theorem stats (h : deeper.WellFormed) (rounds : Nat) :
    Yields (stats deeper rounds) fun body => blockWellFormed body = true := by
  induction rounds with
  | zero => exact yields_pure rfl
  | succ rounds ih =>
    refine yields_then fun kind => ?_
    split
    · exact yields_pure rfl
    · split
      · refine yields_bind h.returnStat fun s hs => yields_then fun _ =>
          yields_pure ?_
        simp [blockWellFormed, hs]
      · refine yields_bind h.stat fun s hs => yields_then fun _ => ?_
        refine yields_bind ih fun body hbody => yields_pure ?_
        simp [blockWellFormed, hs.1, hs.2, hbody]

theorem readBlock (h : deeper.WellFormed) :
    Yields (Reader.block deeper) fun body => blockWellFormed body = true :=
  yields_bind (h.stats _) fun _ hbody => yields_then fun _ => yields_pure hbody

theorem ofLevels (rounds levels : Nat) :
    (Deeper.ofLevels rounds levels).WellFormed := by
  induction levels with
  -- at the last level nothing can be read
  | zero => exact ⟨yields_fail, fun _ => yields_fail⟩
  | succ levels ih => exact ⟨ih.readBlock, ih.readOperand⟩

end Deeper.WellFormed

theorem Chunk.wellFormed_of_ofSource {source : String} {c : Chunk}
    (h : Chunk.ofSource source = .ok c) :
    c.body.WellFormed := by
  have hyields : Yields (Reader.chunk
        (.ofLevels ((Tokens.ofSource source).list.length + 1) maxLevels))
      fun c => c.body.WellFormed := by
    refine yields_then fun _ => ?_
    refine yields_bind (Deeper.WellFormed.ofLevels _ maxLevels).block
      fun body hbody => ?_
    refine yields_then fun ended => ?_
    cases ended with
    | true => exact yields_then fun _ => yields_then fun _ => yields_pure hbody
    | false => exact yields_bind (P := fun _ => False) yields_fail nofun
  unfold Chunk.ofSource at h
  split at h
  · next c' d hread =>
    cases h
    exact hyields hread
  · cases h

end LuaCore
