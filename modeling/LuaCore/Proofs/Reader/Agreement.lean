import LuaCore.Proofs.Reader.Lockstep

namespace LuaCore

open Reader Pairing

/-- Blocks and operands one level deeper agree, and loops have turns for all
tokens. A block ends where its source ends, so nothing is asked of it there. -/
structure Deeper.Alike (P : Pairing) (deeper deeper' : Deeper) : Prop where
  block : P.relaxed.Agrees deeper.block deeper'.block
  operand : ∀ limit, P.Takes (deeper.operand limit) (deeper'.operand limit)
  rounds : P.bound ≤ deeper.rounds ∧ P.bound ≤ deeper'.rounds

namespace Deeper.Alike

variable {P : Pairing} {deeper deeper' : Deeper} {n : Nat}

theorem expr (h : deeper.Alike P deeper') : P.Agrees deeper.expr deeper'.expr :=
  (h.operand 1).agrees

theorem exprs (h : deeper.Alike P deeper') :
    P.Agrees deeper.exprs deeper'.exprs :=
  agrees_separatedByCommas h.rounds h.expr

theorem param : P.Agrees functionBody.param functionBody.param := fun n =>
  within_check rfl (within_fail (fun _ => rfl) _)
    (takes_name.agrees.within fun _ => Nat.le_refl n)

theorem functionBody (h : deeper.Alike P deeper') (isMethod : Bool)
    {opened opened' : Nat} (hopened : P.exact → opened = opened') :
    P.Agrees (functionBody deeper isMethod opened)
      (functionBody deeper' isMethod opened') := by
  intro n
  have rest : ∀ params : List String, P.Within (n - 1) (fun _ => n) (do
      expect (.symbol .rightParen)
      let body ← deeper.block
      expectClosing (.keyword .end) (.keyword .function) opened
      return (if isMethod then "self" :: params else params, body)) (do
      expect (.symbol .rightParen)
      let body ← deeper'.block
      expectClosing (.keyword .end) (.keyword .function) opened'
      return (if isMethod then "self" :: params else params, body)) := by
    intro params
    refine within_expect rfl
      (within_enclosed rfl hopened (h.block _) fun body => ?_)
    exact within_pure _ (Nat.sub_le n 1)
  have params : P.Within (n - 1) (fun _ => n) (do
      let params ←
        if ← check (.symbol .rightParen) then pure []
        else separatedByCommas functionBody.param deeper.rounds
      expect (.symbol .rightParen)
      let body ← deeper.block
      expectClosing (.keyword .end) (.keyword .function) opened
      return (if isMethod then "self" :: params else params, body)) (do
      let params ←
        if ← check (.symbol .rightParen) then pure []
        else separatedByCommas functionBody.param deeper'.rounds
      expect (.symbol .rightParen)
      let body ← deeper'.block
      expectClosing (.keyword .end) (.keyword .function) opened'
      return (if isMethod then "self" :: params else params, body)) := by
    refine within_check rfl (rest [] _) ?_
    exact within_after (agrees_separatedByCommas h.rounds param) rest
  refine within_bind (takes_expect ?_ n) fun _ => ?_
  · rfl
  cases isMethod with
  | true => exact within_build rfl params
  | false => exact params

theorem field (h : deeper.Alike P deeper') :
    P.Takes (field deeper) (field deeper') := by
  intro n
  refine within_consume rfl ?_ ?_
  · refine within_after h.expr fun key => ?_
    refine within_expect rfl ?_
    refine within_expect rfl ?_
    exact within_after h.expr fun value => agrees_madeField _ (n - 1)
  · refine within_taking (h.operand 1) fun first => ?_
    refine within_check rfl ?_ (agrees_madeField _ (n - 1))
    cases first with
    | name key =>
      refine at_next rfl (within_after h.expr fun value => ?_)
      exact (agrees_madeField _).within fun _ => Nat.sub_le _ _
    | _ => exact within_fail (fun _ => rfl) _

theorem fieldTurn (h : deeper.Alike P deeper') :
    P.relaxed.TakesItems (fieldTurn deeper) (fieldTurn deeper') := by
  intro n
  have separator : P.relaxed.Within (n - 1) (fun _ => n - 1) (do
        if ← consume (.symbol .comma) then pure true
        else consume (.symbol .semicolon)) (do
        if ← consume (.symbol .comma) then pure true
        else consume (.symbol .semicolon)) :=
    within_consume rfl (within_pure true (Nat.sub_le _ _))
      (agrees_skipped (n - 1))
  refine within_check rfl (within_pure Yield.stop (Nat.le_refl n) _) ?_
  refine within_taking h.field.relax fun f =>
    within_bind separator fun more => ?_
  cases more with
  | true => exact within_pure (Yield.more f) (Nat.le_refl _)
  | false => exact within_pure (Yield.last f) (Nat.le_refl _)

theorem fields (h : deeper.Alike P deeper') :
    P.relaxed.Agrees (fields deeper deeper.rounds)
      (fields deeper' deeper'.rounds) := by
  rw [fields_eq, fields_eq]
  exact agrees_items (P := P.relaxed) h.rounds h.fieldTurn

theorem table (h : deeper.Alike P deeper') :
    P.Takes (table deeper) (table deeper') := by
  intro n
  refine within_line fun opened opened' hopened =>
    within_bind (takes_expect ?_ n) fun _ => ?_
  · rfl
  exact within_enclosed rfl hopened (h.fields _) fun fs =>
    agrees_madeExpr _ (n - 1)

theorem arguments (h : deeper.Alike P deeper') :
    P.Takes (arguments deeper) (arguments deeper') := by
  intro n
  refine within_look (fun _ => rfl) fun k => ?_
  split
  · refine at_next rfl (within_after (agrees_madeExpr _) fun e => ?_)
    exact within_pure _ (Nat.le_refl _)
  · refine within_bind (h.table n) (fun e => ?_) _
    exact within_pure _ (Nat.le_refl _)
  · refine at_line fun opened opened' hopened => at_next rfl ?_
    refine within_consume rfl (within_pure _ (Nat.sub_le _ _)) ?_
    refine within_after h.exprs fun args => ?_
    refine within_expectClosing rfl hopened ?_
    exact within_pure _ (Nat.le_refl _)
  · exact within_fail (fun _ => rfl) _

theorem prefixExpr (h : deeper.Alike P deeper') :
    P.Takes (prefixExpr deeper) (prefixExpr deeper') := by
  intro n
  refine within_look (fun _ => rfl) fun k => ?_
  split
  · refine within_bind (takes_name n) (fun x => ?_) _
    exact within_pure _ (Nat.le_refl _)
  · refine at_line fun opened opened' hopened =>
      at_next rfl (within_after h.expr fun e => ?_)
    refine within_expectClosing rfl hopened ?_
    exact within_pure _ (Nat.le_refl _)
  · exact within_fail (fun _ => rfl) _

theorem link? (h : deeper.Alike P deeper') :
    P.TakesMore (link? deeper) (link? deeper') := by
  intro e n
  have called : ∀ callee : Expr,
      P.Within n (fun longer => if longer.isSome then n - 1 else n) (do
      let args ← Reader.arguments deeper
      return some (← madeExpr (.call callee args))) (do
      let args ← Reader.arguments deeper'
      return some (← madeExpr (.call callee args))) := by
    intro callee
    refine within_taking h.arguments fun args =>
      within_after (agrees_madeExpr _) fun e' => ?_
    exact within_pure _ (Nat.le_refl _)
  refine within_look (fun _ => rfl) fun k => ?_
  split
  · refine at_next rfl (within_after takes_name.agrees fun key => ?_)
    refine within_after (agrees_madeExpr _) fun e' => ?_
    exact within_pure _ (Nat.le_refl _)
  · refine at_next rfl (within_after h.expr fun key => ?_)
    refine within_expect rfl ?_
    refine within_after (agrees_madeExpr _) fun e' => ?_
    exact within_pure _ (Nat.le_refl _)
  · refine at_next rfl (within_after takes_name.agrees fun key => ?_)
    refine within_after (agrees_madeExpr _) fun callee => ?_
    refine (called callee).mono (Nat.sub_le n 1) fun _ => Nat.le_refl _
  · exact called e _
  · exact called e _
  · exact called e _
  · exact within_pure _ (Nat.le_refl n) _

theorem primary (h : deeper.Alike P deeper') :
    P.Takes (primary deeper) (primary deeper') := by
  intro n
  refine within_taking h.prefixExpr fun e => ?_
  rw [links_eq, links_eq]
  exact agrees_lengthen h.rounds h.link? e (n - 1)

theorem simple (h : deeper.Alike P deeper') :
    P.Takes (simple deeper) (simple deeper') := by
  intro n
  have literal : ∀ (k : TokenKind) (e : Expr), k.isEos = false →
      P.At n k (fun _ => n - 1) (literal e) (literal e) :=
    fun k e hk => at_next hk (agrees_madeExpr e (n - 1))
  refine within_look (fun _ => rfl) fun k => ?_
  split
  · exact literal _ _ rfl
  · exact literal _ _ rfl
  · exact literal _ _ rfl
  · exact literal _ _ rfl
  · exact literal _ _ rfl
  · exact h.table n _
  · refine at_line fun opened opened' hopened => at_next rfl ?_
    exact within_after (h.functionBody false hopened) fun f =>
      agrees_madeExpr _ (n - 1)
  · exact within_fail (fun _ => rfl) _
  · exact h.primary n _

theorem unary (h : deeper.Alike P deeper') :
    P.Takes (unary deeper) (unary deeper') := by
  intro n
  refine within_look (fun _ => rfl) fun k => ?_
  split
  · next op hop =>
    obtain rfl := UnaryOp.ofToken?_eq_some_iff.mp hop
    refine at_next (by cases op <;> rfl)
      (within_after (h.operand _).agrees fun operand => ?_)
    exact agrees_madeExpr _ (n - 1)
  · exact h.simple n _

theorem operatorTurn (h : deeper.Alike P deeper') (limit : Nat) :
    P.TakesMore (operatorTurn deeper limit) (operatorTurn deeper' limit) := by
  intro left n
  refine within_look (fun _ => rfl) fun k => ?_
  split
  · next op hop =>
    obtain rfl := BinaryOp.ofToken?_eq_some_iff.mp hop
    split
    · refine at_next (by cases op <;> rfl)
        (within_after (h.operand _).agrees fun right => ?_)
      exact within_after (agrees_madeExpr _) fun e =>
        within_pure (some e) (Nat.le_refl _)
    · exact within_pure none (Nat.le_refl n) _
  · exact within_pure none (Nat.le_refl n) _

theorem readOperand (h : deeper.Alike P deeper') (limit : Nat) :
    P.Takes (Reader.operand deeper limit) (Reader.operand deeper' limit) := by
  intro n
  refine within_taking h.unary fun left => ?_
  rw [operators_eq, operators_eq]
  exact agrees_lengthen h.rounds (h.operatorTurn limit) left (n - 1)

theorem returnStat (h : deeper.Alike P deeper') :
    P.At n (.keyword .return) (fun _ => n - 1) (returnStat deeper)
      (returnStat deeper') := by
  refine at_next rfl (within_look (fun _ => rfl) fun k => ?_)
  split
  · exact agrees_madeStat _ (n - 1) _
  · exact within_after h.exprs (fun values => agrees_madeStat _ (n - 1)) _

theorem dotTurn : P.TakesMore dotTurn dotTurn := by
  intro target n
  refine within_consume rfl ?_ (within_pure none (Nat.le_refl n))
  refine within_after takes_name.agrees fun key =>
    within_after (agrees_madeExpr _) fun e => ?_
  exact within_pure (some e) (Nat.le_refl _)

theorem dottedName {rounds rounds' : Nat}
    (hrounds : P.bound ≤ rounds ∧ P.bound ≤ rounds') (target : Expr) :
    P.Agrees (dottedName rounds target) (dottedName rounds' target) := by
  rw [dottedName_eq, dottedName_eq]
  exact agrees_lengthen hrounds dotTurn target

theorem functionStat (h : deeper.Alike P deeper') :
    P.At n (.keyword .function) (fun _ => n - 1) (functionStat deeper)
      (functionStat deeper') := by
  refine at_line fun opened opened' hopened =>
    at_next rfl (within_after takes_name.agrees fun first => ?_)
  refine within_after (dottedName h.rounds _) fun owner => ?_
  have named : ∀ isMethod target, P.Within (n - 1) (fun _ => n - 1)
      (Reader.functionBody deeper isMethod opened >>= fun f =>
        madeStat (.function (some target) false f.1 f.2))
      (Reader.functionBody deeper' isMethod opened' >>= fun f =>
        madeStat (.function (some target) false f.1 f.2)) :=
    fun isMethod target =>
      within_after (h.functionBody isMethod hopened) fun f =>
        agrees_madeStat _ (n - 1)
  refine within_consume rfl ?_ (named false owner)
  refine within_after takes_name.agrees fun key =>
    within_after (agrees_madeExpr _) fun target => ?_
  exact (named true target).mono (Nat.sub_le _ _) fun _ => Nat.le_refl _

theorem localStat (h : deeper.Alike P deeper') {opened opened' : Nat}
    (hopened : P.exact → opened = opened') :
    P.At n (.keyword .local) (fun _ => n - 1) (localStat deeper opened)
      (localStat deeper' opened') := by
  refine at_next rfl (within_consume rfl ?_ ?_)
  · refine within_after takes_name.agrees fun x => ?_
    refine within_after (h.functionBody false hopened) fun f => ?_
    exact (agrees_madeStat _).within fun _ => Nat.sub_le _ _
  · refine within_after (agrees_separatedByCommas h.rounds takes_name.agrees)
      fun names => ?_
    refine within_consume rfl ?_ (agrees_madeStat _ (n - 1))
    refine within_after h.exprs fun values => ?_
    exact (agrees_madeStat _).within fun _ => Nat.sub_le _ _

theorem branch (h : deeper.Alike P deeper') :
    P.relaxed.Agrees (branch deeper) (branch deeper') := by
  intro n
  refine within_after h.expr.relax fun test => within_expect rfl ?_
  exact within_after h.block fun body => within_pure _ (Nat.le_refl n)

theorem clauseTurn (h : deeper.Alike P deeper') :
    P.relaxed.TakesItems (clauseTurn deeper) (clauseTurn deeper') := by
  intro n
  refine within_consume rfl ?_ (within_pure Yield.stop (Nat.le_refl n))
  refine within_after h.branch fun b => within_build rfl ?_
  exact within_pure (Yield.more (Clause.mk b.1 b.2)) (Nat.le_refl _)

theorem clauses (h : deeper.Alike P deeper') :
    P.relaxed.Agrees (clauses deeper deeper.rounds)
      (clauses deeper' deeper'.rounds) := by
  rw [clauses_eq, clauses_eq]
  exact agrees_items (P := P.relaxed) h.rounds h.clauseTurn

theorem ifStat (h : deeper.Alike P deeper') :
    P.At n (.keyword .if) (fun _ => n - 1) (ifStat deeper)
      (ifStat deeper') := by
  refine at_line fun opened opened' hopened =>
    at_next rfl (closes_bind (h.branch _) fun b => ?_).within
  have ended : ∀ cs otherwise, P.Closes (n - 1) (fun _ => n - 1) (do
      expectClosing (.keyword .end) (.keyword .if) opened
      madeStat (.if b.1 b.2 cs otherwise)) (do
      expectClosing (.keyword .end) (.keyword .if) opened'
      madeStat (.if b.1 b.2 cs otherwise)) := fun cs otherwise =>
    closes_expectClosing rfl hopened (agrees_madeStat _ (n - 1))
  refine closes_bind (h.clauses _) fun cs =>
    closes_consume rfl ?_ (ended cs none)
  have hotherwise :=
    (closes_bind (h.block (n - 1)) fun block => ended cs (some block)).within
  exact hotherwise.mono (Nat.sub_le _ _) fun _ => Nat.le_refl _

theorem loopBody (h : deeper.Alike P deeper') (opener : Keyword)
    {opened opened' : Nat} (hopened : P.exact → opened = opened') :
    P.Agrees (loopBody deeper opener opened)
      (loopBody deeper' opener opened') := by
  intro n
  refine within_expect rfl
    (within_enclosed rfl hopened (h.block n) fun body => ?_)
  exact within_pure _ (Nat.le_refl n)

theorem rangeLoop (h : deeper.Alike P deeper') (x : String)
    {opened opened' : Nat} (hopened : P.exact → opened = opened') :
    P.At n (.symbol .assign) (fun _ => n) (rangeLoop deeper x opened)
      (rangeLoop deeper' x opened') := by
  refine at_next rfl (within_after h.expr fun start => ?_)
  refine within_expect rfl (within_after h.expr fun stop => ?_)
  have rest : ∀ step, P.Within (n - 1) (fun _ => n) (do
      let body ← Reader.loopBody deeper .for opened
      madeStat (.forRange x start stop step body)) (do
      let body ← Reader.loopBody deeper' .for opened'
      madeStat (.forRange x start stop step body)) := fun step =>
    within_after (h.loopBody _ hopened) fun body =>
      (agrees_madeStat _).within fun _ => Nat.sub_le n 1
  refine within_consume rfl ?_ (within_after (agrees_madeExpr _) rest)
  exact within_after h.expr fun step =>
    (rest step).mono (Nat.sub_le _ _) fun _ => Nat.le_refl _

theorem eachLoop (h : deeper.Alike P deeper') (first : String)
    {opened opened' : Nat} (hopened : P.exact → opened = opened') :
    P.Agrees (eachLoop deeper first opened)
      (eachLoop deeper' first opened') := by
  intro n
  have names := agrees_afterCommas h.rounds (takes_name (P := P)).agrees
  refine within_after names fun others => within_expect rfl ?_
  refine within_after h.expr fun source =>
    within_after (h.loopBody _ hopened) fun body => ?_
  exact agrees_madeStat _ n

theorem forStat (h : deeper.Alike P deeper') :
    P.At n (.keyword .for) (fun _ => n - 1) (forStat deeper)
      (forStat deeper') := by
  refine at_line fun opened opened' hopened =>
    at_next rfl (within_after takes_name.agrees fun first => ?_)
  refine within_look (fun _ => rfl) fun k => ?_
  split
  · exact h.rangeLoop first hopened
  · exact h.eachLoop first hopened _ _
  · exact h.eachLoop first hopened _ _
  · exact within_fail (fun _ => rfl) _

theorem assignTarget (e : Expr) :
    P.Agrees (assignTarget e) (assignTarget e) := by
  intro n
  unfold Reader.assignTarget
  split
  · exact within_pure _ (Nat.le_refl n)
  · exact within_pure _ (Nat.le_refl n)
  · exact within_fail fun _ => rfl

theorem target (h : deeper.Alike P deeper') :
    P.Agrees (do Reader.assignTarget (← Reader.primary deeper))
      (do Reader.assignTarget (← Reader.primary deeper')) :=
  fun n => within_after h.primary.agrees fun e => assignTarget e n

theorem exprStat (h : deeper.Alike P deeper') :
    P.Takes (exprStat deeper) (exprStat deeper') := by
  intro n
  refine within_taking h.primary fun first => ?_
  have assigned : P.Within (n - 1) (fun _ => n - 1) (do
      let target ← Reader.assignTarget first
      let others ← Reader.afterCommas
        (do Reader.assignTarget (← Reader.primary deeper)) deeper.rounds
      expect (.symbol .assign)
      let values ← deeper.exprs
      let e ← madeExpr (.assign (target :: others) values)
      madeStat (.expr e)) (do
      let target ← Reader.assignTarget first
      let others ← Reader.afterCommas
        (do Reader.assignTarget (← Reader.primary deeper')) deeper'.rounds
      expect (.symbol .assign)
      let values ← deeper'.exprs
      let e ← madeExpr (.assign (target :: others) values)
      madeStat (.expr e)) := by
    have hothers := agrees_afterCommas h.rounds h.target
    refine within_after (assignTarget first) fun target =>
      within_after hothers fun others => ?_
    refine within_expect rfl (within_after h.exprs fun values => ?_)
    exact within_after (agrees_madeExpr _) fun e => agrees_madeStat _ (n - 1)
  refine within_look (fun _ => rfl) fun k => ?_
  split
  · exact assigned _
  · exact assigned _
  · cases first with
    | call callee args => exact agrees_madeStat _ (n - 1) _
    | _ => exact within_fail (fun _ => rfl) _

theorem stat (h : deeper.Alike P deeper') :
    P.Takes (stat deeper) (stat deeper') := by
  intro n
  refine within_line fun opened opened' hopened =>
    within_look (fun _ => rfl) fun k => ?_
  split
  · exact at_next rfl (within_enclosed rfl hopened (h.block _) fun body =>
        agrees_madeStat _ (n - 1))
  · exact at_next rfl (agrees_madeStat _ (n - 1))
  · exact h.functionStat
  · exact h.localStat hopened
  · exact h.ifStat
  · exact h.forStat
  · refine at_next rfl (within_after h.expr fun test => ?_)
    exact within_after (h.loopBody _ hopened) fun body =>
      agrees_madeStat _ (n - 1)
  · refine at_next rfl (within_enclosed rfl hopened (h.block _) fun body => ?_)
    exact within_after h.expr fun test => agrees_madeStat _ (n - 1)
  · exact h.exprStat n _

theorem statTurn (h : deeper.Alike P deeper') :
    P.relaxed.TakesItems (statTurn deeper) (statTurn deeper') := by
  intro n
  refine within_look (fun hdemand => absurd hdemand P.demand.relaxed_ne_success)
    fun k => ?_
  split
  · exact within_pure Yield.stop (Nat.le_refl n) _
  · split
    · next hk =>
      subst hk
      refine at_bind h.returnStat.relax fun s =>
        within_after agrees_skipped fun _ => ?_
      exact within_pure (Yield.last s) (Nat.le_refl _)
    · refine within_taking h.stat.relax
        (fun s => within_after agrees_skipped fun _ => ?_) _
      exact within_pure (Yield.more s) (Nat.le_refl _)

theorem stats (h : deeper.Alike P deeper') {n r r' : Nat} (hr : n ≤ r)
    (hr' : n ≤ r') :
    P.relaxed.Within n (fun _ => n) (stats deeper r) (stats deeper' r') := by
  rw [stats_eq, stats_eq]
  exact within_items h.statTurn hr hr'

theorem readBlock (h : deeper.Alike P deeper') :
    P.relaxed.Agrees (Reader.block deeper) (Reader.block deeper') := by
  intro n
  refine within_after (agrees_loop h.rounds fun _ _ _ => h.stats) fun body =>
    within_build rfl ?_
  exact within_pure _ (Nat.le_refl n)

/-- The turns that loops are allowed may differ if they are enough. -/
theorem ofLevels {rounds rounds' : Nat}
    (h : P.bound ≤ rounds ∧ P.bound ≤ rounds') (levels : Nat) :
    (Deeper.ofLevels rounds levels).Alike P
      (Deeper.ofLevels rounds' levels) := by
  induction levels with
  -- at the last level both fail
  | zero =>
    exact ⟨fun _ => within_fail fun _ => rfl,
      fun _ _ => within_fail fun _ => rfl, h⟩
  | succ levels ih => exact ⟨ih.readBlock, ih.readOperand, h⟩

end Deeper.Alike

end LuaCore
