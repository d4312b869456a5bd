import LuaCore.Proofs.Reader.Account
import LuaCore.Proofs.Reader.WellFormed

namespace LuaCore

open Trace Reader

def Expr.trace (e : Expr) : Trace := ⟨e.pieces, e.nodes⟩

def exprsTrace (es : List Expr) : Trace := ⟨exprPieces es, exprNodes es⟩

def Field.trace (f : Field) : Trace := ⟨f.pieces, f.nodes⟩

def fieldsTrace (fs : List Field) : Trace := ⟨fieldPieces fs, fieldNodes fs⟩

def Stat.trace (s : Stat) : Trace := ⟨s.pieces, s.nodes⟩

def statsTrace (body : Block) : Trace := ⟨blockPieces body, statNodes body⟩

def blockTrace (body : Block) : Trace := (statsTrace body).node (.block body)

def clausesTrace (cs : List Clause) : Trace := ⟨clausePieces cs, clauseNodes cs⟩

def bodyTrace (isMethod : Bool) (f : List String × Block) : Trace :=
  ⟨namePieces (if isMethod then f.1.tail else f.1) ++ blockPieces f.2 ++
      [.token (.keyword .end)], nameNodes f.1 ++ statNodes f.2 ++ [.block f.2]⟩

def branchTrace (b : Expr × Block) : Trace :=
  (b.1.trace.token (.keyword .then)) ++ blockTrace b.2

def loopTrace (body : Block) : Trace :=
  (Trace.empty.token (.keyword .do) ++ blockTrace body).token (.keyword .end)

def forTrace (x : String) : Trace :=
  ⟨[.token (.keyword .for), .token (.name x)], [.name x]⟩

def stepTrace (e : Expr) : Trace :=
  ⟨if e.isUnit then [.unitStep] else e.pieces, e.nodes⟩

@[simp] theorem Expr.trace_pieces (e : Expr) : e.trace.pieces = e.pieces := rfl
@[simp] theorem Expr.trace_nodes (e : Expr) : e.trace.nodes = e.nodes := rfl
@[simp] theorem exprsTrace_pieces (es : List Expr) :
    (exprsTrace es).pieces = exprPieces es :=
  rfl
@[simp] theorem exprsTrace_nodes (es : List Expr) :
    (exprsTrace es).nodes = exprNodes es :=
  rfl
@[simp] theorem blockTrace_pieces (b : Block) :
    (blockTrace b).pieces = blockPieces b :=
  rfl
@[simp] theorem blockTrace_nodes (b : Block) :
    (blockTrace b).nodes = statNodes b ++ [.block b] := rfl

theorem join_trace (es : List Expr) : join Expr.trace es = exprsTrace es := by
  induction es with
  | nil => rfl
  | cons e es ih =>
    rw [join, ih]
    rfl

theorem join_name (xs : List String) :
    join Trace.name xs = ⟨namePieces xs, nameNodes xs⟩ := by
  induction xs with
  | nil => rfl
  | cons x xs ih =>
    rw [join, ih]
    rfl

/-- Blocks and operands one level deeper are written as read. -/
structure Deeper.Faithful (deeper : Deeper) : Prop where
  block : Writes .empty deeper.block blockTrace
  operand : ∀ limit, Writes .empty (deeper.operand limit) Expr.trace

namespace Deeper.Faithful

variable {deeper : Deeper}

theorem expr (h : deeper.Faithful) : Writes .empty deeper.expr Expr.trace :=
  h.operand 1

theorem exprs (h : deeper.Faithful) :
    Writes .empty deeper.exprs exprsTrace := by
  have hjoin : exprsTrace = join Expr.trace :=
    funext fun es => (join_trace es).symm
  rw [hjoin]
  exact writes_separatedByCommas h.expr deeper.rounds

theorem functionBody (h : deeper.Faithful) (isMethod : Bool) (opened : Nat) :
    Writes .empty (functionBody deeper isMethod opened)
      (bodyTrace isMethod) := by
  have hparam : Writes .empty functionBody.param Trace.name :=
    writes_check (writes_fail _) writes_name
  -- what follows the parameters, after what is written up to there
  have rest : ∀ (w : Trace) (params : List String), w = ⟨namePieces params,
        nameNodes (if isMethod then "self" :: params else params)⟩ →
      Writes w (do
        expect (.symbol .rightParen)
        let body ← deeper.block
        expectClosing (.keyword .end) (.keyword .function) opened
        return (if isMethod then "self" :: params else params, body))
          (bodyTrace isMethod) := by
    rintro w params rfl
    refine writes_expect rfl ?_
    refine writes_after h.block fun body => ?_
    refine writes_expectClosing rfl ?_
    apply writes_pure
    cases isMethod <;> ext1 <;> simp [bodyTrace, TokenKind.isPunctuation]
  have params : ∀ w : Trace, w =
      ⟨[], nameNodes (if isMethod then ["self"] else [])⟩ →
      Writes w (do
        let params ←
          if ← check (.symbol .rightParen) then pure []
          else separatedByCommas functionBody.param deeper.rounds
        expect (.symbol .rightParen)
        let body ← deeper.block
        expectClosing (.keyword .end) (.keyword .function) opened
        return (if isMethod then "self" :: params else params, body))
          (bodyTrace isMethod) := by
    rintro w rfl
    refine writes_check (rest _ [] ?_ _) ?_
    · rfl
    · refine writes_after (writes_separatedByCommas hparam _) fun params =>
        rest _ params ?_
      rw [join_name]
      cases isMethod <;> rfl
  refine writes_expect rfl ?_
  cases isMethod with
  | true => exact writes_build rfl (params _ rfl)
  | false => exact params _ rfl

theorem field (h : deeper.Faithful) :
    Writes .empty (field deeper) Field.trace := by
  refine writes_consume rfl ?_ ?_
  · refine writes_after h.expr fun key => ?_
    refine writes_expect rfl (writes_expect rfl ?_)
    refine writes_after h.expr fun value => writes_madeField ?_
    ext1 <;>
      simp [Field.trace, Field.pieces, Field.nodes, TokenKind.isPunctuation]
  · refine writes_after h.expr fun first => ?_
    refine writes_check ?_ ?_
    · cases first with
      | name key =>
        refine writesAt_next rfl ?_
        refine writes_after h.expr fun value => writes_madeField ?_
        ext1 <;> simp [Field.trace, Field.pieces, Field.nodes, Expr.pieces,
            Expr.nodes, TokenKind.isPunctuation]
      | _ => exact writes_fail _
    · apply writes_madeField
      ext1 <;> simp [Field.trace, Field.pieces, Field.nodes]

theorem fields (h : deeper.Faithful) (rounds : Nat) :
    Writes .empty (fields deeper rounds) fieldsTrace := by
  induction rounds with
  | zero => exact writes_pure rfl
  | succ rounds ih =>
    refine writes_check (writes_pure rfl _) ?_
    refine writes_after h.field fun f => ?_
    rw [Trace.empty_append]
    have separator : Writes f.trace (do
        if ← consume (.symbol .comma) then pure true
        else consume (.symbol .semicolon)) fun _ => f.trace := by
      refine writes_consume rfl ?_ (writes_skip rfl)
      exact writes_pure (token_of_isPunctuation f.trace rfl).symm
    refine writes_bind separator fun more => ?_
    cases more with
    | true => exact writes_after ih fun fs => writes_pure rfl
    | false =>
      apply writes_pure
      ext1 <;> simp [fieldsTrace, fieldPieces, fieldNodes, Field.trace]

theorem table (h : deeper.Faithful) :
    Writes .empty (table deeper) Expr.trace := by
  refine writes_line fun opened => writes_expect rfl ?_
  refine writes_after (h.fields _) fun fs => ?_
  refine writes_expectClosing rfl (writes_madeExpr ?_)
  ext1 <;> simp [Expr.pieces, Expr.nodes, fieldsTrace, TokenKind.isPunctuation]

theorem arguments (h : deeper.Faithful) :
    Writes .empty (arguments deeper) exprsTrace := by
  refine writes_look fun k => ?_
  split
  · refine writesAt_next rfl ?_
    refine writes_bind (writes_madeExpr (s := fun e => exprsTrace [e]) ?_)
      fun e => writes_pure rfl
    ext1 <;> simp [exprPieces, exprNodes, Expr.pieces, Expr.nodes,
        TokenKind.isPunctuation]
  · refine writes_after h.table (fun e => writes_pure ?_) _
    ext1 <;> simp [exprPieces, exprNodes]
  · refine writesAt_line fun opened => writesAt_next rfl ?_
    refine writes_consume rfl (writes_pure rfl) ?_
    refine writes_after h.exprs fun args => ?_
    refine writes_expectClosing rfl (writes_pure ?_)
    ext1 <;> simp [TokenKind.isPunctuation]
  · exact writes_fail _

theorem prefixExpr (h : deeper.Faithful) :
    Writes .empty (prefixExpr deeper) Expr.trace := by
  refine writes_look fun k => ?_
  split
  · refine writes_after writes_name (fun x => writes_pure ?_) _
    rfl
  · refine writesAt_line fun opened => writesAt_next rfl ?_
    refine writes_after h.expr fun e => ?_
    refine writes_expectClosing rfl (writes_pure ?_)
    ext1 <;> simp [TokenKind.isPunctuation]
  · exact writes_fail _

theorem link? (h : deeper.Faithful) (e : Expr) :
    Writes e.trace (link? deeper e) fun longer => (longer.getD e).trace := by
  have called : ∀ callee : Expr, Writes callee.trace (do
      let args ← Reader.arguments deeper
      return some (← madeExpr (.call callee args))) fun longer =>
        (longer.getD e).trace := by
    intro callee
    refine writes_after h.arguments fun args => ?_
    refine writes_bind (writes_madeExpr (s := Expr.trace) ?_) fun e' =>
      writes_pure rfl
    ext1 <;> simp [Expr.pieces, Expr.nodes]
  refine writes_look fun k => ?_
  split
  · refine writesAt_next rfl (writes_after writes_name fun key => ?_)
    refine writes_bind (writes_madeExpr (s := Expr.trace) ?_) fun e' =>
      writes_pure rfl
    ext1 <;> simp [Expr.pieces, Expr.nodes, TokenKind.isPunctuation]
  · refine writesAt_next rfl
      (writes_after h.expr fun key => writes_expect rfl ?_)
    refine writes_bind (writes_madeExpr (s := Expr.trace) ?_) fun e' =>
      writes_pure rfl
    ext1 <;> simp [Expr.pieces, Expr.nodes, TokenKind.isPunctuation]
  · refine writesAt_next rfl (writes_after writes_name fun key => ?_)
    refine writes_bind (writes_madeExpr (s := Expr.trace) ?_) called
    ext1 <;> simp [Expr.pieces, Expr.nodes, TokenKind.isPunctuation]
  · exact called e _
  · exact called e _
  · exact called e _
  · exact writes_pure rfl _

theorem links (h : deeper.Faithful) (rounds : Nat) (e : Expr) :
    Writes e.trace (links deeper rounds e) Expr.trace := by
  induction rounds generalizing e with
  | zero => exact writes_pure rfl
  | succ rounds ih =>
    refine writes_bind (h.link? e) fun longer => ?_
    cases longer with
    | some longer => exact ih longer
    | none => exact writes_pure rfl

theorem primary (h : deeper.Faithful) :
    Writes .empty (primary deeper) Expr.trace :=
  writes_bind h.prefixExpr fun e => h.links _ e

theorem simple (h : deeper.Faithful) :
    Writes .empty (simple deeper) Expr.trace := by
  have literal : ∀ (k : TokenKind) (e : Expr), k.isEos = false →
      Trace.empty.token k = ⟨e.pieces, []⟩ → e.nodes = [.expr e] →
      WritesAt k .empty (literal e) Expr.trace := by
    intro k e hk hpieces hnodes
    refine writesAt_next hk (writes_madeExpr ?_)
    rw [hpieces]
    exact Trace.ext rfl hnodes
  refine writes_look fun k => ?_
  split
  · exact literal _ _ rfl rfl rfl
  · exact literal _ _ rfl rfl rfl
  · exact literal _ _ rfl rfl rfl
  · exact literal _ _ rfl rfl rfl
  · exact literal _ _ rfl rfl rfl
  · exact h.table _
  · refine writesAt_line fun opened => writesAt_next rfl ?_
    refine writes_after (h.functionBody false opened) fun f =>
      writes_madeExpr ?_
    ext1 <;> simp [Expr.pieces, Expr.nodes, bodyTrace, TokenKind.isPunctuation]
  · exact writes_fail _
  · exact h.primary _

theorem unary (h : deeper.Faithful) :
    Writes .empty (unary deeper) Expr.trace := by
  refine writes_look fun k => ?_
  split
  · next op hop =>
    obtain rfl := UnaryOp.ofToken?_eq_some_iff.mp hop
    refine writesAt_next (by cases op <;> rfl) ?_
    refine writes_after (h.operand _) fun operand => writes_madeExpr ?_
    ext1 <;> simp [Expr.pieces, Expr.nodes, op.isPunctuation_token]
  · exact h.simple _

theorem operators (h : deeper.Faithful) (limit rounds : Nat) (left : Expr) :
    Writes left.trace (operators deeper limit rounds left) Expr.trace := by
  induction rounds generalizing left with
  | zero => exact writes_pure rfl
  | succ rounds ih =>
    refine writes_look fun k => ?_
    split
    · next op hop =>
      obtain rfl := BinaryOp.ofToken?_eq_some_iff.mp hop
      split
      · refine writesAt_next (by cases op <;> rfl) ?_
        refine writes_after (h.operand _) fun right => ?_
        refine writes_bind (writes_madeExpr (s := Expr.trace) ?_) fun e => ih e
        ext1 <;> simp [Expr.pieces, Expr.nodes, op.isPunctuation_token]
      · exact writes_pure rfl _
    · exact writes_pure rfl _

theorem readOperand (h : deeper.Faithful) (limit : Nat) :
    Writes .empty (Reader.operand deeper limit) Expr.trace :=
  writes_bind h.unary fun e => h.operators limit _ e

theorem returnStat (h : deeper.Faithful) :
    WritesAt (.keyword .return) .empty (returnStat deeper) Stat.trace := by
  refine writesAt_next rfl (writes_look fun k => ?_)
  split
  · refine writes_madeStat ?_ _
    ext1 <;> simp [Stat.trace, Stat.pieces, Stat.nodes, exprPieces, exprNodes,
        TokenKind.isPunctuation]
  · refine writes_after h.exprs (fun values => writes_madeStat ?_) _
    ext1 <;> simp [Stat.trace, Stat.pieces, Stat.nodes, TokenKind.isPunctuation]

theorem dottedName (w : Trace) (rounds : Nat) (target : Expr) :
    Writes (w ++ target.trace) (dottedName rounds target) fun e => w ++
      e.trace := by
  induction rounds generalizing target with
  | zero => exact writes_pure rfl
  | succ rounds ih =>
    refine writes_consume rfl (writes_after writes_name fun key => ?_)
      (writes_pure rfl)
    refine writes_bind (writes_madeExpr (s := fun e => w ++ e.trace) ?_)
      fun e => ih e
    ext1 <;> simp [Expr.pieces, Expr.nodes, TokenKind.isPunctuation]

theorem namedFunction (h : deeper.Faithful) {isMethod : Bool} {target : Expr}
    (opened : Nat) (htarget : target.isMethodName = isMethod) :
    Writes (Trace.empty.token (.keyword .function) ++ target.trace) (do
      let (params, body) ← Reader.functionBody deeper isMethod opened
      madeStat (.function (some target) false params body)) Stat.trace := by
  subst htarget
  refine writes_after (h.functionBody _ opened) fun f => writes_madeStat ?_
  ext1 <;> simp [Stat.trace, Stat.pieces, Stat.nodes, bodyTrace,
      Expr.writtenParams, TokenKind.isPunctuation]

theorem functionStat (h : deeper.Faithful) :
    WritesAt (.keyword .function) .empty (functionStat deeper) Stat.trace := by
  refine writesAt_line fun opened =>
    writesAt_next rfl (writes_after writes_name fun first => ?_)
  have hdotted := WellFormed.dottedName deeper.rounds
    (rfl : (Expr.name first).isDotted = true)
  refine writes_bind_of (dottedName _ _ (.name first)) hdotted
    fun owner howner => ?_
  refine writes_consume rfl (writes_after writes_name fun key => ?_) ?_
  · refine writes_bind_of (P := (·.isMethodName = true)) (writes_madeExpr
        (s := fun e => Trace.empty.token (.keyword .function) ++ e.trace) ?_)
      (yields_madeExpr howner) fun target htarget =>
      h.namedFunction opened htarget
    ext1 <;> simp [Expr.pieces, Expr.nodes, TokenKind.isPunctuation]
  · exact h.namedFunction opened (Expr.isMethodName_of_isDotted howner)

theorem localStat (h : deeper.Faithful) (opened : Nat) :
    WritesAt (.keyword .local) .empty (localStat deeper opened) Stat.trace := by
  refine writesAt_next rfl
    (writes_consume rfl (writes_after writes_name fun x => ?_) ?_)
  · refine writes_after (h.functionBody false opened) fun f =>
      writes_madeStat ?_
    ext1 <;> simp [Stat.trace, Stat.pieces, Stat.nodes, Expr.pieces, Expr.nodes,
        bodyTrace, TokenKind.isPunctuation]
  · refine writes_after (writes_separatedByCommas writes_name _) fun names => ?_
    rw [join_name]
    refine writes_consume rfl ?_ ?_
    · have hnonempty : Yields deeper.exprs (· ≠ []) :=
        (yields_separatedByCommas (P := fun _ => True)
          (fun _ _ _ _ => trivial) _).imp fun _ h => h.1
      refine writes_bind_of (h.exprs.framed _) hnonempty fun values hvalues =>
        writes_madeStat ?_
      ext1 <;> simp [Stat.trace, Stat.pieces, Stat.nodes, hvalues,
          TokenKind.isPunctuation]
    · apply writes_madeStat
      ext1 <;> simp [Stat.trace, Stat.pieces, Stat.nodes, exprNodes,
          TokenKind.isPunctuation]

theorem branch (h : deeper.Faithful) :
    Writes .empty (branch deeper) branchTrace := by
  refine writes_after h.expr fun test => writes_expect rfl ?_
  refine writes_after h.block fun body => writes_pure ?_
  ext1 <;> simp [branchTrace, TokenKind.isPunctuation]

theorem clauses (h : deeper.Faithful) (rounds : Nat) :
    Writes .empty (clauses deeper rounds) clausesTrace := by
  induction rounds with
  | zero => exact writes_pure rfl
  | succ rounds ih =>
    refine writes_consume rfl ?_ (writes_pure rfl)
    refine writes_after h.branch fun b => writes_build rfl ?_
    refine writes_after ih fun cs => writes_pure ?_
    ext1 <;> simp [clausesTrace, clausePieces, clauseNodes, Clause.pieces,
        Clause.nodes, branchTrace, TokenKind.isPunctuation]

theorem ifStat (h : deeper.Faithful) :
    WritesAt (.keyword .if) .empty (ifStat deeper) Stat.trace := by
  refine writesAt_line fun opened => writesAt_next rfl ?_
  refine writes_after h.branch fun b => writes_after (h.clauses _) fun cs => ?_
  refine writes_consume rfl ?_ ?_
  · refine writes_after h.block fun block =>
      writes_expectClosing rfl (writes_madeStat ?_)
    ext1 <;> simp [Stat.trace, Stat.pieces, Stat.nodes, branchTrace,
        clausesTrace, elsePieces, TokenKind.isPunctuation]
  · refine writes_expectClosing rfl (writes_madeStat ?_)
    ext1 <;> simp [Stat.trace, Stat.pieces, Stat.nodes, branchTrace,
        clausesTrace, elsePieces, TokenKind.isPunctuation]

theorem loopBody (h : deeper.Faithful) (opener : Keyword) (opened : Nat) :
    Writes .empty (loopBody deeper opener opened) loopTrace := by
  refine writes_expect rfl (writes_after h.block fun body => ?_)
  refine writes_expectClosing rfl (writes_pure ?_)
  ext1 <;> simp [loopTrace, TokenKind.isPunctuation]

theorem step (h : deeper.Faithful) : Writes .empty deeper.expr stepTrace := by
  intro k c e d hc hk hrun
  obtain ⟨v, ⟨taken, hmoves, hspells⟩, hv⟩ := h.expr k hc hk hrun
  rw [Trace.empty_append] at hv
  subst hv
  exact ⟨stepTrace e, ⟨taken, hmoves, Expr.spells_step hspells⟩, rfl⟩

theorem impliedStep : Writes .empty (madeExpr (.number 1.0)) stepTrace := by
  intro k c e d hc _ hrun
  cases hrun
  refine ⟨stepTrace (.number 1.0), ⟨[], hc.build rfl, ?_⟩, rfl⟩
  simp only [stepTrace, Expr.isUnit, decide_true, if_true]
  exact .implied .nil

theorem rangeLoop (h : deeper.Faithful) (x : String) (opened : Nat) :
    WritesAt (.symbol .assign) (forTrace x)
      (rangeLoop deeper x opened) Stat.trace := by
  refine writesAt_next rfl
    (writes_after h.expr fun start => writes_expect rfl ?_)
  refine writes_after h.expr fun stop => ?_
  have rest : ∀ w step, w =
      (forTrace x).token (.symbol .assign) ++ start.trace ++ stop.trace →
      Writes (w ++ stepTrace step) (do
        let body ← Reader.loopBody deeper .for opened
        madeStat (.forRange x start stop step body)) Stat.trace := by
    rintro w step rfl
    refine writes_after (h.loopBody _ _) fun body => writes_madeStat ?_
    ext1 <;> simp [Stat.trace, Stat.pieces, Stat.nodes, forTrace, stepTrace,
        loopTrace, TokenKind.isPunctuation]
  rw [token_of_isPunctuation _ rfl]
  refine writes_consume rfl ?_ ?_
  · rw [token_of_isPunctuation _ rfl]
    exact writes_after h.step fun step => rest _ step rfl
  · exact writes_after impliedStep fun step => rest _ step rfl

theorem eachLoop (h : deeper.Faithful) (first : String) (opened : Nat) :
    Writes (forTrace first) (eachLoop deeper first opened) Stat.trace := by
  refine writes_after (writes_afterCommas writes_name _) fun others => ?_
  rw [join_name]
  refine writes_expect rfl (writes_after h.expr fun source => ?_)
  refine writes_after (h.loopBody _ _) fun body => writes_madeStat ?_
  ext1 <;> simp [Stat.trace, Stat.pieces, Stat.nodes, forTrace, loopTrace,
      namePieces, nameNodes, TokenKind.isPunctuation]

theorem forStat (h : deeper.Faithful) :
    WritesAt (.keyword .for) .empty (forStat deeper) Stat.trace := by
  refine writesAt_line fun opened =>
    writesAt_next rfl (writes_after writes_name fun first => ?_)
  refine writes_look fun k => ?_
  split
  · exact h.rangeLoop first opened
  · exact h.eachLoop first opened _
  · exact h.eachLoop first opened _
  · exact writes_fail _

theorem assignTarget (e : Expr) :
    Writes e.trace (assignTarget e) Expr.trace := by
  unfold Reader.assignTarget
  split
  · exact writes_pure rfl
  · exact writes_pure rfl
  · exact writes_fail

theorem exprStat (h : deeper.Faithful) :
    Writes .empty (exprStat deeper) Stat.trace := by
  refine writes_bind h.primary fun first => ?_
  have assigned : Writes first.trace (do
      let target ← Reader.assignTarget first
      let others ← Reader.afterCommas
        (do Reader.assignTarget (← Reader.primary deeper)) deeper.rounds
      expect (.symbol .assign)
      let values ← deeper.exprs
      let e ← madeExpr (.assign (target :: others) values)
      madeStat (.expr e)) Stat.trace := by
    refine writes_bind (assignTarget first) fun target => ?_
    have hother : Writes .empty
        (do Reader.assignTarget (← Reader.primary deeper)) Expr.trace :=
      writes_bind h.primary assignTarget
    refine writes_after (writes_afterCommas hother _) fun others => ?_
    rw [join_trace]
    refine writes_expect rfl (writes_after h.exprs fun values => ?_)
    refine writes_bind (writes_madeExpr (s := Expr.trace) ?_) fun e =>
      writes_madeStat ?_
    · ext1 <;> simp [Expr.pieces, Expr.nodes, exprPieces, exprNodes,
          TokenKind.isPunctuation]
    · ext1 <;> simp [Stat.trace, Stat.pieces, Stat.nodes]
  refine writes_look fun k => ?_
  split
  · exact assigned _
  · exact assigned _
  · cases first with
    | call callee args =>
      refine writes_madeStat ?_ _
      ext1 <;> simp [Stat.trace, Stat.pieces, Stat.nodes]
    | _ => exact writes_fail _

theorem stat (h : deeper.Faithful) :
    Writes .empty (stat deeper) Stat.trace := by
  refine writes_line fun opened => writes_look fun k => ?_
  split
  · refine writesAt_next rfl (writes_after h.block fun body => ?_)
    refine writes_expectClosing rfl (writes_madeStat ?_)
    ext1 <;> simp [Stat.trace, Stat.pieces, Stat.nodes, TokenKind.isPunctuation]
  · refine writesAt_next rfl (writes_madeStat ?_)
    ext1 <;> simp [Stat.trace, Stat.pieces, Stat.nodes, TokenKind.isPunctuation]
  · exact h.functionStat
  · exact h.localStat opened
  · exact h.ifStat
  · exact h.forStat
  · refine writesAt_next rfl (writes_after h.expr fun test => ?_)
    refine writes_after (h.loopBody _ _) fun body => writes_madeStat ?_
    ext1 <;> simp [Stat.trace, Stat.pieces, Stat.nodes, loopTrace,
        TokenKind.isPunctuation]
  · refine writesAt_next rfl
      (writes_after h.block fun body => writes_expectClosing rfl ?_)
    refine writes_after h.expr fun test => writes_madeStat ?_
    ext1 <;> simp [Stat.trace, Stat.pieces, Stat.nodes, TokenKind.isPunctuation]
  · exact h.exprStat _

theorem stats (h : deeper.Faithful) (rounds : Nat) :
    Writes .empty (stats deeper rounds) statsTrace := by
  induction rounds with
  | zero => exact writes_pure rfl
  | succ rounds ih =>
    refine writes_look fun k => ?_
    split
    · exact writes_pure rfl _
    · split
      · next hk =>
        subst hk
        refine writesAt_bind h.returnStat fun s =>
          writes_bind (writes_skip rfl) fun _ => writes_pure ?_
        ext1 <;> simp [statsTrace, blockPieces, statNodes, Stat.trace]
      · refine writes_bind h.stat
          (fun s => writes_bind (writes_skip rfl) fun _ => ?_) _
        exact writes_after ih fun body => writes_pure rfl

theorem readBlock (h : deeper.Faithful) :
    Writes .empty (Reader.block deeper) blockTrace :=
  writes_bind (h.stats _) fun _ => writes_build rfl (writes_pure rfl)

theorem ofLevels (rounds levels : Nat) :
    (Deeper.ofLevels rounds levels).Faithful := by
  induction levels with
  -- at the last level nothing is read
  | zero => exact ⟨writes_fail, fun _ => writes_fail⟩
  | succ levels ih => exact ⟨ih.readBlock, ih.readOperand⟩

end Deeper.Faithful

end LuaCore
