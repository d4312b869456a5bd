import LuaCore.Proofs.Reader.Readable
import LuaCore.Proofs.Reader.Statement

namespace LuaCore

open Reader

def Block.Readable (rounds : Nat) (body : Block) : Prop :=
  ∀ levels rest, (headKind rest).closesBlock = true →
    Reads rounds (Deeper.ofLevels rounds levels).block
      (blockText body ++ rest) rest (blockNesting body + 1 ≤ levels) body

def Stat.Readable (rounds : Nat) (s : Stat) : Prop :=
  ∀ levels rest, headKind rest = .symbol .semicolon →
    Reads rounds (bif s.isReturn then returnStat (.ofLevels rounds levels)
        else stat (.ofLevels rounds levels))
      (s.render ++ rest) rest (s.nesting ≤ levels) s

def Clause.Readable (rounds : Nat) : Clause → Prop
  | .mk test body => test.Readable rounds ∧ Block.Readable rounds body

variable {rounds : Nat} {e test : Expr} {body : Block}
    {rest ks : List TokenKind}

theorem Stat.eq_return {s : Stat} (h : s.isReturn = true) :
    ∃ values, s = .return values := by
  cases s with
  | «return» values => exact ⟨values, rfl⟩
  | _ => exact absurd h Bool.noConfusion

namespace Reads

theorem stats (hwf : blockWellFormed body = true)
    (hbody : ∀ s ∈ body, s.Readable rounds)
    (hrest : (headKind rest).closesBlock = true) (levels m : Nat)
    (hm : (blockText body ++ rest).length ≤ m) :
    Reads rounds (stats (.ofLevels rounds levels) m)
      (blockText body ++ rest) rest (blockNesting body ≤ levels) body := by
  induction body generalizing m with
  | nil =>
    exact (stats_done hrest m).congr (iff_of_true trivial (Nat.zero_le levels))
  | cons s ss ih =>
    rw [blockWellFormed, Bool.and_eq_true, Bool.and_eq_true] at hwf
    rw [blockText, List.append_assoc, List.cons_append] at hm ⊢
    rw [blockNesting, Nat.max_le]
    rw [List.length_append, List.length_cons] at hm
    obtain ⟨m, rfl, hturns⟩ :=
      exists_turn (Nat.le_trans (Nat.le_add_left _ _) hm)
    have hs := hbody s List.mem_cons_self levels
      (.symbol .semicolon :: (blockText ss ++ rest)) rfl
    cases hreturn : s.isReturn with
    | true =>
      -- A block is well-formed only if nothing follows a `return`.
      obtain ⟨values, rfl⟩ := Stat.eq_return hreturn
      cases ss with
      | nil =>
        refine .congr (stats_return hs) ?_
        exact (and_iff_left (Nat.zero_le levels)).symm
      | cons s' ss => exact absurd hwf.1.2 Bool.noConfusion
    | false =>
      rw [hreturn] at hs
      have hopens := Stat.opensStat_render hwf.1.1 hreturn
        (.symbol .semicolon :: (blockText ss ++ rest))
      refine stats_more (TokenKind.closesBlock_of_opensStat hopens) ?_ hs
        (ih hwf.2 (fun s hs => hbody s (List.mem_cons_of_mem _ hs)) m hturns)
      intro hkeyword
      rw [hkeyword] at hopens
      exact absurd hopens (by decide)

end Reads

theorem closesBlock_clauses (hrest : (headKind rest).closesBlock = true)
    (cs : List Clause) :
    (headKind (clausesText cs ++ rest)).closesBlock = true := by
  cases cs with
  | nil => exact hrest
  | cons c cs =>
    obtain ⟨test, body⟩ := c
    rfl

theorem Reads.branch (htest : test.Readable rounds)
    (hbody : Block.Readable rounds body)
    (hrest : (headKind rest).closesBlock = true) (levels : Nat) :
    Reads rounds (branch (.ofLevels rounds levels))
      (test.render ++ .keyword .then :: (blockText body ++ rest)) rest
      (max (test.nesting + 1) (blockNesting body + 1) ≤ levels)
      (test, body) := by
  rw [Nat.max_le]
  exact Reads.branch_then (htest.whole levels _ ⟨rfl, rfl⟩)
    (hbody levels rest hrest)

theorem Reads.clauses {cs : List Clause} (hcs : ∀ c ∈ cs, c.Readable rounds)
    (hrest : (headKind rest).closesBlock = true)
    (helseif : headKind rest ≠ .keyword .elseif) (levels m : Nat)
    (hm : (clausesText cs ++ rest).length ≤ m) :
    Reads rounds (clauses (.ofLevels rounds levels) m)
      (clausesText cs ++ rest) rest (clauseLevels cs ≤ levels) cs := by
  induction cs generalizing m with
  | nil =>
    exact (clauses_done helseif m).congr
      (iff_of_true trivial (Nat.zero_le levels))
  | cons c cs ih =>
    rw [List.forall_mem_cons] at hcs
    obtain ⟨test, body⟩ := c
    have htext : clausesText (.mk test body :: cs) ++ rest =
        .keyword .elseif :: (test.render ++ .keyword .then ::
              (blockText body ++ (clausesText cs ++ rest))) := by
      simp [clausesText, Clause.render]
    rw [htext] at hm ⊢
    obtain ⟨m, rfl, hturns⟩ := exists_turn hm
    simp only [List.length_cons, List.length_append] at hturns
    rw [clauseLevels, Clause.levels, Nat.max_le]
    refine clauses_more (branch hcs.1.1 hcs.1.2
        (closesBlock_clauses hrest cs) levels) (ih hcs.2 m ?_)
    rw [List.length_append]
    omega

theorem Block.readable (hwf : blockWellFormed body = true)
    (hbody : ∀ s ∈ body, s.Readable rounds) :
    Block.Readable rounds body := by
  intro levels rest hrest
  refine Reads.block (fun levels => Reads.of_bound fun hbound => ?_) levels
  rw [Reader.block, Deeper.ofLevels_rounds]
  exact (Reads.stats hwf hbody hrest levels rounds hbound).last
    ((Reads.build _).step Reads.pure)

theorem Expr.Readable.function (params : List String)
    (hbody : Block.Readable rounds body) :
    (Expr.function params body).Readable rounds := by
  refine of_unary rfl (fun levels rest _ => ?_) fun _ => rfl
  have htext : (Expr.function params body).render ++ rest =
      .keyword .function :: (signatureText params ++
          (blockText body ++ .keyword .end :: rest)) := by
    simp [render]
  rw [htext]
  exact Reads.unary_simple rfl (Reads.simple_function
      (Deeper.ofLevels_rounds rounds levels) params (hbody levels _ rfl))

theorem EndsExpr.of_semicolon (h : headKind rest = .symbol .semicolon) :
    EndsExpr rest :=
  ⟨congrArg TokenKind.addsLink h, congrArg BinaryOp.ofToken? h⟩

theorem Reads.lastExprs {es : List Expr} (hes : ∀ e ∈ es, e.Readable rounds)
    (hne : es ≠ []) (hrest : headKind rest = .symbol .semicolon)
    (levels : Nat) :
    Reads rounds (Deeper.ofLevels rounds levels).exprs
      (separated (exprTexts es) ++ rest) rest (exprLevels es ≤ levels) es :=
  Reads.exprs hes hne (.of_semicolon hrest) (by rw [hrest]; decide) levels

section Functions

variable {target : Expr}

theorem Expr.isChain_of_isDotted (h : target.isDotted = true) :
    target.isChain = true := by
  cases target with
  | name x => rfl
  | member object access key => rfl
  | _ => exact absurd h Bool.noConfusion

theorem Expr.exists_of_isMethodName (h : target.isMethodName = true) :
    ∃ object x, object.isDotted = true ∧
      target = .member object .colon (.name x) := by
  unfold isMethodName at h
  split at h
  · next object x => exact ⟨object, x, h, rfl⟩
  · exact absurd h Bool.noConfusion

/-- The loop over the dots makes of a dotted name what it makes of its
first name. -/
theorem Reads.dotted {after : List TokenKind} {fits : Prop} {b : Expr} :
    (target : Expr) → target.isDotted = true → ∀ rest, (∀ m, rest.length ≤ m →
        Reads rounds (dottedName m target) rest after fits b) →
      ∀ m, (target.render ++ rest).length ≤ m →
        Reads rounds (do let first ← Reader.name; dottedName m (.name first))
          (target.render ++ rest) after fits b
  | .name x, _, rest, hmore, m, hm =>
    (Reads.name x).step (hmore m (Nat.le_of_succ_le hm))
  | .member object .dot (.name x), h, rest, hmore, m, hm => by
    have hobject : object.isDotted = true := h
    have htext : (Expr.member object .dot (.name x)).render ++ rest =
        object.render ++ .symbol .dot :: .name x :: rest := by
      simp [Expr.render, parenthesized, Expr.isChain_of_isDotted hobject]
    rw [htext] at hm ⊢
    -- The last dot becomes part of what follows the shorter name.
    refine Reads.dotted object hobject _ (fun m hm => ?_) m hm
    obtain ⟨m, rfl, hturns⟩ := exists_turn hm
    exact dottedName_more x (hmore m (Nat.le_of_succ_le hturns))

theorem Reads.owner_dotted {deeper : Deeper} (hrounds : deeper.rounds = rounds)
    (h : target.isDotted = true) (hrest : headKind rest ≠ .symbol .dot) :
    Reads rounds (owner deeper) (target.render ++ rest) rest True target := by
  refine Reads.of_bound fun hbound => ?_
  rw [owner, hrounds]
  exact Reads.dotted target h rest
    (fun m _ => dottedName_done hrest m) rounds hbound

end Functions

namespace Stat.Readable

variable {values : List Expr} {start stop step source : Expr}

theorem ofDo (hbody : Block.Readable rounds body) :
    (Stat.do body).Readable rounds := by
  intro levels rest _
  rw [render, List.cons_append, List.append_assoc]
  exact Reads.stat_do (hbody levels _ rfl)

theorem ofBreak : Stat.break.Readable rounds :=
  fun levels _ _ =>
    Reads.stat_break.congr (iff_of_true trivial (Nat.zero_le levels))

theorem ofReturn (hvalues : ∀ e ∈ values, e.Readable rounds) :
    (Stat.return values).Readable rounds := by
  intro levels rest hrest
  cases values with
  | nil =>
    exact (Reads.returnStat_none hrest).congr
      (iff_of_true trivial (Nat.zero_le levels))
  | cons e es =>
    have hopens := opensExpr_separated hvalues (List.cons_ne_nil e es) rest
    exact Reads.returnStat_some (TokenKind.closesBlock_of_opensExpr hopens)
      (TokenKind.ne_of_opensExpr hopens rfl)
      (Reads.lastExprs hvalues (List.cons_ne_nil e es) hrest levels)

theorem ofCall {callee : Expr} {args : List Expr}
    (h : (Expr.call callee args).ReadsChain rounds) :
    (Stat.expr (.call callee args)).Readable rounds :=
  fun levels rest hrest => Reads.stat_expr (Expr.opensChain_render rfl rest)
    (Reads.exprStat_call
      (h.primary (EndsExpr.of_semicolon hrest).chain levels) hrest)

theorem ofLocal {xs : List String} (hxs : xs ≠ [])
    (hvalues : ∀ e ∈ values, e.Readable rounds) :
    (Stat.local xs values).Readable rounds := by
  intro levels rest hrest
  have hrounds := Deeper.ofLevels_rounds rounds levels
  cases values with
  | nil =>
    have htext : (Stat.local xs []).render ++ rest =
        .keyword .local :: (nameList xs ++ rest) := by
      simp [render]
    rw [htext]
    exact .congr (Reads.stat_local fun opened => Reads.localStat_none hrounds
        opened hxs hrest) (iff_of_true trivial (Nat.zero_le levels))
  | cons e es =>
    have htext : (Stat.local xs (e :: es)).render ++ rest =
        .keyword .local :: (nameList xs ++ .symbol .assign ::
          (separated (exprTexts (e :: es)) ++ rest)) := by
      simp [render]
    rw [htext]
    exact Reads.stat_local fun opened => Reads.localStat_values hrounds opened
      hxs (Reads.lastExprs hvalues (List.cons_ne_nil e es) hrest levels)

theorem ofWhile (htest : test.Readable rounds)
    (hbody : Block.Readable rounds body) :
    (Stat.while test body).Readable rounds := by
  intro levels rest _
  rw [render, nesting, Nat.max_le]
  simp only [List.cons_append, List.append_assoc]
  exact Reads.stat_while (htest.whole levels _ ⟨rfl, rfl⟩) (hbody levels _ rfl)

theorem ofRepeat (hbody : Block.Readable rounds body)
    (htest : test.Readable rounds) :
    (Stat.repeat body test).Readable rounds := by
  intro levels rest hrest
  rw [render, nesting, Nat.max_le]
  simp only [List.cons_append, List.append_assoc]
  exact Reads.stat_repeat (hbody levels _ rfl)
    (htest.whole levels _ (.of_semicolon hrest))

theorem ofForRange (x : String) (hstart : start.Readable rounds)
    (hstop : stop.Readable rounds) (hstep : step.Readable rounds)
    (hbody : Block.Readable rounds body) :
    (Stat.forRange x start stop step body).Readable rounds := by
  intro levels rest _
  rw [render, nesting, Nat.max_le, Nat.max_le, Nat.max_le, and_assoc]
  simp only [List.cons_append, List.append_assoc]
  exact Reads.stat_for (Reads.forStat_range (hstart.whole levels _ ⟨rfl, rfl⟩)
      (hstop.whole levels _ ⟨rfl, rfl⟩) (hstep.whole levels _ ⟨rfl, rfl⟩)
      (hbody levels _ rfl))

theorem ofForEach (x : String) (xs : List String)
    (hsource : source.Readable rounds) (hbody : Block.Readable rounds body) :
    (Stat.forEach (x :: xs) source body).Readable rounds := by
  intro levels rest _
  rw [render, nesting, Nat.max_le]
  simp only [List.cons_append, List.append_assoc]
  exact Reads.stat_for
    (Reads.forStat_each (Deeper.ofLevels_rounds rounds levels) x xs
      (hsource.whole levels _ ⟨rfl, rfl⟩) (hbody levels _ rfl))

theorem ofLocalFunction (x : String) (params : List String)
    (hbody : Block.Readable rounds body) :
    (Stat.function (some (.name x)) true params body).Readable rounds := by
  intro levels rest _
  have htext :
      (Stat.function (some (.name x)) true params body).render ++ rest =
        .keyword .local :: .keyword .function :: .name x ::
          (signatureText params ++
            (blockText body ++ .keyword .end :: rest)) := by
    simp [render, Expr.render]
  rw [htext]
  exact Reads.stat_local fun opened =>
    Reads.localStat_function (Deeper.ofLevels_rounds rounds levels) opened x
      params (hbody levels _ rfl)

theorem ofFunction {target : Expr} {params : List String}
    (htarget : target.namesFunction params = true)
    (hbody : Block.Readable rounds body) :
    (Stat.function (some target) false params body).Readable rounds := by
  intro levels rest _
  have hrounds := Deeper.ofLevels_rounds rounds levels
  have htext : (Stat.function (some target) false params body).render ++ rest =
      .keyword .function ::
        (target.render ++ (signatureText (target.writtenParams params) ++
            (blockText body ++ .keyword .end :: rest))) := by
    simp [render]
  rw [htext]
  cases hdotted : target.isDotted with
  | true =>
    -- Without a colon all parameters are written.
    rw [Expr.writtenParams, Expr.isMethodName_of_isDotted hdotted]
    exact Reads.stat_function (Reads.functionStat_plain hrounds
        (Reads.owner_dotted hrounds hdotted (by simp [signatureText]))
        (hbody levels _ rfl))
  | false =>
    rw [Expr.namesFunction, hdotted, Bool.false_or, Bool.and_eq_true] at htarget
    obtain ⟨object, x, hobject, rfl⟩ := Expr.exists_of_isMethodName htarget.1
    obtain ⟨params, rfl⟩ := List.head?_eq_some_iff.mp (eq_of_beq htarget.2)
    have howner : (Expr.member object .colon (.name x)).render =
        object.render ++ [.symbol .colon, .name x] := by
      simp [Expr.render, parenthesized, Expr.isChain_of_isDotted hobject]
    rw [howner, List.append_assoc, Expr.writtenParams, htarget.1]
    exact Reads.stat_function (Reads.functionStat_method hrounds x
      (Reads.owner_dotted hrounds hobject (by simp)) (hbody levels _ rfl))

theorem afterTarget (texts : List (List TokenKind)) (ks : List TokenKind) :
    headKind (afterCommas texts ++ .symbol .assign :: ks) = .symbol .assign ∨
      headKind (afterCommas texts ++ .symbol .assign :: ks) =
        .symbol .comma := by
  cases texts with
  | nil => exact .inl rfl
  | cons text texts => exact .inr rfl

theorem target (he : e.Readable rounds) (htarget : e.isTarget = true)
    (levels : Nat) (texts : List (List TokenKind)) (ks : List TokenKind) :
    Reads rounds (primary (.ofLevels rounds levels))
      (e.render ++ (afterCommas texts ++ .symbol .assign :: ks))
      (afterCommas texts ++ .symbol .assign :: ks) (e.nesting ≤ levels) e := by
  have hchain := Expr.isChain_of_isTarget htarget
  rw [← e.operandText_of_isChain hchain, ← e.operandNesting_of_isChain hchain]
  refine he.chain.primary ?_ levels
  -- Neither token adds a link to the target.
  rcases afterTarget texts ks with h | h
  · exact congrArg TokenKind.addsLink h
  · exact congrArg TokenKind.addsLink h

theorem moreTargets {ts : List Expr} (hts : ∀ e ∈ ts, e.Readable rounds)
    (htargets : ∀ e ∈ ts, e.isTarget = true) (levels : Nat)
    (ks : List TokenKind) :
    Reads rounds (Reader.afterCommas
        (do assignTarget (← primary (.ofLevels rounds levels))) rounds)
      (afterCommas (exprTexts ts) ++ .symbol .assign :: ks)
      (.symbol .assign :: ks) (targetsNesting ts ≤ levels) ts := by
  refine Reads.of_bound fun hbound => ?_
  rw [exprTexts_eq_map] at hbound ⊢
  rw [List.length_append] at hbound
  rw [targetsNesting_le_iff]
  exact Reads.afterCommas (by simp) ts (fun e he others =>
    (target (hts e he) (htargets e he) levels others ks).last
      (Reads.assignTarget (htargets e he)))
    rounds (Nat.le_trans (Nat.le_add_right _ _) hbound)

theorem ofAssign {ts : List Expr}
    (hwf : (Stat.expr (.assign ts values)).wellFormed = true)
    (hts : ∀ e ∈ ts, e.Readable rounds)
    (hvalues : ∀ e ∈ values, e.Readable rounds) :
    (Stat.expr (.assign ts values)).Readable rounds := by
  intro levels rest hrest
  refine Reads.stat_expr (Expr.opensChain_statement hwf rest) ?_
  simp only [wellFormed, Bool.and_eq_true, Bool.not_eq_true',
    List.isEmpty_eq_false_iff, List.all_eq_true] at hwf
  obtain ⟨⟨⟨⟨hne, htargets⟩, -⟩, hvaluesNe⟩, -⟩ := hwf
  cases ts with
  | nil => exact absurd rfl hne
  | cons t ts =>
    rw [List.forall_mem_cons] at htargets hts
    have htext : (Expr.assign (t :: ts) values).render ++ rest =
        t.render ++ (afterCommas (exprTexts ts) ++
          .symbol .assign :: (separated (exprTexts values) ++ rest)) := by
      simp [separated]
    have hmore :=
      moreTargets hts.2 htargets.2 levels (separated (exprTexts values) ++ rest)
    have hexprs := Reads.lastExprs hvalues hvaluesNe hrest levels
    rw [render, htext, nesting, Expr.nesting, targetsNesting, Nat.max_le,
      Nat.max_le, and_assoc]
    exact Reads.exprStat_assign (Deeper.ofLevels_rounds rounds levels)
      (target hts.1 htargets.1 levels _ _) htargets.1
      (afterTarget _ _) hmore hexprs

theorem ofIf {cs : List Clause} (htest : test.Readable rounds)
    (hbody : Block.Readable rounds body) (hcs : ∀ c ∈ cs, c.Readable rounds) :
    (Stat.if test body cs none).Readable rounds := by
  refine fun levels rest _ => Reads.of_bound fun hbound => ?_
  have htext : (Stat.if test body cs none).render ++ rest = .keyword .if ::
      (test.render ++ .keyword .then ::
        (blockText body ++ (clausesText cs ++ .keyword .end :: rest))) := by
    simp [render, elseText]
  rw [htext] at hbound ⊢
  rw [nesting, elseLevels, Nat.max_zero, Nat.max_le]
  refine Reads.stat_if
    (Reads.ifStat_plain (Deeper.ofLevels_rounds rounds levels)
      (Reads.branch htest hbody (closesBlock_clauses rfl cs) levels)
      (Reads.clauses hcs rfl (by simp) levels rounds ?_))
  simp only [List.length_cons, List.length_append] at hbound ⊢
  omega

theorem ofIfElse {cs : List Clause} {otherwise : Block}
    (htest : test.Readable rounds) (hbody : Block.Readable rounds body)
    (hcs : ∀ c ∈ cs, c.Readable rounds)
    (hotherwise : Block.Readable rounds otherwise) :
    (Stat.if test body cs (some otherwise)).Readable rounds := by
  refine fun levels rest _ => Reads.of_bound fun hbound => ?_
  have htext : (Stat.if test body cs (some otherwise)).render ++ rest =
      .keyword .if ::
        (test.render ++ .keyword .then ::
          (blockText body ++
            (clausesText cs ++ .keyword .else ::
              (blockText otherwise ++ .keyword .end :: rest)))) := by
    simp [render, elseText]
  rw [htext] at hbound ⊢
  rw [nesting, elseLevels, Nat.max_le, Nat.max_le (a := clauseLevels cs)]
  refine Reads.stat_if (Reads.ifStat_else (Deeper.ofLevels_rounds rounds levels)
      (Reads.branch htest hbody (closesBlock_clauses rfl cs) levels)
      (Reads.clauses hcs rfl (by simp) levels rounds ?_)
      (hotherwise levels _ rfl))
  simp only [List.length_cons, List.length_append] at hbound ⊢
  omega

end Stat.Readable

/-! Every well-formed tree is readable, by recursion over the tree. -/

mutual

theorem Expr.readable (rounds : Nat) : (e : Expr) → (isCallee : Bool) →
    e.wellFormed isCallee = true → e.ReadableAs rounds isCallee
  | .name x, isCallee, _ => (Expr.Readable.name x).as isCallee
  | .nil, isCallee, _ =>
    (Expr.Readable.literal rfl rfl rfl rfl rfl fun _ _ =>
        Reads.look (Reads.literal _)).as isCallee
  | .bool true, isCallee, _ =>
    (Expr.Readable.literal rfl rfl rfl rfl rfl fun _ _ =>
        Reads.look (Reads.literal _)).as isCallee
  | .bool false, isCallee, _ =>
    (Expr.Readable.literal rfl rfl rfl rfl rfl fun _ _ =>
        Reads.look (Reads.literal _)).as isCallee
  | .number _, isCallee, _ =>
    (Expr.Readable.literal rfl rfl rfl rfl rfl fun _ _ =>
        Reads.look (Reads.literal _)).as isCallee
  | .string _, isCallee, _ =>
    (Expr.Readable.literal rfl rfl rfl rfl rfl fun _ _ =>
        Reads.look (Reads.literal _)).as isCallee
  | .unary op e, isCallee, h =>
    (Expr.Readable.unary op (e.readable rounds false h)).as isCallee
  | .binary op left right, isCallee, h =>
    have h := Bool.and_eq_true_iff.mp h
    (Expr.Readable.binary op (left.readable rounds false h.1)
        (right.readable rounds false h.2)).as isCallee
  | .call callee args, isCallee, h =>
    have h := Bool.and_eq_true_iff.mp h
    ((Expr.ReadsCallee.call (callee.readable rounds true h.1)
      (exprsReadable rounds args h.2)).readable rfl).as isCallee
  | .member object .dot (.name x), isCallee, h =>
    (((object.readable rounds false h).chain.dot x).readable rfl).as isCallee
  | .member object .colon (.name x), true, h =>
    (object.readable rounds false h).chain.readsMethod x
  | .member object .bracket key, isCallee, h =>
    have h := Bool.and_eq_true_iff.mp h
    (((object.readable rounds false h.1).chain.bracket
          (key.readable rounds false h.2)).readable rfl).as isCallee
  | .table fields, isCallee, h =>
    (Expr.Readable.table (fieldsReadable rounds fields h)).as isCallee
  | .function params body, isCallee, h =>
    (Expr.Readable.function params
        (Block.readable h (statsReadable rounds body h))).as isCallee

theorem exprsReadable (rounds : Nat) :
    (es : List Expr) → exprsWellFormed es = true →
    ∀ e ∈ es, e.Readable rounds
  | [], _ => List.forall_mem_nil _
  | e :: es, h =>
    have h := Bool.and_eq_true_iff.mp h
    List.forall_mem_cons.mpr
      ⟨e.readable rounds false h.1, exprsReadable rounds es h.2⟩

theorem Field.readable (rounds : Nat) :
    (f : Field) → f.wellFormed = true → f.Readable rounds
  | .named key value, h =>
    Field.readable_named key (value.readable rounds false h)
  | .keyed key value, h =>
    have h := Bool.and_eq_true_iff.mp h
    Field.readable_keyed (key.readable rounds false h.1)
      (value.readable rounds false h.2)
  | .item value, h => Field.readable_item (value.readable rounds false h)

theorem fieldsReadable (rounds : Nat) :
    (fs : List Field) → fieldsWellFormed fs = true →
    ∀ f ∈ fs, f.Readable rounds
  | [], _ => List.forall_mem_nil _
  | f :: fs, h =>
    have h := Bool.and_eq_true_iff.mp h
    List.forall_mem_cons.mpr
      ⟨f.readable rounds h.1, fieldsReadable rounds fs h.2⟩

theorem Stat.readable (rounds : Nat) :
    (s : Stat) → s.wellFormed = true → s.Readable rounds
  | .do body, h => .ofDo (Block.readable h (statsReadable rounds body h))
  | .break, _ => .ofBreak
  | .return values, h => .ofReturn (exprsReadable rounds values h)
  | .expr (.call callee args), h =>
    have h := Bool.and_eq_true_iff.mp h
    .ofCall (Expr.ReadsCallee.call (callee.readable rounds true h.1)
        (exprsReadable rounds args h.2))
  | .expr (.assign targets values), h => by
    have hwf := h
    simp only [Stat.wellFormed, Bool.and_eq_true] at h
    exact .ofAssign hwf (exprsReadable rounds targets h.1.1.2)
      (exprsReadable rounds values h.2)
  | .function (some (.name x)) true params body, h =>
    .ofLocalFunction x params (Block.readable h (statsReadable rounds body h))
  | .function (some target) false params body, h => by
    rw [Stat.wellFormed, Bool.and_eq_true] at h
    exact .ofFunction h.1 (Block.readable h.2 (statsReadable rounds body h.2))
  | .local names values, h => by
    rw [Stat.wellFormed, Bool.and_eq_true, Bool.not_eq_true',
      List.isEmpty_eq_false_iff] at h
    exact .ofLocal h.1 (exprsReadable rounds values h.2)
  | .if test body cs none, h => by
    simp only [Stat.wellFormed, Bool.and_eq_true] at h
    obtain ⟨⟨htest, hbody⟩, hcs⟩ := h
    exact .ofIf (test.readable rounds false htest) (Block.readable hbody
        (statsReadable rounds body hbody)) (clausesReadable rounds cs hcs)
  | .if test body cs (some otherwise), h => by
    simp only [Stat.wellFormed, Bool.and_eq_true] at h
    obtain ⟨⟨⟨htest, hbody⟩, hcs⟩, hotherwise⟩ := h
    exact .ofIfElse (test.readable rounds false htest) (Block.readable hbody
        (statsReadable rounds body hbody)) (clausesReadable rounds cs hcs)
      (Block.readable hotherwise (statsReadable rounds otherwise hotherwise))
  | .forRange x start stop step body, h => by
    simp only [Stat.wellFormed, Bool.and_eq_true] at h
    obtain ⟨⟨⟨hstart, hstop⟩, hstep⟩, hbody⟩ := h
    exact .ofForRange x (start.readable rounds false hstart)
      (stop.readable rounds false hstop) (step.readable rounds false hstep)
      (Block.readable hbody (statsReadable rounds body hbody))
  | .forEach (x :: xs) source body, h =>
    have h := Bool.and_eq_true_iff.mp h
    .ofForEach x xs
      (source.readable rounds false (Bool.and_eq_true_iff.mp h.1).2)
      (Block.readable h.2 (statsReadable rounds body h.2))
  | .while test body, h =>
    have h := Bool.and_eq_true_iff.mp h
    .ofWhile (test.readable rounds false h.1)
      (Block.readable h.2 (statsReadable rounds body h.2))
  | .repeat body test, h =>
    have h := Bool.and_eq_true_iff.mp h
    .ofRepeat (Block.readable h.1 (statsReadable rounds body h.1))
      (test.readable rounds false h.2)

theorem statsReadable (rounds : Nat) :
    (ss : List Stat) → blockWellFormed ss = true →
    ∀ s ∈ ss, s.Readable rounds
  | [], _ => List.forall_mem_nil _
  | s :: ss, h =>
    have h := Bool.and_eq_true_iff.mp h
    List.forall_mem_cons.mpr ⟨s.readable rounds (Bool.and_eq_true_iff.mp h.1).1,
        statsReadable rounds ss h.2⟩

theorem Clause.readable (rounds : Nat) :
    (c : Clause) → c.wellFormed = true → c.Readable rounds
  | .mk test body, h =>
    have h := Bool.and_eq_true_iff.mp h
    ⟨test.readable rounds false h.1,
      Block.readable h.2 (statsReadable rounds body h.2)⟩

theorem clausesReadable (rounds : Nat) :
    (cs : List Clause) → clausesWellFormed cs = true →
    ∀ c ∈ cs, c.Readable rounds
  | [], _ => List.forall_mem_nil _
  | c :: cs, h =>
    have h := Bool.and_eq_true_iff.mp h
    List.forall_mem_cons.mpr
      ⟨c.readable rounds h.1, clausesReadable rounds cs h.2⟩

end

namespace Reader

variable {deeper : Deeper} {start c : Cursor}

theorem chunk_ok (hrun : (do next; deeper.block) start = .ok body c)
    (hc : c.Shows rounds []) :
    ∃ d, chunk deeper start = .ok ⟨body, c.allComments⟩ d := by
  have hcomments : c.allComments = c.comments.reverse := by
    rw [Cursor.allComments, Tokens.comments, hc.ended rfl]
    exact List.append_nil _
  have hend : check .eos c = .ok true c :=
    congrArg (Reply.ok · c) (decide_eq_true hc.current)
  rw [chunk_eq deeper, bind_apply, hrun, hcomments]
  refine ⟨{ c with built := .chunk ⟨body, c.comments.reverse⟩ :: c.built }, ?_⟩
  show closing body c = _
  rw [closing, bind_apply, hend]
  rfl

theorem chunk_error {e : ReadError}
    (hrun : (do next; deeper.block) start = .error e c) :
    chunk deeper start = .error e c := by
  rw [chunk_eq deeper, bind_apply, hrun]

end Reader

namespace Chunk

/-- The rendered tokens of a well-formed program give that program, with the
comments that stand between them, if the levels suffice; and they suffice
exactly if they are as many as the rendering opens. -/
theorem readTokens_render {body : Block} {tokens : Tokens}
    (hbody : body.WellFormed) (htokens : tokens.Spell (blockText body))
    (levels : Nat) :
    (blockNesting body + 1 ≤ levels →
      ∃ c, readTokens levels tokens = .ok ⟨body, tokens.comments⟩ c) ∧
    (¬ blockNesting body + 1 ≤ levels → ∃ t c, readTokens levels tokens =
        .error (.grammatical ⟨.tooDeep, t⟩) c) := by
  have h := Block.readable hbody
    (statsReadable (tokens.list.length + 1) body hbody) levels [] rfl
  rw [List.append_nil] at h
  obtain ⟨hok, herror⟩ := h.fromStart htokens (Nat.le_succ _)
  constructor
  · intro hlevels
    obtain ⟨c, hrun, hc, hcomments⟩ := hok hlevels
    exact hcomments ▸ Reader.chunk_ok hrun hc
  · intro hlevels
    obtain ⟨t, c, hrun⟩ := herror hlevels
    exact ⟨t, c, Reader.chunk_error hrun⟩

/-- The first parameter of a method is not written. -/
theorem readTokens_method :
    ∃ c, readTokens maxLevels
        ⟨[⟨.keyword .function, .start⟩, ⟨.name "stack", .start⟩,
            ⟨.symbol .colon, .start⟩, ⟨.name "push", .start⟩,
            ⟨.symbol .leftParen, .start⟩, ⟨.name "x", .start⟩,
            ⟨.symbol .rightParen, .start⟩, ⟨.comment " the top", .start⟩,
            ⟨.name "self", .start⟩, ⟨.symbol .dot, .start⟩,
            ⟨.name "top", .start⟩, ⟨.symbol .assign, .start⟩,
            ⟨.symbol .minus, .start⟩, ⟨.name "x", .start⟩,
            ⟨.symbol .semicolon, .start⟩, ⟨.keyword .return, .start⟩,
            ⟨.symbol .semicolon, .start⟩, ⟨.keyword .end, .start⟩,
            ⟨.symbol .semicolon, .start⟩],
          .finished .start⟩ =
      .ok
        ⟨[.function (some (.member (.name "stack") .colon (.name "push"))) false
            ["self", "x"]
            [.expr (.assign [.member (.name "self") .dot (.name "top")]
                [.unary .neg (.name "x")]),
              .return []]],
          [⟨" the top", .start⟩]⟩ c := by
  refine (readTokens_render ?_ ⟨?_, .start, ?_⟩ maxLevels).1 ?_
  · exact rfl
  · rfl
  · rfl
  · decide

end Chunk

end LuaCore
