import LuaCore.Proofs.Reader.Faithful
import LuaCore.Proofs.Reader.RoundTrip

namespace LuaCore

open Reader

def inParens (depth : Nat) (ks : List TokenKind) : List TokenKind :=
  List.replicate depth (.symbol .leftParen) ++ ks ++
    List.replicate depth (.symbol .rightParen)

def targetText (t : Nat × Expr) : List TokenKind := inParens t.1 t.2.render

/-- Targets, each in so many pairs of parentheses, and the values that they
are assigned. -/
def assignText (targets : List (Nat × Expr)) (values : List Expr) :
    List TokenKind :=
  separated (targets.map targetText) ++
    .symbol .assign :: separated (exprTexts values)

variable {rounds : Nat} {e : Expr} {rest : List TokenKind}

theorem inParens_zero (ks : List TokenKind) : inParens 0 ks = ks := by
  simp [inParens]

theorem inParens_succ (depth : Nat) (ks rest : List TokenKind) :
    inParens (depth + 1) ks ++ rest = .symbol .leftParen ::
        (inParens depth ks ++ .symbol .rightParen :: rest) := by
  rw [inParens, List.replicate_succ, List.replicate_succ']
  simp [inParens]

theorem opensChain_inParens (hchain : e.isChain = true) (depth : Nat)
    (rest : List TokenKind) :
    (headKind (inParens depth e.render ++ rest)).opensChain = true := by
  cases depth with
  | zero =>
    rw [inParens_zero]
    exact e.opensChain_render hchain rest
  | succ depth =>
    rw [inParens_succ]
    rfl

namespace Expr.Readable

/-- Each pair of parentheses opens one level, on which what stands in it is read
as a whole expression. -/
theorem primaryInParens (he : e.Readable rounds) (hchain : e.isChain = true)
    (depth : Nat) (hrest : EndsChain rest) (levels : Nat) :
    Reads rounds (primary (.ofLevels rounds levels)) (inParens depth e.render ++
        rest) rest (e.nesting + depth ≤ levels) e := by
  induction depth generalizing rest levels with
  | zero =>
    rw [inParens_zero, ← e.operandText_of_isChain hchain,
      ← e.operandNesting_of_isChain hchain]
    exact he.chain.primary hrest levels
  | succ depth ih =>
    rw [inParens_succ]
    have hclosed : EndsExpr (.symbol .rightParen :: rest) := ⟨rfl, rfl⟩
    refine (Reads.prefixExpr_parenthesized (Reads.operand
          (fun levels => ?_) levels)).last (Reads.links_done hrest _)
    exact (Reads.unary_chain (opensChain_inParens hchain depth _)
        (ih hclosed.chain levels)).last
      (Reads.operators_done (.of_none hclosed.operator) _)

theorem wholeInParens (he : e.Readable rounds) (hchain : e.isChain = true)
    (depth : Nat) (hrest : EndsExpr rest) (levels : Nat) :
    Reads rounds (Deeper.ofLevels rounds levels).expr
      (inParens depth e.render ++ rest) rest
      (e.nesting + depth + 1 ≤ levels) e :=
  Reads.operand (fun levels =>
    (Reads.unary_chain (opensChain_inParens hchain depth _)
        (he.primaryInParens hchain depth hrest.chain levels)).last
      (Reads.operators_done (.of_none hrest.operator) _)) levels

end Expr.Readable

namespace Reads

variable {values : List Expr} {levels : Nat}

theorem endsChain_target (texts : List (List TokenKind)) (ks : List TokenKind) :
    EndsChain (LuaCore.afterCommas texts ++ .symbol .assign :: ks) := by
  rcases Stat.Readable.afterTarget texts ks with h | h
  · exact congrArg TokenKind.addsLink h
  · exact congrArg TokenKind.addsLink h

theorem targetsInParens {targets : List (Nat × Expr)}
    (htargets : ∀ t ∈ targets, t.2.Readable rounds ∧ t.2.isTarget = true)
    (levels : Nat) (ks : List TokenKind) (m : Nat)
    (hm : (LuaCore.afterCommas (targets.map targetText)).length ≤ m) :
    Reads rounds (Reader.afterCommas
        (do Reader.assignTarget (← primary (.ofLevels rounds levels))) m)
      (LuaCore.afterCommas (targets.map targetText) ++ .symbol .assign :: ks)
      (.symbol .assign :: ks) (∀ t ∈ targets, t.2.nesting + t.1 ≤ levels)
      (targets.map Prod.snd) := by
  induction targets generalizing m with
  | nil =>
    exact (afterCommas_none (by simp [LuaCore.afterCommas]) m).congr (by simp)
  | cons t ts ih =>
    obtain ⟨ht, hts⟩ := List.forall_mem_cons.mp htargets
    rw [List.map_cons, afterCommas_cons, List.cons_append, List.append_assoc,
      List.forall_mem_cons]
    rw [List.map_cons, afterCommas_cons, List.length_cons, List.length_append]
      at hm
    obtain ⟨m, rfl, hturns⟩ := exists_turn hm
    have hends := endsChain_target (ts.map targetText) ks
    have htarget := (ht.1.primaryInParens (Expr.isChain_of_isTarget ht.2) t.1
        hends levels).last (assignTarget ht.2)
    exact (consume (.symbol .comma)).step (htarget.bind
        ((ih hts m (Nat.le_trans (Nat.le_add_left _ _) hturns)).last pure))

theorem stat_assignInParens {targets : List (Nat × Expr)} (hne : targets ≠ [])
    (htargets : ∀ t ∈ targets, t.2.Readable rounds ∧ t.2.isTarget = true)
    (hvaluesNe : values ≠ []) (hvalues : ∀ e ∈ values, e.Readable rounds)
    (hrest : EndsExpr rest) (hcomma : headKind rest ≠ .symbol .comma)
    (levels : Nat) :
    Reads rounds (stat (.ofLevels rounds levels))
      (assignText targets values ++ rest) rest
      ((∀ t ∈ targets, t.2.nesting + t.1 ≤ levels) ∧ exprLevels values ≤ levels)
      (.expr (.assign (targets.map Prod.snd) values)) := by
  cases targets with
  | nil => exact absurd rfl hne
  | cons t ts =>
    obtain ⟨ht, hts⟩ := List.forall_mem_cons.mp htargets
    have hchain := Expr.isChain_of_isTarget ht.2
    have htext : assignText (t :: ts) values ++ rest = targetText t ++
        (LuaCore.afterCommas (ts.map targetText) ++
          .symbol .assign :: (separated (exprTexts values) ++ rest)) := by
      simp [assignText, separated]
    have hends := endsChain_target (ts.map targetText)
      (separated (exprTexts values) ++ rest)
    have hfirst := ht.1.primaryInParens hchain t.1 hends levels
    rw [htext, List.forall_mem_cons, and_assoc]
    refine stat_expr (opensChain_inParens hchain t.1 _)
      (Reads.of_bound fun hbound => ?_)
    refine exprStat_assign (Deeper.ofLevels_rounds rounds levels) hfirst ht.2
      (Stat.Readable.afterTarget _ _) (targetsInParens hts levels _ rounds ?_)
      (Reads.exprs hvalues hvaluesNe hrest hcomma levels)
    simp only [List.length_append] at hbound
    omega

theorem field_namedInParens (x : String) (depth : Nat) (he : e.Readable rounds)
    (hrest : EndsExpr rest) (levels : Nat) :
    Reads rounds (field (.ofLevels rounds levels))
      (inParens depth [.name x] ++ .symbol .assign :: (e.render ++ rest)) rest
      (depth + 1 ≤ levels ∧ e.nesting + 1 ≤ levels) (.named x e) := by
  have hname : (Expr.name x).Readable rounds := .name x
  have hassign : EndsExpr (.symbol .assign :: (e.render ++ rest)) := ⟨rfl, rfl⟩
  have hkey := hname.wholeInParens rfl depth hassign levels
  have hopens := opensChain_inParens (e := .name x) rfl depth
    (.symbol .assign :: (e.render ++ rest))
  have hbracket : headKind
        (inParens depth [.name x] ++ .symbol .assign :: (e.render ++ rest)) ≠
      .symbol .leftBracket := by
    rintro hbracket
    rw [show [TokenKind.name x] = (Expr.name x).render from rfl] at hbracket
    rw [hbracket] at hopens
    cases hopens
  refine .congr ((consume_other hbracket).step (hkey.bind ((check rfl).step
          (next.step ((he.whole levels rest hrest).last (madeField _)))))) ?_
  show 0 + depth + 1 ≤ levels ∧ e.nesting + 1 ≤ levels ↔
    depth + 1 ≤ levels ∧ e.nesting + 1 ≤ levels
  rw [Nat.zero_add]

theorem stats_single {deeper : Deeper} {ks : List TokenKind} {fits : Prop}
    {s : Stat} (hopen : (headKind ks).opensChain = true)
    (h : Reads rounds (stat deeper) ks rest fits s)
    (hrest : (headKind rest).closesBlock = true) (m : Nat) :
    Reads rounds (Reader.stats deeper (m + 1)) ks rest fits [s] := by
  have hsemicolon : headKind rest ≠ .symbol .semicolon :=
    fun h => by rw [h] at hrest; cases hrest
  have hreturn : headKind ks ≠ .keyword .return :=
    fun h => by rw [h] at hopen; cases hopen
  have hcloses :=
    TokenKind.closesBlock_of_opensExpr (TokenKind.opensExpr_of_opensChain hopen)
  apply look
  rw [if_neg (Bool.eq_false_iff.mp hcloses), if_neg hreturn]
  exact h.last
    ((consume_other hsemicolon).step ((stats_done hrest m).step pure))

end Reads

namespace Chunk

open Reads

variable {targets : List (Nat × Expr)} {values : List Expr}

theorem opensChain_assignText (hne : targets ≠ [])
    (htargets : ∀ t ∈ targets, t.2.isTarget = true) (values : List Expr)
    (rest : List TokenKind) :
    (headKind (assignText targets values ++ rest)).opensChain = true := by
  cases targets with
  | nil => exact absurd rfl hne
  | cons t ts =>
    have hchain := Expr.isChain_of_isTarget (htargets t List.mem_cons_self)
    rw [assignText, List.map_cons, separated, List.append_assoc,
      List.append_assoc]
    exact opensChain_inParens hchain t.1 _

theorem ofSource_assignText {source : String} (hne : targets ≠ [])
    (htargets : ∀ t ∈ targets, t.2.isTarget = true ∧
      t.2.wellFormed false = true) (hvaluesNe : values ≠ [])
    (hvalues : ∀ e ∈ values, e.wellFormed false = true)
    (hsource : (Tokens.ofSource source).Spell (assignText targets values)) :
    ((∀ t ∈ targets, t.2.nesting + t.1 < maxLevels) ∧
        exprLevels values < maxLevels →
      ofSource source = .ok ⟨[.expr (.assign (targets.map Prod.snd) values)],
            (Tokens.ofSource source).comments⟩) ∧
    (¬((∀ t ∈ targets, t.2.nesting + t.1 < maxLevels) ∧
        exprLevels values < maxLevels) →
      ∃ t, ofSource source = .error (.grammatical ⟨.tooDeep, t⟩)) := by
  generalize hrounds : (Tokens.ofSource source).list.length + 1 = rounds
  have hblock : Reads rounds (Deeper.ofLevels rounds maxLevels).block
      (assignText targets values) []
      ((∀ t ∈ targets, t.2.nesting + t.1 < maxLevels) ∧ exprLevels values <
          maxLevels) [.expr (.assign (targets.map Prod.snd) values)] := by
    have hopens :=
      opensChain_assignText hne (fun t ht => (htargets t ht).1) values []
    have hends : EndsExpr [] := ⟨rfl, rfl⟩
    have hread := stat_assignInParens hne (fun t ht =>
        ⟨t.2.readable rounds false (htargets t ht).2, (htargets t ht).1⟩)
      hvaluesNe (fun e he => e.readable rounds false (hvalues e he)) hends
      (by decide) 199
    rw [List.append_nil] at hopens hread
    show Reads _ (Reader.block (.ofLevels _ 199)) _ _ _ _
    rw [Reader.block, Deeper.ofLevels_rounds, ← hrounds]
    rw [← hrounds] at hread
    refine .congr ((stats_single hopens hread rfl _).last
        ((Reads.build _).step Reads.pure)) ?_
    simp only [maxLevels, Nat.lt_succ_iff]
  obtain ⟨hok, herror⟩ := hblock.fromStart hsource (hrounds ▸ Nat.le_succ _)
  constructor
  · intro hlevels
    obtain ⟨c, hrun, hc, hcomments⟩ := hok hlevels
    obtain ⟨d, hchunk⟩ := Reader.chunk_ok hrun hc
    rw [ofSource, read, readTokens, hrounds, hchunk, hcomments]
  · intro hlevels
    obtain ⟨t, c, hrun⟩ := herror hlevels
    refine ⟨t, ?_⟩
    rw [ofSource, read, readTokens, hrounds, Reader.chunk_error hrun]

/-- Parentheses around targets and names of fields are read like none, wherever
the statement or the field stands, if there are levels for them. -/
theorem parenthesized_accepted (hne : targets ≠ [])
    (htargets : ∀ t ∈ targets, t.2.isTarget = true ∧
      t.2.wellFormed false = true) (hvaluesNe : values ≠ [])
    (hvalues : ∀ e ∈ values, e.wellFormed false = true) :
    (∀ rounds levels rest, EndsExpr rest → headKind rest ≠ .symbol .comma →
      Reads rounds (stat (.ofLevels rounds levels))
        (assignText targets values ++ rest) rest
        ((∀ t ∈ targets, t.2.nesting + t.1 ≤ levels) ∧
          exprLevels values ≤ levels)
        (.expr (.assign (targets.map Prod.snd) values))) ∧
    (∀ rounds levels rest depth x, ∀ e ∈ values, EndsExpr rest →
      Reads rounds (field (.ofLevels rounds levels))
        (inParens depth [.name x] ++ .symbol .assign :: (e.render ++ rest)) rest
        (depth + 1 ≤ levels ∧ e.nesting + 1 ≤ levels) (.named x e)) ∧
    ∀ source, (Tokens.ofSource source).Spell (assignText targets values) →
      ((∀ t ∈ targets, t.2.nesting + t.1 < maxLevels) ∧
          exprLevels values < maxLevels →
        ofSource source =
          .ok ⟨[.expr (.assign (targets.map Prod.snd) values)],
            (Tokens.ofSource source).comments⟩) ∧
      (¬((∀ t ∈ targets, t.2.nesting + t.1 < maxLevels) ∧
          exprLevels values < maxLevels) →
        ∃ t, ofSource source = .error (.grammatical ⟨.tooDeep, t⟩)) := by
  refine ⟨fun rounds levels rest hrest hcomma => ?_,
    fun rounds levels rest depth x e he hrest => ?_, fun source => ?_⟩
  · exact stat_assignInParens hne
      (fun t ht =>
        ⟨t.2.readable rounds false (htargets t ht).2, (htargets t ht).1⟩)
      hvaluesNe (fun e he => e.readable rounds false (hvalues e he)) hrest
      hcomma levels
  · exact field_namedInParens x depth
      (e.readable rounds false (hvalues e he)) hrest levels
  · exact ofSource_assignText hne htargets hvaluesNe hvalues

theorem parenthesized_accepted_pair :
    ofSource "(x), ((t.a)) = 1, 2" =
      .ok
        ⟨[.expr (.assign [.name "x", .member (.name "t") .dot (.name "a")]
            [.number 1.0, .number 2.0])],
          []⟩ := by
  have hspell : (Tokens.ofSource "(x), ((t.a)) = 1, 2").Spell
      (assignText [(1, .name "x"), (2, .member (.name "t") .dot (.name "a"))]
        [.number 1.0, .number 2.0]) :=
    ⟨by decide +kernel, ⟨1, 20⟩, by decide +kernel⟩
  have hcomments : (Tokens.ofSource "(x), ((t.a)) = 1, 2").comments = [] := by
    decide +kernel
  have h :=
    ((parenthesized_accepted (by simp) (by decide) (by simp) (by decide)).2.2
        _ hspell).1 (by decide)
  rw [h, hcomments]
  rfl

def namedField? (c : Chunk) : Option (String × String) :=
  match c.body with
  | [.expr (.assign [.name t] [.table [.named x _]])] => some (t, x)
  | _ => none

theorem body_of_namedField? {c : Chunk} {t x : String}
    (h : c.namedField? = some (t, x)) :
    ∃ e, c.body = [.expr (.assign [.name t] [.table [.named x e]])] := by
  unfold namedField? at h
  split at h
  · next _ _ e hbody =>
    cases h
    exact ⟨e, hbody⟩
  · cases h

/-- A name in parentheses is assigned to, and one names a field. -/
theorem ofSource_parenthesized_name :
    ((Tokens.ofSource "(x) = 1").kinds = [.symbol .leftParen, .name "x",
          .symbol .rightParen, .symbol .assign, .number 1.0] ∧
      ofSource "(x) = 1" =
        .ok ⟨[.expr (.assign [.name "x"] [.number 1.0])], []⟩) ∧
    ((Tokens.ofSource "t = \x7b(x) = 1\x7d").kinds =
        [.name "t", .symbol .assign, .symbol .leftBrace, .symbol .leftParen,
          .name "x", .symbol .rightParen, .symbol .assign, .number 1.0,
          .symbol .rightBrace] ∧
      ∃ c e, ofSource "t = \x7b(x) = 1\x7d" = .ok c ∧
        c.body = [.expr (.assign [.name "t"] [.table [.named "x" e]])]) := by
  refine ⟨⟨by decide +kernel, ?_⟩, by decide +kernel, ?_⟩
  · have hspell : (Tokens.ofSource "(x) = 1").Spell
        (assignText [(1, .name "x")] [.number 1.0]) :=
      ⟨by decide +kernel, ⟨1, 8⟩, by decide +kernel⟩
    have hcomments : (Tokens.ofSource "(x) = 1").comments = [] := by
      decide +kernel
    have h :=
      (ofSource_assignText (by simp) (by decide) (by simp) (by decide) hspell).1
        (by decide)
    rw [h, hcomments]
    rfl
  · obtain ⟨c, hsource, hfield⟩ : ∃ c, ofSource "t = \x7b(x) = 1\x7d" = .ok c ∧
        decide (c.namedField? = some ("t", "x")) =
          true := exists_of_any (by decide +kernel)
    obtain ⟨e, hbody⟩ := body_of_namedField? (of_decide_eq_true hfield)
    exact ⟨c, e, hsource, hbody⟩

end Chunk

end LuaCore
