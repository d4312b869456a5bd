import LuaCore.Proofs.Reader.Rendering

/-! Chains grow to the right while their trees grow to the left, so the facts
about them are stated with the continuation of the loop over the links. -/

namespace LuaCore

open Reader

def Expr.operandText (e : Expr) : List TokenKind :=
  parenthesized (!e.isChain) e.render

def Expr.operandNesting (e : Expr) : Nat :=
  parenthesizedNesting (!e.isChain) e.nesting

/-- What follows an expression continues neither a chain nor a row of
operators. -/
structure EndsExpr (ks : List TokenKind) : Prop where
  chain : EndsChain ks
  operator : BinaryOp.ofToken? (headKind ks) = none

def Expr.ReadsChain (rounds : Nat) (e : Expr) : Prop :=
  ∀ (levels : Nat) (rest after : List TokenKind) (more : Prop) (b : Expr),
    (∀ m, rest.length ≤ m →
      Reads rounds (links (.ofLevels rounds levels) m e) rest after more b) →
    ∀ m, (e.operandText ++ rest).length ≤ m →
      Reads rounds (prefixExpr (.ofLevels rounds levels) >>=
          links (.ofLevels rounds levels) m)
        (e.operandText ++ rest) after (e.operandNesting ≤ levels ∧ more) b

/-- A callee is read with its arguments: a method reference is no expression
of its own. -/
def Expr.ReadsCallee (rounds : Nat) (callee : Expr) : Prop :=
  ∀ (levels n : Nat) (args : List Expr) (ks rest after : List TokenKind)
      (more : Prop) (b : Expr), rest.length ≤ ks.length →
    Reads rounds (arguments (.ofLevels rounds levels))
      (.symbol .leftParen :: ks) rest (n ≤ levels) args →
    (∀ m, rest.length ≤ m → Reads rounds (links (.ofLevels rounds levels) m
          (.call callee args)) rest after more b) →
    ∀ m, (callee.operandText ++ .symbol .leftParen :: ks).length ≤ m →
      Reads rounds (prefixExpr (.ofLevels rounds levels) >>=
          links (.ofLevels rounds levels) m)
        (callee.operandText ++ .symbol .leftParen :: ks) after
        (callee.operandNesting ≤ levels ∧ n ≤ levels ∧ more) b

structure Expr.Readable (rounds : Nat) (e : Expr) : Prop where
  chain : e.ReadsChain rounds
  whole : ∀ levels rest, EndsExpr rest →
    Reads rounds (Deeper.ofLevels rounds levels).expr (e.render ++ rest) rest
      (e.nesting + 1 ≤ levels) e
  opens : ∀ ks, (headKind (e.render ++ ks)).opensExpr = true

def Expr.ReadableAs (rounds : Nat) (isCallee : Bool) (e : Expr) : Prop :=
  if isCallee then e.ReadsCallee rounds else e.Readable rounds

variable {rounds : Nat} {e object key callee : Expr} {rest ks : List TokenKind}

theorem Expr.operandText_of_isChain (h : e.isChain = true) :
    e.operandText = e.render := by
  rw [operandText, h]
  rfl

theorem Expr.operandNesting_of_isChain (h : e.isChain = true) :
    e.operandNesting = e.nesting := by
  rw [operandNesting, h]
  rfl

namespace Expr.ReadsChain

theorem primary (he : e.ReadsChain rounds) (hrest : EndsChain rest)
    (levels : Nat) :
    Reads rounds (primary (.ofLevels rounds levels))
      (e.operandText ++ rest) rest (e.operandNesting ≤ levels) e := by
  refine Reads.of_bound fun hbound => ?_
  rw [Reader.primary, Deeper.ofLevels_rounds]
  exact (he levels rest rest True e (fun m _ => Reads.links_done hrest m) rounds
      hbound).congr (iff_of_eq (and_true _))

theorem operand (he : e.ReadsChain rounds) {limit : Nat}
    (hrest : EndsChain rest) (hlimit : EndsOperand limit rest) (levels : Nat) :
    Reads rounds ((Deeper.ofLevels rounds levels).operand limit)
      (e.operandText ++ rest) rest (e.operandNesting + 1 ≤ levels) e :=
  Reads.operand (fun levels =>
    (Reads.unary_chain (e.opensChain_operand rest)
        (he.primary hrest levels)).last (Reads.operators_done hlimit _)) levels

theorem link {levels : Nat} {longer b : Expr} {after : List TokenKind}
    {fits more : Prop} (he : object.ReadsChain rounds)
    (hlink : Reads rounds (link? (.ofLevels rounds levels) object) ks rest fits
      (some longer)) (hlength : rest.length < ks.length)
    (hmore : ∀ m, rest.length ≤ m →
      Reads rounds (links (.ofLevels rounds levels) m longer) rest after more b)
    (m : Nat) (hm : (object.operandText ++ ks).length ≤ m) :
    Reads rounds (prefixExpr (.ofLevels rounds levels) >>=
        links (.ofLevels rounds levels) m) (object.operandText ++ ks) after
      (object.operandNesting ≤ levels ∧ fits ∧ more) b := by
  refine he levels ks after _ b (fun m hm => ?_) m hm
  obtain ⟨m, rfl, hturns⟩ := exists_turn (Nat.lt_of_lt_of_le hlength hm)
  exact Reads.links_more hlink (hmore m hturns)

theorem readsCallee (he : callee.ReadsChain rounds) :
    callee.ReadsCallee rounds :=
  fun _ _ _ _ _ _ _ _ hlength hargs hmore m hm =>
    he.link (Reads.link?_call hargs) (Nat.lt_succ_of_le hlength) hmore m hm

theorem readsMethod (he : object.ReadsChain rounds) (x : String) :
    (Expr.member object .colon (.name x)).ReadsCallee rounds := by
  intro levels n args ks rest after more b hlength hargs hmore m hm
  -- One link takes the colon, the name and the arguments together.
  have htext : (Expr.member object .colon (.name x)).operandText ++
        .symbol .leftParen :: ks =
      object.operandText ++
        .symbol .colon :: .name x :: .symbol .leftParen :: ks :=
    List.append_assoc _ _ _
  rw [htext] at hm ⊢
  refine he.link (Reads.link?_method x hargs) ?_ hmore m hm
  simp only [List.length_cons]
  omega

theorem dot (he : object.ReadsChain rounds) (x : String) :
    (Expr.member object .dot (.name x)).ReadsChain rounds := by
  intro levels rest after more b hmore m hm
  have htext : (Expr.member object .dot (.name x)).operandText ++ rest =
      object.operandText ++ .symbol .dot :: .name x :: rest :=
    List.append_assoc _ _ _
  rw [htext] at hm ⊢
  refine .congr (he.link (Reads.link?_dot x) ?_ hmore m hm)
    (and_congr_right fun _ => iff_of_eq (true_and _))
  simp only [List.length_cons]
  omega

theorem bracket (he : object.ReadsChain rounds) (hkey : key.Readable rounds) :
    (Expr.member object .bracket key).ReadsChain rounds := by
  intro levels rest after more b hmore m hm
  have htext : (Expr.member object .bracket key).operandText ++ rest =
      object.operandText ++ .symbol .leftBracket ::
          (key.render ++ .symbol .rightBracket :: rest) := by
    simp [operandText, parenthesized, isChain, render]
  have hnesting : (Expr.member object .bracket key).operandNesting =
      max object.operandNesting (key.nesting + 1) := rfl
  rw [hnesting, Nat.max_le, and_assoc]
  rw [htext] at hm ⊢
  refine he.link
    (Reads.link?_bracket (hkey.whole levels _ ⟨rfl, rfl⟩)) ?_ hmore m hm
  simp only [List.length_cons, List.length_append]
  omega

theorem readable (he : e.ReadsChain rounds) (hchain : e.isChain = true) :
    e.Readable rounds where
  chain := he
  whole levels rest hrest := by
    rw [← e.operandText_of_isChain hchain, ← e.operandNesting_of_isChain hchain]
    exact he.operand hrest.chain (.of_none hrest.operator) levels
  opens ks := TokenKind.opensExpr_of_opensChain (e.opensChain_render hchain ks)

end Expr.ReadsChain

namespace Expr.Readable

theorem as (he : e.Readable rounds) (isCallee : Bool) :
    e.ReadableAs rounds isCallee := by
  cases isCallee with
  | false => exact he
  | true => exact he.chain.readsCallee

theorem of_whole (hchain : e.isChain = false)
    (hwhole : ∀ levels rest, EndsExpr rest →
      Reads rounds (Deeper.ofLevels rounds levels).expr (e.render ++ rest) rest
        (e.nesting + 1 ≤ levels) e)
    (hopens : ∀ ks, (headKind (e.render ++ ks)).opensExpr = true) :
    e.Readable rounds where
  whole := hwhole
  opens := hopens
  chain levels rest after more b hmore m hm := by
    have htext : e.operandText ++ rest =
        .symbol .leftParen :: (e.render ++ .symbol .rightParen :: rest) := by
      simp [operandText, parenthesized, hchain]
    have hnesting : e.operandNesting = e.nesting + 1 := by
      simp [operandNesting, parenthesizedNesting, hchain]
    rw [htext, List.length_cons, List.length_append, List.length_cons] at hm
    rw [htext, hnesting]
    exact (Reads.prefixExpr_parenthesized (hwhole levels _ ⟨rfl, rfl⟩)).bind
      (hmore m (by omega))

theorem of_unary (hchain : e.isChain = false)
    (hunary : ∀ levels rest, EndsExpr rest →
      Reads rounds (Reader.unary (.ofLevels rounds levels))
        (e.render ++ rest) rest (e.nesting ≤ levels) e)
    (hopens : ∀ ks, (headKind (e.render ++ ks)).opensExpr = true) :
    e.Readable rounds :=
  of_whole hchain (fun levels rest hrest => Reads.operand (fun levels =>
    (hunary levels rest hrest).last
      (Reads.operators_done (.of_none hrest.operator) _)) levels) hopens

theorem literal {k : TokenKind} (hchain : e.isChain = false)
    (hrender : e.render = [k]) (hnesting : e.nesting = 0)
    (hk : UnaryOp.ofToken? k = none) (hopens : k.opensExpr = true)
    (h : ∀ levels rest, Reads rounds (Reader.simple (.ofLevels rounds levels))
      (k :: rest) rest True e) :
    e.Readable rounds := by
  refine of_unary hchain (fun levels rest _ => ?_) fun ks => ?_
  · rw [hrender, hnesting]
    refine .congr (Reads.unary_simple ?_ (h levels rest))
      (iff_of_true trivial (Nat.zero_le levels))
    exact hk
  · rw [hrender]
    exact hopens

theorem name (x : String) : (Expr.name x).Readable rounds := by
  refine Expr.ReadsChain.readable
    (fun levels rest after more b hmore m hm => ?_) rfl
  refine .congr
    ((Reads.prefixExpr_name x).step (hmore m (Nat.le_of_succ_le hm))) ?_
  exact (and_iff_right (Nat.zero_le levels)).symm

theorem unary (op : UnaryOp) (he : e.Readable rounds) :
    (Expr.unary op e).Readable rounds :=
  of_unary rfl (fun levels rest hrest => Reads.unary_operator op
      (he.chain.operand hrest.chain (.of_none hrest.operator) levels))
    (fun ks => by cases op <;> rfl)

theorem binary (op : BinaryOp) {left right : Expr}
    (hleft : left.Readable rounds) (hright : right.Readable rounds) :
    (Expr.binary op left right).Readable rounds := by
  have htext : ∀ rest, (Expr.binary op left right).render ++ rest =
      left.operandText ++ op.token :: (right.operandText ++ rest) :=
    fun rest => by
    simp [render, operandText]
  have hnesting : (Expr.binary op left right).nesting =
      max left.operandNesting (right.operandNesting + 1) := rfl
  refine of_whole rfl (fun levels rest hrest =>
      Reads.operand (fun levels => ?_) levels) fun ks => ?_
  -- Both operands are chains, so the row of operators has one turn, whatever
  -- the precedence.
  · have hoperators : ∀ m, 0 < m →
        Reads rounds (operators (.ofLevels rounds levels) 1 m left)
          (op.token :: (right.operandText ++ rest)) rest
          (right.operandNesting + 1 ≤ levels) (.binary op left right) := by
      intro m hm
      obtain ⟨m, rfl, -⟩ := exists_turn hm
      exact .congr (Reads.operators_more op.one_le_precedence
          (hright.chain.operand hrest.chain (.of_none hrest.operator) levels)
          (Reads.operators_done (.of_none hrest.operator) m))
        (iff_of_eq (and_true _))
    rw [hnesting, Nat.max_le, htext]
    refine Reads.of_bound fun hbound => ?_
    rw [List.length_append, List.length_cons] at hbound
    rw [Reader.operand, Deeper.ofLevels_rounds]
    exact (Reads.unary_chain (left.opensChain_operand _) (hleft.chain.primary
          (.of_token op _) levels)).bind (hoperators rounds (by omega))
  · rw [htext]
    exact TokenKind.opensExpr_of_opensChain (left.opensChain_operand _)

end Expr.Readable

section Lists

variable {es : List Expr} {levels : Nat}

theorem Reads.exprs (hes : ∀ e ∈ es, e.Readable rounds) (hne : es ≠ [])
    (hrest : EndsExpr rest) (hcomma : headKind rest ≠ .symbol .comma)
    (levels : Nat) :
    Reads rounds (Deeper.ofLevels rounds levels).exprs
      (separated (exprTexts es) ++ rest) rest (exprLevels es ≤ levels) es := by
  rw [exprTexts_eq_map, exprLevels_le_iff, Deeper.exprs, Deeper.ofLevels_rounds]
  refine Reads.separatedByCommas hcomma es hne fun e he others => ?_
  apply (hes e he).whole levels _
  cases others with
  | nil => exact hrest
  | cons text texts => exact ⟨rfl, rfl⟩

theorem opensExpr_separated (hes : ∀ e ∈ es, e.Readable rounds) (hne : es ≠ [])
    (ks : List TokenKind) :
    (headKind (separated (exprTexts es) ++ ks)).opensExpr = true := by
  cases es with
  | nil => exact absurd rfl hne
  | cons e es =>
    rw [exprTexts, separated, List.append_assoc]
    exact (hes e List.mem_cons_self).opens _

theorem TokenKind.ne_of_opensExpr {k other : TokenKind} (h : k.opensExpr = true)
    (hother : other.opensExpr = false) : k ≠ other := by
  rintro rfl
  rw [h] at hother
  exact Bool.noConfusion hother

theorem Reads.arguments (hes : ∀ e ∈ es, e.Readable rounds) (levels : Nat) :
    Reads rounds (arguments (.ofLevels rounds levels)) (.symbol .leftParen ::
        (separated (exprTexts es) ++ .symbol .rightParen :: rest))
      rest (exprLevels es ≤ levels) es := by
  cases es with
  | nil =>
    exact Reads.arguments_none.congr (iff_of_true trivial (Nat.zero_le levels))
  | cons e es =>
    have hne : e :: es ≠ [] := List.cons_ne_nil e es
    have hrest : EndsExpr (.symbol .rightParen :: rest) := ⟨rfl, rfl⟩
    refine Reads.arguments_some ?_ (Reads.exprs hes hne hrest (by simp) levels)
    exact TokenKind.ne_of_opensExpr (opensExpr_separated hes hne _) rfl

theorem Expr.ReadsCallee.call (hcallee : callee.ReadsCallee rounds)
    (hes : ∀ e ∈ es, e.Readable rounds) :
    (Expr.call callee es).ReadsChain rounds := by
  intro levels rest after more b hmore m hm
  have htext : (Expr.call callee es).operandText ++ rest =
      callee.operandText ++ .symbol .leftParen ::
          (separated (exprTexts es) ++ .symbol .rightParen :: rest) := by
    simp [operandText, parenthesized, isChain, render]
  have hnesting : (Expr.call callee es).operandNesting =
      max callee.operandNesting (exprLevels es) := rfl
  rw [hnesting, Nat.max_le, and_assoc]
  rw [htext] at hm ⊢
  refine hcallee levels _ es _ rest after more b ?_
    (Reads.arguments hes levels) hmore m hm
  simp only [List.length_append, List.length_cons]
  omega

structure Field.Readable (rounds : Nat) (f : Field) : Prop where
  reads : ∀ levels rest, headKind rest = .symbol .comma ∨
    headKind rest = .symbol .rightBrace →
    Reads rounds (field (.ofLevels rounds levels)) (f.render ++ rest) rest
      (f.levels ≤ levels) f
  opens : ∀ ks, headKind (f.render ++ ks) ≠ .symbol .rightBrace

theorem EndsExpr.of_fieldEnd
    (h : headKind rest = .symbol .comma ∨ headKind rest = .symbol .rightBrace) :
    EndsExpr rest := by
  rcases h with h | h
  · exact ⟨congrArg TokenKind.addsLink h, congrArg BinaryOp.ofToken? h⟩
  · exact ⟨congrArg TokenKind.addsLink h, congrArg BinaryOp.ofToken? h⟩

theorem Field.readable_item (he : e.Readable rounds) :
    (Field.item e).Readable rounds where
  reads levels rest hrest := by
    have hassign : headKind rest ≠ .symbol .assign := by
      rcases hrest with h | h
      · rw [h]; decide
      · rw [h]; decide
    exact Reads.field_item (TokenKind.ne_of_opensExpr (he.opens rest) rfl)
      hassign (he.whole levels rest (.of_fieldEnd hrest))
  opens ks := TokenKind.ne_of_opensExpr (he.opens ks) rfl

theorem Field.readable_named (x : String) (he : e.Readable rounds) :
    (Field.named x e).Readable rounds where
  reads levels rest hrest := by
    have hname : (Expr.name x).Readable rounds := .name x
    have hkey :=
      hname.whole levels (.symbol .assign :: (e.render ++ rest)) ⟨rfl, rfl⟩
    refine .congr
      (Reads.field_named x hkey (he.whole levels rest (.of_fieldEnd hrest))) ?_
    show 0 + 1 ≤ levels ∧ e.nesting + 1 ≤ levels ↔ e.nesting + 1 ≤ levels
    omega
  opens ks := by simp [Field.render]

theorem Field.readable_keyed (hkey : key.Readable rounds)
    (he : e.Readable rounds) :
    (Field.keyed key e).Readable rounds where
  reads levels rest hrest := by
    rw [Field.render, Field.levels, Nat.max_le]
    simp only [List.cons_append, List.append_assoc]
    exact Reads.field_keyed (hkey.whole levels _ ⟨rfl, rfl⟩)
      (he.whole levels rest (.of_fieldEnd hrest))
  opens ks := by simp [Field.render]

theorem Expr.Readable.table {fs : List Field}
    (hfs : ∀ f ∈ fs, f.Readable rounds) :
    (Expr.table fs).Readable rounds := by
  refine Expr.Readable.of_unary rfl (fun levels rest _ => ?_) fun _ => rfl
  have htext : (Expr.table fs).render ++ rest = .symbol .leftBrace ::
        (separated (fs.map Field.render) ++ .symbol .rightBrace :: rest) := by
    simp [Expr.render, fieldTexts_eq_map]
  rw [htext, Expr.nesting, fieldLevels_le_iff]
  refine Reads.unary_simple rfl
    (Reads.look (Reads.table (Deeper.ofLevels_rounds _ _) ?_))
  refine Reads.of_bound fun hbound => ?_
  exact Reads.fields fs
    (fun f hf others hothers => (hfs f hf).reads levels others hothers)
    (fun f hf others => (hfs f hf).opens others) rounds hbound

end Lists

end LuaCore
