import LuaCore.Proofs.Reader.Expression

/-! The operators on the left spine of a tree are taken by one loop, those on
the right spine by a loop each, and the induction over trees follows them. -/

namespace LuaCore

namespace BinaryOp

def precedenceBound : Nat := 9

theorem precedence_lt_bound (op : BinaryOp) :
    op.precedence < precedenceBound := by
  cases op <;> decide

theorem precedence_le_rightLimit (op : BinaryOp) :
    op.precedence ≤ op.rightLimit := by
  cases op <;> decide

theorem rightLimit_lt_bound (op : BinaryOp) :
    op.rightLimit < precedenceBound := by
  cases op <;> decide

theorem isRightAssoc_eq (op : BinaryOp) :
    op.isRightAssoc = (op.precedence == concat.precedence ||
        op.precedence == pow.precedence) := by
  cases op <;> rfl

theorem precedence_lt_unary (op : BinaryOp)
    (h : op.precedence < pow.precedence) :
    op.precedence < UnaryOp.precedence := by
  cases op <;> revert h <;> decide

/-- A left operand that binds more weakly, or as tightly where association is
to the right. -/
def parenthesizesLeft (op : BinaryOp) : Expr → Bool
  | .binary inner _ _ =>
    inner.precedence < op.precedence ||
      (inner.precedence == op.precedence && op.isRightAssoc)
  | .unary _ _ => op == .pow
  | _ => false

/-- A right operand that binds more weakly, or as tightly where association is
to the left. -/
def parenthesizesRight (op : BinaryOp) : Expr → Bool
  | .binary inner _ _ =>
    inner.precedence < op.precedence ||
      (inner.precedence == op.precedence && !op.isRightAssoc)
  | _ => false

end BinaryOp

/-- Only powers stand under a unary operator without parentheses. -/
def UnaryOp.parenthesizes : Expr → Bool
  | .binary inner _ _ => inner != .pow
  | _ => false

namespace Expr

/-- Names and literals, joined by operators. -/
inductive OnlyOperators : Expr → Prop
  | name (x : String) : OnlyOperators (.name x)
  | nil : OnlyOperators .nil
  | bool (b : Bool) : OnlyOperators (.bool b)
  | number (x : Float) : OnlyOperators (.number x)
  | string (text : String) : OnlyOperators (.string text)
  | unary (op : UnaryOp) {e : Expr} (he : OnlyOperators e) :
      OnlyOperators (.unary op e)
  | binary (op : BinaryOp) {left right : Expr} (hleft : OnlyOperators left)
      (hright : OnlyOperators right) : OnlyOperators (.binary op left right)

/-- The tokens of a tree of operators, with no more parentheses than the
precedences ask for. -/
def print : Expr → List TokenKind
  | .name x => [.name x]
  | .nil => [.keyword .nil]
  | .bool b => [.keyword (if b then .true else .false)]
  | .number x => [.number x]
  | .string text => [.string text]
  | .unary op e => op.token :: parenthesized (UnaryOp.parenthesizes e) e.print
  | .binary op left right =>
    parenthesized (op.parenthesizesLeft left) left.print ++
      op.token :: parenthesized (op.parenthesizesRight right) right.print
  | _ => []

/-- How many levels reading the printed tree opens within its own. -/
def printNesting : Expr → Nat
  | .unary _ e =>
    parenthesizedNesting (UnaryOp.parenthesizes e) e.printNesting + 1
  | .binary op left right =>
    max (parenthesizedNesting (op.parenthesizesLeft left) left.printNesting)
      (parenthesizedNesting (op.parenthesizesRight right) right.printNesting +
        1)
  | _ => 0

def headPrecedence : Expr → Nat
  | .binary op _ _ => op.precedence
  | _ => BinaryOp.precedenceBound

/-- An operator that binds as tightly as this would be taken into the
last operand. -/
def tailLimit : Expr → Nat
  | .binary op _ _ => op.rightLimit
  | .unary _ _ => UnaryOp.precedence
  | _ => BinaryOp.precedenceBound

theorem one_le_headPrecedence (e : Expr) : 1 ≤ e.headPrecedence := by
  cases e with
  | binary op left right => exact op.one_le_precedence
  | _ =>
    show 1 ≤ BinaryOp.precedenceBound
    decide

end Expr

theorem BinaryOp.precedence_le_head {op : BinaryOp} {left : Expr}
    (h : op.parenthesizesLeft left = false) :
    op.precedence ≤ left.headPrecedence := by
  cases left with
  | binary inner l r =>
    simp only [parenthesizesLeft, Bool.or_eq_false_iff, decide_eq_false_iff_not]
      at h
    exact Nat.le_of_not_lt h.1
  | _ => exact Nat.le_of_lt op.precedence_lt_bound

/-- After a left operand without parentheses the operator is not taken into
it. -/
theorem BinaryOp.precedence_lt_tail {op : BinaryOp} {left : Expr}
    (h : op.parenthesizesLeft left = false) :
    op.precedence < left.tailLimit := by
  cases left with
  | binary inner l r =>
    simp only [parenthesizesLeft, Bool.or_eq_false_iff, decide_eq_false_iff_not,
      op.isRightAssoc_eq] at h
    simp only [Expr.tailLimit, rightLimit, inner.isRightAssoc_eq]
    grind
  | unary inner e =>
    simp only [parenthesizesLeft] at h
    apply op.precedence_lt_unary
    cases op <;> first | decide | exact absurd h (by decide)
  | _ => exact op.precedence_lt_bound

theorem BinaryOp.rightLimit_le_head {op : BinaryOp} {right : Expr}
    (h : op.parenthesizesRight right = false) :
    op.rightLimit ≤ right.headPrecedence := by
  cases right with
  | binary inner l r =>
    simp only [parenthesizesRight, Bool.or_eq_false_iff,
      decide_eq_false_iff_not] at h
    simp only [Expr.headPrecedence, rightLimit]
    grind
  | _ => exact Nat.le_of_lt op.rightLimit_lt_bound

theorem UnaryOp.precedence_le_head {e : Expr}
    (h : UnaryOp.parenthesizes e = false) :
    UnaryOp.precedence ≤ e.headPrecedence := by
  cases e with
  | binary inner l r =>
    have hinner : inner = .pow := by simpa [parenthesizes] using h
    rw [hinner]
    show UnaryOp.precedence ≤ BinaryOp.pow.precedence
    decide
  | _ =>
    show UnaryOp.precedence ≤ BinaryOp.precedenceBound
    decide

theorem BinaryOp.token_injective {op other : BinaryOp}
    (h : op.token = other.token) :
    op = other := by
  have hop := BinaryOp.ofToken?_eq_some_iff.mpr h
  rw [BinaryOp.ofToken?_eq_some_iff.mpr rfl] at hop
  exact Option.some.inj hop

theorem EndsOperand.of_token {limit : Nat} {op : BinaryOp} {ks : List TokenKind}
    (h : op.precedence < limit) : EndsOperand limit (op.token :: ks) :=
  fun _ hother => BinaryOp.token_injective hother ▸ h

/-- After a tree that starts at a limit, what stays below the limit is not taken
into the tree. -/
theorem EndsOperand.tail {limit : Nat} {e : Expr} {rest : List TokenKind}
    (h : EndsOperand limit rest) (hlimit : limit ≤ BinaryOp.pow.precedence)
    (hhead : limit ≤ e.headPrecedence) : EndsOperand e.tailLimit rest := by
  intro op hop
  have hop := h op hop
  cases e with
  | binary inner l r =>
    exact Nat.lt_of_lt_of_le hop
      (Nat.le_trans hhead inner.precedence_le_rightLimit)
  | unary inner e =>
    exact op.precedence_lt_unary (Nat.lt_of_lt_of_le hop hlimit)
  | _ => exact op.precedence_lt_bound

/-- The printed tree is read from the left: what the loop over operators makes
of the tree and the tokens after it, that it makes of the tokens of the tree and
those after it. -/
def Expr.ReadsPrinted (rounds : Nat) (e : Expr) : Prop :=
  ∀ (levels limit : Nat) (rest after : List TokenKind) (more : Prop) (b : Expr),
    limit ≤ e.headPrecedence → EndsChain rest → EndsOperand e.tailLimit rest →
    (∀ m, rest.length ≤ m → Reads rounds (Reader.operators
          (.ofLevels rounds levels) limit m e) rest after more b) →
    ∀ m, (e.print ++ rest).length ≤ m →
      Reads rounds (Reader.unary (.ofLevels rounds levels) >>=
          Reader.operators (.ofLevels rounds levels) limit m)
        (e.print ++ rest) after (e.printNesting ≤ levels ∧ more) b

namespace Reads

open Reader

variable {rounds : Nat} {e : Expr}

theorem printed_of_unary
    (h : ∀ levels rest, EndsChain rest → EndsOperand e.tailLimit rest →
      Reads rounds (unary (.ofLevels rounds levels)) (e.print ++ rest) rest
        (e.printNesting ≤ levels) e) : e.ReadsPrinted rounds := by
  intro levels limit rest after more b _ hchain htail hmore m hm
  rw [List.length_append] at hm
  exact (h levels rest hchain htail).bind
    (hmore m (Nat.le_trans (Nat.le_add_left _ _) hm))

theorem printed_operand (he : e.ReadsPrinted rounds) {limit : Nat}
    {rest : List TokenKind} (hlimit : limit ≤ BinaryOp.pow.precedence)
    (hhead : limit ≤ e.headPrecedence) (hchain : EndsChain rest)
    (hrest : EndsOperand limit rest) (levels : Nat) :
    Reads rounds ((Deeper.ofLevels rounds levels).operand limit)
      (e.print ++ rest) rest (e.printNesting + 1 ≤ levels) e := by
  refine operand (fun levels => of_bound fun hbound => ?_) levels
  refine .congr (he levels limit rest rest True e hhead hchain
      (hrest.tail hlimit hhead) (fun m _ => operators_done hrest m) _ ?_)
    (iff_of_eq (and_true _))
  rw [Deeper.ofLevels_rounds]
  exact hbound

theorem printed_parentheses (he : e.ReadsPrinted rounds) {rest : List TokenKind}
    (hchain : EndsChain rest) (levels : Nat) :
    Reads rounds (unary (.ofLevels rounds levels))
      (parenthesized true e.print ++ rest) rest
      (parenthesizedNesting true e.printNesting ≤ levels) e := by
  have hinner : Reads rounds (Deeper.ofLevels rounds levels).expr
      (e.print ++ .symbol .rightParen :: rest) (.symbol .rightParen :: rest)
      (e.printNesting + 1 ≤ levels) e :=
    printed_operand he (by decide) e.one_le_headPrecedence (by exact rfl)
      (.of_none rfl) levels
  rw [parenthesized, if_pos rfl, List.cons_append, List.append_assoc]
  exact unary_chain rfl
    ((prefixExpr_parenthesized hinner).last (links_done hchain _))

theorem printed_rightOperand (he : e.ReadsPrinted rounds) {limit : Nat}
    {rest : List TokenKind} {needed : Bool}
    (hlimit : limit ≤ BinaryOp.pow.precedence)
    (hhead : needed = false → limit ≤ e.headPrecedence)
    (hchain : EndsChain rest) (hrest : EndsOperand limit rest) (levels : Nat) :
    Reads rounds ((Deeper.ofLevels rounds levels).operand limit)
      (parenthesized needed e.print ++ rest) rest
      (parenthesizedNesting needed e.printNesting + 1 ≤ levels) e := by
  cases needed with
  | false => exact printed_operand he hlimit (hhead rfl) hchain hrest levels
  | true =>
    exact operand (fun levels =>
      (printed_parentheses he hchain levels).last
        (operators_done hrest _)) levels

theorem printed_unary (op : UnaryOp) (he : e.ReadsPrinted rounds) :
    (Expr.unary op e).ReadsPrinted rounds := by
  refine printed_of_unary fun levels rest hchain hrest => ?_
  exact unary_operator op (printed_rightOperand he
      (by decide) UnaryOp.precedence_le_head hchain hrest levels)

theorem printed_binary (op : BinaryOp) {left right : Expr}
    (hleft : left.ReadsPrinted rounds) (hright : right.ReadsPrinted rounds) :
    (Expr.binary op left right).ReadsPrinted rounds := by
  intro levels limit rest after more b hlimit hchain hrest hmore m hm
  have hrightOperand := printed_rightOperand hright (by cases op <;> decide)
    BinaryOp.rightLimit_le_head hchain hrest levels
  rw [Expr.print, List.append_assoc, List.cons_append] at hm ⊢
  rw [Expr.printNesting, Nat.max_le, and_assoc]
  -- The operator, its right operand and what follows, once the left operand
  -- has been read.
  have htail : ∀ m,
      (op.token :: (parenthesized (op.parenthesizesRight right) right.print ++
        rest)).length ≤ m →
      Reads rounds (operators (.ofLevels rounds levels) limit m left)
        (op.token :: (parenthesized (op.parenthesizesRight right) right.print ++
            rest)) after
        (parenthesizedNesting (op.parenthesizesRight right)
            right.printNesting + 1 ≤ levels ∧ more) b := by
    intro m hm
    obtain ⟨m, rfl, hturns⟩ := exists_turn hm
    rw [List.length_append] at hturns
    exact operators_more hlimit hrightOperand
      (hmore m (Nat.le_trans (Nat.le_add_left _ _) hturns))
  cases hneeded : op.parenthesizesLeft left with
  | false =>
    rw [hneeded] at hm
    exact hleft levels limit _ after _ b (Nat.le_trans hlimit
        (BinaryOp.precedence_le_head hneeded)) (.of_token op _)
      (.of_token (BinaryOp.precedence_lt_tail hneeded)) htail m hm
  | true =>
    rw [hneeded, List.length_append] at hm
    exact (printed_parentheses hleft (.of_token op _) levels).bind
      (htail m (Nat.le_trans (Nat.le_add_left _ _) hm))

theorem printed_name (x : String) : (Expr.name x).ReadsPrinted rounds := by
  refine printed_of_unary fun levels rest hchain _ => ?_
  exact (unary_chain rfl ((prefixExpr_name x).step (links_done hchain _))).congr
    (iff_of_true trivial (Nat.zero_le levels))

theorem printed_literal {k : TokenKind} (hprint : e.print = [k])
    (hnesting : e.printNesting = 0) (hk : UnaryOp.ofToken? k = none)
    (h : ∀ levels rest,
      Reads rounds (simple (.ofLevels rounds levels)) (k :: rest) rest True e) :
    e.ReadsPrinted rounds := by
  refine printed_of_unary fun levels rest _ _ => ?_
  rw [hprint, hnesting]
  refine .congr (unary_simple ?_ (h levels rest))
    (iff_of_true trivial (Nat.zero_le levels))
  exact hk

theorem printed (he : e.OnlyOperators) : e.ReadsPrinted rounds := by
  induction he with
  | name x => exact printed_name x
  | nil => exact printed_literal rfl rfl rfl fun _ _ => look (literal _)
  | bool b =>
    cases b <;> exact printed_literal rfl rfl rfl fun _ _ => look (literal _)
  | number x => exact printed_literal rfl rfl rfl fun _ _ => look (literal _)
  | string text => exact printed_literal rfl rfl rfl fun _ _ => look (literal _)
  | unary op he ih => exact printed_unary op ih
  | binary op hleft hright ihleft ihright =>
    exact printed_binary op ihleft ihright

end Reads

namespace Expr

/-- Reads the expression that the tokens start with, with so many levels to
open. -/
def readTokens (levels : Nat) (tokens : Tokens) : Reply Expr :=
  (do Reader.next; (Deeper.ofLevels (tokens.list.length + 1) levels).expr)
    (.start tokens)

/-- Read as an expression, the printed tokens of a tree of operators give
that tree and nothing is left, wherever comments stand between them, if the
levels suffice; and they suffice exactly if they are as many as the printed
tree opens. -/
theorem readTokens_print {e : Expr} {tokens : Tokens} (he : e.OnlyOperators)
    (htokens : tokens.Spell e.print) (levels : Nat) :
    (e.printNesting + 1 ≤ levels → ∃ c, readTokens levels tokens = .ok e c ∧
        c.current.kind = .eos ∧ c.rest.kinds = []) ∧
    (¬ e.printNesting + 1 ≤ levels → ∃ t c, readTokens levels tokens =
        .error (.grammatical ⟨.tooDeep, t⟩) c) := by
  have hend : EndsChain [] := rfl
  have h : Reads (tokens.list.length + 1)
      (Deeper.ofLevels (tokens.list.length + 1) levels).expr (e.print ++ []) []
      (e.printNesting + 1 ≤ levels) e :=
    Reads.printed_operand (Reads.printed he)
      (by decide) e.one_le_headPrecedence hend (.of_none rfl) levels
  rw [List.append_nil] at h
  obtain ⟨hok, herror⟩ := h.fromStart htokens (Nat.le_succ _)
  refine ⟨fun hlevels => ?_, herror⟩
  obtain ⟨c, hrun, hc, _⟩ := hok hlevels
  exact ⟨c, hrun, hc.current, hc.rest⟩

/-- A power below a minus needs no parentheses, a concatenation in a
product does. -/
theorem readTokens_negated_power :
    ∃ c, readTokens maxLevels
        ⟨[⟨.symbol .minus, .start⟩, ⟨.name "x", .start⟩,
            ⟨.symbol .caret, .start⟩, ⟨.comment " twice", .start⟩,
            ⟨.name "n", .start⟩, ⟨.symbol .star, .start⟩,
            ⟨.symbol .leftParen, .start⟩, ⟨.name "a", .start⟩,
            ⟨.symbol .concat, .start⟩, ⟨.string "b", .start⟩,
            ⟨.symbol .rightParen, .start⟩],
          .finished .start⟩ =
      .ok (.binary .mul (.unary .neg (.binary .pow (.name "x") (.name "n")))
          (.binary .concat (.name "a") (.string "b"))) c ∧
      c.current.kind = .eos ∧ c.rest.kinds = [] :=
  (readTokens_print (.binary _ (.unary _ (.binary _ (.name _) (.name _)))
        (.binary _ (.name _) (.string _))) ⟨rfl, _, rfl⟩ maxLevels).1
    (by decide)

end Expr

end LuaCore
