import LuaCore.Proofs.Reader.Precedence
import LuaCore.Proofs.Reader.RoundTrip
import Mathlib.Logic.Function.Iterate

namespace LuaCore

open Reader

def linkTexts (link : List TokenKind) (n : Nat) : List TokenKind :=
  (List.replicate n link).flatten

theorem linkTexts_succ (link : List TokenKind) (n : Nat) :
    linkTexts link (n + 1) = linkTexts link n ++ link := by
  rw [linkTexts, List.replicate_succ', List.flatten_append,
    List.flatten_singleton]
  rfl

/-- After a name and so many links a program returns what they make, if so many
levels may be opened. -/
def Chunk.ReturnsChain (levels : Nat) (x : String) (link : List TokenKind)
    (grow : Expr → Expr) : Prop :=
  ∀ (n : Nat) (tokens : Tokens),
    tokens.Spell (.keyword .return :: .name x :: linkTexts link n) →
    ∃ c, readTokens levels tokens =
      .ok ⟨[.return [grow^[n] (.name x)]], tokens.comments⟩ c

namespace Reads

variable {rounds n levels : Nat} {ks : List TokenKind} {e : Expr}

theorem returned (hks : (headKind ks).opensExpr = true)
    (h : ∀ levels, Reads rounds (Deeper.ofLevels rounds levels).expr ks []
      (n ≤ levels) e) (levels : Nat) :
    Reads rounds (Deeper.ofLevels rounds levels).block (.keyword .return :: ks)
      [] (n + 1 ≤ levels) [.return [e]] := by
  refine Reads.block (fun levels => Reads.of_bound fun hbound => ?_) levels
  obtain ⟨turns, rfl, -⟩ := exists_turn hbound
  have hexprs : Reads (turns + 1) (Deeper.ofLevels (turns + 1) levels).exprs ks
      [] (n ≤ levels) [e] :=
    (h levels).last ((afterCommas_none (by decide) _).step pure)
  have hreturn := returnStat_some (TokenKind.closesBlock_of_opensExpr hks)
    (TokenKind.ne_of_opensExpr hks rfl) hexprs
  rw [Reader.block, Deeper.ofLevels_rounds]
  refine last ?_ ((build _).step pure)
  exact look (hreturn.last ((consume_other (by decide)).step pure))

end Reads

namespace Chunk

variable {n levels : Nat} {e : Expr} {ks : List TokenKind} {tokens : Tokens}

theorem readTokens_returned (htokens : tokens.Spell (.keyword .return :: ks))
    (hks : (headKind ks).opensExpr = true)
    (h : ∀ rounds levels, Reads rounds (Deeper.ofLevels rounds levels).expr ks
      [] (n ≤ levels) e) (hlevels : n + 1 ≤ levels) :
    ∃ c, readTokens levels tokens = .ok ⟨[.return [e]], tokens.comments⟩ c := by
  obtain ⟨hok, -⟩ :=
    (Reads.returned hks (h (tokens.list.length + 1)) levels).fromStart htokens
      (Nat.le_succ _)
  obtain ⟨c, hrun, hc, hcomments⟩ := hok hlevels
  exact hcomments ▸ Reader.chunk_ok hrun hc

end Chunk

namespace Expr

variable {x y : String} {op : BinaryOp}

def operated (op : BinaryOp) (y : String) (e : Expr) : Expr :=
  .binary op e (.name y)

def selected (y : String) (e : Expr) : Expr := .member e .dot (.name y)

def called (e : Expr) : Expr := .call e []

theorem parenthesizesLeft_operated (hop : op.isRightAssoc = false) (n : Nat) :
    op.parenthesizesLeft ((operated op y)^[n] (.name x)) = false := by
  cases n with
  | zero => rfl
  | succ n =>
    rw [Function.iterate_succ_apply']
    simp [operated, BinaryOp.parenthesizesLeft, hop]

theorem onlyOperators_operated (op : BinaryOp) (x y : String) (n : Nat) :
    OnlyOperators ((operated op y)^[n] (.name x)) := by
  induction n with
  | zero => exact .name x
  | succ n ih =>
    rw [Function.iterate_succ_apply']
    exact .binary op ih (.name y)

theorem print_operated (hop : op.isRightAssoc = false) (n : Nat) :
    ((operated op y)^[n] (.name x)).print =
      .name x :: linkTexts [op.token, .name y] n := by
  induction n with
  | zero => rfl
  | succ n ih =>
    have hleft := parenthesizesLeft_operated (x := x) (y := y) hop n
    rw [Function.iterate_succ_apply', linkTexts_succ, operated, print, hleft,
      parenthesized, if_neg Bool.false_ne_true, ih]
    rfl

theorem printNesting_operated (hop : op.isRightAssoc = false) (n : Nat) :
    ((operated op y)^[n] (.name x)).printNesting ≤ 1 := by
  induction n with
  | zero => exact Nat.zero_le 1
  | succ n ih =>
    have hleft := parenthesizesLeft_operated (x := x) (y := y) hop n
    rw [Function.iterate_succ_apply', operated, printNesting, hleft, Nat.max_le]
    exact ⟨ih, Nat.le_refl 1⟩

end Expr

namespace Chunk

open LuaCore.Expr

theorem returnsChain_operated {op : BinaryOp} (hop : op.isRightAssoc = false)
    (x y : String) :
    ReturnsChain 3 x [op.token, .name y] (operated op y) := by
  intro n tokens htokens
  have hread :
      ∀ rounds levels, Reads rounds (Deeper.ofLevels rounds levels).expr
        (.name x :: linkTexts [op.token, .name y] n) []
        (((operated op y)^[n] (.name x)).printNesting + 1 ≤ levels)
        ((operated op y)^[n] (.name x)) := by
    intro rounds levels
    have hprinted : ((operated op y)^[n] (.name x)).ReadsPrinted rounds :=
      Reads.printed (onlyOperators_operated op x y n)
    have hwhole :=
      Reads.printed_operand hprinted (by decide) (one_le_headPrecedence _)
        (show EndsChain [] from rfl) (.of_none rfl) levels
    rw [List.append_nil, print_operated hop] at hwhole
    exact hwhole
  have hnesting := printNesting_operated (x := x) (y := y) hop n
  exact readTokens_returned htokens rfl hread (by omega)

theorem returnsChain_of_readable {x : String} {link : List TokenKind}
    {grow : Expr → Expr}
    (hreads : ∀ rounds e, e.ReadsChain rounds → (grow e).ReadsChain rounds)
    (hchain : ∀ e, (grow e).isChain = true)
    (hrender : ∀ e, e.isChain = true → (grow e).render = e.render ++ link)
    (hnesting : ∀ e, e.isChain = true → (grow e).nesting = e.nesting) :
    ReturnsChain 2 x link grow := by
  intro n tokens htokens
  have hgrown : (grow^[n] (.name x)).isChain = true ∧
      (grow^[n] (.name x)).render = .name x :: linkTexts link n ∧
      (grow^[n] (.name x)).nesting = 0 ∧
        ∀ rounds, (grow^[n] (.name x)).ReadsChain rounds := by
    clear htokens
    induction n with
    | zero => exact ⟨rfl, rfl, rfl, fun rounds => (Readable.name x).chain⟩
    | succ n ih =>
      obtain ⟨hisChain, hprinted, hzero, hread⟩ := ih
      rw [Function.iterate_succ_apply']
      refine ⟨hchain _, ?_, (hnesting _ hisChain).trans hzero,
        fun rounds => hreads rounds _ (hread rounds)⟩
      rw [hrender _ hisChain, hprinted, linkTexts_succ, List.cons_append]
  obtain ⟨hisChain, hprinted, hzero, hread⟩ := hgrown
  refine readTokens_returned (n := 1) htokens rfl (fun rounds levels => ?_)
    (Nat.le_refl 2)
  have hwhole := ((hread rounds).readable hisChain).whole levels [] ⟨rfl, rfl⟩
  rw [List.append_nil, hprinted, hzero] at hwhole
  exact hwhole

theorem returnsChain_selected (x y : String) :
    ReturnsChain 2 x [.symbol .dot, .name y] (selected y) := by
  refine returnsChain_of_readable (fun rounds e he => he.dot y) (fun _ => rfl)
    (fun e he => ?_) fun e he => ?_
  · simp [selected, he, parenthesized]
  · simp [selected, he, parenthesizedNesting]

theorem returnsChain_called (x : String) :
    ReturnsChain 2 x [.symbol .leftParen, .symbol .rightParen] called := by
  refine returnsChain_of_readable (fun rounds e he => he.readsCallee.call
      (List.forall_mem_nil _)) (fun _ => rfl) (fun e he => ?_) fun e he => ?_
  · simp [called, he, parenthesized, separated]
  · simp [called, he, parenthesizedNesting]

end Chunk

end LuaCore
