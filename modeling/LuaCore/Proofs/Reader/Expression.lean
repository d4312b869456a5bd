import LuaCore.Proofs.Reader.Reads

namespace LuaCore

def afterCommas (texts : List (List TokenKind)) : List TokenKind :=
  texts.flatMap (.symbol .comma :: ·)

@[simp] theorem afterCommas_cons (text : List TokenKind)
    (texts : List (List TokenKind)) :
    afterCommas (text :: texts) =
      .symbol .comma :: (text ++ afterCommas texts) := rfl

def separated : List (List TokenKind) → List TokenKind
  | [] => []
  | text :: texts => text ++ afterCommas texts

def nameList (names : List String) : List TokenKind :=
  separated (names.map fun x => [.name x])

def signatureText (params : List String) : List TokenKind :=
  .symbol .leftParen :: (nameList params ++ [.symbol .rightParen])

def parenthesized (needed : Bool) (ks : List TokenKind) : List TokenKind :=
  if needed then .symbol .leftParen :: (ks ++ [.symbol .rightParen]) else ks

def parenthesizedNesting (needed : Bool) (n : Nat) : Nat :=
  if needed then n + 1 else n

namespace TokenKind

def addsLink : TokenKind → Bool
  | symbol .dot | symbol .leftBracket | symbol .colon | symbol .leftParen |
      symbol .leftBrace
  | string _ => true
  | _ => false

def opensChain : TokenKind → Bool
  | name _ | symbol .leftParen => true
  | _ => false

end TokenKind

/-- What follows a chain does not make it longer. -/
def EndsChain (ks : List TokenKind) : Prop := (headKind ks).addsLink = false

/-- An operator that follows binds less tightly than the limit. -/
def EndsOperand (limit : Nat) (ks : List TokenKind) : Prop :=
  ∀ op : BinaryOp, headKind ks = op.token → op.precedence < limit

theorem EndsOperand.mono {limit larger : Nat} {ks : List TokenKind}
    (h : EndsOperand limit ks) (hle : limit ≤ larger) :
    EndsOperand larger ks :=
  fun op hop => Nat.lt_of_lt_of_le (h op hop) hle

theorem EndsOperand.of_none {limit : Nat} {ks : List TokenKind}
    (h : BinaryOp.ofToken? (headKind ks) = none) : EndsOperand limit ks := by
  intro op hop
  rw [BinaryOp.ofToken?_eq_some_iff.mpr hop] at h
  exact nomatch h

theorem BinaryOp.one_le_precedence (op : BinaryOp) : 1 ≤ op.precedence := by
  cases op <;> decide

theorem EndsChain.of_token (op : BinaryOp) (ks : List TokenKind) :
    EndsChain (op.token :: ks) := by
  cases op <;> exact rfl

@[simp] theorem Deeper.ofLevels_rounds (rounds levels : Nat) :
    (Deeper.ofLevels rounds levels).rounds = rounds := by
  cases levels <;> rfl

namespace Reads

open Reader

variable {rounds : Nat} {deeper : Deeper} {ks mid rest : List TokenKind}
    {fits more : Prop}
variable {e : Expr}

section Commas

variable {α : Type} {item : Reader α} {text : α → List TokenKind}
    {fitsItem : α → Prop}

theorem afterCommas_none (h : headKind ks ≠ .symbol .comma) (m : Nat) :
    Reads rounds (Reader.afterCommas item m) ks ks True [] := by
  cases m with
  | zero => exact pure
  | succ m => exact (consume_other h).step pure

theorem afterCommas {rest : List TokenKind}
    (hrest : headKind rest ≠ .symbol .comma) (items : List α)
    (hitem : ∀ a ∈ items, ∀ others,
      Reads rounds item (text a ++ (LuaCore.afterCommas others ++ rest))
        (LuaCore.afterCommas others ++ rest) (fitsItem a) a)
    (m : Nat) (hm : (LuaCore.afterCommas (items.map text)).length ≤ m) :
    Reads rounds (Reader.afterCommas item m)
      (LuaCore.afterCommas (items.map text) ++ rest) rest
      (∀ a ∈ items, fitsItem a) items := by
  induction items generalizing m with
  | nil => exact (afterCommas_none hrest m).congr (by simp)
  | cons a items ih =>
    rw [List.map_cons, afterCommas_cons, List.cons_append, List.append_assoc]
    rw [List.map_cons, afterCommas_cons, List.length_cons, List.length_append]
      at hm
    obtain ⟨m, rfl, hturns⟩ := exists_turn hm
    have hfirst := hitem a List.mem_cons_self (items.map text)
    have hothers := ih (fun b hb => hitem b (List.mem_cons_of_mem a hb)) m
      (Nat.le_trans (Nat.le_add_left _ _) hturns)
    refine .congr
      ((consume (.symbol .comma)).step (hfirst.bind (hothers.last pure))) ?_
    rw [List.forall_mem_cons]

theorem separatedByCommas {rest : List TokenKind}
    (hrest : headKind rest ≠ .symbol .comma) (items : List α)
    (hitems : items ≠ [])
    (hitem : ∀ a ∈ items, ∀ others,
      Reads rounds item (text a ++ (LuaCore.afterCommas others ++ rest))
        (LuaCore.afterCommas others ++ rest) (fitsItem a) a) :
    Reads rounds (Reader.separatedByCommas item rounds)
      (separated (items.map text) ++ rest) rest
      (∀ a ∈ items, fitsItem a) items := by
  refine of_bound fun hbound => ?_
  cases items with
  | nil => exact absurd rfl hitems
  | cons a items =>
    rw [List.map_cons, separated, List.append_assoc] at hbound ⊢
    have hfirst := hitem a List.mem_cons_self (items.map text)
    have hothers :=
      afterCommas hrest items (fun b hb => hitem b (List.mem_cons_of_mem a hb))
        rounds (by simp only [List.length_append] at hbound; omega)
    refine .congr (hfirst.bind (hothers.last pure)) ?_
    rw [List.forall_mem_cons]

variable {readName : Reader String}

theorem moreNames
    (hname : ∀ x ks, Reads rounds readName (.name x :: ks) ks True x)
    (hrest : headKind rest ≠ .symbol .comma) (xs : List String) :
    Reads rounds (Reader.afterCommas readName rounds)
      (LuaCore.afterCommas (xs.map fun x => [.name x]) ++ rest) rest True
      xs := by
  refine of_bound fun hbound => ?_
  rw [List.length_append] at hbound
  refine .congr (afterCommas hrest xs (fun x _ others => hname x _) rounds
    (Nat.le_trans (Nat.le_add_right _ _) hbound)) ?_
  exact iff_of_true (fun _ _ => trivial) trivial

theorem names (hname : ∀ x ks, Reads rounds readName (.name x :: ks) ks True x)
    (hrest : headKind rest ≠ .symbol .comma) (xs : List String)
    (hxs : xs ≠ []) :
    Reads rounds (Reader.separatedByCommas readName rounds)
      (nameList xs ++ rest) rest True xs := by
  refine .congr (separatedByCommas hrest xs hxs fun x _ others => hname x _) ?_
  exact iff_of_true (fun _ _ => trivial) trivial

end Commas

section Levels

variable {n limit : Nat}

theorem operand
    (h : ∀ levels, Reads rounds (Reader.operand (.ofLevels rounds levels) limit)
      ks rest (n ≤ levels) e) (levels : Nat) :
    Reads rounds ((Deeper.ofLevels rounds levels).operand limit) ks rest
      (n + 1 ≤ levels) e := by
  cases levels with
  | zero => exact tooDeep.congr ⟨False.elim, Nat.not_succ_le_zero n⟩
  | succ levels =>
    exact (h levels).congr ⟨Nat.succ_le_succ, Nat.le_of_succ_le_succ⟩

theorem block {body : Block}
    (h : ∀ levels, Reads rounds (Reader.block (.ofLevels rounds levels)) ks rest
      (n ≤ levels) body) (levels : Nat) :
    Reads rounds (Deeper.ofLevels rounds levels).block ks rest
      (n + 1 ≤ levels) body := by
  cases levels with
  | zero => exact tooDeep.congr ⟨False.elim, Nat.not_succ_le_zero n⟩
  | succ levels =>
    exact (h levels).congr ⟨Nat.succ_le_succ, Nat.le_of_succ_le_succ⟩

end Levels

theorem prefixExpr_name (x : String) :
    Reads rounds (prefixExpr deeper) (.name x :: ks) ks True (.name x) :=
  look ((name x).step pure)

theorem prefixExpr_parenthesized
    (h : Reads rounds deeper.expr (ks ++ .symbol .rightParen :: rest)
      (.symbol .rightParen :: rest) fits e) :
    Reads rounds (prefixExpr deeper)
      (.symbol .leftParen :: (ks ++ .symbol .rightParen :: rest)) rest fits e :=
  look (line fun opened =>
    next.step
      (h.last ((expectClosing (.symbol .rightParen) _ opened).step pure)))

theorem link?_none (h : EndsChain ks) :
    Reads rounds (link? deeper e) ks ks True none := by
  apply look
  unfold EndsChain at h
  generalize headKind ks = k at h
  cases k with
  | symbol s => cases s <;> first | exact pure | exact absurd h (by decide)
  | string text => exact absurd h Bool.noConfusion
  | _ => exact pure

theorem links_done (h : EndsChain ks) (m : Nat) :
    Reads rounds (links deeper m e) ks ks True e := by
  cases m with
  | zero => exact pure
  | succ m => exact (link?_none h).step pure

theorem literal (k : TokenKind) :
    Reads rounds (literal e) (k :: ks) ks True e :=
  next.step (madeExpr e)

theorem unary_simple (hk : UnaryOp.ofToken? (headKind ks) = none)
    (h : Reads rounds (simple deeper) ks rest fits e) :
    Reads rounds (unary deeper) ks rest fits e := by
  apply look
  rw [hk]
  exact h

theorem unary_chain (hk : (headKind ks).opensChain = true)
    (h : Reads rounds (primary deeper) ks rest fits e) :
    Reads rounds (unary deeper) ks rest fits e := by
  have hsimple : Reads rounds (simple deeper) ks rest fits e := by
    apply look
    generalize headKind ks = k at hk
    cases k with
    | symbol s => cases s <;> first | exact h | exact absurd hk (by decide)
    | name x => exact h
    | _ => exact absurd hk Bool.noConfusion
  refine unary_simple ?_ hsimple
  generalize headKind ks = k at hk
  cases k with
  | symbol s => cases s <;> first | rfl | exact absurd hk (by decide)
  | name x => rfl
  | _ => exact absurd hk Bool.noConfusion

theorem unary_operator (op : UnaryOp)
    (h : Reads rounds (deeper.operand UnaryOp.precedence) ks rest fits e) :
    Reads rounds (unary deeper) (op.token :: ks) rest fits (.unary op e) := by
  apply look
  rw [headKind_cons, UnaryOp.ofToken?_eq_some_iff.mpr rfl]
  exact next.step (h.last (madeExpr _))

theorem operators_done {limit : Nat} (h : EndsOperand limit ks) (m : Nat) :
    Reads rounds (operators deeper limit m e) ks ks True e := by
  cases m with
  | zero => exact pure
  | succ m =>
    apply look
    cases hop : BinaryOp.ofToken? (headKind ks) with
    | none => exact pure
    | some op =>
      have hlt := h op (BinaryOp.ofToken?_eq_some_iff.mp hop)
      dsimp only
      rw [if_neg (Nat.not_le_of_lt hlt)]
      exact pure

theorem operators_more {limit m : Nat} {op : BinaryOp} {left right b : Expr}
    (hlimit : limit ≤ op.precedence)
    (hright : Reads rounds (deeper.operand op.rightLimit) ks mid fits right)
    (hmore : Reads rounds
      (operators deeper limit m (.binary op left right)) mid rest more b) :
    Reads rounds (operators deeper limit (m + 1) left) (op.token :: ks) rest
      (fits ∧ more) b := by
  apply look
  rw [headKind_cons, BinaryOp.ofToken?_eq_some_iff.mpr rfl]
  dsimp only
  rw [if_pos hlimit]
  exact next.step (hright.bind ((madeExpr _).step hmore))

section Chains

variable {m : Nat} {key longer b : Expr} {args : List Expr}

theorem links_more
    (hlink : Reads rounds (link? deeper e) ks mid fits (some longer))
    (hmore : Reads rounds (links deeper m longer) mid rest more b) :
    Reads rounds (links deeper (m + 1) e) ks rest (fits ∧ more) b :=
  hlink.bind hmore

theorem link?_dot (x : String) :
    Reads rounds (link? deeper e) (.symbol .dot :: .name x :: ks) ks True
      (some (.member e .dot (.name x))) :=
  look (next.step ((name x).step ((madeExpr _).step pure)))

theorem link?_bracket
    (hkey : Reads rounds deeper.expr ks
      (.symbol .rightBracket :: rest) fits key) :
    Reads rounds (link? deeper e) (.symbol .leftBracket :: ks) rest fits
      (some (.member e .bracket key)) :=
  look (next.step (hkey.last ((expect _).step ((madeExpr _).step pure))))

theorem link?_method (x : String)
    (hargs : Reads rounds (arguments deeper) ks rest fits args) :
    Reads rounds (link? deeper e) (.symbol .colon :: .name x :: ks) rest fits
      (some (.call (.member e .colon (.name x)) args)) :=
  look (next.step
      ((name x).step ((madeExpr _).step (hargs.last ((madeExpr _).step pure)))))

theorem link?_call
    (hargs : Reads rounds (arguments deeper)
      (.symbol .leftParen :: ks) rest fits args) :
    Reads rounds (link? deeper e) (.symbol .leftParen :: ks) rest fits
      (some (.call e args)) :=
  look (hargs.last ((madeExpr _).step pure))

theorem arguments_none :
    Reads rounds (arguments deeper)
      (.symbol .leftParen :: .symbol .rightParen :: ks) ks True [] :=
  look (line fun _ => next.step ((consume _).step pure))

theorem arguments_some (hks : headKind ks ≠ .symbol .rightParen)
    (hargs : Reads rounds deeper.exprs ks
      (.symbol .rightParen :: rest) fits args) :
    Reads rounds (arguments deeper) (.symbol .leftParen :: ks) rest fits args :=
  look (line fun opened =>
    next.step ((consume_other hks).step
        (hargs.last ((expectClosing _ _ opened).step pure))))

end Chains

section Tables

variable {key value : Expr}

theorem field_keyed (hkey : Reads rounds deeper.expr ks
      (.symbol .rightBracket :: .symbol .assign :: mid) fits key)
    (hvalue : Reads rounds deeper.expr mid rest more value) :
    Reads rounds (field deeper) (.symbol .leftBracket :: ks) rest (fits ∧ more)
      (.keyed key value) :=
  (consume _).step
    (hkey.bind ((expect _).step ((expect _).step (hvalue.last (madeField _)))))

theorem field_named (x : String)
    (hkey : Reads rounds deeper.expr (.name x :: .symbol .assign :: ks)
      (.symbol .assign :: ks) fits (.name x))
    (hvalue : Reads rounds deeper.expr ks rest more value) :
    Reads rounds (field deeper) (.name x :: .symbol .assign :: ks) rest
      (fits ∧ more) (.named x value) := by
  have hname : headKind (.name x :: .symbol .assign :: ks) ≠
      .symbol .leftBracket := by simp
  apply (consume_other hname).step
  exact hkey.bind ((check rfl).step (next.step (hvalue.last (madeField _))))

theorem field_item (hks : headKind ks ≠ .symbol .leftBracket)
    (hrest : headKind rest ≠ .symbol .assign)
    (hvalue : Reads rounds deeper.expr ks rest fits value) :
    Reads rounds (field deeper) ks rest fits (.item value) :=
  (consume_other hks).step
    (hvalue.last ((check_other hrest).step (madeField _)))

theorem fields {text : Field → List TokenKind} {fitsField : Field → Prop}
    (fs : List Field)
    (hitem : ∀ f ∈ fs, ∀ others, (headKind others = .symbol .comma ∨
        headKind others = .symbol .rightBrace) →
      Reads rounds (field deeper) (text f ++ others) others (fitsField f) f)
    (hhead : ∀ f ∈ fs, ∀ others, headKind (text f ++ others) ≠
      .symbol .rightBrace) (m : Nat)
    (hm : (separated (fs.map text) ++ .symbol .rightBrace :: rest).length ≤ m) :
    Reads rounds (Reader.fields deeper m)
      (separated (fs.map text) ++ .symbol .rightBrace :: rest)
      (.symbol .rightBrace :: rest) (∀ f ∈ fs, fitsField f) fs := by
  induction fs generalizing m with
  | nil =>
    obtain ⟨m, rfl, -⟩ := exists_turn hm
    exact (check rfl).step
      (pure.congr (iff_of_true trivial (List.forall_mem_nil _)))
  | cons f fs ih =>
    rw [List.map_cons, separated, List.append_assoc, List.forall_mem_cons]
    rw [List.length_append, List.length_cons] at hm
    obtain ⟨m, rfl, -⟩ :=
      exists_turn (Nat.lt_of_lt_of_le (Nat.lt_add_left _ (Nat.succ_pos _)) hm)
    apply (check_other (hhead f List.mem_cons_self _)).step
    cases fs with
    | nil =>
      have hclosed : headKind (.symbol .rightBrace :: rest) ≠
          .symbol .comma := by simp
      have hclosed' : headKind (.symbol .rightBrace :: rest) ≠
          .symbol .semicolon := by simp
      have hlast := hitem f List.mem_cons_self (.symbol .rightBrace :: rest)
        (.inr rfl)
      refine .congr (hlast.last (.step (a := false)
        ((consume_other hclosed).step (consume_other hclosed')) pure)) ?_
      exact (and_iff_left (List.forall_mem_nil _)).symm
    | cons g fs =>
      simp only [List.map_cons, separated, afterCommas_cons, List.length_append,
        List.length_cons] at hm
      have hturns : (separated ((g :: fs).map text) ++
            .symbol .rightBrace :: rest).length ≤ m := by
        simp only [List.map_cons, separated, List.length_append,
          List.length_cons]
        omega
      have hmore := ih (fun g hg => hitem g (List.mem_cons_of_mem f hg))
        (fun g hg => hhead g (List.mem_cons_of_mem f hg)) m hturns
      apply (hitem f List.mem_cons_self _ (.inl rfl)).bind
      exact .step (a := true) ((consume _).step pure) (hmore.last pure)

end Tables

theorem table (hrounds : deeper.rounds = rounds) {fs : List Field}
    (h : Reads rounds (Reader.fields deeper rounds) ks
      (.symbol .rightBrace :: rest) fits fs) :
    Reads rounds (table deeper) (.symbol .leftBrace :: ks) rest fits
      (.table fs) := by
  refine line fun opened => (expect _).step ?_
  rw [hrounds]
  exact h.last ((expectClosing _ _ opened).step (madeExpr _))

theorem param (x : String) :
    Reads rounds functionBody.param (.name x :: ks) ks True x := by
  have hname : headKind (.name x :: ks) ≠ .symbol .ellipsis := by simp
  exact (check_other hname).step (name x)

theorem parameters {β : Type} (hrounds : deeper.rounds = rounds)
    (params : List String) {f : List String → Reader β} {b : β}
    (h : Reads rounds (f params) (.symbol .rightParen :: ks) rest fits b) :
    Reads rounds (do
        if ← Reader.check (.symbol .rightParen) then
          Pure.pure [] >>= f
        else
          Reader.separatedByCommas functionBody.param deeper.rounds >>= f)
      (nameList params ++ .symbol .rightParen :: ks) rest fits b := by
  cases params with
  | nil => exact (check rfl).step (pure.step h)
  | cons x params =>
    have hname :
        headKind (nameList (x :: params) ++ .symbol .rightParen :: ks) ≠
          .symbol .rightParen := by simp [nameList, separated]
    rw [hrounds]
    exact (check_other hname).step ((names (fun x _ => param x) (by simp)
          (x :: params) (List.cons_ne_nil _ _)).step h)

theorem functionBody (hrounds : deeper.rounds = rounds) (isMethod : Bool)
    (opened : Nat) (params : List String) {body : Block}
    (hbody : Reads rounds deeper.block ks (.keyword .end :: rest) fits body) :
    Reads rounds (functionBody deeper isMethod opened)
      (signatureText params ++ ks) rest fits
      (if isMethod then "self" :: params else params, body) := by
  rw [signatureText, List.cons_append, List.append_assoc, List.cons_append,
    List.nil_append]
  apply (expect _).step
  cases isMethod with
  | false =>
    exact parameters hrounds params
      ((expect _).step (hbody.last ((expectClosing _ _ opened).step pure)))
  | true =>
    exact (build _).step (parameters hrounds params
      ((expect _).step (hbody.last ((expectClosing _ _ opened).step pure))))

theorem simple_function (hrounds : deeper.rounds = rounds)
    (params : List String) {body : Block}
    (hbody : Reads rounds deeper.block ks (.keyword .end :: rest) fits body) :
    Reads rounds (simple deeper) (.keyword .function ::
        (signatureText params ++ ks)) rest fits (.function params body) :=
  look (line fun opened =>
    next.step
      ((functionBody hrounds false opened params hbody).last (madeExpr _)))

end Reads

end LuaCore
