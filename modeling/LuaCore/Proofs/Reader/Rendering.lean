import LuaCore.Proofs.Tree.WellFormed
import LuaCore.Proofs.Reader.Expression

namespace LuaCore

def Expr.isChain : Expr → Bool
  | .name _ | .call _ _ | .member _ _ _ => true
  | _ => false

/-- The parameters as they are written: `self` of a method is not. -/
def Expr.writtenParams (target : Expr) (params : List String) : List String :=
  if target.isMethodName then params.tail else params

mutual

def Expr.render : Expr → List TokenKind
  | .name x => [.name x]
  | .nil => [.keyword .nil]
  | .bool b => [.keyword (if b then .true else .false)]
  | .number x => [.number x]
  | .string text => [.string text]
  | .unary op operand =>
    op.token :: parenthesized (!operand.isChain) operand.render
  | .binary op left right =>
    parenthesized (!left.isChain) left.render ++
      op.token :: parenthesized (!right.isChain) right.render
  | .call callee args =>
    parenthesized (!callee.isChain) callee.render ++ .symbol .leftParen ::
        (separated (exprTexts args) ++ [.symbol .rightParen])
  | .member object .dot key =>
    parenthesized (!object.isChain) object.render ++ .symbol .dot :: key.render
  | .member object .colon key =>
    parenthesized (!object.isChain) object.render ++
      .symbol .colon :: key.render
  | .member object .bracket key =>
    parenthesized (!object.isChain) object.render ++
      .symbol .leftBracket :: (key.render ++ [.symbol .rightBracket])
  | .assign targets values =>
    separated (exprTexts targets) ++
      .symbol .assign :: separated (exprTexts values)
  | .table fields =>
    .symbol .leftBrace ::
      (separated (fieldTexts fields) ++ [.symbol .rightBrace])
  | .function params body =>
    .keyword .function ::
      (signatureText params ++ blockText body ++ [.keyword .end])

def exprTexts : List Expr → List (List TokenKind)
  | [] => []
  | e :: es => e.render :: exprTexts es

def Field.render : Field → List TokenKind
  | .named key value => .name key :: .symbol .assign :: value.render
  | .keyed key value =>
    .symbol .leftBracket ::
      (key.render ++ .symbol .rightBracket :: .symbol .assign :: value.render)
  | .item value => value.render

def fieldTexts : List Field → List (List TokenKind)
  | [] => []
  | f :: fs => f.render :: fieldTexts fs

def Stat.render : Stat → List TokenKind
  | .do body => .keyword .do :: (blockText body ++ [.keyword .end])
  | .break => [.keyword .break]
  | .return values => .keyword .return :: separated (exprTexts values)
  | .expr e => e.render
  | .function (some target) true params body =>
    .keyword .local :: .keyword .function :: (target.render ++
        signatureText params ++ blockText body ++ [.keyword .end])
  | .function (some target) false params body =>
    .keyword .function ::
      (target.render ++ signatureText (target.writtenParams params) ++
        blockText body ++ [.keyword .end])
  | .function none _ _ _ => []
  | .local names values =>
    .keyword .local ::
      (nameList names ++
        if values.isEmpty then []
        else .symbol .assign :: separated (exprTexts values))
  | .if test body clauses otherwise =>
    .keyword .if ::
      (test.render ++ .keyword .then ::
        (blockText body ++ clausesText clauses ++ elseText otherwise ++
          [.keyword .end]))
  | .forRange x start stop step body =>
    .keyword .for :: .name x :: .symbol .assign ::
      (start.render ++ .symbol .comma ::
        (stop.render ++ .symbol .comma ::
          (step.render ++ .keyword .do :: (blockText body ++ [.keyword .end]))))
  | .forEach names source body =>
    .keyword .for ::
      (nameList names ++ .keyword .in :: (source.render ++
        .keyword .do :: (blockText body ++ [.keyword .end])))
  | .while test body =>
    .keyword .while ::
      (test.render ++ .keyword .do :: (blockText body ++ [.keyword .end]))
  | .repeat body test =>
    .keyword .repeat :: (blockText body ++ .keyword .until :: test.render)

def blockText : List Stat → List TokenKind
  | [] => []
  | s :: ss => s.render ++ .symbol .semicolon :: blockText ss

def Clause.render : Clause → List TokenKind
  | .mk test body =>
    .keyword .elseif :: (test.render ++ .keyword .then :: blockText body)

def clausesText : List Clause → List TokenKind
  | [] => []
  | c :: cs => c.render ++ clausesText cs

def elseText : Option (List Stat) → List TokenKind
  | none => []
  | some body => .keyword .else :: blockText body

end

mutual

/-- How many levels reading the rendered tree opens within its own. -/
def Expr.nesting : Expr → Nat
  | .name _ | .nil | .bool _ | .number _ | .string _ => 0
  | .unary _ operand =>
    parenthesizedNesting (!operand.isChain) operand.nesting + 1
  | .binary _ left right =>
    max (parenthesizedNesting (!left.isChain) left.nesting)
      (parenthesizedNesting (!right.isChain) right.nesting + 1)
  | .call callee args =>
    max (parenthesizedNesting (!callee.isChain) callee.nesting)
      (exprLevels args)
  | .member object .bracket key =>
    max (parenthesizedNesting (!object.isChain) object.nesting)
      (key.nesting + 1)
  | .member object _ _ => parenthesizedNesting (!object.isChain) object.nesting
  | .assign targets values => max (targetsNesting targets) (exprLevels values)
  | .table fields => fieldLevels fields
  | .function _ body => blockNesting body + 1

def exprLevels : List Expr → Nat
  | [] => 0
  | e :: es => max (e.nesting + 1) (exprLevels es)

/-- Targets of an assignment open no level of their own. -/
def targetsNesting : List Expr → Nat
  | [] => 0
  | e :: es => max e.nesting (targetsNesting es)

def Field.levels : Field → Nat
  | .named _ value => value.nesting + 1
  | .keyed key value => max (key.nesting + 1) (value.nesting + 1)
  | .item value => value.nesting + 1

def fieldLevels : List Field → Nat
  | [] => 0
  | f :: fs => max f.levels (fieldLevels fs)

def Stat.nesting : Stat → Nat
  | .do body => blockNesting body + 1
  | .break => 0
  | .return values => exprLevels values
  | .expr e => e.nesting
  | .function _ _ _ body => blockNesting body + 1
  | .local _ values => exprLevels values
  | .if test body clauses otherwise =>
    max (max (test.nesting + 1) (blockNesting body + 1))
      (max (clauseLevels clauses) (elseLevels otherwise))
  | .forRange _ start stop step body =>
    max (max (start.nesting + 1) (stop.nesting + 1))
      (max (step.nesting + 1) (blockNesting body + 1))
  | .forEach _ source body => max (source.nesting + 1) (blockNesting body + 1)
  | .while test body => max (test.nesting + 1) (blockNesting body + 1)
  | .repeat body test => max (blockNesting body + 1) (test.nesting + 1)

def blockNesting : List Stat → Nat
  | [] => 0
  | s :: ss => max s.nesting (blockNesting ss)

def Clause.levels : Clause → Nat
  | .mk test body => max (test.nesting + 1) (blockNesting body + 1)

def clauseLevels : List Clause → Nat
  | [] => 0
  | c :: cs => max c.levels (clauseLevels cs)

def elseLevels : Option (List Stat) → Nat
  | none => 0
  | some body => blockNesting body + 1

end

attribute [simp] Expr.render exprTexts Field.render fieldTexts Stat.render
  blockText Clause.render clausesText elseText

attribute [simp] Expr.nesting exprLevels targetsNesting Field.levels fieldLevels
  Stat.nesting blockNesting Clause.levels clauseLevels elseLevels

theorem exprTexts_eq_map (es : List Expr) :
    exprTexts es = es.map Expr.render := by
  induction es with
  | nil => rfl
  | cons e es ih => rw [exprTexts, ih, List.map_cons]

theorem fieldTexts_eq_map (fs : List Field) :
    fieldTexts fs = fs.map Field.render := by
  induction fs with
  | nil => rfl
  | cons f fs ih => rw [fieldTexts, ih, List.map_cons]

theorem exprLevels_le_iff {es : List Expr} {n : Nat} :
    exprLevels es ≤ n ↔ ∀ e ∈ es, e.nesting + 1 ≤ n := by
  induction es with
  | nil => simp [exprLevels]
  | cons e es ih => rw [exprLevels, Nat.max_le, ih, List.forall_mem_cons]

theorem targetsNesting_le_iff {es : List Expr} {n : Nat} :
    targetsNesting es ≤ n ↔ ∀ e ∈ es, e.nesting ≤ n := by
  induction es with
  | nil => simp [targetsNesting]
  | cons e es ih => rw [targetsNesting, Nat.max_le, ih, List.forall_mem_cons]

theorem fieldLevels_le_iff {fs : List Field} {n : Nat} :
    fieldLevels fs ≤ n ↔ ∀ f ∈ fs, f.levels ≤ n := by
  induction fs with
  | nil => simp [fieldLevels]
  | cons f fs ih => rw [fieldLevels, Nat.max_le, ih, List.forall_mem_cons]

def TokenKind.opensExpr : TokenKind → Bool
  | name _ | number _ | string _
  | keyword .nil | keyword .true | keyword .false
  | keyword .function | keyword .not
  | symbol .leftParen | symbol .leftBrace | symbol .minus | symbol .hash => true
  | _ => false

theorem TokenKind.opensExpr_of_opensChain {k : TokenKind}
    (h : k.opensChain = true) :
    k.opensExpr = true := by
  cases k with
  | symbol s => cases s <;> first | rfl | exact absurd h (by decide)
  | name x => rfl
  | _ => exact absurd h Bool.noConfusion

theorem TokenKind.closesBlock_of_opensExpr {k : TokenKind}
    (h : k.opensExpr = true) :
    k.closesBlock = false := by
  cases k with
  | keyword w => cases w <;> first | rfl | exact absurd h (by decide)
  | eos => exact absurd h Bool.noConfusion
  | _ => rfl

theorem Expr.opensChain_operand (ks : List TokenKind) :
    (e : Expr) →
      (headKind (parenthesized (!e.isChain) e.render ++ ks)).opensChain = true
  | .name _ => rfl
  | .call callee args => by
    show (headKind ((_ ++ _) ++ ks)).opensChain = true
    rw [List.append_assoc]
    exact callee.opensChain_operand _
  | .member object .dot key => by
    show (headKind ((_ ++ _) ++ ks)).opensChain = true
    rw [List.append_assoc]
    exact object.opensChain_operand _
  | .member object .colon key => by
    show (headKind ((_ ++ _) ++ ks)).opensChain = true
    rw [List.append_assoc]
    exact object.opensChain_operand _
  | .member object .bracket key => by
    show (headKind ((_ ++ _) ++ ks)).opensChain = true
    rw [List.append_assoc]
    exact object.opensChain_operand _
  | .nil | .bool _ | .number _ | .string _ | .unary _ _ | .binary _ _ _ |
      .assign _ _ | .table _
  | .function _ _ => rfl

theorem Expr.opensChain_render {e : Expr} (h : e.isChain = true)
    (ks : List TokenKind) :
    (headKind (e.render ++ ks)).opensChain = true := by
  have hoperand := e.opensChain_operand ks
  rw [h] at hoperand
  exact hoperand

/-- The tokens that a statement other than a `return` may start with. -/
def TokenKind.opensStat : TokenKind → Bool
  | keyword .do | keyword .break | keyword .function | keyword .local | keyword
      .if | keyword .for
  | keyword .while | keyword .repeat => true
  | k => k.opensChain

theorem TokenKind.opensStat_of_opensChain {k : TokenKind}
    (h : k.opensChain = true) :
    k.opensStat = true := by
  cases k with
  | keyword => exact absurd h Bool.noConfusion
  | _ => exact h

theorem TokenKind.closesBlock_of_opensStat {k : TokenKind}
    (h : k.opensStat = true) :
    k.closesBlock = false := by
  cases k with
  | keyword w => cases w <;> first | rfl | exact absurd h (by decide)
  | eos => exact absurd h Bool.noConfusion
  | _ => rfl

theorem Expr.isChain_of_isTarget {target : Expr} (h : target.isTarget = true) :
    target.isChain = true := by
  cases target with
  | name x => rfl
  | member object access key => rfl
  | _ => exact absurd h Bool.noConfusion

theorem Expr.opensChain_statement {e : Expr}
    (h : (Stat.expr e).wellFormed = true) (ks : List TokenKind) :
    (headKind (e.render ++ ks)).opensChain = true := by
  cases e with
  | call callee args => exact Expr.opensChain_render rfl ks
  | assign targets values =>
    cases targets with
    | nil => exact absurd h Bool.noConfusion
    | cons t ts =>
      have ht : t.isTarget = true := by simp_all [Stat.wellFormed]
      rw [render, exprTexts, separated, List.append_assoc, List.append_assoc]
      exact t.opensChain_render (Expr.isChain_of_isTarget ht) _
  | _ => exact absurd h Bool.noConfusion

theorem Stat.opensStat_render {s : Stat} (h : s.wellFormed = true)
    (hs : s.isReturn = false) (ks : List TokenKind) :
    (headKind (s.render ++ ks)).opensStat = true := by
  cases s with
  | expr e =>
    exact TokenKind.opensStat_of_opensChain (e.opensChain_statement h ks)
  | function target isLocal params body =>
    cases isLocal <;> cases target <;>
      first | rfl | exact absurd h Bool.noConfusion
  | «return» values => exact absurd hs Bool.noConfusion
  | _ => rfl

end LuaCore
