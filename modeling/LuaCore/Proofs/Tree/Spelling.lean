import LuaCore.Proofs.Reader.Rendering

namespace LuaCore

/-- Parentheses, commas and semicolons leave no trace in a tree. -/
def TokenKind.isPunctuation : TokenKind → Bool
  | .symbol .leftParen | .symbol .rightParen | .symbol .comma
  | .symbol .semicolon => true
  | _ => false

inductive Piece
  | token (k : TokenKind)
  /-- The step 1 of a loop over a range, written or implied. -/
  | unitStep

def Expr.isUnit : Expr → Bool
  | .number x => x = 1.0
  | _ => false

def namePieces (names : List String) : List Piece :=
  names.map fun x => .token (.name x)

mutual

def Expr.pieces : Expr → List Piece
  | .name x => [.token (.name x)]
  | .nil => [.token (.keyword .nil)]
  | .bool b => [.token (.keyword (if b then .true else .false))]
  | .number x => [.token (.number x)]
  | .string text => [.token (.string text)]
  | .unary op operand => .token op.token :: operand.pieces
  | .binary op left right => left.pieces ++ .token op.token :: right.pieces
  | .call callee args => callee.pieces ++ exprPieces args
  | .member object .dot key =>
    object.pieces ++ .token (.symbol .dot) :: key.pieces
  | .member object .colon key =>
    object.pieces ++ .token (.symbol .colon) :: key.pieces
  | .member object .bracket key =>
    object.pieces ++ .token (.symbol .leftBracket) :: key.pieces ++
      [.token (.symbol .rightBracket)]
  | .assign targets values =>
    exprPieces targets ++ .token (.symbol .assign) :: exprPieces values
  | .table fields =>
    .token (.symbol .leftBrace) :: fieldPieces fields ++
      [.token (.symbol .rightBrace)]
  | .function params body =>
    .token (.keyword .function) :: namePieces params ++ blockPieces body ++
      [.token (.keyword .end)]

def exprPieces : List Expr → List Piece
  | [] => []
  | e :: es => e.pieces ++ exprPieces es

def Field.pieces : Field → List Piece
  | .named key value =>
    .token (.name key) :: .token (.symbol .assign) :: value.pieces
  | .keyed key value =>
    .token (.symbol .leftBracket) :: key.pieces ++
      .token (.symbol .rightBracket) :: .token (.symbol .assign) :: value.pieces
  | .item value => value.pieces

def fieldPieces : List Field → List Piece
  | [] => []
  | f :: fs => f.pieces ++ fieldPieces fs

/-- The `self` of a method is not written, and a function statement without a
name not at all. -/
def Stat.pieces : Stat → List Piece
  | .do body =>
    .token (.keyword .do) :: blockPieces body ++ [.token (.keyword .end)]
  | .break => [.token (.keyword .break)]
  | .return values => .token (.keyword .return) :: exprPieces values
  | .expr e => e.pieces
  | .function (some target) true params body =>
    .token (.keyword .local) :: .token (.keyword .function) :: target.pieces ++
      namePieces params ++ blockPieces body ++ [.token (.keyword .end)]
  | .function (some target) false params body =>
    .token (.keyword .function) :: target.pieces ++
      namePieces (target.writtenParams params) ++ blockPieces body ++
      [.token (.keyword .end)]
  | .function none _ _ _ => []
  | .local names values =>
    .token (.keyword .local) :: namePieces names ++
      if values.isEmpty then []
      else .token (.symbol .assign) :: exprPieces values
  | .if test body clauses otherwise =>
    .token (.keyword .if) :: test.pieces ++
      .token (.keyword .then) :: blockPieces body ++ clausePieces clauses ++
      elsePieces otherwise ++ [.token (.keyword .end)]
  | .forRange x start stop step body =>
    .token (.keyword .for) :: .token (.name x) :: .token (.symbol .assign) ::
        start.pieces ++
      stop.pieces ++ (if step.isUnit then [.unitStep] else step.pieces) ++
      .token (.keyword .do) :: blockPieces body ++ [.token (.keyword .end)]
  | .forEach names source body =>
    .token (.keyword .for) :: namePieces names ++
      .token (.keyword .in) :: source.pieces ++
      .token (.keyword .do) :: blockPieces body ++ [.token (.keyword .end)]
  | .while test body =>
    .token (.keyword .while) :: test.pieces ++
      .token (.keyword .do) :: blockPieces body ++ [.token (.keyword .end)]
  | .repeat body test =>
    .token (.keyword .repeat) :: blockPieces body ++
      .token (.keyword .until) :: test.pieces

def blockPieces : List Stat → List Piece
  | [] => []
  | s :: ss => s.pieces ++ blockPieces ss

def Clause.pieces : Clause → List Piece
  | .mk test body =>
    .token (.keyword .elseif) :: test.pieces ++
      .token (.keyword .then) :: blockPieces body

def clausePieces : List Clause → List Piece
  | [] => []
  | c :: cs => c.pieces ++ clausePieces cs

def elsePieces : Option (List Stat) → List Piece
  | none => []
  | some body => .token (.keyword .else) :: blockPieces body

end

-- Their equations are made here, once for all that is proved with them.
attribute [grind =] Expr.pieces exprPieces Field.pieces fieldPieces Stat.pieces
  blockPieces Clause.pieces clausePieces elsePieces

/-- The tokens are those of the pieces, one after the other. -/
inductive Spelled : List TokenKind → List Piece → Prop
  | nil : Spelled [] []
  | token {ks : List TokenKind} {ps : List Piece} (k : TokenKind)
      (rest : Spelled ks ps) :
      Spelled (k :: ks) (.token k :: ps)
  | written {ks : List TokenKind} {ps : List Piece} (rest : Spelled ks ps) :
    Spelled (.number 1.0 :: ks) (.unitStep :: ps)
  | implied {ks : List TokenKind} {ps : List Piece} (rest : Spelled ks ps) :
    Spelled ks (.unitStep :: ps)

theorem Spelled.append {ks ls : List TokenKind} {ps qs : List Piece}
    (h : Spelled ks ps) (h' : Spelled ls qs) :
    Spelled (ks ++ ls) (ps ++ qs) := by
  induction h with
  | nil => exact h'
  | token k _ ih => exact .token k ih
  | written _ ih => exact .written ih
  | implied _ ih => exact .implied ih

theorem Spelled.unitStep {ks : List TokenKind} {x : Float} (hx : x = 1.0)
    (h : Spelled ks [.token (.number x)]) : Spelled ks [.unitStep] := by
  subst hx
  cases h with
  | token _ rest => exact .written rest

def Spells (ks : List TokenKind) (ps : List Piece) : Prop :=
  Spelled (ks.filter (!·.isPunctuation)) ps

def TokenKind.pieces (k : TokenKind) : List Piece :=
  if k.isPunctuation then [] else [.token k]

theorem spells_nil : Spells [] [] := .nil

theorem spells_token (k : TokenKind) : Spells [k] k.pieces := by
  unfold Spells TokenKind.pieces
  cases hk : k.isPunctuation with
  | true => simpa [hk] using Spelled.nil
  | false => simpa [hk] using Spelled.nil.token k

theorem Spells.append {ks ls : List TokenKind} {ps qs : List Piece}
    (h : Spells ks ps) (h' : Spells ls qs) :
    Spells (ks ++ ls) (ps ++ qs) := by
  unfold Spells
  rw [List.filter_append]
  exact Spelled.append h h'

theorem Spells.token {k : TokenKind} {ks : List TokenKind} {ps : List Piece}
    (hk : k.isPunctuation = false) (h : Spells ks ps) :
    Spells (k :: ks) (.token k :: ps) := by
  unfold Spells
  rw [List.filter_cons_of_pos (by simpa using hk)]
  exact Spelled.token k h

theorem Spells.punctuation {k : TokenKind} {ks : List TokenKind}
    {ps : List Piece} (hk : k.isPunctuation = true) (h : Spells ks ps) :
    Spells (k :: ks) ps := by
  unfold Spells
  rw [List.filter_cons_of_neg (by simpa using hk)]
  exact h

theorem UnaryOp.isPunctuation_token (op : UnaryOp) :
    op.token.isPunctuation = false := by
  cases op <;> rfl

theorem BinaryOp.isPunctuation_token (op : BinaryOp) :
    op.token.isPunctuation = false := by
  cases op <;> rfl

/-- A step that is the literal 1 counts as one that could be left out. -/
theorem Expr.spells_step {e : Expr} {ks : List TokenKind}
    (h : Spells ks e.pieces) :
    Spells ks (if e.isUnit then [.unitStep] else e.pieces) := by
  cases hunit : e.isUnit with
  | false => exact h
  | true =>
    cases e with
    | number x => exact Spelled.unitStep (of_decide_eq_true hunit) h
    | _ => cases hunit

/-! The rendering of a tree spells its pieces, as every source does that reads
as the tree. -/

theorem spells_parenthesized {ks : List TokenKind} {ps : List Piece}
    (needed : Bool) (h : Spells ks ps) :
    Spells (parenthesized needed ks) ps := by
  cases needed with
  | false => exact h
  | true =>
    have hclosed :=
      h.append (.punctuation (k := .symbol .rightParen) rfl spells_nil)
    rw [List.append_nil] at hclosed
    exact .punctuation rfl hclosed

theorem spells_separated {texts : List (List TokenKind)} {ps : List Piece}
    (h : Spells texts.flatten ps) : Spells (separated texts) ps := by
  have hcommas : ∀ texts : List (List TokenKind), (afterCommas texts).filter
        (!·.isPunctuation) = texts.flatten.filter (!·.isPunctuation) := by
    intro texts
    induction texts with
    | nil => rfl
    | cons text texts ih =>
      rw [afterCommas_cons, List.filter_cons_of_neg (by decide),
        List.filter_append, ih, List.flatten_cons, List.filter_append]
  cases texts with
  | nil => exact h
  | cons text texts =>
    unfold Spells separated
    rw [List.filter_append, hcommas, ← List.filter_append]
    exact h

theorem spells_nameList (names : List String) :
    Spells (nameList names) (namePieces names) := by
  apply spells_separated
  induction names with
  | nil => exact spells_nil
  | cons x names ih => exact Spells.token rfl ih

theorem spells_signatureText (params : List String) :
    Spells (signatureText params) (namePieces params) := by
  have hclosed := (spells_nameList params).append
    (.punctuation (k := .symbol .rightParen) rfl spells_nil)
  rw [List.append_nil] at hclosed
  exact .punctuation rfl hclosed

theorem Spells.ended {ks : List TokenKind} {ps : List Piece} (h : Spells ks ps)
    {k : TokenKind} (hk : k.isPunctuation = false) :
    Spells (ks ++ [k]) (ps ++ [.token k]) :=
  h.append (.token hk spells_nil)

mutual

theorem Expr.spells_render (e : Expr) : Spells e.render e.pieces := by
  cases e with
  | name x => exact .token rfl spells_nil
  | nil => exact .token rfl spells_nil
  | bool b => cases b <;> exact .token rfl spells_nil
  | number x => exact .token rfl spells_nil
  | string text => exact .token rfl spells_nil
  | unary op operand =>
    rw [Expr.render, Expr.pieces]
    exact .token op.isPunctuation_token
      (spells_parenthesized _ operand.spells_render)
  | binary op left right =>
    rw [Expr.render, Expr.pieces]
    apply (spells_parenthesized _ left.spells_render).append
    exact .token op.isPunctuation_token
      (spells_parenthesized _ right.spells_render)
  | call callee args =>
    rw [Expr.render, Expr.pieces]
    apply (spells_parenthesized _ callee.spells_render).append
    have hclosed := (spells_separated (exprsSpell args)).append
      (.punctuation (k := .symbol .rightParen) rfl spells_nil)
    rw [List.append_nil] at hclosed
    exact .punctuation rfl hclosed
  | member object access key =>
    cases access with
    | dot =>
      rw [Expr.render, Expr.pieces]
      exact (spells_parenthesized _ object.spells_render).append
        (.token rfl key.spells_render)
    | colon =>
      rw [Expr.render, Expr.pieces]
      exact (spells_parenthesized _ object.spells_render).append
        (.token rfl key.spells_render)
    | bracket =>
      rw [Expr.render, Expr.pieces, List.append_assoc]
      apply (spells_parenthesized _ object.spells_render).append
      exact .token rfl (key.spells_render.ended rfl)
  | assign targets values =>
    rw [Expr.render, Expr.pieces]
    apply (spells_separated (exprsSpell targets)).append
    exact .token rfl (spells_separated (exprsSpell values))
  | table fields =>
    rw [Expr.render, Expr.pieces]
    exact .token rfl ((spells_separated (fieldsSpell fields)).ended rfl)
  | function params body =>
    rw [Expr.render, Expr.pieces]
    exact .token rfl
      (((spells_signatureText params).append (blockSpells body)).ended rfl)

theorem exprsSpell (es : List Expr) :
    Spells (exprTexts es).flatten (exprPieces es) := by
  cases es with
  | nil => exact spells_nil
  | cons e es =>
    rw [exprTexts, exprPieces, List.flatten_cons]
    exact e.spells_render.append (exprsSpell es)

theorem Field.spells_render (f : Field) : Spells f.render f.pieces := by
  cases f with
  | named key value =>
    rw [Field.render, Field.pieces]
    exact .token rfl (.token rfl value.spells_render)
  | keyed key value =>
    rw [Field.render, Field.pieces]
    apply Spells.token rfl
    exact key.spells_render.append (.token rfl (.token rfl value.spells_render))
  | item value =>
    rw [Field.render, Field.pieces]
    exact value.spells_render

theorem fieldsSpell (fs : List Field) :
    Spells (fieldTexts fs).flatten (fieldPieces fs) := by
  cases fs with
  | nil => exact spells_nil
  | cons f fs =>
    rw [fieldTexts, fieldPieces, List.flatten_cons]
    exact f.spells_render.append (fieldsSpell fs)

theorem Stat.spells_render (s : Stat) : Spells s.render s.pieces := by
  cases s with
  | «do» body =>
    rw [Stat.render, Stat.pieces]
    exact .token rfl ((blockSpells body).ended rfl)
  | «break» => exact .token rfl spells_nil
  | «return» values =>
    rw [Stat.render, Stat.pieces]
    exact .token rfl (spells_separated (exprsSpell values))
  | expr e =>
    rw [Stat.render, Stat.pieces]
    exact e.spells_render
  | function target isLocal params body =>
    cases target with
    | none => exact spells_nil
    | some target =>
      cases isLocal with
      | true =>
        rw [Stat.render, Stat.pieces]
        have hname := target.spells_render.append (spells_signatureText params)
        exact .token rfl
          (.token rfl ((hname.append (blockSpells body)).ended rfl))
      | false =>
        rw [Stat.render, Stat.pieces]
        have hname := target.spells_render.append
          (spells_signatureText (target.writtenParams params))
        exact .token rfl ((hname.append (blockSpells body)).ended rfl)
  | «local» names values =>
    rw [Stat.render, Stat.pieces]
    apply Spells.token rfl
    apply (spells_nameList names).append
    split
    · exact spells_nil
    · exact .token rfl (spells_separated (exprsSpell values))
  | «if» test body clauses otherwise =>
    rw [Stat.render, Stat.pieces]
    have hrest := (((blockSpells body).append (clausesSpell clauses)).append
        (elseSpells otherwise)).ended (k := .keyword .end) rfl
    simpa using Spells.token (k := .keyword .if) rfl
      (test.spells_render.append (.token (k := .keyword .then) rfl hrest))
  | forRange x start stop step body =>
    rw [Stat.render, Stat.pieces]
    have hbody := Spells.token (k := .keyword .do) rfl
      ((blockSpells body).ended (k := .keyword .end) rfl)
    have hstep := Expr.spells_step step.spells_render
    have hbounds := start.spells_render.append
      (.punctuation (k := .symbol .comma) rfl (stop.spells_render.append
          (.punctuation (k := .symbol .comma) rfl (hstep.append hbody))))
    simpa using Spells.token (k := .keyword .for) rfl (.token (k := .name x) rfl
      (.token (k := .symbol .assign) rfl hbounds))
  | forEach names source body =>
    rw [Stat.render, Stat.pieces]
    have hbody := Spells.token (k := .keyword .do) rfl
      ((blockSpells body).ended (k := .keyword .end) rfl)
    have hsource :=
      Spells.token (k := .keyword .in) rfl (source.spells_render.append hbody)
    simpa using Spells.token (k := .keyword .for) rfl
      ((spells_nameList names).append hsource)
  | «while» test body =>
    rw [Stat.render, Stat.pieces]
    have hbody := Spells.token (k := .keyword .do) rfl
      ((blockSpells body).ended (k := .keyword .end) rfl)
    simpa using Spells.token (k := .keyword .while) rfl
      (test.spells_render.append hbody)
  | «repeat» body test =>
    rw [Stat.render, Stat.pieces]
    exact .token rfl ((blockSpells body).append (.token rfl test.spells_render))

theorem blockSpells (body : List Stat) :
    Spells (blockText body) (blockPieces body) := by
  cases body with
  | nil => exact spells_nil
  | cons s ss =>
    rw [blockText, blockPieces]
    exact s.spells_render.append (.punctuation rfl (blockSpells ss))

theorem Clause.spells_render (c : Clause) : Spells c.render c.pieces := by
  cases c with
  | mk test body =>
    rw [Clause.render, Clause.pieces]
    exact .token rfl (test.spells_render.append (.token rfl (blockSpells body)))

theorem clausesSpell (cs : List Clause) :
    Spells (clausesText cs) (clausePieces cs) := by
  cases cs with
  | nil => exact spells_nil
  | cons c cs =>
    rw [clausesText, clausePieces]
    exact c.spells_render.append (clausesSpell cs)

theorem elseSpells (otherwise : Option (List Stat)) :
    Spells (elseText otherwise) (elsePieces otherwise) := by
  cases otherwise with
  | none => exact spells_nil
  | some body =>
    rw [elseText, elsePieces]
    exact .token rfl (blockSpells body)

end

end LuaCore
