import LuaCore.Proofs.Script.Lexical

namespace LuaCore

open Lowering

namespace Script

mutual

/-- An expression and all that are inside it. -/
def Expr.parts : Expr → List Expr
  | .name x => [.name x]
  | .undefined => [.undefined]
  | .bool b => [.bool b]
  | .number x => [.number x]
  | .string text => [.string text]
  | .group e => .group e :: e.parts
  | .negate e => .negate e :: e.parts
  | .complement e => .complement e :: e.parts
  | .binary op left right =>
    .binary op left right :: (left.parts ++ right.parts)
  | .join left right => .join left right :: (left.parts ++ right.parts)
  | .call callee args => .call callee args :: (callee.parts ++ exprParts args)
  | .member object key => .member object key :: (object.parts ++ key.parts)
  | .index object key => .index object key :: (object.parts ++ key.parts)
  | .assign target value =>
    .assign target value :: (target.parts ++ value.parts)
  | .assignAll targets values =>
    .assignAll targets values :: (exprParts targets ++ exprParts values)
  | .object properties => .object properties :: propertyParts properties
  | .function params body => .function params body :: statParts body

def exprParts : List Expr → List Expr
  | [] => []
  | e :: es => e.parts ++ exprParts es

def propertyParts : List Property → List Expr
  | [] => []
  | .named _ value :: ps => value.parts ++ propertyParts ps
  | .computed key value :: ps => key.parts ++ value.parts ++ propertyParts ps

/-- Values without a name in their place are not written. -/
def bindingParts : List String → List Expr → List Expr
  | _ :: names, value :: values => value.parts ++ bindingParts names values
  | _, _ => []

def Stat.parts : Stat → List Expr
  | .expr e => e.parts
  | .lets names values => bindingParts names values
  | .const _ value => value.parts
  | .var _ value => value.parts
  | .return values => exprParts values
  | .break => []
  | .breakIf test => test.parts
  | .block body => statParts body
  | .if test body branches none =>
    test.parts ++ statParts body ++ branchParts branches
  | .if test body branches (some otherwise) =>
    test.parts ++ statParts body ++ branchParts branches ++ statParts otherwise
  | .forRange _ start stop step body =>
    start.parts ++ stop.parts ++ step.parts ++ statParts body
  | .forEach _ source body => source.parts ++ statParts body
  | .while test body => test.parts ++ statParts body
  | .forever body => statParts body

def statParts : List Stat → List Expr
  | [] => []
  | s :: ss => s.parts ++ statParts ss

def branchParts : List Branch → List Expr
  | [] => []
  | .mk test body :: bs => test.parts ++ statParts body ++ branchParts bs

end

def isWhole (x : Float) : Bool := (numberText x).toList.all Char.isDigit

def Expr.isWhole : Expr → Bool
  | .number x => Script.isWhole x
  | _ => false

/-- A member whose owner is a bare literal of digits. -/
def Expr.ownsWhole : Expr → Bool
  | .member owner _ => owner.isWhole
  | _ => false

/-- No literal of digits stands right before the point of a member. -/
def PointsApart (s : Script) : Prop :=
  ∀ e ∈ statParts s.body, e.ownsWhole = false

instance (s : Script) : Decidable s.PointsApart := by
  unfold PointsApart
  infer_instance

/-! A point right after a literal of digits is no token sequence. -/

theorem exists_digit_of_isWhole {x : Float} (h : isWhole x = true) :
    ∃ c cs, (numberText x).toList = c :: cs ∧ c.isDigit = true := by
  obtain ⟨c, cs, hhead, -⟩ := exists_head_numberText x
  rw [isWhole, hhead] at h
  exact ⟨c, cs, hhead, List.all_eq_true.mp h c List.mem_cons_self⟩

theorem numeral_point_word {digits rest : List Char} {c : Char}
    (hdigits : digits.all Char.isDigit = true) (hc : startsWord c = true) :
    numeral (digits ++ '.' :: c :: rest) = none := by
  have hpoint : ∀ d ∈ ('.' :: c :: rest).head?, d.isDigit = false := by
    rintro d ⟨⟩
    decide
  obtain ⟨htake, hdrop⟩ := takeWhile_run hdigits hpoint
  have hdigit : c.isDigit = false := by
    rw [Bool.eq_false_iff]
    intro hdigit
    rw [startsWord_of_isDigit hdigit] at hc
    cases hc
  have hfraction : (c :: rest).dropWhile Char.isDigit = c :: rest :=
    List.dropWhile_cons_of_neg (by simp [hdigit])
  unfold numeral
  simp only [htake, hdrop, afterPoint, hfraction]
  exact if_pos (.inr (by simpa using isScriptWordChar_of_startsWord hc))

theorem tokens_member_of_isWhole {x : Float} {key : String}
    (hx : isWhole x = true) (hkey : isWord key = true) (depth : Nat)
    (rest : List Char) :
    tokens (((Expr.member (.number x) (.name key)).text depth).toList ++ rest) =
      none := by
  obtain ⟨c, cs, hhead, hc⟩ := exists_digit_of_isWhole hx
  unfold isWord at hkey
  split at hkey
  · cases hkey
  · next d ds hname =>
    rw [Bool.and_eq_true] at hkey
    have htext : ((Expr.member (.number x) (.name key)).text depth).toList ++
          rest = c :: (cs ++ '.' :: d :: (ds ++ rest)) := by
      simp [Expr.text, hhead, hname]
    have hlexeme : lexeme (c :: (cs ++ '.' :: d :: (ds ++ rest))) = none := by
      rw [lexeme, if_neg (by simp [startsWord_of_isDigit hc]), if_pos hc]
      rw [isWhole, hhead] at hx
      exact numeral_point_word hx hkey.1
    have hblank := isBlank_of_isScriptWordChar (isScriptWordChar_of_isDigit hc)
    rw [htext, tokens, if_neg (by simp [hblank]), hlexeme]

end Script

mutual

/-- An expression and all that are inside it, the callee of a method
call aside. -/
def Expr.parts : Expr → List Expr
  | .name x => [.name x]
  | .nil => [.nil]
  | .bool b => [.bool b]
  | .number x => [.number x]
  | .string text => [.string text]
  | .unary op operand => .unary op operand :: operand.parts
  | .binary op left right =>
    .binary op left right :: (left.parts ++ right.parts)
  | .call (.member object .colon key) args =>
    .call (.member object .colon key) args ::
      (object.parts ++ key.parts ++ exprParts args)
  | .call callee args => .call callee args :: (callee.parts ++ exprParts args)
  | .member object access key =>
    .member object access key :: (object.parts ++ key.parts)
  | .assign targets values =>
    .assign targets values :: (exprParts targets ++ exprParts values)
  | .table fields => .table fields :: fieldParts fields
  | .function params body => .function params body :: statParts body

def exprParts : List Expr → List Expr
  | [] => []
  | e :: es => e.parts ++ exprParts es

def fieldParts : List Field → List Expr
  | [] => []
  | .named _ value :: fs => value.parts ++ fieldParts fs
  | .keyed key value :: fs => key.parts ++ value.parts ++ fieldParts fs
  | .item value :: fs => value.parts ++ fieldParts fs

def Stat.parts : Stat → List Expr
  | .do body => statParts body
  | .break => []
  | .return values => exprParts values
  | .expr e => e.parts
  | .function none _ _ body => statParts body
  | .function (some target) _ _ body => target.parts ++ statParts body
  | .local _ values => exprParts values
  | .if test body clauses none =>
    test.parts ++ statParts body ++ clauseParts clauses
  | .if test body clauses (some otherwise) =>
    test.parts ++ statParts body ++ clauseParts clauses ++ statParts otherwise
  | .forRange _ start stop step body =>
    start.parts ++ stop.parts ++ step.parts ++ statParts body
  | .forEach _ source body => source.parts ++ statParts body
  | .while test body => test.parts ++ statParts body
  | .repeat body test => statParts body ++ test.parts

def statParts : List Stat → List Expr
  | [] => []
  | s :: ss => s.parts ++ statParts ss

def clauseParts : List Clause → List Expr
  | [] => []
  | .mk test body :: cs => test.parts ++ statParts body ++ clauseParts cs

end

def Expr.isWhole : Expr → Bool
  | .number x => Script.isWhole x
  | _ => false

/-- A member that is written with a point or a colon, of a number whose literal
is only digits. -/
def Expr.ownsWhole : Expr → Bool
  | .member owner .dot _ => owner.isWhole
  | .member owner .colon _ => owner.isWhole
  | _ => false

/-! Lowering keeps the members whose owners are such literals, and makes
no other one. -/

theorem Expr.isWhole_lower {e : Expr} {e' : Script.Expr}
    (h : e.lower.Gives e') :
    e'.isWhole = e.isWhole := by
  cases e.lowersTo h with
  | @unary op operand =>
    cases op with
    | length => cases operand <;> rfl
    | _ => rfl
  | binary op => cases op <;> rfl
  | member access => cases access <;> rfl
  | _ => rfl

theorem Expr.parts_call {callee : Expr} (h : callee.isMethod = false)
    (args : List Expr) :
    (Expr.call callee args).parts =
      .call callee args :: (callee.parts ++ exprParts args) := by
  cases callee with
  | member object access key =>
    cases access with
    | colon => cases h
    | _ => rfl
  | _ => rfl

/-! What the constructs that lowering chooses have as parts. -/

theorem any_parts_lowerUnary (op : UnaryOp) {operand : Expr}
    {operand' : Script.Expr} (h : operand.lower.Gives operand') :
    (lowerUnary op operand operand').parts.any Script.Expr.ownsWhole =
      operand'.parts.any Script.Expr.ownsWhole := by
  cases op with
  | length =>
    -- the literal of a number is in parentheses, and nothing else is
    -- lowered to one
    have hwhole := Expr.isWhole_lower h
    cases operand with
    | number x =>
      simp [lowerUnary, lowerLength, Script.Expr.parts, Script.Expr.ownsWhole,
        Script.Expr.isWhole]
    | _ =>
      simp only [lowerUnary, lowerLength, Script.Expr.parts, List.any_cons,
        List.any_append, Script.Expr.ownsWhole, hwhole]
      simp [Expr.isWhole]
  | _ => simp [lowerUnary, Script.Expr.parts, Script.Expr.ownsWhole]

theorem any_parts_lowerBinary (op : BinaryOp) (left right : Script.Expr) :
    (lowerBinary op left right).parts.any Script.Expr.ownsWhole =
      (left.parts.any Script.Expr.ownsWhole ||
        right.parts.any Script.Expr.ownsWhole) := by
  cases op <;> simp [lowerBinary, Script.Expr.parts, Script.Expr.ownsWhole]

theorem any_parts_lowerAssign (targets values : List Script.Expr) :
    (lowerAssign targets values).parts.any Script.Expr.ownsWhole =
      ((Script.exprParts targets).any Script.Expr.ownsWhole ||
        (Script.exprParts values).any Script.Expr.ownsWhole) := by
  unfold lowerAssign
  split <;> simp [Script.Expr.parts, Script.exprParts, Script.Expr.ownsWhole]

theorem any_parts_methodKey {key : Expr} {key' : Script.Expr}
    (h : key.lower.Gives key') :
    (methodKey key key').parts.any Script.Expr.ownsWhole =
      key'.parts.any Script.Expr.ownsWhole := by
  cases key.lowersTo h <;> rfl

namespace Script

theorem exprParts_append (es es' : List Expr) :
    exprParts (es ++ es') = exprParts es ++ exprParts es' := by
  induction es with
  | nil => rfl
  | cons e es ih =>
    rw [List.cons_append, exprParts, ih, exprParts, List.append_assoc]

theorem statParts_append (ss ss' : List Stat) :
    statParts (ss ++ ss') = statParts ss ++ statParts ss' := by
  induction ss with
  | nil => rfl
  | cons s ss ih =>
    rw [List.cons_append, statParts, ih, statParts, List.append_assoc]

theorem statParts_expr (es : List Expr) :
    statParts (es.map .expr) = exprParts es := by
  induction es with
  | nil => rfl
  | cons e es ih => rw [List.map_cons, statParts, ih, exprParts, Stat.parts]

theorem bindingParts_eq (names : List String) (values : List Expr) :
    bindingParts names values = exprParts (values.take names.length) := by
  induction names generalizing values with
  | nil => simp [bindingParts, exprParts]
  | cons x names ih =>
    cases values with
    | nil => simp [bindingParts, exprParts]
    | cons value values => simp [bindingParts, exprParts, ih]

theorem statParts_temporaries {temps : List String} {values : List Expr}
    (h : temps.length = values.length) :
    statParts (temps.zipWith .const values) = exprParts values := by
  induction values generalizing temps with
  | nil => rw [List.zipWith_nil_right, statParts, exprParts]
  | cons value values ih =>
    cases temps with
    | nil => cases h
    | cons x temps =>
      rw [List.zipWith_cons_cons, statParts, Stat.parts, exprParts,
        ih (Nat.succ.inj h)]

theorem any_exprParts_names (xs : List String) :
    (exprParts (xs.map .name)).any Expr.ownsWhole = false := by
  induction xs with
  | nil => rfl
  | cons x xs ih => rw [List.map_cons, exprParts, List.any_append, ih]; rfl

end Script

/-- The values of a `local` are written once, and otherwise only names are. -/
theorem LocalLowersTo.any_parts {declared names : List String}
    {values : List Script.Expr} {l : LoweredStat}
    (h : LocalLowersTo declared names values l) :
    (Script.statParts (l.stats ++ l.reopened.getD [])).any
        Script.Expr.ownsWhole =
      (Script.exprParts values).any Script.Expr.ownsWhole := by
  cases h with
  | again =>
    rw [Option.getD_some, Script.statParts_append,
      Script.statParts_temporaries (by simp), Script.statParts,
      Script.Stat.parts, Script.bindingParts_eq, ← List.map_take,
      List.any_append, List.any_append, Script.any_exprParts_names,
      Script.statParts]
    simp
  | new =>
    rw [Option.getD_none, List.append_nil, Script.statParts, Script.Stat.parts,
      Script.bindingParts_eq, Script.statParts_expr, ← Script.exprParts_append,
      List.take_append_drop]

theorem any_parts_lowerLocalFunction (declared : List String) (x : String)
    (params : List String) (body : List Script.Stat) :
    (Script.statParts
        ((lowerLocalFunction declared x (.function params body)).stats ++
          (lowerLocalFunction declared x
            (.function params body)).reopened.getD [])).any
        Script.Expr.ownsWhole =
      (Script.statParts body).any Script.Expr.ownsWhole := by
  unfold lowerLocalFunction
  split <;> simp [Script.statParts, Script.Stat.parts, Script.bindingParts,
      Script.Expr.parts, Script.Expr.ownsWhole]

theorem any_parts_function (params : List String) {body : List Script.Stat}
    {owns : Bool}
    (h : (Script.statParts body).any Script.Expr.ownsWhole = (owns || false)) :
    (Script.Expr.function params body).parts.any Script.Expr.ownsWhole =
      owns := by
  rw [Script.Expr.parts, List.any_cons, h, Bool.or_false]
  rfl

theorem any_nothing_lower (ts : List Script.Stat)
    (h : (pure [] : Lowering (List Script.Stat)).Gives ts) :
    (Script.statParts ts).any Script.Expr.ownsWhole = false := by
  cases gives_pure h
  rfl

mutual

theorem Expr.any_parts_lower {e : Expr} {e' : Script.Expr}
    (h : e.lower.Gives e') :
    e'.parts.any Script.Expr.ownsWhole = e.parts.any Expr.ownsWhole := by
  cases e.lowersTo h with
  | @unary op operand _ hoperand =>
    rw [any_parts_lowerUnary op hoperand, operand.any_parts_lower hoperand]
    simp [Expr.parts, Expr.ownsWhole]
  | binary op hleft hright =>
    rw [any_parts_lowerBinary, Expr.any_parts_lower hleft,
      Expr.any_parts_lower hright]
    simp [Expr.parts, Expr.ownsWhole]
  | call hplain hcallee hargs =>
    rw [Expr.parts_call hplain]
    simp [Script.Expr.parts, Script.Expr.ownsWhole, Expr.ownsWhole,
      Expr.any_parts_lower hcallee, any_exprParts_lower hargs]
  | callMethod hobject hkey hargs =>
    simp [Script.Expr.parts, Script.exprParts, Expr.parts,
      Script.Expr.ownsWhole, Expr.ownsWhole, any_parts_methodKey hkey,
      Expr.any_parts_lower hobject, Expr.any_parts_lower hkey,
      any_exprParts_lower hargs]
  | member access hobject hkey =>
    cases access <;>
      simp [lowerMember, Script.Expr.parts, Expr.parts, Script.Expr.ownsWhole,
        Expr.ownsWhole, Expr.isWhole_lower hobject,
        Expr.any_parts_lower hobject, Expr.any_parts_lower hkey]
  | assign htargets hvalues =>
    rw [Script.Expr.parts, List.any_cons, any_parts_lowerAssign,
      any_exprParts_lower htargets, any_exprParts_lower hvalues]
    simp [Script.Expr.ownsWhole, Expr.parts, Expr.ownsWhole]
  | table hfields =>
    simp [Script.Expr.parts, Expr.parts, Script.Expr.ownsWhole, Expr.ownsWhole,
      any_fieldParts_lower hfields]
  | function params hbody =>
    simp [Script.Expr.parts, Expr.parts, Script.Expr.ownsWhole, Expr.ownsWhole,
      any_statParts_lower any_nothing_lower hbody]
  | _ => rfl

theorem any_exprParts_lower {es : List Expr} {es' : List Script.Expr}
    (h : (lowerExprs es).Gives es') :
    (Script.exprParts es').any Script.Expr.ownsWhole =
      (exprParts es).any Expr.ownsWhole := by
  cases exprsLowerTo h with
  | nil => rfl
  | cons he hes =>
    rw [Script.exprParts, exprParts, List.any_append, List.any_append,
      Expr.any_parts_lower he, any_exprParts_lower hes]

theorem any_fieldParts_lower {position : Nat} {fs : List Field}
    {ps : List Script.Property} (h : (lowerFields position fs).Gives ps) :
    (Script.propertyParts ps).any Script.Expr.ownsWhole =
      (fieldParts fs).any Expr.ownsWhole := by
  cases fieldsLowerTo h with
  | nil => rfl
  | named key hvalue hfs =>
    simp only [Script.propertyParts, fieldParts, List.any_append,
      Expr.any_parts_lower hvalue, any_fieldParts_lower hfs]
  | keyed hkey hvalue hfs =>
    simp only [Script.propertyParts, fieldParts, List.any_append,
      Expr.any_parts_lower hkey, Expr.any_parts_lower hvalue,
      any_fieldParts_lower hfs]
  | item hvalue hfs =>
    simp only [Script.propertyParts, fieldParts, List.any_append,
      Expr.any_parts_lower hvalue, any_fieldParts_lower hfs]

theorem Stat.any_parts_lower {s : Stat} {declared : List String}
    {l : LoweredStat} (h : (s.lower declared).Gives l) :
    (Script.statParts (l.stats ++ l.reopened.getD [])).any
        Script.Expr.ownsWhole = s.parts.any Expr.ownsWhole := by
  cases s.lowersTo h with
  | lets hlets =>
    cases hlets with
    | «local» hvalues hlocal =>
      rw [hlocal.any_parts, any_exprParts_lower hvalues, Stat.parts]
    | localFunction x params hbody =>
      rw [any_parts_lowerLocalFunction,
        any_statParts_lower any_nothing_lower hbody, Bool.or_false]
      rfl
  | @one t hone =>
    -- a statement that is lowered to one other stands alone
    suffices hparts : t.parts.any Script.Expr.ownsWhole =
        s.parts.any Expr.ownsWhole by
      simpa [LoweredStat.plain, Script.statParts] using hparts
    cases hone with
    | «do» hbody =>
      exact (any_statParts_lower any_nothing_lower hbody).trans
        (Bool.or_false _)
    | «break» => rfl
    | «return» hvalues => exact any_exprParts_lower hvalues
    | assign htargets hvalues =>
      rw [Script.Stat.parts, any_parts_lowerAssign,
        any_exprParts_lower htargets, any_exprParts_lower hvalues]
      simp [Stat.parts, Expr.parts, Expr.ownsWhole]
    | expr _ he => exact Expr.any_parts_lower he
    | var x params hbody =>
      exact any_parts_function params
        (any_statParts_lower any_nothing_lower hbody)
    | member isLocal params _ htarget hbody =>
      rw [Script.Stat.parts, Script.Expr.parts, List.any_cons, List.any_append,
        any_parts_function params (any_statParts_lower any_nothing_lower hbody),
        Expr.any_parts_lower htarget, Stat.parts, List.any_append]
      rfl
    | nameless isLocal params hbody =>
      exact any_parts_function params
        (any_statParts_lower any_nothing_lower hbody)
    | «if» htest hbody hclauses =>
      simp only [Script.Stat.parts, Stat.parts, List.any_append, Bool.or_false,
        Expr.any_parts_lower htest, any_statParts_lower any_nothing_lower hbody,
        any_clauseParts_lower hclauses]
    | ifElse htest hbody hclauses hblock =>
      simp only [Script.Stat.parts, Stat.parts, List.any_append, Bool.or_false,
        Expr.any_parts_lower htest, any_statParts_lower any_nothing_lower hbody,
        any_clauseParts_lower hclauses,
        any_statParts_lower any_nothing_lower hblock]
    | forRange x hstart hstop hstep hbody =>
      simp only [Script.Stat.parts, Stat.parts, List.any_append, Bool.or_false,
        Expr.any_parts_lower hstart, Expr.any_parts_lower hstop,
        Expr.any_parts_lower hstep, any_statParts_lower any_nothing_lower hbody]
    | forEach names hsource hbody =>
      simp only [Script.Stat.parts, Stat.parts, List.any_append, Bool.or_false,
        Expr.any_parts_lower hsource,
        any_statParts_lower any_nothing_lower hbody]
    | «while» htest hbody =>
      simp only [Script.Stat.parts, Stat.parts, List.any_append, Bool.or_false,
        Expr.any_parts_lower htest, any_statParts_lower any_nothing_lower hbody]
    | @«repeat» body test _ hbody =>
      rw [Script.Stat.parts, Stat.parts, List.any_append]
      apply any_statParts_lower _ hbody
      intro ts hts
      obtain ⟨test', htest, rfl⟩ := breakIf_of_gives hts
      rw [Script.statParts, Script.Stat.parts, Script.statParts,
        List.append_nil, test.any_parts_lower htest]

theorem any_statParts_lower {declared : List String}
    {last : Lowering (List Script.Stat)} {ends : Bool} {ss : List Stat}
    {ss' : List Script.Stat}
    (hlast : ∀ ts, last.Gives ts →
      (Script.statParts ts).any Script.Expr.ownsWhole = ends)
    (h : (lowerStats declared last ss).Gives ss') :
    (Script.statParts ss').any Script.Expr.ownsWhole =
      ((statParts ss).any Expr.ownsWhole || ends) := by
  cases statsLowerTo h with
  | nil h => exact hlast ss' h
  | @cons _ ss l rest hs hss =>
    have hfollowed : Script.statParts (l.followedBy rest) =
        Script.statParts (l.stats ++ l.reopened.getD []) ++
          Script.statParts rest := by
      unfold LoweredStat.followedBy
      cases l.reopened <;>
        simp [Script.statParts_append, Script.statParts, Script.Stat.parts]
    rw [hfollowed, List.any_append, Stat.any_parts_lower hs,
      any_statParts_lower hlast hss, statParts, List.any_append, Bool.or_assoc]

theorem any_clauseParts_lower {cs : List Clause} {bs : List Script.Branch}
    (h : (lowerClauses cs).Gives bs) :
    (Script.branchParts bs).any Script.Expr.ownsWhole =
      (clauseParts cs).any Expr.ownsWhole := by
  cases clausesLowerTo h with
  | nil => rfl
  | cons htest hbody hcs =>
    simp only [Script.branchParts, clauseParts, List.any_append, Bool.or_false,
      Expr.any_parts_lower htest, any_statParts_lower any_nothing_lower hbody,
      any_clauseParts_lower hcs]

end

/-- A literal of digits stands right before a point exactly if the program has a
member of such a number, other than by brackets and other than the callee of a
method call. -/
theorem Chunk.pointsApart_lower_iff (c : Chunk) :
    c.lower.PointsApart ↔ ∀ e ∈ statParts c.body, e.ownsWhole = false := by
  have hbody : (lowerStats preludeNames (pure []) c.body).Gives c.lower.body :=
    gives_run _ 0
  have hany := any_statParts_lower any_nothing_lower hbody
  rw [Bool.or_false] at hany
  have hall : ∀ {α : Type} {p : α → Bool} {xs : List α},
      (∀ x ∈ xs, p x = false) ↔ xs.any p = false := by
    simp
  rw [Script.PointsApart, hall, hany, hall]

/-- The parentheses around the number are gone from its member, as they are not
from its length. -/
theorem Chunk.not_pointsApart_of_member :
    ∃ c, ofSource "print(#5, (5).x)" = .ok c ∧ ¬c.lower.PointsApart ∧
      ∃ e ∈ Script.statParts c.lower.body, e.text 0 = "5.x" ∧
        Script.tokens (e.text 0).toList = none := by
  obtain ⟨c, hsource, hparts⟩ : ∃ c, ofSource "print(#5, (5).x)" = .ok c ∧
      decide
        (¬c.lower.PointsApart ∧
          (Script.statParts c.lower.body).any (·.text 0 == "5.x") = true) =
            true :=
    exists_of_any (by decide +kernel)
  obtain ⟨hpoints, htext⟩ := of_decide_eq_true hparts
  obtain ⟨e, he, htext⟩ := List.any_eq_true.mp htext
  refine ⟨c, hsource, hpoints, e, he, eq_of_beq htext, ?_⟩
  rw [eq_of_beq htext]
  cbv

end LuaCore
