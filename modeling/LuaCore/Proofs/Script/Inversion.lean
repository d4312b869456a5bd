import LuaCore.Script.Lowering

/-! Each construct is lowered to one construct of a script, or to a few, made of
what its parts are lowered to. -/

namespace LuaCore

namespace Lowering

variable {α β : Type} {m : Lowering α} {f : α → Lowering β} {a b : α}

/-- What lowering can give, whichever number of temporaries it starts from. -/
def Gives (m : Lowering α) (a : α) : Prop := ∃ n, (m.run n).1 = a

theorem gives_run (m : Lowering α) (n : Nat) : m.Gives (m.run n).1 := ⟨n, rfl⟩

theorem gives_pure (h : (pure a : Lowering α).Gives b) : b = a := by
  obtain ⟨n, rfl⟩ := h
  rfl

theorem gives_bind {b : β} (h : (m >>= f).Gives b) :
    ∃ a, m.Gives a ∧ (f a).Gives b := by
  obtain ⟨n, rfl⟩ := h
  exact ⟨_, gives_run m n, gives_run (f (m.run n).1) (m.run n).2⟩

def temporaryName (i : Nat) : String := s!"$local{i}"

theorem run_temporaries (k n : Nat) :
    (temporaries k).run n =
      ((List.range' (n + 1) k).map temporaryName, n + k) := by
  induction k generalizing n with
  | zero => rfl
  | succ k ih =>
    have hrun : (temporaries (k + 1)).run n =
        (temporaryName (n + 1) :: ((temporaries k).run (n + 1)).1,
          ((temporaries k).run (n + 1)).2) := rfl
    rw [hrun, ih, List.range'_succ, List.map_cons]
    congr 1
    omega

theorem gives_temporaries {k : Nat} {xs : List String}
    (h : (temporaries k).Gives xs) :
    ∃ n, xs = (List.range' n k).map temporaryName := by
  obtain ⟨n, rfl⟩ := h
  exact ⟨n + 1, by rw [run_temporaries]⟩

end Lowering

open Lowering

def Expr.isMethod : Expr → Bool
  | .member _ .colon _ => true
  | _ => false

/-- An expression and what it is lowered to. -/
inductive Expr.LowersTo : Expr → Script.Expr → Prop
  | name (x : String) : LowersTo (.name x) (.name x)
  | nil : LowersTo .nil .undefined
  | bool (b : Bool) : LowersTo (.bool b) (.bool b)
  | number (x : Float) : LowersTo (.number x) (.number x)
  | string (text : String) : LowersTo (.string text) (.string text)
  | unary (op : UnaryOp) {operand : Expr} {operand' : Script.Expr}
      (hoperand : operand.lower.Gives operand') :
      LowersTo (.unary op operand) (lowerUnary op operand operand')
  | binary (op : BinaryOp) {left right : Expr} {left' right' : Script.Expr}
      (hleft : left.lower.Gives left') (hright : right.lower.Gives right') :
      LowersTo (.binary op left right) (lowerBinary op left' right')
  | call {callee : Expr} {args : List Expr} {callee' : Script.Expr}
      {args' : List Script.Expr} (hplain : callee.isMethod = false)
      (hcallee : callee.lower.Gives callee')
      (hargs : (lowerExprs args).Gives args') :
      LowersTo (.call callee args) (.call callee' args')
  | callMethod {object key : Expr} {args : List Expr}
      {object' key' : Script.Expr} {args' : List Script.Expr}
      (hobject : object.lower.Gives object') (hkey : key.lower.Gives key')
      (hargs : (lowerExprs args).Gives args') :
      LowersTo (.call (.member object .colon key) args)
        (.call (.name "$method") (object' :: methodKey key key' :: args'))
  | member (access : Access) {object key : Expr} {object' key' : Script.Expr}
      (hobject : object.lower.Gives object') (hkey : key.lower.Gives key') :
      LowersTo (.member object access key) (lowerMember access object' key')
  | assign {targets values : List Expr} {targets' values' : List Script.Expr}
      (htargets : (lowerExprs targets).Gives targets')
      (hvalues : (lowerExprs values).Gives values') :
      LowersTo (.assign targets values) (.group (lowerAssign targets' values'))
  | table {fields : List Field} {ps : List Script.Property}
      (hfields : (lowerFields 0 fields).Gives ps) :
      LowersTo (.table fields) (.object ps)
  | function (params : List String) {body : Block} {body' : List Script.Stat}
    (hbody : (lowerStats params (pure []) body).Gives body') :
    LowersTo (.function params body) (.function params body')

theorem Expr.lowersTo {e : Expr} {e' : Script.Expr} (h : e.lower.Gives e') :
    e.LowersTo e' := by
  cases e with
  | unary op operand =>
    rw [Expr.lower] at h
    obtain ⟨operand', hoperand, h⟩ := gives_bind h
    cases gives_pure h
    exact .unary op hoperand
  | binary op left right =>
    rw [Expr.lower] at h
    obtain ⟨left', hleft, h⟩ := gives_bind h
    obtain ⟨right', hright, h⟩ := gives_bind h
    cases gives_pure h
    exact .binary op hleft hright
  | call callee args =>
    unfold Expr.lower at h
    split at h
    · obtain ⟨object', hobject, h⟩ := gives_bind h
      obtain ⟨key', hkey, h⟩ := gives_bind h
      obtain ⟨args', hargs, h⟩ := gives_bind h
      cases gives_pure h
      exact .callMethod hobject hkey hargs
    · next hplain =>
      obtain ⟨callee', hcallee, h⟩ := gives_bind h
      obtain ⟨args', hargs, h⟩ := gives_bind h
      cases gives_pure h
      refine .call ?_ hcallee hargs
      unfold Expr.isMethod
      split
      · exact absurd rfl (hplain _ _)
      · rfl
  | member object access key =>
    rw [Expr.lower] at h
    obtain ⟨object', hobject, h⟩ := gives_bind h
    obtain ⟨key', hkey, h⟩ := gives_bind h
    cases gives_pure h
    exact .member access hobject hkey
  | assign targets values =>
    rw [Expr.lower] at h
    obtain ⟨targets', htargets, h⟩ := gives_bind h
    obtain ⟨values', hvalues, h⟩ := gives_bind h
    cases gives_pure h
    exact .assign htargets hvalues
  | table fields =>
    rw [Expr.lower] at h
    obtain ⟨ps, hps, h⟩ := gives_bind h
    cases gives_pure h
    exact .table hps
  | function params body =>
    rw [Expr.lower] at h
    obtain ⟨body', hbody, h⟩ := gives_bind h
    cases gives_pure h
    exact .function params hbody
  | _ =>
    rw [Expr.lower] at h
    cases gives_pure h
    constructor

inductive ExprsLowerTo : List Expr → List Script.Expr → Prop
  | nil : ExprsLowerTo [] []
  | cons {e : Expr} {es : List Expr} {e' : Script.Expr} {es' : List Script.Expr}
      (he : e.lower.Gives e') (hes : (lowerExprs es).Gives es') :
      ExprsLowerTo (e :: es) (e' :: es')

theorem exprsLowerTo {es : List Expr} {es' : List Script.Expr}
    (h : (lowerExprs es).Gives es') :
    ExprsLowerTo es es' := by
  cases es with
  | nil =>
    rw [lowerExprs] at h
    cases gives_pure h
    exact .nil
  | cons e es =>
    rw [lowerExprs] at h
    obtain ⟨e', he, h⟩ := gives_bind h
    obtain ⟨es', hes, h⟩ := gives_bind h
    cases gives_pure h
    exact .cons he hes

inductive FieldsLowerTo (position : Nat) :
    List Field → List Script.Property → Prop
  | nil : FieldsLowerTo position [] []
  | named (key : String) {value : Expr} {fs : List Field} {value' : Script.Expr}
      {ps : List Script.Property} (hvalue : value.lower.Gives value')
      (hfs : (lowerFields position fs).Gives ps) :
      FieldsLowerTo position (.named key value :: fs) (.named key value' :: ps)
  | keyed {key value : Expr} {fs : List Field} {key' value' : Script.Expr}
      {ps : List Script.Property} (hkey : key.lower.Gives key')
      (hvalue : value.lower.Gives value')
      (hfs : (lowerFields position fs).Gives ps) :
      FieldsLowerTo position (.keyed key value :: fs)
        (.computed key' value' :: ps)
  | item {value : Expr} {fs : List Field} {value' : Script.Expr}
      {ps : List Script.Property} (hvalue : value.lower.Gives value')
      (hfs : (lowerFields (position + 1) fs).Gives ps) :
      FieldsLowerTo position (.item value :: fs)
        (.named (toString position) value' :: ps)

theorem fieldsLowerTo {position : Nat} {fs : List Field}
    {ps : List Script.Property} (h : (lowerFields position fs).Gives ps) :
    FieldsLowerTo position fs ps := by
  cases fs with
  | nil =>
    rw [lowerFields] at h
    cases gives_pure h
    exact .nil
  | cons f fs =>
    cases f with
    | named key value =>
      rw [lowerFields] at h
      obtain ⟨value', hvalue, h⟩ := gives_bind h
      obtain ⟨ps, hps, h⟩ := gives_bind h
      cases gives_pure h
      exact .named key hvalue hps
    | keyed key value =>
      rw [lowerFields] at h
      obtain ⟨key', hkey, h⟩ := gives_bind h
      obtain ⟨value', hvalue, h⟩ := gives_bind h
      obtain ⟨ps, hps, h⟩ := gives_bind h
      cases gives_pure h
      exact .keyed hkey hvalue hps
    | item value =>
      rw [lowerFields] at h
      obtain ⟨value', hvalue, h⟩ := gives_bind h
      obtain ⟨ps, hps, h⟩ := gives_bind h
      cases gives_pure h
      exact .item hvalue hps

/-- A `local` with its values already lowered, in a block that has these
names. -/
inductive LocalLowersTo (declared names : List String)
    (values : List Script.Expr) : LoweredStat → Prop
  | again (h : redeclares declared names = true) (n : Nat) :
      LocalLowersTo declared names values
        ⟨((List.range' n values.length).map temporaryName).zipWith .const
            values,
          some [.lets names
            (((List.range' n values.length).map temporaryName).map .name)],
          names⟩
  | new (h : redeclares declared names = false) :
      LocalLowersTo declared names values
        ⟨.lets names values :: (values.drop names.length).map .expr, none,
          names ++ declared⟩

theorem localLowersTo {declared names : List String} {values : List Script.Expr}
    {l : LoweredStat} (h : (lowerLocal declared names values).Gives l) :
    LocalLowersTo declared names values l := by
  unfold lowerLocal at h
  split at h
  · next hagain =>
    obtain ⟨temps, htemps, h⟩ := gives_bind h
    cases gives_pure h
    obtain ⟨n, rfl⟩ := gives_temporaries htemps
    exact .again hagain n
  · next hnew =>
    cases gives_pure h
    exact .new (Bool.eq_false_iff.mpr hnew)

/-- A statement that is lowered to one other, and binds nothing in its block
but by `var`. -/
inductive Stat.LowersToOne : Stat → Script.Stat → Prop
  | do {body : Block} {body' : List Script.Stat}
      (hbody : (lowerStats [] (pure []) body).Gives body') :
      LowersToOne (.do body) (.block body')
  | break : LowersToOne .break .break
  | return {values : List Expr} {values' : List Script.Expr}
      (hvalues : (lowerExprs values).Gives values') :
      LowersToOne (.return values) (.return values')
  | assign {targets values : List Expr} {targets' values' : List Script.Expr}
      (htargets : (lowerExprs targets).Gives targets')
      (hvalues : (lowerExprs values).Gives values') :
      LowersToOne (.expr (.assign targets values))
        (.expr (lowerAssign targets' values'))
  | expr {e : Expr} {e' : Script.Expr}
      (hassign : ∀ targets values, e ≠ .assign targets values)
      (he : e.lower.Gives e') :
      LowersToOne (.expr e) (.expr e')
  | var (x : String) (params : List String) {body : Block}
      {body' : List Script.Stat}
      (hbody : (lowerStats params (pure []) body).Gives body') :
      LowersToOne (.function (some (.name x)) false params body)
        (.var x (.function params body'))
  | member (isLocal : Bool) (params : List String) {target : Expr}
      {body : Block} {target' : Script.Expr} {body' : List Script.Stat}
      (hname : ∀ x, target ≠ .name x) (htarget : target.lower.Gives target')
      (hbody : (lowerStats params (pure []) body).Gives body') :
      LowersToOne (.function (some target) isLocal params body)
        (.expr (.assign target' (.function params body')))
  | nameless (isLocal : Bool) (params : List String) {body : Block}
      {body' : List Script.Stat}
      (hbody : (lowerStats params (pure []) body).Gives body') :
      LowersToOne (.function none isLocal params body)
        (.expr (.function params body'))
  | if {test : Expr} {body : Block} {clauses : List Clause}
      {test' : Script.Expr} {body' : List Script.Stat}
      {branches : List Script.Branch} (htest : test.lower.Gives test')
      (hbody : (lowerStats [] (pure []) body).Gives body')
      (hclauses : (lowerClauses clauses).Gives branches) :
      LowersToOne (.if test body clauses none) (.if test' body' branches none)
  | ifElse {test : Expr} {body block : Block} {clauses : List Clause}
      {test' : Script.Expr} {body' block' : List Script.Stat}
      {branches : List Script.Branch} (htest : test.lower.Gives test')
      (hbody : (lowerStats [] (pure []) body).Gives body')
      (hclauses : (lowerClauses clauses).Gives branches)
      (hblock : (lowerStats [] (pure []) block).Gives block') :
      LowersToOne (.if test body clauses (some block))
        (.if test' body' branches (some block'))
  | forRange (x : String) {start stop step : Expr} {body : Block}
      {start' stop' step' : Script.Expr} {body' : List Script.Stat}
      (hstart : start.lower.Gives start') (hstop : stop.lower.Gives stop')
      (hstep : step.lower.Gives step')
      (hbody : (lowerStats [] (pure []) body).Gives body') :
      LowersToOne (.forRange x start stop step body)
        (.forRange x start' stop' step' body')
  | forEach (names : List String) {source : Expr} {body : Block}
      {source' : Script.Expr} {body' : List Script.Stat}
      (hsource : source.lower.Gives source')
      (hbody : (lowerStats names (pure []) body).Gives body') :
      LowersToOne (.forEach names source body) (.forEach names source' body')
  | while {test : Expr} {body : Block} {test' : Script.Expr}
      {body' : List Script.Stat} (htest : test.lower.Gives test')
      (hbody : (lowerStats [] (pure []) body).Gives body') :
      LowersToOne (.while test body) (.while test' body')
  | repeat {body : Block} {test : Expr} {body' : List Script.Stat}
      (hbody : (lowerStats [] (do return [.breakIf (← test.lower)]) body).Gives
        body') :
      LowersToOne (.repeat body test) (.forever body')

inductive Stat.LowersToLets (declared : List String) : Stat → LoweredStat → Prop
  | local {names : List String} {values : List Expr}
      {values' : List Script.Expr} {l : LoweredStat}
      (hvalues : (lowerExprs values).Gives values')
      (hlocal : LocalLowersTo declared names values' l) :
      LowersToLets declared (.local names values) l
  | localFunction (x : String) (params : List String) {body : Block}
      {body' : List Script.Stat}
      (hbody : (lowerStats params (pure []) body).Gives body') :
      LowersToLets declared (.function (some (.name x)) true params body)
        (lowerLocalFunction declared x (.function params body'))

inductive Stat.LowersTo (declared : List String) (s : Stat) : LoweredStat → Prop
  | one {t : Script.Stat} (h : s.LowersToOne t) :
      LowersTo declared s (.plain declared t)
  | lets {l : LoweredStat} (h : s.LowersToLets declared l) :
      LowersTo declared s l

theorem Stat.lowersTo {s : Stat} {declared : List String} {l : LoweredStat}
    (h : (s.lower declared).Gives l) :
    s.LowersTo declared l := by
  have one : ∀ {t : Script.Stat},
      (pure (.plain declared t) : Lowering LoweredStat).Gives l →
        s.LowersToOne t →
      s.LowersTo declared l := by
    intro t h ht
    cases gives_pure h
    exact .one ht
  cases s with
  | «do» body =>
    rw [Stat.lower] at h
    obtain ⟨body', hbody, h⟩ := gives_bind h
    exact one h (.do hbody)
  | «break» =>
    rw [Stat.lower] at h
    exact one h .break
  | «return» values =>
    rw [Stat.lower] at h
    obtain ⟨values', hvalues, h⟩ := gives_bind h
    exact one h (.return hvalues)
  | expr e =>
    unfold Stat.lower at h
    split at h
    · obtain ⟨targets', htargets, h⟩ := gives_bind h
      obtain ⟨values', hvalues, h⟩ := gives_bind h
      exact one h (.assign htargets hvalues)
    · next hassign =>
      obtain ⟨e', he, h⟩ := gives_bind h
      exact one h (.expr hassign he)
  | function target isLocal params body =>
    unfold Stat.lower at h
    obtain ⟨body', hbody, h⟩ := gives_bind h
    split at h
    · cases gives_pure h
      exact .lets (.localFunction _ params hbody)
    · exact one h (.var _ params hbody)
    · next target _ hlet hvar =>
      obtain ⟨target', htarget, h⟩ := gives_bind h
      refine one h (.member isLocal params ?_ htarget hbody)
      rintro x rfl
      cases isLocal with
      | true => exact hlet x rfl rfl
      | false => exact hvar x rfl rfl
    · exact one h (.nameless isLocal params hbody)
  | «local» names values =>
    rw [Stat.lower] at h
    obtain ⟨values', hvalues, h⟩ := gives_bind h
    exact .lets (.local hvalues (localLowersTo h))
  | «if» test body clauses otherwise =>
    unfold Stat.lower at h
    obtain ⟨test', htest, h⟩ := gives_bind h
    obtain ⟨body', hbody, h⟩ := gives_bind h
    obtain ⟨branches, hbranches, h⟩ := gives_bind h
    cases otherwise with
    | none => exact one h (.if htest hbody hbranches)
    | some block =>
      obtain ⟨block', hblock, h⟩ := gives_bind h
      exact one h (.ifElse htest hbody hbranches hblock)
  | forRange x start stop step body =>
    rw [Stat.lower] at h
    obtain ⟨start', hstart, h⟩ := gives_bind h
    obtain ⟨stop', hstop, h⟩ := gives_bind h
    obtain ⟨step', hstep, h⟩ := gives_bind h
    obtain ⟨body', hbody, h⟩ := gives_bind h
    exact one h (.forRange x hstart hstop hstep hbody)
  | forEach names source body =>
    rw [Stat.lower] at h
    obtain ⟨source', hsource, h⟩ := gives_bind h
    obtain ⟨body', hbody, h⟩ := gives_bind h
    exact one h (.forEach names hsource hbody)
  | «while» test body =>
    rw [Stat.lower] at h
    obtain ⟨test', htest, h⟩ := gives_bind h
    obtain ⟨body', hbody, h⟩ := gives_bind h
    exact one h (.while htest hbody)
  | «repeat» body test =>
    rw [Stat.lower] at h
    obtain ⟨body', hbody, h⟩ := gives_bind h
    exact one h (.repeat hbody)

/-- A block that has these names, and what it is lowered to with what ends
it. -/
inductive StatsLowerTo (declared : List String)
    (last : Lowering (List Script.Stat)) :
    List Stat → List Script.Stat → Prop
  | nil {rest : List Script.Stat} (h : last.Gives rest) :
      StatsLowerTo declared last [] rest
  | cons {s : Stat} {ss : List Stat} {l : LoweredStat} {rest : List Script.Stat}
      (hs : (s.lower declared).Gives l)
      (hss : (lowerStats l.declared last ss).Gives rest) :
      StatsLowerTo declared last (s :: ss) (l.followedBy rest)

theorem statsLowerTo {declared : List String}
    {last : Lowering (List Script.Stat)} {ss : List Stat}
    {ss' : List Script.Stat} (h : (lowerStats declared last ss).Gives ss') :
    StatsLowerTo declared last ss ss' := by
  cases ss with
  | nil =>
    rw [lowerStats] at h
    exact .nil h
  | cons s ss =>
    rw [lowerStats] at h
    obtain ⟨l, hl, h⟩ := gives_bind h
    obtain ⟨rest, hrest, h⟩ := gives_bind h
    cases gives_pure h
    exact .cons hl hrest

inductive ClausesLowerTo : List Clause → List Script.Branch → Prop
  | nil : ClausesLowerTo [] []
  | cons {test : Expr} {body : Block} {cs : List Clause} {test' : Script.Expr}
      {body' : List Script.Stat} {bs : List Script.Branch}
      (htest : test.lower.Gives test')
      (hbody : (lowerStats [] (pure []) body).Gives body')
      (hcs : (lowerClauses cs).Gives bs) :
      ClausesLowerTo (.mk test body :: cs) (.mk test' body' :: bs)

theorem clausesLowerTo {cs : List Clause} {bs : List Script.Branch}
    (h : (lowerClauses cs).Gives bs) :
    ClausesLowerTo cs bs := by
  cases cs with
  | nil =>
    rw [lowerClauses] at h
    cases gives_pure h
    exact .nil
  | cons c cs =>
    cases c with
    | mk test body =>
      rw [lowerClauses] at h
      obtain ⟨test', htest, h⟩ := gives_bind h
      obtain ⟨body', hbody, h⟩ := gives_bind h
      obtain ⟨bs, hbs, h⟩ := gives_bind h
      cases gives_pure h
      exact .cons htest hbody hbs

theorem breakIf_of_gives {test : Expr} {rest : List Script.Stat}
    (h : (do return [.breakIf (← test.lower)] :
      Lowering (List Script.Stat)).Gives rest) :
    ∃ test', test.lower.Gives test' ∧ rest = [.breakIf test'] := by
  obtain ⟨test', htest, h⟩ := gives_bind h
  exact ⟨test', htest, gives_pure h⟩

end LuaCore
