import LuaCore.Proofs.Script.Placed
import LuaCore.Proofs.Script.Region

/-! The names of a `let` are dead in its own values, where a program has the
outer variables. -/

namespace LuaCore

open Lowering

mutual

/-- The variables of an expression outside of the functions in it; a name after
a dot is none. -/
def Script.Expr.variables : Script.Expr → List String
  | .name x => [x]
  | .undefined | .bool _ | .number _ | .string _ => []
  | .group e | .negate e | .complement e => e.variables
  | .binary _ left right => left.variables ++ right.variables
  | .join left right => left.variables ++ right.variables
  | .call callee args => callee.variables ++ Script.exprVariables args
  | .member object (.name _) => object.variables
  | .member object key => object.variables ++ key.variables
  | .index object key => object.variables ++ key.variables
  | .assign target value => target.variables ++ value.variables
  | .assignAll targets values =>
    Script.exprVariables targets ++ Script.exprVariables values
  | .object properties => Script.propertyVariables properties
  | .function _ _ => []

def Script.exprVariables : List Script.Expr → List String
  | [] => []
  | e :: es => e.variables ++ Script.exprVariables es

def Script.propertyVariables : List Script.Property → List String
  | [] => []
  | .named _ value :: ps => value.variables ++ Script.propertyVariables ps
  | .computed key value :: ps =>
    key.variables ++ value.variables ++ Script.propertyVariables ps

end

mutual

def Expr.variables : Expr → List String
  | .name x => [x]
  | .nil | .bool _ | .number _ | .string _ => []
  | .unary _ operand => operand.variables
  | .binary _ left right => left.variables ++ right.variables
  | .call callee args => callee.variables ++ exprVariables args
  | .member object .bracket key => object.variables ++ key.variables
  | .member object _ (.name _) => object.variables
  | .member object _ key => object.variables ++ key.variables
  | .assign targets values => exprVariables targets ++ exprVariables values
  | .table fields => fieldVariables fields
  | .function _ _ => []

def exprVariables : List Expr → List String
  | [] => []
  | e :: es => e.variables ++ exprVariables es

def fieldVariables : List Field → List String
  | [] => []
  | .named _ value :: fs => value.variables ++ fieldVariables fs
  | .keyed key value :: fs =>
    key.variables ++ value.variables ++ fieldVariables fs
  | .item value :: fs => value.variables ++ fieldVariables fs

end

/-- No value of a `let` has one of its names; values without a name in their
place stand outside. -/
def Script.Stat.SeesOuter : Script.Stat → Prop
  | .lets names values =>
    ∀ value ∈ values.take names.length, ∀ x ∈ names, x ∉ value.variables
  | _ => True

/-- No value of a `let` is refused for a name that is not bound yet. -/
def Script.SeesOuter (s : Script) : Prop :=
  ∀ r ∈ s.regions, ∀ st ∈ r.body, st.SeesOuter

def Stat.SeesOuter : Stat → Prop
  | .local names values =>
    ∀ value ∈ values.take names.length, ∀ x ∈ names, x ∉ value.variables
  | _ => True

instance : DecidablePred Script.Stat.SeesOuter := fun s => by
  unfold Script.Stat.SeesOuter
  split <;> infer_instance

instance : DecidablePred Stat.SeesOuter := fun s => by
  unfold Stat.SeesOuter
  split <;> infer_instance

instance (s : Script) : Decidable s.SeesOuter := by
  unfold Script.SeesOuter
  infer_instance

def sourceNames (xs : List String) : List String := xs.filter (!isOwnName ·)

theorem sourceNames_append (xs ys : List String) :
    sourceNames (xs ++ ys) = sourceNames xs ++ sourceNames ys :=
  List.filter_append ..

theorem variables_lowerUnary (op : UnaryOp) (operand : Expr)
    (lowered : Script.Expr) :
    (lowerUnary op operand lowered).variables = lowered.variables := by
  cases op with
  | length =>
    show (lowerLength operand lowered).variables = lowered.variables
    unfold lowerLength
    split <;> rfl
  | _ => rfl

theorem variables_lowerBinary (op : BinaryOp) (left right : Script.Expr) :
    (lowerBinary op left right).variables =
      left.variables ++ right.variables := by
  cases op <;> rfl

mutual

theorem Expr.variables_lower {isCallee : Bool} {e : Expr} {e' : Script.Expr}
    (he : e.wellFormed isCallee = true) (h : e.lower.Gives e') :
    sourceNames e'.variables = sourceNames e.variables := by
  cases e.lowersTo h with
  | @unary op operand _ hoperand =>
    rw [Expr.wellFormed] at he
    rw [variables_lowerUnary]
    exact operand.variables_lower he hoperand
  | binary op hleft hright =>
    rw [Expr.wellFormed, Bool.and_eq_true] at he
    rw [variables_lowerBinary, Expr.variables, sourceNames_append,
      sourceNames_append, Expr.variables_lower he.1 hleft,
      Expr.variables_lower he.2 hright]
  | call _ hcallee hargs =>
    rw [Expr.wellFormed, Bool.and_eq_true] at he
    rw [Script.Expr.variables, Expr.variables, sourceNames_append,
      sourceNames_append, Expr.variables_lower he.1 hcallee,
      exprVariables_lower he.2 hargs]
  | @callMethod object key args object' key' args' hobject _ hargs =>
    rw [Expr.wellFormed, Bool.and_eq_true] at he
    cases key with
    | name x =>
      simp only [Expr.wellFormed, Bool.and_eq_true] at he
      have hvariables : (Script.Expr.call (.name "$method")
          (object' :: methodKey (.name x) key' :: args')).variables =
          "$method" :: (object'.variables ++ Script.exprVariables args') := rfl
      have hmethod : sourceNames
            ("$method" :: (object'.variables ++ Script.exprVariables args')) =
          sourceNames (object'.variables ++ Script.exprVariables args') :=
        List.filter_cons_of_neg (by decide)
      rw [hvariables, hmethod, sourceNames_append,
        object.variables_lower he.1.2 hobject, exprVariables_lower he.2 hargs,
        ← sourceNames_append]
      rfl
    | _ => cases he.1
  | @member access object key object' key' hobject hkey =>
    -- the name after a dot or a colon is no variable
    have hnamed : ∀ {x : String}, object.wellFormed false = true →
        (Expr.name x).lower.Gives key' →
        sourceNames (object'.member key').variables =
          sourceNames object.variables := by
      intro x hobjectFormed hkey
      cases Expr.lowersTo hkey
      have hmember := object.variables_lower hobjectFormed hobject
      exact hmember
    cases access with
    | bracket =>
      rw [Expr.wellFormed, Bool.and_eq_true] at he
      show sourceNames (object'.variables ++ key'.variables) =
        sourceNames (object.variables ++ key.variables)
      rw [sourceNames_append, sourceNames_append,
        object.variables_lower he.1 hobject, key.variables_lower he.2 hkey]
    | dot =>
      cases key with
      | name x =>
        rw [Expr.wellFormed] at he
        exact hnamed he hkey
      | _ => cases he
    | colon =>
      cases key with
      | name x =>
        rw [Expr.wellFormed, Bool.and_eq_true] at he
        exact hnamed he.2 hkey
      | _ => cases he
  | assign => cases he
  | table hfields =>
    rw [Expr.wellFormed] at he
    exact fieldVariables_lower he hfields
  | _ => rfl

theorem exprVariables_lower {es : List Expr} {es' : List Script.Expr}
    (hes : exprsWellFormed es = true) (h : (lowerExprs es).Gives es') :
    sourceNames (Script.exprVariables es') =
      sourceNames (exprVariables es) := by
  cases exprsLowerTo h with
  | nil => rfl
  | cons he hes' =>
    rw [exprsWellFormed, Bool.and_eq_true] at hes
    rw [Script.exprVariables, exprVariables, sourceNames_append,
      sourceNames_append, Expr.variables_lower hes.1 he,
      exprVariables_lower hes.2 hes']

theorem fieldVariables_lower {position : Nat} {fs : List Field}
    {ps : List Script.Property} (hfs : fieldsWellFormed fs = true)
    (h : (lowerFields position fs).Gives ps) :
    sourceNames (Script.propertyVariables ps) =
      sourceNames (fieldVariables fs) := by
  cases fieldsLowerTo h with
  | nil => rfl
  | named key hvalue hrest =>
    simp only [fieldsWellFormed, Field.wellFormed, Bool.and_eq_true] at hfs
    rw [Script.propertyVariables, fieldVariables, sourceNames_append,
      sourceNames_append, Expr.variables_lower hfs.1 hvalue,
      fieldVariables_lower hfs.2 hrest]
  | keyed hkey hvalue hrest =>
    simp only [fieldsWellFormed, Field.wellFormed, Bool.and_eq_true] at hfs
    simp only [Script.propertyVariables, fieldVariables, sourceNames_append,
      Expr.variables_lower hfs.1.1 hkey, Expr.variables_lower hfs.1.2 hvalue,
      fieldVariables_lower hfs.2 hrest]
  | item hvalue hrest =>
    simp only [fieldsWellFormed, Field.wellFormed, Bool.and_eq_true] at hfs
    rw [Script.propertyVariables, fieldVariables, sourceNames_append,
      sourceNames_append, Expr.variables_lower hfs.1 hvalue,
      fieldVariables_lower hfs.2 hrest]

end

theorem Expr.mem_variables_lower {isCallee : Bool} {e : Expr} {e' : Script.Expr}
    {x : String} (he : e.wellFormed isCallee = true) (h : e.lower.Gives e')
    (hx : IsIdentifier x) :
    x ∈ e'.variables ↔ x ∈ e.variables := by
  have hmem : ∀ xs : List String, x ∈ xs ↔ x ∈ sourceNames xs := by
    intro xs
    simp [sourceNames, hx.isOwnName_eq_false]
  rw [hmem, e.variables_lower he h, ← hmem]

/-- A value that reads nothing of the program has no name of the program. -/
theorem Script.Expr.not_mem_variables_of_isDeferred {v : Script.Expr}
    {x : String} (hv : v.isDeferred = true) (hx : IsIdentifier x) :
    x ∉ v.variables := by
  cases v with
  | name y =>
    rw [Script.Expr.variables, List.mem_singleton]
    rintro rfl
    exact absurd hv (Bool.eq_false_iff.mp hx.isOwnName_eq_false)
  | function params body => exact List.not_mem_nil
  | _ => cases hv

theorem Script.Stat.seesOuter_of_isQuiet {st : Script.Stat}
    (h : st.isQuiet = true) :
    st.SeesOuter := by
  cases st with
  | lets names values => cases h
  | _ => trivial

theorem Stat.Becomes.seesOuter_iff {s : Stat} {stats : List Script.Stat}
    (h : s.Becomes stats) (hs : s.Sound) :
    (∀ st ∈ stats, st.SeesOuter) ↔ s.SeesOuter := by
  cases h with
  | @lets names values values' h =>
    have hnames := Stat.isIdentifier_of_mem_locals hs.pieces
    have hvalues := hs.wellFormed
    rw [Stat.wellFormed, Bool.and_eq_true, exprsWellFormed_iff] at hvalues
    have hrest : ∀ st ∈ (values'.drop names.length).map Script.Stat.expr,
        st.SeesOuter := by
      intro st hst
      obtain ⟨e, -, rfl⟩ := List.mem_map.mp hst
      trivial
    rw [List.forall_mem_cons, and_iff_left hrest]
    refine forall_iff_of_forall₂
      (List.forall₂_take names.length (lowerExprs_gives h)) ?_
    intro e he e' hlowers
    refine forall₂_congr fun x hx => not_congr ?_
    exact e.mem_variables_lower (hvalues.2 e (List.mem_of_mem_take he)) hlowers
      (hnames x hx)
  | letFunction =>
    exact iff_of_true
      (by simp [Script.Stat.SeesOuter, Script.Expr.variables]) trivial
  | quiet hsource ht =>
    refine iff_of_true
      (List.forall_mem_singleton.mpr (Script.Stat.seesOuter_of_isQuiet ht)) ?_
    unfold Stat.SeesOuter
    split
    · cases hsource
    · trivial
  | _ => exact iff_of_true (List.forall_mem_singleton.mpr trivial) trivial

/-- The values of a script see the variables around them exactly if those
of each `local` do in the program, those aside that bind a name again in
their block. -/
theorem Chunk.seesOuter_lower_iff {source : String} {c : Chunk}
    (h : ofSource source = .ok c) :
    c.lower.SeesOuter ↔ ∀ t ∈ c.stretches, ∀ s ∈ t.placed, s.SeesOuter := by
  refine forall_iff_of_forall₂ c.lowers fun t ht r hlowers => ?_
  have hsound := allSound_stretches h t ht
  refine hlowers.forall_body_iff (fun _ => Script.Stat.seesOuter_of_isQuiet)
    (fun _ _ => trivial) ?_ ?_
  · intro values hvalues v hv x hx
    exact Script.Expr.not_mem_variables_of_isDeferred
      (hvalues v (List.mem_of_mem_take hv)) (hsound.head x hx)
  · exact fun s hs stats hbecomes =>
      hbecomes.seesOuter_iff (hsound.sound_of_mem_placed hs)

theorem Chunk.seesOuter_of_members :
    let source :=
      "local x = f() local x, y = x.y, x local g = function() return g end " ++
        "do local z, w = y.z, x:w(x) end"
    ∃ c, ofSource source = .ok c ∧ c.lower.SeesOuter := by
  intro source
  obtain ⟨c, hsource, hplaced⟩ : ∃ c, ofSource source = .ok c ∧
      decide (∀ t ∈ c.stretches, ∀ s ∈ t.placed, s.SeesOuter) = true :=
    exists_of_any (by decide +kernel)
  exact ⟨c, hsource,
    (seesOuter_lower_iff hsource).mpr (of_decide_eq_true hplaced)⟩

/-- The value is the variable that the `let` binds, and not the one of its
name around it. -/
theorem Chunk.not_seesOuter_of_same_name :
    ∃ c, ofSource "local x = 1\ndo\nlocal x = x\nend" = .ok c ∧
      ¬c.lower.SeesOuter := by
  obtain ⟨c, hsource, hdead⟩ :
      ∃ c, ofSource "local x = 1\ndo\nlocal x = x\nend" = .ok c ∧
        decide (¬c.lower.SeesOuter) = true :=
    exists_of_any (by decide +kernel)
  exact ⟨c, hsource, of_decide_eq_true hdead⟩

end LuaCore
