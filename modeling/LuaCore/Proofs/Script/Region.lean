import LuaCore.Script.Lowering

/-! A `let` or `const` binds in its own region, a `var` in all regions out to
the function around it. -/

namespace LuaCore.Script

/-- A region with all its statements. Parameters are bound as those of a
function; the names of the head are bound by `let` or `const` before the
first statement. -/
structure Region where
  params : List String
  head : List String
  body : List Stat

mutual

def Expr.regions : Expr → List Region
  | .name _ | .undefined | .bool _ | .number _ | .string _ => []
  | .group e | .negate e | .complement e => e.regions
  | .binary _ left right => left.regions ++ right.regions
  | .join left right => left.regions ++ right.regions
  | .call callee args => callee.regions ++ exprRegions args
  | .member object key => object.regions ++ key.regions
  | .index object key => object.regions ++ key.regions
  | .assign target value => target.regions ++ value.regions
  | .assignAll targets values => exprRegions targets ++ exprRegions values
  | .object properties => propertyRegions properties
  | .function params body => statRegions body ++ [⟨params, [], body⟩]

def exprRegions : List Expr → List Region
  | [] => []
  | e :: es => e.regions ++ exprRegions es

def Property.regions : Property → List Region
  | .named _ value => value.regions
  | .computed key value => key.regions ++ value.regions

def propertyRegions : List Property → List Region
  | [] => []
  | p :: ps => p.regions ++ propertyRegions ps

def bindingRegions : List String → List Expr → List Region
  | _ :: names, value :: values => value.regions ++ bindingRegions names values
  | _, _ => []

/-- The head of a loop is a region around its body. -/
def Stat.regions : Stat → List Region
  | .expr e => e.regions
  | .lets names values => bindingRegions names values
  | .const _ value => value.regions
  | .var _ value => value.regions
  | .return values => exprRegions values
  | .break => []
  | .breakIf test => test.regions
  | .block body => statRegions body ++ [⟨[], [], body⟩]
  | .if test body branches none =>
    test.regions ++ statRegions body ++ [⟨[], [], body⟩] ++
      branchRegions branches
  | .if test body branches (some otherwise) =>
    test.regions ++ statRegions body ++ [⟨[], [], body⟩] ++
      branchRegions branches ++ statRegions otherwise ++ [⟨[], [], otherwise⟩]
  | .forRange x start stop step body =>
    start.regions ++ stop.regions ++ step.regions ++ statRegions body ++
      [⟨[], [], body⟩, ⟨[], [x], [.block body]⟩]
  | .forEach names source body =>
    source.regions ++ statRegions body ++
      [⟨[], "$value" :: names, body⟩, ⟨[], ["$iter"], [.block body]⟩]
  | .while test body => test.regions ++ statRegions body ++ [⟨[], [], body⟩]
  | .forever body => statRegions body ++ [⟨[], [], body⟩]

def statRegions : List Stat → List Region
  | [] => []
  | s :: ss => s.regions ++ statRegions ss

def Branch.regions : Branch → List Region
  | .mk test body => test.regions ++ statRegions body ++ [⟨[], [], body⟩]

def branchRegions : List Branch → List Region
  | [] => []
  | b :: bs => b.regions ++ branchRegions bs

end

-- Their equations are made here, once for all that is proved with them.
attribute [grind =] Expr.regions exprRegions Property.regions propertyRegions
  bindingRegions Stat.regions statRegions Branch.regions branchRegions

/-- The names that a statement binds in its own region. -/
def Stat.bound : Stat → List String
  | .lets names _ => names
  | .const x _ => [x]
  | _ => []

mutual

def Stat.vars : Stat → List String
  | .var x _ => [x]
  | .block body => statVars body
  | .if _ body branches none => statVars body ++ branchVars branches
  | .if _ body branches (some otherwise) =>
    statVars body ++ branchVars branches ++ statVars otherwise
  | .forRange _ _ _ _ body => statVars body
  | .forEach _ _ body => statVars body
  | .while _ body => statVars body
  | .forever body => statVars body
  | _ => []

def statVars : List Stat → List String
  | [] => []
  | s :: ss => s.vars ++ statVars ss

def Branch.vars : Branch → List String
  | .mk _ body => statVars body

def branchVars : List Branch → List String
  | [] => []
  | b :: bs => b.vars ++ branchVars bs

end

def Region.bound (r : Region) : List String :=
  r.head ++ r.body.flatMap Stat.bound

/-- A name is bound once, none is that of a parameter, and no `var` of the name
comes out into the region. -/
def Region.BindsOnce (r : Region) : Prop :=
  r.bound.Nodup ∧ (∀ x ∈ r.params, x ∉ r.bound) ∧
    ∀ x ∈ r.bound, x ∉ statVars r.body

instance (r : Region) : Decidable r.BindsOnce := by
  unfold Region.BindsOnce
  infer_instance

theorem exprRegions_append (es es' : List Expr) :
    exprRegions (es ++ es') = exprRegions es ++ exprRegions es' := by
  induction es with
  | nil => rfl
  | cons e es ih =>
    rw [List.cons_append, exprRegions, ih, exprRegions, List.append_assoc]

theorem bindingRegions_eq (names : List String) (values : List Expr) :
    bindingRegions names values = exprRegions (values.take names.length) := by
  induction names generalizing values with
  | nil => simp [bindingRegions, exprRegions]
  | cons x names ih =>
    cases values with
    | nil => simp [bindingRegions, exprRegions]
    | cons value values => simp [bindingRegions, exprRegions, ih]

theorem statRegions_expr (es : List Expr) :
    statRegions (es.map .expr) = exprRegions es := by
  induction es with
  | nil => rfl
  | cons e es ih =>
    rw [List.map_cons, statRegions, ih, exprRegions, Stat.regions]

theorem statRegions_append (ss ss' : List Stat) :
    statRegions (ss ++ ss') = statRegions ss ++ statRegions ss' := by
  induction ss with
  | nil => rfl
  | cons s ss ih =>
    rw [List.cons_append, statRegions, ih, statRegions, List.append_assoc]

theorem statVars_append (ss ss' : List Stat) :
    statVars (ss ++ ss') = statVars ss ++ statVars ss' := by
  induction ss with
  | nil => rfl
  | cons s ss ih =>
    rw [List.cons_append, statVars, ih, statVars, List.append_assoc]

def preludeBound : List String := "$method" :: preludeNames

def regions (s : Script) : List Region :=
  statRegions s.body ++ [⟨[], preludeBound, s.body⟩]

/-- No name clashes with another, so that the script is not refused. -/
def BindsOnce (s : Script) : Prop := ∀ r ∈ s.regions, r.BindsOnce

instance (s : Script) : Decidable s.BindsOnce := by
  unfold BindsOnce
  infer_instance

end LuaCore.Script
