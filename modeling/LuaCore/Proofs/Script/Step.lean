import LuaCore.Proofs.Script.Inversion
import LuaCore.Proofs.Script.Stretch
import Mathlib.Data.List.Forall2

namespace LuaCore

namespace Lowering

/-- What ends a block besides its own statements is at most the test of a
loop. -/
def EndsBlock (last : Lowering (List Script.Stat)) : Prop :=
  ∀ ss, last.Gives ss → ∀ s ∈ ss, ∃ test, s = .breakIf test

theorem endsBlock_nil : (pure [] : Lowering (List Script.Stat)).EndsBlock := by
  intro ss h
  cases gives_pure h
  exact List.forall_mem_nil _

theorem endsBlock_test (test : Expr) :
    (do return [.breakIf (← test.lower)] :
      Lowering (List Script.Stat)).EndsBlock := by
  intro ss h s hs
  obtain ⟨test', -, rfl⟩ := breakIf_of_gives h
  exact ⟨test', List.mem_singleton.mp hs⟩

theorem toList_temporaryName (i : Nat) :
    (temporaryName i).toList = "$local".toList ++ Nat.toDigits 10 i := by
  rw [← Nat.toList_repr]
  exact String.toList_append

theorem temporaryName_injective : Function.Injective temporaryName := by
  intro i j h
  have hdigits := congrArg String.toList h
  rw [toList_temporaryName, toList_temporaryName, List.append_cancel_left_eq]
    at hdigits
  rw [← Nat.ofDigitChars_ten_toDigits (n := i), hdigits,
    Nat.ofDigitChars_ten_toDigits]

theorem lowerExprs_gives {es : List Expr} {es' : List Script.Expr}
    (h : (lowerExprs es).Gives es') :
    List.Forall₂ (fun e e' => e.lower.Gives e') es es' := by
  induction es generalizing es' with
  | nil =>
    cases exprsLowerTo h
    exact .nil
  | cons e es ih =>
    cases exprsLowerTo h with
    | cons he hes => exact .cons he (ih hes)

end Lowering

open Lowering

/-- A statement that binds nothing in its region and is no expression. -/
def Script.Stat.isQuiet : Script.Stat → Bool
  | .expr _ | .lets _ _ | .const _ _ => false
  | _ => true

def Stat.isQuiet : Stat → Bool
  | .expr _ | .local _ _ => false
  | .function (some (.name _)) false _ _ => true
  | .function _ _ _ _ => false
  | _ => true

/-- What becomes of a statement that binds no name again. -/
inductive Stat.Becomes : Stat → List Script.Stat → Prop
  | lets {names : List String} {values : List Expr} {values' : List Script.Expr}
      (h : (lowerExprs values).Gives values') :
      Becomes (.local names values)
        (.lets names values' :: (values'.drop names.length).map .expr)
  | letFunction {x : String} {params : List String} {body : Block}
      {body' : List Script.Stat} :
      Becomes (.function (some (.name x)) true params body)
        [.lets [x] [.function params body']]
  | expr {e : Expr} {e' : Script.Expr}
      (hassign : ∀ targets values, e ≠ .assign targets values)
      (h : e.lower.Gives e') :
      Becomes (.expr e) [.expr e']
  | assign {targets values : List Expr} {targets' values' : List Script.Expr}
      (htargets : (lowerExprs targets).Gives targets')
      (hvalues : (lowerExprs values).Gives values') :
      Becomes (.expr (.assign targets values))
        [.expr (lowerAssign targets' values')]
  | member {target : Expr} {target' : Script.Expr} {isLocal : Bool}
      {params : List String} {body : Block} {body' : List Script.Stat}
      (hname : ∀ x, target ≠ .name x) (h : target.lower.Gives target') :
      Becomes (.function (some target) isLocal params body)
        [.expr (.assign target' (.function params body'))]
  | nameless {isLocal : Bool} {params : List String} {body : Block}
      {body' : List Script.Stat} :
      Becomes (.function none isLocal params body)
        [.expr (.function params body')]
  | quiet {s : Stat} {t : Script.Stat} (hs : s.isQuiet = true)
      (ht : t.isQuiet = true) :
      Becomes s [t]

/-- What ends a region: statements that bind nothing but temporaries. -/
structure LeadsOut (rest : List Script.Stat) : Prop where
  quiet : ∀ s ∈ rest, s.isQuiet = true ∨ ∃ x value, s = .const x value
  bound : ∃ n k, (rest.flatMap Script.Stat.bound).Sublist
    ((List.range' n k).map temporaryName)

theorem leadsOut_nil : LeadsOut [] :=
  ⟨List.forall_mem_nil _, 0, 0, List.nil_sublist _⟩

theorem leadsOut_of_endsBlock {last : Lowering (List Script.Stat)}
    (hlast : last.EndsBlock) {ss : List Script.Stat} (h : last.Gives ss) :
    LeadsOut ss where
  quiet s hs := by
    obtain ⟨test, rfl⟩ := hlast ss h s hs
    exact .inl rfl
  bound := by
    refine ⟨0, 0,
      List.sublist_nil.mpr (List.flatMap_eq_nil_iff.mpr fun s hs => ?_)⟩
    obtain ⟨test, rfl⟩ := hlast ss h s hs
    rfl

theorem leadsOut_block (inside : List Script.Stat) :
    LeadsOut [.block inside] where
  quiet := List.forall_mem_singleton.mpr (.inl rfl)
  bound := ⟨0, 0, List.nil_sublist _⟩

theorem sublist_bound_temporaries (temps : List String)
    (values : List Script.Expr) :
    ((temps.zipWith .const values).flatMap Script.Stat.bound).Sublist
      temps := by
  induction temps generalizing values with
  | nil => simp
  | cons x temps ih =>
    cases values with
    | nil => simp
    | cons value values => simpa [Script.Stat.bound] using ih values

theorem leadsOut_temporaries (n : Nat) (values : List Script.Expr)
    (inside : List Script.Stat) :
    LeadsOut (((List.range' n values.length).map temporaryName).zipWith .const
          values ++ [.block inside]) where
  quiet := by
    refine List.forall_mem_append.mpr
      ⟨fun s hs => ?_, (leadsOut_block inside).quiet⟩
    obtain ⟨i, hi, rfl⟩ := List.getElem_of_mem hs
    exact .inr ⟨_, _, List.getElem_zipWith⟩
  bound := by
    refine ⟨n, values.length, ?_⟩
    simpa [Script.Stat.bound] using sublist_bound_temporaries _ values

/-- A name that a script has of itself: no name in a source starts with a
dollar. -/
def isOwnName (x : String) : Bool := x.toList.head? == some '$'

theorem isOwnName_temporaryName (i : Nat) :
    isOwnName (temporaryName i) = true := by
  simp [isOwnName, toList_temporaryName]

/-- A value that reads nothing of the program: a temporary, or a function. -/
def Script.Expr.isDeferred : Script.Expr → Bool
  | .name x => isOwnName x
  | .function _ _ => true
  | _ => false

structure LoweredStat.Stays (l : LoweredStat) (declared : List String)
    (s : Stat) : Prop where
  reopened : l.reopened = none
  declared : l.declared = s.locals ++ declared
  becomes : s.Becomes l.stats

/-- A statement that opens a new region, the values for which are
computed before it. -/
structure LoweredStat.Reopens (l : LoweredStat) (s : Stat) : Prop where
  reopened : ∃ values, l.reopened = some [.lets s.locals values] ∧
    ∀ v ∈ values, v.isDeferred = true
  declared : l.declared = s.locals
  leadsOut : ∀ inside, LeadsOut (l.stats ++ [.block inside])

/-- What one statement does to the region that it is lowered in. -/
def LoweredStat.Goes (l : LoweredStat) (declared : List String) (s : Stat) :
    Prop :=
  if redeclares declared s.locals then l.Reopens s else l.Stays declared s

theorem LoweredStat.goes_plain {s : Stat} {t : Script.Stat}
    (declared : List String) (hs : s.locals = []) (h : s.Becomes [t]) :
    (LoweredStat.plain declared t).Goes declared s := by
  have hnew : ¬redeclares declared s.locals := by simp [redeclares, hs]
  rw [Goes, if_neg hnew]
  exact ⟨rfl, by rw [hs]; rfl, h⟩

theorem LocalLowersTo.goes {declared names : List String} {values : List Expr}
    {values' : List Script.Expr} {l : LoweredStat}
    (h : LocalLowersTo declared names values' l)
    (hvalues : (lowerExprs values).Gives values') :
    l.Goes declared (.local names values) := by
  unfold LoweredStat.Goes
  rw [Stat.locals]
  cases h with
  | again hagain n =>
    rw [if_pos hagain]
    refine ⟨⟨_, rfl, ?_⟩, rfl, leadsOut_temporaries n values'⟩
    intro v hv
    obtain ⟨x, hx, rfl⟩ := List.mem_map.mp hv
    obtain ⟨i, -, rfl⟩ := List.mem_map.mp hx
    exact isOwnName_temporaryName i
  | new hnew =>
    rw [if_neg (Bool.eq_false_iff.mp hnew)]
    exact ⟨rfl, rfl, .lets hvalues⟩

theorem lowerLocalFunction_goes (declared : List String) (x : String)
    (params : List String) (body : Block) (body' : List Script.Stat) :
    (lowerLocalFunction declared x (.function params body')).Goes declared
      (.function (some (.name x)) true params body) := by
  unfold LoweredStat.Goes lowerLocalFunction
  rw [Stat.locals]
  split
  · exact ⟨⟨_, rfl, List.forall_mem_singleton.mpr rfl⟩, rfl, leadsOut_block⟩
  · exact ⟨rfl, rfl, .letFunction⟩

theorem Stat.LowersToOne.locals {s : Stat} {t : Script.Stat}
    (h : s.LowersToOne t) :
    s.locals = [] := by
  cases h with
  | @member isLocal params target body _ _ hname =>
    cases target with
    | name x => exact absurd rfl (hname x)
    | _ => rfl
  | _ => rfl

theorem Stat.LowersToOne.becomes {s : Stat} {t : Script.Stat}
    (h : s.LowersToOne t) :
    s.Becomes [t] := by
  cases h with
  | assign htargets hvalues => exact .assign htargets hvalues
  | expr hassign he => exact .expr hassign he
  | member isLocal params hname htarget hbody => exact .member hname htarget
  | nameless isLocal params hbody => exact .nameless
  | _ => exact .quiet rfl rfl

theorem Stat.lower_goes {s : Stat} {declared : List String} {l : LoweredStat}
    (h : (s.lower declared).Gives l) : l.Goes declared s := by
  cases s.lowersTo h with
  | one hone => exact LoweredStat.goes_plain declared hone.locals hone.becomes
  | lets hlets =>
    cases hlets with
    | «local» hvalues hlocal => exact hlocal.goes hvalues
    | localFunction x params hbody =>
      exact lowerLocalFunction_goes declared x params _ _

end LuaCore
