import LuaCore.Proofs.Scope.WellScoped
import LuaCore.Proofs.Tree.WellFormed

namespace LuaCore

def Expr.isRunnable : Expr → Bool
  | .assign targets values =>
    targets.all Expr.isTarget && exprsWellFormed targets &&
      exprsWellFormed values
  | e => e.wellFormed false

theorem Expr.isRunnable_of_wellFormed {e : Expr}
    (h : e.wellFormed false = true) :
    e.isRunnable = true := by
  cases e with
  | assign targets values => cases h
  | _ => exact h

theorem Stat.isRunnable_of_wellFormed {e : Expr}
    (h : (Stat.expr e).wellFormed = true) :
    e.isRunnable = true := by
  cases e with
  | call callee args => exact h
  | assign targets values =>
    simp only [Stat.wellFormed, Bool.and_eq_true] at h
    simp only [Expr.isRunnable, Bool.and_eq_true]
    exact ⟨⟨h.1.1.1.2, h.1.1.2⟩, h.2⟩
  | _ => cases h

theorem Expr.wellFormed_member {object key : Expr} {access : Access}
    {isCallee : Bool}
    (h : (Expr.member object access key).wellFormed isCallee = true) :
    (object.wellFormed false && (access.quotes key || key.wellFormed false)) =
      true := by
  unfold Expr.wellFormed at h
  split at h
  all_goals simp_all [Access.quotes, Expr.isName]

theorem Expr.not_wellFormed_method (object key : Expr) :
    ¬(Expr.member object .colon key).wellFormed false = true := by
  unfold Expr.wellFormed
  split <;> simp_all

theorem Expr.wellFormed_of_callee {e : Expr} (h : e.wellFormed true = true)
    (hmethod : ∀ object key, e ≠ .member object .colon key) :
    e.wellFormed false = true := by
  unfold Expr.wellFormed at h ⊢
  split at h <;> simp_all

theorem Expr.wellFormed_of_isDotted {e : Expr} (h : e.isDotted = true) :
    e.wellFormed false = true := by
  fun_induction Expr.isDotted e with
  | case1 x => rfl
  | case2 object x ih => exact ih h
  | case3 => cases h

theorem Stat.wellFormed_function {target : Option Expr} {isLocal : Bool}
    {params : List String} {body : Block}
    (h : (Stat.function target isLocal params body).wellFormed = true) :
    blockWellFormed body = true := by
  unfold Stat.wellFormed at h
  split at h
  all_goals simp_all

theorem Stat.wellFormed_memberFunction {object key : Expr} {access : Access}
    {isLocal : Bool} {params : List String} {body : Block}
    (h : (Stat.function (some (.member object access key)) isLocal params
        body).wellFormed = true) :
    (object.wellFormed false && (access.quotes key || key.wellFormed false)) =
      true := by
  cases isLocal with
  | true => cases h
  | false =>
    simp only [Stat.wellFormed, Expr.namesFunction, Bool.and_eq_true,
      Bool.or_eq_true] at h
    obtain ⟨hdotted | ⟨hmethod, -⟩, -⟩ := h
    · exact Expr.wellFormed_member (Expr.wellFormed_of_isDotted hdotted)
    · unfold Expr.isMethodName at hmethod
      split at hmethod
      · next heq =>
        cases heq
        simp [Expr.wellFormed_of_isDotted hmethod, Access.quotes, Expr.isName]
      · cases hmethod

theorem Stat.not_wellFormed_function {target : Option Expr} {isLocal : Bool}
    {params : List String} {body : Block} (hname : ∀ x, target ≠ some (.name x))
    (hmember : ∀ object access key, target ≠ some (.member object access key)) :
    ¬(Stat.function target isLocal params body).wellFormed = true := by
  intro h
  unfold Stat.wellFormed at h
  split at h
  all_goals simp_all
  next target _ _ =>
    cases target <;>
      simp_all [Expr.namesFunction, Expr.isDotted, Expr.isMethodName]

end LuaCore
