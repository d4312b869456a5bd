import LuaCore.Proofs.Script.Placed
import Mathlib.Data.List.Nodup

namespace LuaCore

open List (Forall₂)
open Lowering

mutual

/-- The names for which a statement makes a `var`, in all blocks out to the
function around it. -/
def Stat.vars : Stat → List String
  | .function (some (.name x)) false _ _ => [x]
  | .do body => blockVars body
  | .if _ body clauses none => blockVars body ++ clauseVars clauses
  | .if _ body clauses (some otherwise) =>
    blockVars body ++ clauseVars clauses ++ blockVars otherwise
  | .forRange _ _ _ _ body => blockVars body
  | .forEach _ _ body => blockVars body
  | .while _ body => blockVars body
  | .repeat body _ => blockVars body
  | _ => []

def blockVars : List Stat → List String
  | [] => []
  | s :: ss => s.vars ++ blockVars ss

def clauseVars : List Clause → List String
  | [] => []
  | .mk _ body :: cs => blockVars body ++ clauseVars cs

end

/-- The names that a stretch binds in its region by `let` and `const`, those of
the script aside. -/
def Stretch.bound (t : Stretch) : List String :=
  t.head ++ t.placed.flatMap Stat.locals

/-- No statement repeats a name, and no `var` meets a name of the region. -/
def Stretch.BindsOnce (t : Stretch) : Prop :=
  t.head.Nodup ∧ (∀ s ∈ t.placed, s.locals.Nodup) ∧
    ∀ x ∈ t.bound, x ∉ blockVars t.body

instance (t : Stretch) : Decidable t.BindsOnce := by
  unfold Stretch.BindsOnce
  infer_instance

/-! The `var`s of a region are those of its stretch. -/

theorem statVars_eq_nil {ss : List Script.Stat} (h : ∀ s ∈ ss, s.vars = []) :
    Script.statVars ss = [] := by
  induction ss with
  | nil => rfl
  | cons s ss ih =>
    rw [List.forall_mem_cons] at h
    rw [Script.statVars, h.1, ih h.2, List.append_nil]

theorem statVars_of_endsBlock {last : Lowering (List Script.Stat)}
    (hlast : last.EndsBlock) {ss : List Script.Stat} (h : last.Gives ss) :
    Script.statVars ss = [] := by
  refine statVars_eq_nil fun s hs => ?_
  obtain ⟨test, rfl⟩ := hlast ss h s hs
  rfl

theorem LocalLowersTo.statVars {declared names : List String}
    {values : List Script.Expr} {l : LoweredStat}
    (h : LocalLowersTo declared names values l) :
    Script.statVars (l.stats ++ l.reopened.getD []) = [] := by
  cases h with
  | again =>
    refine statVars_eq_nil (List.forall_mem_append.mpr
        ⟨fun s hs => ?_, List.forall_mem_singleton.mpr rfl⟩)
    obtain ⟨i, hi, rfl⟩ := List.getElem_of_mem hs
    rw [List.getElem_zipWith, Script.Stat.vars]
    all_goals nofun
  | new =>
    rw [Option.getD_none, List.append_nil, Script.statVars]
    refine statVars_eq_nil fun s hs => ?_
    obtain ⟨e, -, rfl⟩ := List.mem_map.mp hs
    rfl

theorem statVars_lowerLocalFunction (declared : List String) (x : String)
    (function : Script.Expr) :
    Script.statVars ((lowerLocalFunction declared x function).stats ++
      (lowerLocalFunction declared x function).reopened.getD []) = [] := by
  unfold lowerLocalFunction
  split <;> rfl

theorem statVars_followedBy (l : LoweredStat) (rest : List Script.Stat) :
    Script.statVars (l.followedBy rest) =
      Script.statVars (l.stats ++ l.reopened.getD []) ++
        Script.statVars rest := by
  unfold LoweredStat.followedBy
  split
  · next hnone => simp [hnone, Script.statVars_append]
  · next first hsome =>
      simp [hsome, Script.statVars_append, Script.statVars, Script.Stat.vars]

mutual

theorem Stat.vars_lower {s : Stat} {declared : List String} {l : LoweredStat}
    (h : (s.lower declared).Gives l) :
    Script.statVars (l.stats ++ l.reopened.getD []) = s.vars := by
  cases s.lowersTo h with
  | lets hlets =>
    cases hlets with
    | «local» _ hlocal => exact hlocal.statVars
    | localFunction => exact statVars_lowerLocalFunction _ _ _
  | one hone =>
    refine (List.append_nil _).trans ?_
    cases hone with
    | «do» hbody => exact blockVars_lower endsBlock_nil hbody
    | @member _ _ target _ _ _ hname =>
      cases target with
      | name x => exact absurd rfl (hname x)
      | _ => rfl
    | «if» _ hbody hclauses =>
      exact congrArg₂ (· ++ ·) (blockVars_lower endsBlock_nil hbody)
        (clauseVars_lower hclauses)
    | ifElse _ hbody hclauses hblock =>
      have hfirst := congrArg₂ (· ++ ·) (blockVars_lower endsBlock_nil hbody)
        (clauseVars_lower hclauses)
      exact congrArg₂ (· ++ ·) hfirst (blockVars_lower endsBlock_nil hblock)
    | forRange _ _ _ _ hbody => exact blockVars_lower endsBlock_nil hbody
    | forEach _ _ hbody => exact blockVars_lower endsBlock_nil hbody
    | «while» _ hbody => exact blockVars_lower endsBlock_nil hbody
    | «repeat» hbody => exact blockVars_lower (endsBlock_test _) hbody
    | _ => rfl

theorem blockVars_lower {declared : List String}
    {last : Lowering (List Script.Stat)} {ss : List Stat}
    {ss' : List Script.Stat} (hlast : last.EndsBlock)
    (h : (lowerStats declared last ss).Gives ss') :
    Script.statVars ss' = blockVars ss := by
  cases statsLowerTo h with
  | nil h => exact statVars_of_endsBlock hlast h
  | cons hs hss =>
    rw [statVars_followedBy, Stat.vars_lower hs, blockVars_lower hlast hss,
      blockVars]

theorem clauseVars_lower {cs : List Clause} {bs : List Script.Branch}
    (h : (lowerClauses cs).Gives bs) :
    Script.branchVars bs = clauseVars cs := by
  cases clausesLowerTo h with
  | nil => rfl
  | cons _ hbody hcs =>
    exact congrArg₂ (· ++ ·) (blockVars_lower endsBlock_nil hbody)
      (clauseVars_lower hcs)

end

theorem Stretch.Lowers.vars {t : Stretch} {r : Script.Region} (h : t.Lowers r) :
    Script.statVars r.body = blockVars t.body := by
  cases h with
  | function h => exact blockVars_lower endsBlock_nil h
  | block hhidden hlast h => exact blockVars_lower hlast h
  | reopened hvalues hlast h =>
    have hbody := blockVars_lower hlast h
    exact hbody
  | loopHead h => exact congrArg (· ++ []) (blockVars_lower endsBlock_nil h)

/-! The names of a region are those of its stretch, between names of the
script itself. -/

theorem Stat.Becomes.bound {s : Stat} {stats : List Script.Stat}
    (h : s.Becomes stats) :
    stats.flatMap Script.Stat.bound = s.locals := by
  cases h with
  | @lets names values values' h =>
    have hrest : ((values'.drop names.length).map Script.Stat.expr).flatMap
          Script.Stat.bound = [] := by
      rw [List.flatMap_map]
      exact List.flatMap_eq_nil_iff.mpr fun _ _ => rfl
    rw [List.flatMap_cons, hrest]
    exact List.append_nil _
  | member hname h =>
    next target _ _ _ _ _ =>
    cases target with
    | name x => exact absurd rfl (hname x)
    | _ => rfl
  | @quiet s t hs ht =>
    have hlocals : s.locals = [] := by
      unfold Stat.locals
      split
      · cases hs
      · cases hs
      · rfl
    have hbound : t.bound = [] := by
      cases t <;> first | rfl | cases ht
    simp [hlocals, hbound]
  | _ => rfl

structure OwnNames (hidden temps : List String) : Prop where
  hidden : hidden.Sublist hiddenNames
  temps : ∃ n k, temps.Sublist ((List.range' n k).map temporaryName)

theorem Fills.bound {ss : List Stat} {stats : List Script.Stat}
    (h : Fills ss stats) :
    ∃ temps, OwnNames [] temps ∧
      stats.flatMap Script.Stat.bound = ss.flatMap Stat.locals ++ temps := by
  induction h with
  | done h => exact ⟨_, ⟨List.nil_sublist _, h.bound⟩, rfl⟩
  | next hs _ ih =>
    obtain ⟨temps, htemps, ih⟩ := ih
    refine ⟨temps, htemps, ?_⟩
    rw [List.flatMap_append, hs.bound, ih, List.flatMap_cons, List.append_assoc]

theorem Stretch.Lowers.bound {t : Stretch} {r : Script.Region}
    (h : t.Lowers r) :
    ∃ hidden temps, OwnNames hidden temps ∧
      r.bound = hidden ++ t.bound ++ temps := by
  cases h with
  | function h =>
    obtain ⟨temps, htemps, hbound⟩ := (lowerStats_fills endsBlock_nil h).bound
    refine ⟨[], temps, htemps, ?_⟩
    rw [Script.Region.bound, hbound]
    simp [Stretch.bound, Stretch.placed]
  | @block head hidden last body body' hhidden hlast h =>
    obtain ⟨temps, htemps, hbound⟩ := (lowerStats_fills hlast h).bound
    refine ⟨hidden, temps, ⟨hhidden, htemps.temps⟩, ?_⟩
    rw [Script.Region.bound, hbound]
    simp [Stretch.bound, Stretch.placed]
  | reopened hvalues hlast h =>
    obtain ⟨temps, htemps, hbound⟩ := (lowerStats_fills hlast h).bound
    refine ⟨[], temps, htemps, ?_⟩
    rw [Script.Region.bound, List.flatMap_cons, hbound]
    simp [Stretch.bound, Stretch.placed, Script.Stat.bound]
  | loopHead h =>
    exact ⟨["$iter"], [], ⟨by decide, 0, 0, List.nil_sublist _⟩, rfl⟩

/-! A name that a block has already is not bound again by a statement
placed in it. -/

theorem redeclares_eq_false {declared names : List String} :
    redeclares declared names = false ↔ ∀ x ∈ names, x ∉ declared := by
  simp [redeclares]

theorem not_mem_declared_of_placed {declared : List String} {ss : List Stat} :
    ∀ x ∈ (placed declared ss).flatMap Stat.locals, x ∉ declared := by
  induction ss generalizing declared with
  | nil => exact List.forall_mem_nil _
  | cons s ss ih =>
    rw [placed]
    split
    · exact List.forall_mem_nil _
    · next hnew =>
      rw [List.flatMap_cons, List.forall_mem_append]
      refine ⟨redeclares_eq_false.mp (Bool.eq_false_iff.mpr hnew),
        fun x hx hdeclared => ?_⟩
      exact ih x hx (List.mem_append_right _ hdeclared)

theorem nodup_locals_placed {declared : List String} {ss : List Stat} :
    ((placed declared ss).flatMap Stat.locals).Nodup ↔
      ∀ s ∈ placed declared ss, s.locals.Nodup := by
  induction ss generalizing declared with
  | nil => simp [placed]
  | cons s ss ih =>
    rw [placed]
    split
    · simp
    · rw [List.flatMap_cons, List.nodup_append, List.forall_mem_cons, ih]
      have hapart : ∀ x ∈ s.locals, ∀ y ∈
            (placed (s.locals ++ declared) ss).flatMap Stat.locals, x ≠ y := by
        rintro x hx _ hy rfl
        exact not_mem_declared_of_placed x hy (List.mem_append_left _ hx)
      rw [and_iff_left hapart]

theorem Stretch.nodup_bound (t : Stretch) :
    t.bound.Nodup ↔ t.head.Nodup ∧ ∀ s ∈ t.placed, s.locals.Nodup := by
  have hapart : ∀ x ∈ t.head, ∀ y ∈ t.placed.flatMap Stat.locals, x ≠ y := by
    rintro x hx _ hy rfl
    exact not_mem_declared_of_placed x hy (List.mem_append_right _ hx)
  rw [Stretch.bound, List.nodup_append, Stretch.placed, nodup_locals_placed,
    ← Stretch.placed, and_iff_left hapart]

theorem Stretch.not_mem_bound_of_mem_params {t : Stretch}
    (hhead : t.params = [] ∨ t.head = []) :
    ∀ x ∈ t.params, x ∉ t.bound := by
  intro x hx hbound
  rcases hhead with hparams | hhead
  · rw [hparams] at hx
    cases hx
  · rw [Stretch.bound, hhead, List.nil_append] at hbound
    exact not_mem_declared_of_placed x hbound (List.mem_append_left _ hx)

theorem OwnNames.isOwnName_of_mem {hidden temps : List String}
    (h : OwnNames hidden temps) :
    ∀ x ∈ hidden ++ temps, isOwnName x = true := by
  obtain ⟨n, k, htemps⟩ := h.temps
  refine List.forall_mem_append.mpr ⟨fun x hx => ?_, fun x hx => ?_⟩
  · have hall : ∀ x ∈ hiddenNames, isOwnName x = true := by decide
    exact hall x (h.hidden.subset hx)
  · obtain ⟨i, -, rfl⟩ := List.mem_map.mp (htemps.subset hx)
    exact isOwnName_temporaryName i

theorem OwnNames.nodup {hidden temps : List String}
    (h : OwnNames hidden temps) :
    (hidden ++ temps).Nodup := by
  obtain ⟨n, k, htemps⟩ := h.temps
  have hhidden : hidden.Nodup := h.hidden.nodup (by decide)
  have hnumbered : temps.Nodup :=
    htemps.nodup (List.Nodup.map temporaryName_injective List.nodup_range')
  refine List.nodup_append.mpr ⟨hhidden, hnumbered, ?_⟩
  rintro x hx _ hy rfl
  obtain ⟨i, -, rfl⟩ := List.mem_map.mp (htemps.subset hy)
  -- the temporaries start in another way than the names that stand for
  -- one thing only
  have hstart : ∀ x ∈ hiddenNames, ¬"$local".toList <+: x.toList := by decide
  refine hstart _ (h.hidden.subset hx) ?_
  rw [toList_temporaryName]
  exact List.prefix_append _ _

theorem OwnNames.nodup_append_iff {hidden temps names : List String}
    (h : OwnNames hidden temps) (hnames : ∀ x ∈ names, IsIdentifier x) :
    (hidden ++ names ++ temps).Nodup ↔ names.Nodup := by
  have hperm : (hidden ++ names ++ temps).Perm (hidden ++ temps ++ names) := by
    rw [List.append_assoc, List.append_assoc]
    exact List.perm_append_comm.append_left hidden
  have hapart : ∀ x ∈ hidden ++ temps, ∀ y ∈ names, x ≠ y := by
    rintro x hx _ hy rfl
    exact absurd (h.isOwnName_of_mem x hx)
      (Bool.eq_false_iff.mp (hnames x hy).isOwnName_eq_false)
  rw [hperm.nodup_iff, List.nodup_append, and_iff_right h.nodup,
    and_iff_left hapart]

/-! The names of a sound stretch are identifiers. -/

theorem isIdentifier_of_mem_bound {t : Stretch} (h : t.Sound) :
    ∀ x ∈ t.bound, IsIdentifier x := by
  refine List.forall_mem_append.mpr ⟨h.head, fun x hx => ?_⟩
  obtain ⟨s, hs, hx⟩ := List.mem_flatMap.mp hx
  exact Stat.isIdentifier_of_mem_locals (h.sound_of_mem_placed hs).pieces x hx

mutual

theorem Stat.mem_pieces_of_mem_vars {s : Stat} {x : String} (h : x ∈ s.vars) :
    .token (.name x) ∈ s.pieces := by
  cases s with
  | «do» body =>
    have hbody := mem_blockPieces_of_mem_vars h
    simp [Stat.pieces, hbody]
  | function target isLocal params body =>
    unfold Stat.vars at h
    split at h
    · next heq =>
      cases heq
      simp_all [Stat.pieces, Expr.pieces]
    all_goals simp_all
  | «if» test body clauses otherwise =>
    cases otherwise with
    | none =>
      rw [Stat.vars, List.mem_append] at h
      rcases h with h | h
      · have hbody := mem_blockPieces_of_mem_vars h
        simp [Stat.pieces, hbody]
      · have hclauses := mem_clausePieces_of_mem_vars h
        simp [Stat.pieces, hclauses]
    | some block =>
      rw [Stat.vars, List.mem_append, List.mem_append] at h
      rcases h with (h | h) | h
      · have hbody := mem_blockPieces_of_mem_vars h
        simp [Stat.pieces, hbody]
      · have hclauses := mem_clausePieces_of_mem_vars h
        simp [Stat.pieces, hclauses]
      · have hblock := mem_blockPieces_of_mem_vars h
        simp [Stat.pieces, elsePieces, hblock]
  | forRange x start stop step body =>
    have hbody := mem_blockPieces_of_mem_vars h
    simp [Stat.pieces, hbody]
  | forEach names source body =>
    have hbody := mem_blockPieces_of_mem_vars h
    simp [Stat.pieces, hbody]
  | «while» test body =>
    have hbody := mem_blockPieces_of_mem_vars h
    simp [Stat.pieces, hbody]
  | «repeat» body test =>
    have hbody := mem_blockPieces_of_mem_vars h
    simp [Stat.pieces, hbody]
  | _ => cases h

theorem mem_blockPieces_of_mem_vars {ss : List Stat} {x : String}
    (h : x ∈ blockVars ss) :
    .token (.name x) ∈ blockPieces ss := by
  cases ss with
  | nil => cases h
  | cons s ss =>
    rw [blockVars, List.mem_append] at h
    rw [blockPieces, List.mem_append]
    exact h.imp Stat.mem_pieces_of_mem_vars mem_blockPieces_of_mem_vars

theorem mem_clausePieces_of_mem_vars {cs : List Clause} {x : String}
    (h : x ∈ clauseVars cs) :
    .token (.name x) ∈ clausePieces cs := by
  cases cs with
  | nil => cases h
  | cons c cs =>
    cases c with
    | mk test body =>
      rw [clauseVars, List.mem_append] at h
      rw [clausePieces, List.mem_append]
      refine h.imp (fun h => ?_) mem_clausePieces_of_mem_vars
      have hbody := mem_blockPieces_of_mem_vars h
      simp [Clause.pieces, hbody]

end

theorem Stretch.Lowers.params_eq {t : Stretch} {r : Script.Region}
    (h : t.Lowers r) :
    r.params = t.params ∧ (t.params = [] ∨ t.head = []) := by
  cases h with
  | function h => exact ⟨rfl, .inr rfl⟩
  | block hhidden hlast h => exact ⟨rfl, .inl rfl⟩
  | reopened hvalues hlast h => exact ⟨rfl, .inl rfl⟩
  | loopHead h => exact ⟨rfl, .inl rfl⟩

theorem Stretch.Lowers.bindsOnce_iff {t : Stretch} {r : Script.Region}
    (h : t.Lowers r) (ht : t.Sound) :
    r.BindsOnce ↔ t.BindsOnce := by
  obtain ⟨hidden, temps, hown, hbound⟩ := h.bound
  obtain ⟨hparams, hhead⟩ := h.params_eq
  have hnames := isIdentifier_of_mem_bound ht
  -- an identifier is bound in the region exactly if it is bound in the stretch
  have hmem : ∀ x, IsIdentifier x → (x ∈ r.bound ↔ x ∈ t.bound) := by
    intro x hx
    have hown : x ∉ hidden ++ temps := fun h =>
      absurd (hown.isOwnName_of_mem x h)
        (Bool.eq_false_iff.mp hx.isOwnName_eq_false)
    rw [List.mem_append, not_or] at hown
    simp [hbound, hown.1, hown.2]
  have hparams : ∀ x ∈ r.params, x ∉ r.bound := by
    intro x hx
    rw [hparams] at hx
    rw [hmem x (ht.params x hx)]
    exact t.not_mem_bound_of_mem_params hhead x hx
  have hvars : (∀ x ∈ r.bound, x ∉ Script.statVars r.body) ↔
      ∀ x ∈ t.bound, x ∉ blockVars t.body := by
    rw [h.vars]
    have hidentified : ∀ x ∈ blockVars t.body, IsIdentifier x := fun x hx =>
      ht.body x (mem_blockPieces_of_mem_vars hx)
    exact ⟨fun h x hx hvar => h x ((hmem x (hidentified x hvar)).mpr hx) hvar,
      fun h x hx hvar => h x ((hmem x (hidentified x hvar)).mp hx) hvar⟩
  rw [Script.Region.BindsOnce, hbound, hown.nodup_append_iff hnames,
    t.nodup_bound, ← hbound, and_iff_right hparams, hvars, Stretch.BindsOnce,
    and_assoc]

/-- The names of a script do not clash exactly if no statement and no head of a
loop repeats a name, and no function that is not local has the name of a
variable that its block, or a block around it in the same function, has as a
local one there. -/
theorem Chunk.bindsOnce_lower_iff {source : String} {c : Chunk}
    (h : ofSource source = .ok c) :
    c.lower.BindsOnce ↔ ∀ t ∈ c.stretches, t.BindsOnce :=
  forall_iff_of_forall₂ c.lowers fun t ht _ hlowers =>
    hlowers.bindsOnce_iff (allSound_stretches h t ht)

theorem Chunk.bindsOnce_of_shadowing :
    let source :=
      "local x = f() local x, y = x for k, v in pairs(x) do local k = v end " ++
        "function g(a) local a = x end"
    ∃ c, ofSource source = .ok c ∧ c.lower.BindsOnce := by
  intro source
  obtain ⟨c, hsource, hstretches⟩ : ∃ c, ofSource source = .ok c ∧
      decide (∀ t ∈ c.stretches, t.BindsOnce) = true :=
    exists_of_any (by decide +kernel)
  exact ⟨c, hsource,
    (bindsOnce_lower_iff hsource).mpr (of_decide_eq_true hstretches)⟩

/-- A `var` meets the `let` of a local variable of its name. -/
theorem Chunk.not_bindsOnce_of_local_named_function :
    ∃ c, ofSource "local f\nfunction f() end" = .ok c ∧ ¬c.lower.BindsOnce := by
  obtain ⟨c, hsource, hclash⟩ :
      ∃ c, ofSource "local f\nfunction f() end" = .ok c ∧
        decide (¬c.lower.BindsOnce) = true :=
    exists_of_any (by decide +kernel)
  exact ⟨c, hsource, of_decide_eq_true hclash⟩

end LuaCore
