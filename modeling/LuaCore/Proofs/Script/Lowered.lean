import LuaCore.Proofs.Script.Step

namespace LuaCore

open List (Forall₂ rel_append)

open Lowering

def hiddenNames : List String := ["$method", "$iter", "$value"]

/-- A region with the statements that those of a stretch are lowered to. -/
inductive Stretch.Lowers : Stretch → Script.Region → Prop
  | function {params : List String} {body : Block} {body' : List Script.Stat}
    (h : (lowerStats params (pure []) body).Gives body') :
    Lowers ⟨params, [], body⟩ ⟨params, [], body'⟩
  | block {head hidden : List String} {last : Lowering (List Script.Stat)}
      {body : Block} {body' : List Script.Stat}
      (hhidden : hidden.Sublist hiddenNames) (hlast : last.EndsBlock)
      (h : (lowerStats head last body).Gives body') :
      Lowers ⟨[], head, body⟩ ⟨[], hidden ++ head, body'⟩
  | reopened {names : List String} {values : List Script.Expr}
      {last : Lowering (List Script.Stat)} {body : Block}
      {body' : List Script.Stat} (hvalues : ∀ v ∈ values, v.isDeferred = true)
      (hlast : last.EndsBlock) (h : (lowerStats names last body).Gives body') :
      Lowers ⟨[], names, body⟩ ⟨[], [], .lets names values :: body'⟩
  | loopHead {names : List String} {body : Block} {body' : List Script.Stat}
    (h : (lowerStats names (pure []) body).Gives body') :
    Lowers ⟨[], [], [.do body]⟩ ⟨[], ["$iter"], [.block body']⟩

/-! What the constructs of a script that lowering chooses have as regions. -/

theorem regions_lowerUnary (op : UnaryOp) (operand : Expr)
    (lowered : Script.Expr) :
    (lowerUnary op operand lowered).regions = lowered.regions := by
  cases op with
  | length =>
    show (lowerLength operand lowered).regions = lowered.regions
    unfold lowerLength
    split <;> simp [Script.Expr.regions]
  | _ => rfl

theorem regions_lowerBinary (op : BinaryOp) (left right : Script.Expr) :
    (lowerBinary op left right).regions = left.regions ++ right.regions := by
  cases op <;> rfl

theorem regions_lowerAssign (targets values : List Script.Expr) :
    (lowerAssign targets values).regions =
      Script.exprRegions targets ++ Script.exprRegions values := by
  unfold lowerAssign
  split <;> simp [Script.Expr.regions, Script.exprRegions]

theorem regions_lowerMember (access : Access) (object key : Script.Expr) :
    (lowerMember access object key).regions =
      object.regions ++ key.regions := by
  cases access <;> rfl

theorem regions_methodKey {key : Expr} {key' : Script.Expr}
    (h : key.lower.Gives key') :
    (methodKey key key').regions = key'.regions := by
  cases key.lowersTo h <;> rfl

theorem regions_temporaries (values : List Script.Expr) (n : Nat) :
    Script.statRegions
        (((List.range' n values.length).map temporaryName).zipWith .const
          values) = Script.exprRegions values := by
  induction values generalizing n with
  | nil => rfl
  | cons v vs ih =>
    rw [List.length_cons, List.range'_succ, List.map_cons,
      List.zipWith_cons_cons, Script.statRegions, ih, Script.exprRegions,
      Script.Stat.regions]

theorem regions_temporaryNames (names : List String) (temps : List String) :
    Script.bindingRegions names (temps.map .name) = [] := by
  induction names generalizing temps with
  | nil => simp [Script.bindingRegions]
  | cons x names ih =>
    cases temps with
    | nil => rfl
    | cons t temps => simp [Script.bindingRegions, Script.Expr.regions, ih]

/-- The values of a `local` stand in the region that it is in, each of them
once. -/
theorem LocalLowersTo.regions {declared names : List String}
    {values : List Script.Expr} {l : LoweredStat}
    (h : LocalLowersTo declared names values l) :
    Script.statRegions (l.stats ++ l.reopened.getD []) =
      Script.exprRegions values := by
  cases h with
  | again _ n =>
    rw [Option.getD_some, Script.statRegions_append, regions_temporaries,
      Script.statRegions, Script.Stat.regions, regions_temporaryNames]
    exact List.append_nil _
  | new =>
    rw [Option.getD_none, List.append_nil, Script.statRegions,
      Script.statRegions_expr, Script.Stat.regions, Script.bindingRegions_eq,
      ← Script.exprRegions_append, List.take_append_drop]

theorem regions_lowerLocalFunction (declared : List String) (x : String)
    (function : Script.Expr) :
    Script.statRegions ((lowerLocalFunction declared x function).stats ++
          (lowerLocalFunction declared x function).reopened.getD []) =
      function.regions := by
  unfold lowerLocalFunction
  split <;>
    simp [Script.statRegions, Script.Stat.regions, Script.bindingRegions]

theorem Stretch.Lowers.plainBlock {head : List String} {body : Block}
    {body' : List Script.Stat}
    (h : (lowerStats head (pure []) body).Gives body') :
    Stretch.Lowers ⟨[], head, body⟩ ⟨[], head, body'⟩ :=
  .block (List.nil_sublist _) endsBlock_nil h

theorem gives_do {declared : List String} {body : Block}
    {body' : List Script.Stat}
    (h : (lowerStats [] (pure []) body).Gives body') :
    (lowerStats declared (pure []) [.do body]).Gives [.block body'] := by
  obtain ⟨n, rfl⟩ := h
  refine ⟨n, ?_⟩
  simp only [lowerStats, Stat.lower]
  rfl

theorem noneAfter (ts : List Script.Stat)
    (h : (pure [] : Lowering (List Script.Stat)).Gives ts) :
    Forall₂ Stretch.Lowers [] (Script.statRegions ts) := by
  cases gives_pure h
  exact .nil

/-- A block closes after the regions inside it. -/
theorem regionLowers {head : List String} {body : Block}
    {body' : List Script.Stat}
    (h : (lowerStats head (pure []) body).Gives body')
    (hinside : Forall₂ Stretch.Lowers (blockStretches head [] body)
      (Script.statRegions body')) :
    Forall₂ Stretch.Lowers (blockStretches head [] body ++ [⟨[], head, body⟩])
      (Script.statRegions body' ++ [⟨[], head, body'⟩]) :=
  rel_append hinside (.cons (.plainBlock h) .nil)

theorem functionLowers {params : List String} {body : Block}
    {body' : List Script.Stat}
    (h : (lowerStats params (pure []) body).Gives body')
    (hinside : Forall₂ Stretch.Lowers (blockStretches params [] body)
      (Script.statRegions body')) :
    Forall₂ Stretch.Lowers
      (blockStretches params [] body ++ [⟨params, [], body⟩])
      (Script.statRegions body' ++ [⟨params, [], body'⟩]) :=
  rel_append hinside (.cons (.function h) .nil)

mutual

theorem Expr.lowers {e : Expr} {e' : Script.Expr} (h : e.lower.Gives e') :
    Forall₂ Stretch.Lowers e.stretches e'.regions := by
  cases e.lowersTo h with
  | @unary op operand _ hoperand =>
    rw [regions_lowerUnary]
    exact operand.lowers hoperand
  | binary op hleft hright =>
    rw [regions_lowerBinary]
    exact rel_append (Expr.lowers hleft) (Expr.lowers hright)
  | call _ hcallee hargs =>
    exact rel_append (Expr.lowers hcallee) (exprsLower hargs)
  | @callMethod object key args object' key' args' hobject hkey hargs =>
    have hregions : (Script.Expr.call (.name "$method")
          (object' :: methodKey key key' :: args')).regions =
        object'.regions ++ key'.regions ++ Script.exprRegions args' := by
      simp [Script.Expr.regions, Script.exprRegions, regions_methodKey hkey]
    rw [hregions]
    exact rel_append (rel_append (Expr.lowers hobject) (Expr.lowers hkey))
      (exprsLower hargs)
  | member access hobject hkey =>
    rw [regions_lowerMember]
    exact rel_append (Expr.lowers hobject) (Expr.lowers hkey)
  | assign htargets hvalues =>
    rw [Script.Expr.regions, regions_lowerAssign]
    exact rel_append (exprsLower htargets) (exprsLower hvalues)
  | table hfields => exact fieldsLower hfields
  | function params hbody =>
    exact functionLowers hbody (blockLowers endsBlock_nil noneAfter hbody)
  | _ => exact .nil

theorem exprsLower {es : List Expr} {es' : List Script.Expr}
    (h : (lowerExprs es).Gives es') :
    Forall₂ Stretch.Lowers (exprStretches es) (Script.exprRegions es') := by
  cases exprsLowerTo h with
  | nil => exact .nil
  | cons he hes => exact rel_append (Expr.lowers he) (exprsLower hes)

theorem fieldsLower {position : Nat} {fs : List Field}
    {ps : List Script.Property} (h : (lowerFields position fs).Gives ps) :
    Forall₂ Stretch.Lowers (fieldStretches fs) (Script.propertyRegions ps) := by
  cases fieldsLowerTo h with
  | nil => exact .nil
  | named key hvalue hfs =>
    exact rel_append (Expr.lowers hvalue) (fieldsLower hfs)
  | keyed hkey hvalue hfs =>
    exact rel_append (rel_append (Expr.lowers hkey) (Expr.lowers hvalue))
      (fieldsLower hfs)
  | item hvalue hfs => exact rel_append (Expr.lowers hvalue) (fieldsLower hfs)

theorem Stat.lowers {s : Stat} {declared : List String} {l : LoweredStat}
    (h : (s.lower declared).Gives l) :
    Forall₂ Stretch.Lowers s.stretches
      (Script.statRegions (l.stats ++ l.reopened.getD [])) := by
  cases s.lowersTo h with
  | lets hlets =>
    cases hlets with
    | «local» hvalues hlocal =>
      rw [hlocal.regions]
      exact exprsLower hvalues
    | localFunction x params hbody =>
      rw [regions_lowerLocalFunction]
      exact functionLowers hbody (blockLowers endsBlock_nil noneAfter hbody)
  | @one t hone =>
    suffices hregions : Forall₂ Stretch.Lowers s.stretches t.regions by
      simpa [LoweredStat.plain, Script.statRegions] using hregions
    cases hone with
    | «do» hbody =>
      exact regionLowers hbody (blockLowers endsBlock_nil noneAfter hbody)
    | «break» => exact .nil
    | «return» hvalues => exact exprsLower hvalues
    | assign htargets hvalues =>
      rw [Script.Stat.regions, regions_lowerAssign]
      exact rel_append (exprsLower htargets) (exprsLower hvalues)
    | expr _ he => exact Expr.lowers he
    | var x params hbody =>
      exact functionLowers hbody (blockLowers endsBlock_nil noneAfter hbody)
    | member isLocal params _ htarget hbody =>
      exact rel_append (Expr.lowers htarget)
        (functionLowers hbody (blockLowers endsBlock_nil noneAfter hbody))
    | nameless isLocal params hbody =>
      exact functionLowers hbody (blockLowers endsBlock_nil noneAfter hbody)
    | «if» htest hbody hclauses =>
      have hregion :=
        regionLowers hbody (blockLowers endsBlock_nil noneAfter hbody)
      simpa [Stat.stretches, Script.Stat.regions] using rel_append
          (rel_append (Expr.lowers htest) hregion) (clausesLower hclauses)
    | ifElse htest hbody hclauses hblock =>
      have hregion :=
        regionLowers hbody (blockLowers endsBlock_nil noneAfter hbody)
      have hlast :=
        regionLowers hblock (blockLowers endsBlock_nil noneAfter hblock)
      have hbranches := rel_append (rel_append (Expr.lowers htest) hregion)
        (clausesLower hclauses)
      simpa [Stat.stretches, Script.Stat.regions] using
        rel_append hbranches hlast
    | forRange x hstart hstop hstep hbody =>
      have hbounds :=
        rel_append (rel_append (Expr.lowers hstart) (Expr.lowers hstop))
          (Expr.lowers hstep)
      have hregion :=
        regionLowers hbody (blockLowers endsBlock_nil noneAfter hbody)
      have hhead : Stretch.Lowers ⟨[], [x], [.do _]⟩ ⟨[], [x], [.block _]⟩ :=
        .plainBlock (gives_do hbody)
      simpa [Stat.stretches, Script.Stat.regions] using
        rel_append (rel_append hbounds hregion) (.cons hhead .nil)
    | forEach names hsource hbody =>
      have hinside := rel_append (Expr.lowers hsource)
        (blockLowers endsBlock_nil noneAfter hbody)
      have hhidden : ["$value"].Sublist hiddenNames := by decide
      have hloop : Stretch.Lowers ⟨[], names, _⟩ ⟨[], "$value" :: names, _⟩ :=
        .block hhidden endsBlock_nil hbody
      exact rel_append hinside (.cons hloop (.cons (.loopHead hbody) .nil))
    | «while» htest hbody =>
      have hregion :=
        regionLowers hbody (blockLowers endsBlock_nil noneAfter hbody)
      simpa [Stat.stretches, Script.Stat.regions]
        using rel_append (Expr.lowers htest) hregion
    | @«repeat» body test _ hbody =>
      have hends := endsBlock_test test
      have hlast : ∀ ts,
          (do return [.breakIf (← test.lower)] :
            Lowering (List Script.Stat)).Gives ts →
          Forall₂ Stretch.Lowers test.stretches (Script.statRegions ts) := by
        intro ts hts
        obtain ⟨test', htest, rfl⟩ := breakIf_of_gives hts
        simpa [Script.statRegions, Script.Stat.regions] using Expr.lowers htest
      exact rel_append (blockLowers hends hlast hbody)
        (.cons (.block (List.nil_sublist _) hends hbody) .nil)

theorem blockLowers {declared : List String}
    {last : Lowering (List Script.Stat)} {tail : List Stretch} {ss : List Stat}
    {ss' : List Script.Stat} (hends : last.EndsBlock)
    (htail : ∀ ts, last.Gives ts →
      Forall₂ Stretch.Lowers tail (Script.statRegions ts))
    (h : (lowerStats declared last ss).Gives ss') :
    Forall₂ Stretch.Lowers (blockStretches declared tail ss)
      (Script.statRegions ss') := by
  cases statsLowerTo h with
  | nil h => exact htail _ h
  | @cons s ss l rest hl hrest =>
    have hs := s.lowers hl
    have hinside := blockLowers hends htail hrest
    have hgoes := s.lower_goes hl
    unfold LoweredStat.Goes at hgoes
    rw [blockStretches]
    split at hgoes
    · next hagain =>
      obtain ⟨values, hreopened, hvalues⟩ := hgoes.reopened
      rw [hgoes.declared] at hinside hrest
      have hopened : Stretch.Lowers ⟨[], s.locals, ss⟩
          ⟨[], [], .lets s.locals values :: rest⟩ :=
        .reopened hvalues hends hrest
      rw [if_pos hagain]
      rw [hreopened] at hs
      simpa [LoweredStat.followedBy, hreopened, Script.statRegions_append,
        Script.statRegions, Script.Stat.regions]
        using rel_append (rel_append hs hinside) (.cons hopened .nil)
    · next hnew =>
      rw [hgoes.declared] at hinside
      rw [hgoes.reopened] at hs
      rw [if_neg hnew]
      simpa [LoweredStat.followedBy, hgoes.reopened, Script.statRegions_append]
        using rel_append hs hinside

theorem clausesLower {cs : List Clause} {bs : List Script.Branch}
    (h : (lowerClauses cs).Gives bs) :
    Forall₂ Stretch.Lowers (clauseStretches cs) (Script.branchRegions bs) := by
  cases clausesLowerTo h with
  | nil => exact .nil
  | cons htest hbody hcs =>
    have hregion :=
      regionLowers hbody (blockLowers endsBlock_nil noneAfter hbody)
    have hbranch := rel_append (Expr.lowers htest) hregion
    simpa [clauseStretches, Clause.stretches, Script.branchRegions,
      Script.Branch.regions] using rel_append hbranch (clausesLower hcs)

end

/-- The regions of a script are the stretches of its program, lowered. -/
theorem Chunk.lowers (c : Chunk) :
    Forall₂ Stretch.Lowers c.stretches c.lower.regions := by
  have hbody : (lowerStats preludeNames (pure []) c.body).Gives c.lower.body :=
    gives_run _ 0
  have hhidden : ["$method"].Sublist hiddenNames := by decide
  have htop : Stretch.Lowers ⟨[], preludeNames, c.body⟩
      ⟨[], Script.preludeBound, c.lower.body⟩ :=
    .block hhidden endsBlock_nil hbody
  exact rel_append (blockLowers endsBlock_nil noneAfter hbody) (.cons htop .nil)

end LuaCore
