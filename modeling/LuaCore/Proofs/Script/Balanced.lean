import LuaCore.Proofs.Script.Bracket
import LuaCore.Proofs.Script.Written
import LuaCore.Tree.Node

namespace LuaCore

open Lowering

namespace Script

def Expr.Balanced (e : Expr) : Prop := ∀ depth, IsBalanced (e.text depth)

def Property.Balanced (p : Property) : Prop :=
  ∀ depth, IsBalanced (p.text depth)

def Stat.Balanced (s : Stat) : Prop := ∀ depth, IsBalanced (s.text depth)

/-- A branch ends the block before it and opens its own. -/
def Branch.Balanced (b : Branch) : Prop :=
  ∀ depth, Shifts ['\x7d'] (b.text depth) ['\x7d']

section Lists

variable {es : List Expr} {ps : List Property} {ss : List Stat}
    {bs : List Branch}

theorem balanced_exprTexts (h : ∀ e ∈ es, e.Balanced) (depth : Nat) :
    ∀ text ∈ exprTexts depth es, IsBalanced text := by
  rw [exprTexts_eq_map]
  exact List.forall_mem_map.mpr fun e he => h e he depth

theorem balanced_propertyTexts (h : ∀ p ∈ ps, p.Balanced) (depth : Nat) :
    ∀ text ∈ propertyTexts depth ps, IsBalanced text := by
  induction ps with
  | nil => exact List.forall_mem_nil _
  | cons p ps ih =>
    rw [List.forall_mem_cons] at h
    exact List.forall_mem_cons.mpr ⟨h.1 depth, ih h.2⟩

theorem balanced_statTexts (h : ∀ s ∈ ss, s.Balanced) (depth : Nat) :
    IsBalanced (statTexts depth ss) := by
  induction ss with
  | nil => rfl
  | cons s ss ih =>
    rw [List.forall_mem_cons] at h
    exact (h.1 depth).append (ih h.2)

theorem shifts_branchTexts (h : ∀ b ∈ bs, b.Balanced) (depth : Nat) :
    Shifts ['\x7d'] (branchTexts depth bs) ['\x7d'] := by
  induction bs with
  | nil => rfl
  | cons b bs ih =>
    rw [List.forall_mem_cons] at h
    exact (h.1 depth).append (ih h.2)

theorem balanced_bindings {names values : List String}
    (hnames : ∀ x ∈ names, IsPlain x)
    (hvalues : ∀ value ∈ values, IsBalanced value) :
    ∀ text ∈ bindings names values, IsBalanced text := by
  induction names generalizing values with
  | nil => exact List.forall_mem_nil _
  | cons x names ih =>
    rw [List.forall_mem_cons] at hnames
    cases values with
    | nil =>
      exact List.forall_mem_cons.mpr ⟨hnames.1.isBalanced, ih hnames.2 hvalues⟩
    | cons value values =>
      rw [List.forall_mem_cons] at hvalues
      refine List.forall_mem_cons.mpr ⟨?_, ih hnames.2 hvalues.2⟩
      exact (hnames.1.isBalanced.append (by decide)).append hvalues.1

theorem isPlain_repr (n : Nat) : IsPlain (toString n) := by
  intro c hc
  rw [Nat.toString_eq_repr, Nat.toList_repr] at hc
  exact not_mem_marks_of_mem_toDigits hc

theorem balanced_stepBindings {names : List String}
    (h : ∀ x ∈ names, IsPlain x) :
    ∀ text ∈ stepBindings names, IsBalanced text := by
  refine balanced_bindings h (List.forall_mem_map.mpr fun i _ => ?_)
  have hopen : Shifts [] "$value[" [']'] := rfl
  exact (isPlain_repr i).isBalanced.between hopen rfl

theorem shifts_braced {head body : String} {depth : Nat}
    (hhead : Shifts [] head ['\x7d']) (hbody : IsBalanced body) :
    Shifts [] (line depth head ++ body ++ line depth "\x7d") [] :=
  .append (.append hhead.line (hbody.inside _)) (.line rfl)

end Lists

section Rules

variable {e e' : Expr} {x : String} {es es' : List Expr}
    {params names : List String} {body : List Stat}

theorem balanced_name (h : IsPlain x) : (Expr.name x).Balanced :=
  fun _ => h.isBalanced

theorem balanced_string (text : String) : (Expr.string text).Balanced :=
  fun _ => isBalanced_quote text

theorem Expr.Balanced.group (h : e.Balanced) : (Expr.group e).Balanced :=
  fun depth => (h depth).between rfl rfl

theorem Expr.Balanced.negate (h : e.Balanced) : (Expr.negate e).Balanced :=
  fun depth => (h depth).between rfl rfl

theorem Expr.Balanced.complement (h : e.Balanced) :
    (Expr.complement e).Balanced :=
  fun depth => (h depth).between rfl rfl

theorem isPlain_operatorText (op : BinaryOp) : IsPlain (operatorText op) := by
  cases op <;> decide

theorem Expr.Balanced.binary (h : e.Balanced) (h' : e'.Balanced)
    (op : BinaryOp) :
    (Expr.binary op e e').Balanced := by
  intro depth
  rw [IsBalanced, Expr.text]
  have hop := (isPlain_operatorText op).isBalanced
  exact .append
    (.append (.append (.append (.append (.append rfl ((h depth).inside _)) rfl)
          (hop.inside _)) rfl) ((h' depth).inside _)) rfl

theorem Expr.Balanced.join (h : e.Balanced) (h' : e'.Balanced) :
    (Expr.join e e').Balanced := by
  intro depth
  rw [IsBalanced, Expr.text]
  exact .append (.append (.append (.append rfl ((h depth).inside _)) rfl)
      ((h' depth).inside _)) rfl

theorem Expr.Balanced.call (h : e.Balanced) (hargs : ∀ a ∈ es, a.Balanced) :
    (Expr.call e es).Balanced := by
  intro depth
  rw [IsBalanced, Expr.text]
  have hinside := isBalanced_commaSeparated (balanced_exprTexts hargs depth)
  exact .append (.append (.append (h depth) rfl) (hinside.inside _)) rfl

theorem Expr.Balanced.member (h : e.Balanced) (h' : e'.Balanced) :
    (Expr.member e e').Balanced := by
  intro depth
  rw [IsBalanced, Expr.text]
  exact .append (.append (h depth) rfl) (h' depth)

theorem Expr.Balanced.index (h : e.Balanced) (h' : e'.Balanced) :
    (Expr.index e e').Balanced := by
  intro depth
  rw [IsBalanced, Expr.text]
  exact .append (.append (.append (h depth) rfl) ((h' depth).inside _)) rfl

theorem Expr.Balanced.assign (h : e.Balanced) (h' : e'.Balanced) :
    (Expr.assign e e').Balanced := by
  intro depth
  rw [IsBalanced, Expr.text]
  exact .append (.append (h depth) rfl) (h' depth)

theorem balanced_assignAll (h : ∀ a ∈ es, a.Balanced)
    (h' : ∀ a ∈ es', a.Balanced) :
    (Expr.assignAll es es').Balanced := by
  intro depth
  rw [IsBalanced, Expr.text]
  have htargets := isBalanced_commaSeparated (balanced_exprTexts h depth)
  have hvalues := isBalanced_commaSeparated (balanced_exprTexts h' depth)
  exact .append (.append (.append (.append rfl (htargets.inside _)) rfl)
      (hvalues.inside _)) rfl

theorem balanced_object {ps : List Property} (h : ∀ p ∈ ps, p.Balanced) :
    (Expr.object ps).Balanced :=
  fun depth =>
    (isBalanced_commaSeparated (balanced_propertyTexts h depth)).between rfl rfl

theorem Expr.Balanced.named (h : e.Balanced) (key : String) :
    (Property.named key e).Balanced := by
  intro depth
  rw [IsBalanced, Property.text]
  exact .append (.append (isBalanced_quote key) rfl) (h depth)

theorem Expr.Balanced.computed (h : e.Balanced) (h' : e'.Balanced) :
    (Property.computed e e').Balanced := by
  intro depth
  rw [IsBalanced, Property.text]
  exact .append (.append (.append rfl ((h depth).inside _)) rfl) (h' depth)

theorem balanced_function (hparams : ∀ x ∈ params, IsPlain x)
    (hbody : ∀ s ∈ body, s.Balanced) :
    (Expr.function params body).Balanced := by
  intro depth
  rw [IsBalanced, Expr.text]
  have hnames := isBalanced_commaSeparated fun x hx => (hparams x hx).isBalanced
  have hinside := balanced_statTexts hbody (depth + 1)
  exact .append (.append (.append (.append (.append rfl (hnames.inside _)) rfl)
        (hinside.inside _)) ((isBalanced_pad depth).inside _)) rfl

theorem Expr.Balanced.expr (h : e.Balanced) : (Stat.expr e).Balanced := by
  intro depth
  rw [IsBalanced, Stat.text]
  exact .line (.append (h depth) rfl)

theorem balanced_lets (hnames : ∀ x ∈ names, IsPlain x)
    (h : ∀ e ∈ es, e.Balanced) :
    (Stat.lets names es).Balanced := by
  intro depth
  rw [IsBalanced, Stat.text]
  have hinside := isBalanced_commaSeparated
    (balanced_bindings hnames (balanced_exprTexts h depth))
  exact .line (.append (.append rfl (hinside.inside _)) rfl)

theorem Expr.Balanced.bound (h : e.Balanced) (hx : IsPlain x) {word : String}
    (hword : IsBalanced word) (depth : Nat) :
    IsBalanced (line depth (word ++ x ++ " = " ++ e.text depth ++ ";")) :=
  .line
    (.append (.append (.append (.append hword (hx.isBalanced.inside _)) rfl)
        ((h depth).inside _)) rfl)

theorem Expr.Balanced.const (h : e.Balanced) (hx : IsPlain x) :
    (Stat.const x e).Balanced := by
  intro depth
  rw [Stat.text]
  exact h.bound hx (rfl : IsBalanced "const ") depth

theorem Expr.Balanced.var (h : e.Balanced) (hx : IsPlain x) :
    (Stat.var x e).Balanced := by
  intro depth
  rw [Stat.text]
  exact h.bound hx (rfl : IsBalanced "var ") depth

theorem balanced_return (h : ∀ e ∈ es, e.Balanced) :
    (Stat.return es).Balanced := by
  intro depth
  have htexts := balanced_exprTexts h depth
  rw [IsBalanced, text_return]
  unfold Writer.returnText
  split
  · exact .line rfl
  · next heq =>
      exact .line
        (.append (.append rfl ((htexts _ (by simp [heq])).inside _)) rfl)
  · exact .line
      (.append (.append rfl ((isBalanced_commaSeparated htexts).inside _)) rfl)

theorem balanced_break : Stat.break.Balanced := by
  intro depth
  rw [IsBalanced, Stat.text]
  exact .line rfl

theorem Expr.Balanced.breakIf (h : e.Balanced) : (Stat.breakIf e).Balanced := by
  intro depth
  rw [IsBalanced, Stat.text]
  exact .line (.append (.append rfl ((h depth).inside _)) rfl)

theorem balanced_block (h : ∀ s ∈ body, s.Balanced) :
    (Stat.block body).Balanced := by
  intro depth
  rw [IsBalanced, Stat.text]
  exact shifts_braced rfl (balanced_statTexts h _)

theorem Expr.Balanced.branch (h : e.Balanced) (hbody : ∀ s ∈ body, s.Balanced) :
    (Branch.mk e body).Balanced := by
  intro depth
  rw [Branch.text]
  exact .append (.line (.append (.append rfl ((h depth).inside _)) rfl))
    ((balanced_statTexts hbody _).inside _)

theorem Expr.Balanced.if (h : e.Balanced) (hbody : ∀ s ∈ body, s.Balanced)
    {bs : List Branch} (hbranches : ∀ b ∈ bs, b.Balanced)
    {otherwise : Option (List Stat)}
    (hotherwise : ∀ s ∈ otherwise.getD [], s.Balanced) :
    (Stat.if e body bs otherwise).Balanced := by
  intro depth
  have hfirst : Shifts [] (line depth ("if (" ++ e.text depth ++ ") \x7b") ++
        statTexts (depth + 1) body ++ branchTexts depth bs) ['\x7d'] :=
    .append (.append (.line (.append (.append rfl ((h depth).inside _)) rfl))
        ((balanced_statTexts hbody _).inside _))
      (shifts_branchTexts hbranches depth)
  unfold IsBalanced Stat.text
  refine Shifts.append (b := ['\x7d']) (.append hfirst ?_) (.line rfl)
  cases otherwise with
  | none => rfl
  | some block =>
    exact .append (.line rfl) ((balanced_statTexts hotherwise _).inside _)

theorem balanced_forRange {start stop step : Expr} (hx : IsPlain x)
    (hstart : start.Balanced) (hstop : stop.Balanced) (hstep : step.Balanced)
    (hbody : ∀ s ∈ body, s.Balanced) :
    (Stat.forRange x start stop step body).Balanced := by
  intro depth
  have hname := hx.isBalanced.inside [')']
  have hinit :
      Shifts [] ("for (let " ++ x ++ " = " ++ start.text depth ++ "; ") [')'] :=
    .append
      (.append (.append (.append rfl hname) rfl) ((hstart depth).inside _)) rfl
  have htest : Shifts [] ("for (let " ++ x ++ " = " ++ start.text depth ++
        "; " ++ x ++ " < " ++ stop.text depth ++ "; ") [')'] :=
    .append
      (.append (.append (.append hinit hname) rfl) ((hstop depth).inside _)) rfl
  rw [IsBalanced, Stat.text]
  refine shifts_braced ?_ (balanced_statTexts hbody _)
  exact .append
    (.append (.append (.append htest hname) rfl) ((hstep depth).inside _)) rfl

theorem balanced_forEach (hnames : ∀ x ∈ names, IsPlain x) (h : e.Balanced)
    (hbody : ∀ s ∈ body, s.Balanced) :
    (Stat.forEach names e body).Balanced := by
  intro depth
  have hbindings := isBalanced_commaSeparated (balanced_stepBindings hnames)
  have hhead : Shifts [] (line depth
        ("for (const $iter = " ++ e.text depth ++ ";;) \x7b")) ['\x7d'] :=
    .line (.append (.append rfl ((h depth).inside _)) rfl)
  have hlets : Shifts ['\x7d'] (line (depth + 1)
        ("let " ++ commaSeparated (stepBindings names) ++ ";")) ['\x7d'] :=
    .line (.append (.append rfl (hbindings.inside _)) rfl)
  rw [IsBalanced, Stat.text]
  exact .append
    (.append (.append (.append (.append hhead (.line rfl)) (.line rfl)) hlets)
      ((balanced_statTexts hbody _).inside _)) (.line rfl)

theorem Expr.Balanced.while (h : e.Balanced) (hbody : ∀ s ∈ body, s.Balanced) :
    (Stat.while e body).Balanced := by
  intro depth
  rw [IsBalanced, Stat.text]
  exact shifts_braced (.append (.append rfl ((h depth).inside _)) rfl)
    (balanced_statTexts hbody _)

theorem balanced_forever (hbody : ∀ s ∈ body, s.Balanced) :
    (Stat.forever body).Balanced := by
  intro depth
  rw [IsBalanced, Stat.text]
  exact shifts_braced rfl (balanced_statTexts hbody _)

end Rules

end Script

open Script

/-- No name among the nodes has brackets or quotes. -/
def PlainNames (ns : List Node) : Prop := ∀ x, .name x ∈ ns → IsPlain x

section PlainNames

variable {n : Node} {ns ms : List Node}

@[simp] theorem plainNames_nil : PlainNames [] := nofun

@[simp] theorem plainNames_cons :
    PlainNames (n :: ns) ↔ (∀ x, n = .name x → IsPlain x) ∧ PlainNames ns := by
  simp [PlainNames, or_imp, forall_and, eq_comm]

@[simp] theorem plainNames_append :
    PlainNames (ns ++ ms) ↔ PlainNames ns ∧ PlainNames ms := by
  simp [PlainNames, or_imp, forall_and]

@[simp] theorem plainNames_nameNodes {xs : List String} :
    PlainNames (nameNodes xs) ↔ ∀ x ∈ xs, IsPlain x := by
  simp [PlainNames, nameNodes]

end PlainNames

section Lowered

variable {e e' : Script.Expr} {es es' : List Script.Expr}

theorem balanced_lowerUnary (h : e.Balanced) (op : UnaryOp) (operand : Expr) :
    (lowerUnary op operand e).Balanced := by
  have hlength : (Script.Expr.name "length").Balanced :=
    balanced_name (by decide)
  cases op with
  | neg => exact h.negate
  | not => exact h.complement
  | length =>
    show (lowerLength operand e).Balanced
    unfold lowerLength
    split
    · exact h.group.member hlength
    · exact h.member hlength

theorem balanced_lowerBinary (h : e.Balanced) (h' : e'.Balanced)
    (op : BinaryOp) :
    (lowerBinary op e e').Balanced := by
  cases op with
  | concat => exact h.join h'
  | _ => exact h.binary h' _

theorem balanced_lowerMember (h : e.Balanced) (h' : e'.Balanced)
    (access : Access) :
    (lowerMember access e e').Balanced := by
  cases access with
  | bracket => exact h.index h'
  | _ => exact h.member h'

theorem balanced_lowerAssign (h : ∀ a ∈ es, a.Balanced)
    (h' : ∀ a ∈ es', a.Balanced) :
    (lowerAssign es es').Balanced := by
  unfold lowerAssign
  split
  · exact (h _ List.mem_cons_self).assign (h' _ List.mem_cons_self)
  · exact balanced_assignAll h h'

theorem balanced_methodKey (h : e.Balanced) (key : Expr) :
    (methodKey key e).Balanced := by
  cases key with
  | name x => exact balanced_string x
  | _ => exact h

theorem isPlain_temporaryName (i : Nat) : IsPlain (temporaryName i) := by
  intro c hc
  rw [toList_temporaryName, List.mem_append] at hc
  rcases hc with hc | hc
  · exact (by decide : IsPlain "$local") c hc
  · exact not_mem_marks_of_mem_toDigits hc

/-- The statements that a statement becomes are balanced, in the block that is
open and in one that it opens. -/
def LoweredStat.Balanced (l : LoweredStat) : Prop :=
  ∀ s ∈ l.stats ++ l.reopened.getD [], s.Balanced

theorem LoweredStat.Balanced.followedBy {l : LoweredStat} (h : l.Balanced)
    {rest : List Script.Stat} (hrest : ∀ s ∈ rest, s.Balanced) :
    ∀ s ∈ l.followedBy rest, s.Balanced := by
  obtain ⟨stats, reopened, declared⟩ := l
  rw [LoweredStat.Balanced, List.forall_mem_append] at h
  cases reopened with
  | none => exact List.forall_mem_append.mpr ⟨h.1, hrest⟩
  | some first =>
    have hblock := balanced_block (List.forall_mem_append.mpr ⟨h.2, hrest⟩)
    exact List.forall_mem_append.mpr ⟨h.1, List.forall_mem_singleton.mpr hblock⟩

theorem LocalLowersTo.balanced {declared names : List String} {l : LoweredStat}
    (h : LocalLowersTo declared names es l) (hnames : ∀ x ∈ names, IsPlain x)
    (hes : ∀ a ∈ es, a.Balanced) :
    l.Balanced := by
  cases h with
  | again _ n =>
    have htemp : ∀ x ∈ (List.range' n es.length).map temporaryName, IsPlain x :=
      List.forall_mem_map.mpr fun i _ => isPlain_temporaryName i
    have hnamed :=
      List.forall_mem_map.mpr fun x hx => balanced_name (htemp x hx)
    refine List.forall_mem_append.mpr ⟨fun s hs => ?_,
        List.forall_mem_singleton.mpr (balanced_lets hnames hnamed)⟩
    obtain ⟨i, hi, rfl⟩ := List.getElem_of_mem hs
    rw [List.getElem_zipWith]
    exact (hes _ (List.getElem_mem _)).const (htemp _ (List.getElem_mem _))
  | new =>
    have hrest :
        ∀ s ∈ (es.drop names.length).map Script.Stat.expr, s.Balanced :=
      List.forall_mem_map.mpr fun a ha => (hes a (List.mem_of_mem_drop ha)).expr
    exact List.forall_mem_append.mpr
      ⟨List.forall_mem_cons.mpr ⟨balanced_lets hnames hes, hrest⟩,
        List.forall_mem_nil _⟩

theorem balanced_lowerLocalFunction {x : String} (hx : IsPlain x)
    (h : e.Balanced) (declared : List String) :
    (lowerLocalFunction declared x e).Balanced := by
  have hlets := balanced_lets (List.forall_mem_singleton.mpr hx)
    (List.forall_mem_singleton.mpr h)
  unfold lowerLocalFunction
  split <;> exact List.forall_mem_singleton.mpr hlets

theorem noneBalanced (ts : List Script.Stat)
    (h : (pure [] : Lowering (List Script.Stat)).Gives ts) :
    ∀ t ∈ ts, t.Balanced := by
  cases gives_pure h
  exact List.forall_mem_nil _

end Lowered

mutual

theorem Expr.balanced_lower {e : Expr} {e' : Script.Expr}
    (hnames : PlainNames e.nodes) (h : e.lower.Gives e') :
    e'.Balanced := by
  cases e.lowersTo h with
  | name x => exact balanced_name (hnames x List.mem_cons_self)
  | nil => exact fun _ => (rfl : IsBalanced "undefined")
  | bool b => exact fun _ => (by cases b <;> rfl : IsBalanced (toString b))
  | number x => exact fun _ => (isPlain_numberText x).isBalanced
  | string text => exact balanced_string text
  | @unary op operand _ hoperand =>
    rw [Expr.nodes, plainNames_append] at hnames
    exact balanced_lowerUnary
      (operand.balanced_lower hnames.1 hoperand) op operand
  | binary op hleft hright =>
    simp only [Expr.nodes, plainNames_append] at hnames
    exact balanced_lowerBinary (Expr.balanced_lower hnames.1.1 hleft)
      (Expr.balanced_lower hnames.1.2 hright) op
  | call _ hcallee hargs =>
    simp only [Expr.nodes, plainNames_append] at hnames
    exact (Expr.balanced_lower hnames.1.1 hcallee).call
      (exprsBalanced hnames.1.2 hargs)
  | callMethod hobject hkey hargs =>
    simp only [Expr.nodes, plainNames_append] at hnames
    have hmethod : (Script.Expr.name "$method").Balanced :=
      balanced_name (by decide)
    refine hmethod.call (List.forall_mem_cons.mpr
        ⟨Expr.balanced_lower hnames.1.1.1.1 hobject, ?_⟩)
    exact List.forall_mem_cons.mpr
      ⟨balanced_methodKey (Expr.balanced_lower hnames.1.1.1.2 hkey) _,
        exprsBalanced hnames.1.2 hargs⟩
  | member access hobject hkey =>
    simp only [Expr.nodes, plainNames_append] at hnames
    exact balanced_lowerMember (Expr.balanced_lower hnames.1.1 hobject)
      (Expr.balanced_lower hnames.1.2 hkey) access
  | assign htargets hvalues =>
    simp only [Expr.nodes, plainNames_append] at hnames
    exact (balanced_lowerAssign (exprsBalanced hnames.1.1 htargets)
      (exprsBalanced hnames.1.2 hvalues)).group
  | table hfields =>
    rw [Expr.nodes, plainNames_append] at hnames
    exact balanced_object (fieldsBalanced hnames.1 hfields)
  | function params hbody =>
    simp only [Expr.nodes, plainNames_append, plainNames_nameNodes] at hnames
    exact balanced_function hnames.1.1
      (blockBalanced hnames.1.2 noneBalanced hbody)

theorem exprsBalanced {es : List Expr} {es' : List Script.Expr}
    (hnames : PlainNames (exprNodes es)) (h : (lowerExprs es).Gives es') :
    ∀ e' ∈ es', e'.Balanced := by
  cases exprsLowerTo h with
  | nil => exact List.forall_mem_nil _
  | cons he hes =>
    rw [exprNodes, plainNames_append] at hnames
    exact List.forall_mem_cons.mpr
      ⟨Expr.balanced_lower hnames.1 he, exprsBalanced hnames.2 hes⟩

theorem fieldsBalanced {position : Nat} {fs : List Field}
    {ps : List Script.Property} (hnames : PlainNames (fieldNodes fs))
    (h : (lowerFields position fs).Gives ps) :
    ∀ p ∈ ps, p.Balanced := by
  cases fieldsLowerTo h with
  | nil => exact List.forall_mem_nil _
  | named key hvalue hfs =>
    simp only [fieldNodes, Field.nodes, plainNames_append, List.cons_append,
      plainNames_cons] at hnames
    exact List.forall_mem_cons.mpr
      ⟨(Expr.balanced_lower hnames.2.1.1 hvalue).named key,
        fieldsBalanced hnames.2.2 hfs⟩
  | keyed hkey hvalue hfs =>
    simp only [fieldNodes, Field.nodes, plainNames_append] at hnames
    exact List.forall_mem_cons.mpr
      ⟨(Expr.balanced_lower hnames.1.1.1 hkey).computed
          (Expr.balanced_lower hnames.1.1.2 hvalue),
        fieldsBalanced hnames.2 hfs⟩
  | item hvalue hfs =>
    simp only [fieldNodes, Field.nodes, plainNames_append] at hnames
    exact List.forall_mem_cons.mpr
      ⟨(Expr.balanced_lower hnames.1.1 hvalue).named _,
        fieldsBalanced hnames.2 hfs⟩

theorem Stat.balanced_lower {s : Stat} {declared : List String}
    {l : LoweredStat} (hnames : PlainNames s.nodes)
    (h : (s.lower declared).Gives l) :
    l.Balanced := by
  cases s.lowersTo h with
  | lets hlets =>
    cases hlets with
    | «local» hvalues hlocal =>
      simp only [Stat.nodes, plainNames_append, plainNames_nameNodes] at hnames
      exact hlocal.balanced hnames.1.1 (exprsBalanced hnames.1.2 hvalues)
    | localFunction x params hbody =>
      simp only [Stat.nodes, Expr.nodes, plainNames_append,
        plainNames_nameNodes] at hnames
      have hfunction := balanced_function hnames.1.1.2
        (blockBalanced hnames.1.2 noneBalanced hbody)
      exact balanced_lowerLocalFunction
        (hnames.1.1.1 x List.mem_cons_self) hfunction declared
  | one hone =>
    refine List.forall_mem_singleton.mpr ?_
    cases hone with
    | «do» hbody =>
      rw [Stat.nodes, plainNames_append] at hnames
      exact balanced_block (blockBalanced hnames.1 noneBalanced hbody)
    | «break» => exact balanced_break
    | «return» hvalues =>
      rw [Stat.nodes, plainNames_append] at hnames
      exact balanced_return (exprsBalanced hnames.1 hvalues)
    | assign htargets hvalues =>
      simp only [Stat.nodes, Expr.nodes, plainNames_append] at hnames
      have htargets := exprsBalanced hnames.1.1.1 htargets
      exact (balanced_lowerAssign htargets
        (exprsBalanced hnames.1.1.2 hvalues)).expr
    | expr _ he =>
      rw [Stat.nodes, plainNames_append] at hnames
      exact (Expr.balanced_lower hnames.1 he).expr
    | var x params hbody =>
      simp only [Stat.nodes, Expr.nodes, plainNames_append,
        plainNames_nameNodes] at hnames
      have hfunction := balanced_function hnames.1.1.2
        (blockBalanced hnames.1.2 noneBalanced hbody)
      exact hfunction.var (hnames.1.1.1 x List.mem_cons_self)
    | member isLocal params _ htarget hbody =>
      simp only [Stat.nodes, plainNames_append, plainNames_nameNodes] at hnames
      have hfunction := balanced_function hnames.1.1.2
        (blockBalanced hnames.1.2 noneBalanced hbody)
      exact ((Expr.balanced_lower hnames.1.1.1 htarget).assign hfunction).expr
    | nameless isLocal params hbody =>
      simp only [Stat.nodes, plainNames_append, plainNames_nameNodes] at hnames
      exact (balanced_function hnames.1.1
        (blockBalanced hnames.1.2 noneBalanced hbody)).expr
    | «if» htest hbody hclauses =>
      simp only [Stat.nodes, plainNames_append, plainNames_cons] at hnames
      obtain ⟨⟨⟨⟨hnamesTest, hnamesBody⟩, -, hnamesClauses⟩, -⟩, -⟩ := hnames
      exact (Expr.balanced_lower hnamesTest htest).if
        (blockBalanced hnamesBody noneBalanced hbody)
        (clausesBalanced hnamesClauses hclauses) (List.forall_mem_nil _)
    | ifElse htest hbody hclauses hblock =>
      simp only [Stat.nodes, plainNames_append, plainNames_cons] at hnames
      obtain ⟨⟨⟨⟨hnamesTest, hnamesBody⟩, -, hnamesClauses⟩, hnamesBlock, -⟩,
        -⟩ := hnames
      exact (Expr.balanced_lower hnamesTest htest).if
        (blockBalanced hnamesBody noneBalanced hbody)
        (clausesBalanced hnamesClauses hclauses)
        (blockBalanced hnamesBlock noneBalanced hblock)
    | forRange x hstart hstop hstep hbody =>
      simp only [Stat.nodes, List.cons_append, plainNames_append,
        plainNames_cons] at hnames
      obtain ⟨hx, ⟨⟨⟨hnamesStart, hnamesStop⟩, hnamesStep⟩, hnamesBody⟩, -⟩ :=
        hnames
      exact balanced_forRange (hx x rfl)
        (Expr.balanced_lower hnamesStart hstart)
        (Expr.balanced_lower hnamesStop hstop)
        (Expr.balanced_lower hnamesStep hstep)
        (blockBalanced hnamesBody noneBalanced hbody)
    | forEach names hsource hbody =>
      simp only [Stat.nodes, plainNames_append, plainNames_nameNodes] at hnames
      exact balanced_forEach hnames.1.1.1
        (Expr.balanced_lower hnames.1.1.2 hsource)
        (blockBalanced hnames.1.2 noneBalanced hbody)
    | «while» htest hbody =>
      simp only [Stat.nodes, plainNames_append] at hnames
      exact (Expr.balanced_lower hnames.1.1 htest).while
        (blockBalanced hnames.1.2 noneBalanced hbody)
    | @«repeat» body test _ hbody =>
      simp only [Stat.nodes, plainNames_append, plainNames_cons] at hnames
      obtain ⟨⟨hnamesBody, -, hnamesTest⟩, -⟩ := hnames
      -- the test ends the innermost block of the body, which sees its locals
      have hlast : ∀ ts,
          (do return [.breakIf (← test.lower)] :
            Lowering (List Script.Stat)).Gives ts →
          ∀ t ∈ ts, t.Balanced := by
        intro ts hts
        obtain ⟨test', htest, rfl⟩ := breakIf_of_gives hts
        exact List.forall_mem_singleton.mpr
          (test.balanced_lower hnamesTest htest).breakIf
      exact balanced_forever (blockBalanced hnamesBody hlast hbody)

theorem blockBalanced {declared : List String}
    {last : Lowering (List Script.Stat)} {ss : List Stat}
    {ss' : List Script.Stat} (hnames : PlainNames (statNodes ss))
    (hlast : ∀ ts, last.Gives ts → ∀ t ∈ ts, t.Balanced)
    (h : (lowerStats declared last ss).Gives ss') :
    ∀ t ∈ ss', t.Balanced := by
  cases statsLowerTo h with
  | nil h => exact hlast _ h
  | cons hl hrest =>
    rw [statNodes, plainNames_append] at hnames
    exact (Stat.balanced_lower hnames.1 hl).followedBy
      (blockBalanced hnames.2 hlast hrest)

theorem clausesBalanced {cs : List Clause} {bs : List Script.Branch}
    (hnames : PlainNames (clauseNodes cs)) (h : (lowerClauses cs).Gives bs) :
    ∀ b ∈ bs, b.Balanced := by
  cases clausesLowerTo h with
  | nil => exact List.forall_mem_nil _
  | cons htest hbody hcs =>
    simp only [clauseNodes, Clause.nodes, plainNames_append] at hnames
    exact List.forall_mem_cons.mpr
      ⟨(Expr.balanced_lower hnames.1.1.1 htest).branch
          (blockBalanced hnames.1.1.2 noneBalanced hbody),
        clausesBalanced hnames.2 hcs⟩

end

/-- Writing never takes from an indent of zero. A statement leaves all scopes
but the innermost as they are, and the indent larger by the blocks that it
opened there; an expression changes nothing but the number of temporaries. At
the end of a program nothing is open, and its text is balanced. -/
theorem Chunk.write_balanced {c : Chunk} (hcomments : c.comments = [])
    (hnames : PlainNames c.nodes) :
    (∀ (s : Stat) (w : Writer), ∃ w', s.write.run w = some ((), w') ∧
      w.toPage.Continues w'.toPage) ∧
      (∀ (e : Expr) (w : Writer), ∃ text n, e.write.run w =
        some (text, { w with temps := n })) ∧
      (∃ n, c.write.run Writer.start = some ((), ⟨⟨c.scriptText, 0, []⟩, n⟩)) ∧
        IsBalanced c.scriptText := by
  have hbody : ∀ s ∈ c.lower.body, s.Balanced := by
    simp only [Chunk.nodes, plainNames_append] at hnames
    exact blockBalanced hnames.1.2 noneBalanced (gives_run _ 0)
  refine ⟨Stat.exists_run_write, Expr.exists_run_write, c.run_write, ?_⟩
  have hnone : c.lower.comments = [] := by
    rw [Chunk.lower, hcomments, List.map_nil]
  rw [Chunk.scriptText, Script.text, hnone]
  exact (isBalanced_prelude.append isBalanced_empty).append
    (balanced_statTexts hbody 0)

/-- The rest of the program, of the function and of the loop stand in blocks
of their own. -/
theorem Chunk.write_balanced_rebound :
    let c : Chunk := ⟨[.local ["x"] [.string "("],
        .local ["x", "f"] [.table [.item (.name "x")],
            .function ["y"] [.local ["y"] [], .return [.name "y"]]],
        .repeat [.local ["z"] [], .function (some (.name "z")) true [] [.break]]
          (.call (.name "z") [])], []⟩
    c.comments = [] ∧ PlainNames c.nodes ∧
      (∃ n, c.write.run Writer.start = some ((), ⟨⟨c.scriptText, 0, []⟩, n⟩)) ∧
      IsBalanced c.scriptText := by
  intro c
  have hnames : PlainNames c.nodes := by
    have hplain : IsPlain "x" ∧ IsPlain "y" ∧ IsPlain "z" ∧ IsPlain "f" := by
      decide
    simp [c, Chunk.nodes, statNodes, Stat.nodes, exprNodes, Expr.nodes,
      fieldNodes, Field.nodes, hplain]
  exact ⟨rfl, hnames, (write_balanced rfl hnames).2.2⟩

end LuaCore
