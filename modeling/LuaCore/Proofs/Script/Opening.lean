import LuaCore.Proofs.Script.Placed
import LuaCore.Proofs.Tree.Runnable
import LuaCore.Script.Text

namespace LuaCore

open Lowering

def isScriptWordChar (c : Char) : Bool := Numeral.isWordChar c || c == '$'

/-- A text that does not begin with a brace or with the word `function`, blanks
in front of it aside. -/
def CanStand (text : String) : Prop :=
  let cs := text.toList.dropWhile (· == ' ')
  cs.head? ≠ some '\x7b' ∧ cs.takeWhile isScriptWordChar ≠ "function".toList

instance (text : String) : Decidable (CanStand text) := by
  unfold CanStand
  infer_instance

/-- An expression as a statement can stand, at any depth. -/
def Script.Stat.Stands : Script.Stat → Prop
  | .expr e => ∀ depth, CanStand ((Script.Stat.expr e).text depth)
  | _ => True

/-- Every expression that is a statement of a script can stand as one. -/
def Script.Stands (s : Script) : Prop :=
  ∀ r ∈ s.regions, ∀ st ∈ r.body, st.Stands

/-- The part of an expression that begins its text. -/
def Script.Expr.leader : Script.Expr → Script.Expr
  | .call callee _ => callee.leader
  | .member owner _ => owner.leader
  | .index owner _ => owner.leader
  | .assign target _ => target.leader
  | e => e

def Script.Expr.isBare : Script.Expr → Bool
  | .object _ | .function _ _ => true
  | _ => false

/-- An expression that begins with a table or a function. A method call does not
begin with its object, and parentheses stand around operators and around the
number of which a length is taken. -/
def Expr.opensBare : Expr → Bool
  | .table _ | .function _ _ => true
  | .call (.member _ .colon _) _ => false
  | .call callee _ => callee.opensBare
  | .member object _ _ => object.opensBare
  | .unary .length (.number _) => false
  | .unary .length operand => operand.opensBare
  | .assign [target] [_] => target.opensBare
  | _ => false

/-- The expressions that stand alone: statements, and the values of a `local`
that have no name. -/
def Stat.alone : Stat → List Expr
  | .expr e => [e]
  | .local names values => values.drop names.length
  | _ => []

/-! How the first characters of a text decide. -/

section CanStand

variable {text : String} {cs : List Char} {c d : Char}

theorem canStand_of_head (h : text.toList = c :: cs)
    (hc : c ∉ [' ', '\x7b', 'f']) :
    CanStand text := by
  simp only [List.mem_cons, List.not_mem_nil, or_false, not_or] at hc
  obtain ⟨hblank, hbrace, hf⟩ := hc
  unfold CanStand
  rw [h, List.dropWhile_cons_of_neg (by simpa using hblank)]
  refine ⟨by simpa using hbrace, fun hword => ?_⟩
  rw [List.takeWhile_cons] at hword
  split at hword
  · exact hf (List.cons.inj hword).1
  · cases hword

theorem not_canStand_of_brace (h : text.toList = '\x7b' :: cs) :
    ¬CanStand text := by
  unfold CanStand
  rw [h]
  exact fun hstands => hstands.1 rfl

theorem canStand_of_word {word : List Char} (hne : word ≠ [])
    (hword : word.all isScriptWordChar = true) (hd : isScriptWordChar d = false)
    (h : text.toList = word ++ d :: cs) :
    CanStand text ↔ word ≠ "function".toList := by
  have htake : (word ++ d :: cs).takeWhile isScriptWordChar = word := by
    rw [List.takeWhile_append_of_pos (List.all_eq_true.mp hword),
      List.takeWhile_cons_of_neg (by simp [hd]), List.append_nil]
  obtain ⟨c, word, rfl⟩ := List.exists_cons_of_ne_nil hne
  have hc := List.all_eq_true.mp hword c List.mem_cons_self
  have hdrop : (c :: word ++ d :: cs).dropWhile (· == ' ') =
      c :: word ++ d :: cs := by
    refine List.dropWhile_cons_of_neg fun hblank => ?_
    rw [eq_of_beq hblank] at hc
    exact absurd hc (by decide)
  unfold CanStand
  dsimp only
  rw [h, hdrop, htake]
  refine and_iff_right fun hbrace => ?_
  cases hbrace
  exact absurd hc (by decide)

theorem canStand_line (depth : Nat) (text : String) :
    CanStand (Script.line depth text) ↔ CanStand (text ++ "\n") := by
  have hpad : ∀ cs : List Char, (List.replicate (4 * depth) ' ' ++ cs).dropWhile
        (· == ' ') = cs.dropWhile (· == ' ') := by
    intro cs
    exact List.dropWhile_append_of_pos fun c hc => by
      simp [List.eq_of_mem_replicate hc]
  simp [CanStand, Script.line, Script.pad, hpad]

end CanStand

/-! The text of a leader, and what follows it. -/

theorem exists_head_positional (d : Decimal) :
    ∃ c cs, d.positional = c :: cs ∧ c.isDigit = true := by
  obtain ⟨c, cs, hdigits⟩ :=
    List.exists_cons_of_ne_nil (Nat.toDigits_ne_nil (b := 10) (n := d.digits))
  have hc : c.isDigit = true :=
    Nat.isDigit_of_mem_toDigits (by decide) (by decide)
      (hdigits ▸ List.mem_cons_self)
  unfold Decimal.positional
  split
  · exact ⟨c, _, by rw [hdigits]; rfl, hc⟩
  · next n _ =>
    rw [hdigits, Decimal.withPoint]
    split
    · next hplaces =>
      obtain ⟨k, hk⟩ : ∃ k, (c :: cs).length - (n + 1) = k + 1 :=
        ⟨(c :: cs).length - (n + 1) - 1, by omega⟩
      exact ⟨c, _, by rw [hk, List.take_succ_cons]; rfl, hc⟩
    · exact ⟨'0', _, rfl, rfl⟩

theorem exists_head_signed (sign : Float.Model.UnpackedFloat.Sign) {c : Char}
    {cs : List Char} (hc : c ∉ [' ', '\x7b', 'f']) :
    ∃ c' cs', Number.signed sign (c :: cs) = c' :: cs' ∧
      c' ∉ [' ', '\x7b', 'f'] := by
  cases sign with
  | positive => exact ⟨c, cs, rfl, hc⟩
  | negative => exact ⟨'-', c :: cs, rfl, by decide⟩

theorem exists_head_plain (x : Float) :
    ∃ c cs, (Number.plain x).toList = c :: cs ∧ c ∉ [' ', '\x7b', 'f'] := by
  unfold Number.plain
  split
  · exact ⟨'N', ['a', 'N'], rfl, by decide⟩
  · rw [String.toList_ofList]
    exact exists_head_signed _ (by decide)
  · rw [String.toList_ofList]
    exact exists_head_signed _ (by decide)
  · next mantissa exponent _ _ =>
    obtain ⟨c, cs, hdigits, hc⟩ :=
      exists_head_positional (Number.shortest mantissa exponent)
    rw [String.toList_ofList, hdigits]
    refine exists_head_signed _ fun hmem => ?_
    simp only [List.mem_cons, List.not_mem_nil, or_false] at hmem
    rcases hmem with rfl | rfl | rfl <;> cases hc

theorem exists_head_numberText (x : Float) :
    ∃ c cs, (Script.numberText x).toList = c :: cs ∧
      c ∉ [' ', '\x7b', 'f'] := by
  unfold Script.numberText
  split
  · exact ⟨'I', ['n', 'f', 'i', 'n', 'i', 't', 'y'], rfl, by decide⟩
  · exact exists_head_plain x

def Leads (start text : String) : Prop :=
  ∃ rest, text = start ++ rest ∧
    ∀ c ∈ rest.toList.head?, isScriptWordChar c = false

theorem leads_refl (text : String) : Leads text text := ⟨"", by simp, by simp⟩

theorem Leads.append {start text more : String} (h : Leads start text)
    (hmore : ∀ c ∈ more.toList.head?, isScriptWordChar c = false) :
    Leads start (text ++ more) := by
  obtain ⟨rest, rfl, hrest⟩ := h
  refine ⟨rest ++ more, String.append_assoc .., ?_⟩
  rw [String.toList_append]
  cases hcs : rest.toList with
  | nil => exact hmore
  | cons c cs => simpa [hcs] using hrest

theorem Script.Expr.leads_leader (e : Script.Expr) (depth : Nat) :
    Leads (e.leader.text depth) (e.text depth) := by
  induction e using Script.Expr.leader.induct with
  | case1 callee args ih =>
    rw [Script.Expr.text, Script.Expr.leader, String.append_assoc,
      String.append_assoc]
    exact ih.append (by simp; decide)
  | case2 owner key ih =>
    rw [Script.Expr.text, Script.Expr.leader, String.append_assoc]
    exact ih.append (by simp; decide)
  | case3 owner key ih =>
    rw [Script.Expr.text, Script.Expr.leader, String.append_assoc,
      String.append_assoc]
    exact ih.append (by simp; decide)
  | case4 target value ih =>
    rw [Script.Expr.text, Script.Expr.leader, String.append_assoc]
    exact ih.append (by simp; decide)
  | case5 e hcall hmember hindex hassign =>
    rw [Script.Expr.leader]
    · exact leads_refl _
    all_goals assumption

theorem Leads.followed {start text : String} (h : Leads start text) :
    ∃ d cs, isScriptWordChar d = false ∧
      (text ++ ";" ++ "\n").toList = start.toList ++ d :: cs := by
  obtain ⟨rest, rfl, hrest⟩ := h
  cases hcs : rest.toList with
  | nil => exact ⟨';', ['\n'], by decide, by simp [hcs]⟩
  | cons c cs =>
    exact ⟨c, cs ++ [';', '\n'], hrest c (by simp [hcs]), by simp [hcs]⟩

def Script.Expr.isLeader : Script.Expr → Bool
  | .call _ _ | .member _ _ | .index _ _ | .assign _ _ => false
  | _ => true

theorem Script.Expr.isLeader_leader (e : Script.Expr) :
    e.leader.isLeader = true := by
  induction e using Script.Expr.leader.induct with
  | case1 callee args ih => exact ih
  | case2 owner key ih => exact ih
  | case3 owner key ih => exact ih
  | case4 target value ih => exact ih
  | case5 e hcall hmember hindex hassign =>
    cases e with
    | call callee args => exact absurd rfl (hcall callee args)
    | member owner key => exact absurd rfl (hmember owner key)
    | index owner key => exact absurd rfl (hindex owner key)
    | assign target value => exact absurd rfl (hassign target value)
    | _ => rfl

def Script.Expr.Named : Script.Expr → Prop
  | .name x => IsIdentifier x ∨ x = "$method"
  | _ => True

theorem IsIdentifier.isWord {x : String} (h : IsIdentifier x) :
    x.toList ≠ [] ∧ x.toList.all isScriptWordChar = true ∧
      x.toList ≠ "function".toList := by
  obtain ⟨⟨first, rest, hx, hfirst, hrest⟩, hkeyword⟩ := h
  refine ⟨by simp [hx], List.all_eq_true.mpr fun c hc => ?_,
    fun hfunction => ?_⟩
  · have hword : Numeral.isWordChar c = true := by
      rw [hx] at hc
      rcases List.mem_cons.mp hc with rfl | hc
      -- a name starts with what can stand in a word
      · simp only [startsName, Bool.or_eq_true] at hfirst
        rcases hfirst with halpha | hunder
        · simp [Numeral.isWordChar, Char.isAlphanum, halpha]
        · simp [Numeral.isWordChar, hunder]
      · exact hrest c hc
    simp [isScriptWordChar, hword]
  · rw [String.toList_inj.mp hfunction] at hkeyword
    exact absurd hkeyword (by decide)

theorem Script.Expr.canStand_iff {e : Script.Expr} (hleader : e.isLeader = true)
    (hnamed : e.Named) (depth : Nat) {text : String} {d : Char} {cs : List Char}
    (hd : isScriptWordChar d = false)
    (h : text.toList = (e.text depth).toList ++ d :: cs) :
    CanStand text ↔ e.isBare = false := by
  cases e with
  | name x =>
    rw [Script.Expr.text] at h
    have hword : x.toList ≠ [] ∧ x.toList.all isScriptWordChar = true ∧
        x.toList ≠ "function".toList := by
      rcases hnamed with hx | rfl
      · exact hx.isWord
      · decide
    exact iff_of_true
      ((canStand_of_word hword.1 hword.2.1 hd h).mpr hword.2.2) rfl
  | undefined =>
    rw [Script.Expr.text] at h
    exact iff_of_true
      ((canStand_of_word (by decide) (by decide) hd h).mpr (by decide)) rfl
  | bool b =>
    have hword : (toString b).toList ≠ [] ∧
        (toString b).toList.all isScriptWordChar = true ∧
        (toString b).toList ≠ "function".toList := by cases b <;> decide
    exact iff_of_true
      ((canStand_of_word hword.1 hword.2.1 hd h).mpr hword.2.2) rfl
  | number x =>
    obtain ⟨c, cs', hhead, hc⟩ := exists_head_numberText x
    rw [Script.Expr.text, hhead] at h
    exact iff_of_true (canStand_of_head h hc) rfl
  | string text =>
    rw [Script.Expr.text, Script.quote, String.toList_ofList] at h
    exact iff_of_true (canStand_of_head h (by decide)) rfl
  | object properties =>
    rw [Script.Expr.text] at h
    simp at h
    exact iff_of_false (not_canStand_of_brace h) Bool.noConfusion
  | function params body =>
    rw [Script.Expr.text] at h
    have hword : ∃ cs', text.toList = "function".toList ++ ' ' :: cs' := by
      simp only [String.append_assoc, String.toList_append, List.append_assoc]
        at h
      exact ⟨_, h⟩
    obtain ⟨cs', hword⟩ := hword
    refine iff_of_false (fun hstands => ?_) Bool.noConfusion
    exact (canStand_of_word (by decide) (by decide) (by decide) hword).mp
      hstands rfl
  | call callee args => cases hleader
  | member owner key => cases hleader
  | index owner key => cases hleader
  | assign target value => cases hleader
  | _ =>
    rw [Script.Expr.text] at h
    simp at h
    exact iff_of_true (canStand_of_head h (by decide)) rfl

theorem Script.Expr.stands_iff {e : Script.Expr} (hnamed : e.leader.Named) :
    (Script.Stat.expr e).Stands ↔ e.leader.isBare = false := by
  have hstands : ∀ depth, CanStand ((Script.Stat.expr e).text depth) ↔
      e.leader.isBare = false := by
    intro depth
    obtain ⟨d, cs, hd, htext⟩ := (e.leads_leader depth).followed
    rw [Script.Stat.text, canStand_line]
    exact Script.Expr.canStand_iff e.isLeader_leader hnamed depth hd htext
  exact ⟨fun h => (hstands 0).mp (h 0), fun h depth => (hstands depth).mpr h⟩

/-! What begins a lowered expression. -/

/-- Both begin in the same way, and with a name only if it is one of the
program, or that for methods. -/
def Expr.BeginsAs (e : Expr) (e' : Script.Expr) : Prop :=
  e'.leader.isBare = e.opensBare ∧ e'.leader.Named

theorem Expr.wellFormed_owner {isCallee : Bool} {owner key : Expr}
    {access : Access}
    (h : (Expr.member owner access key).wellFormed isCallee = true) :
    owner.wellFormed false = true := by
  unfold Expr.wellFormed at h
  split at h
  all_goals simp_all

theorem identified_owner {owner key : Expr} {access : Access}
    (h : Identified (Expr.member owner access key).pieces) :
    Identified owner.pieces := by
  cases access <;> simp only [Expr.pieces, identified_append] at h
  · exact h.1
  · exact h.1.1
  · exact h.1

theorem Expr.opensBare_call {callee : Expr} (h : callee.isMethod = false)
    (args : List Expr) :
    (Expr.call callee args).opensBare = callee.opensBare := by
  cases callee with
  | member object access key =>
    cases access with
    | colon => cases h
    | _ => rfl
  | _ => rfl

theorem Expr.beginsAs_lower {isCallee : Bool} {e : Expr} {e' : Script.Expr}
    (he : e.wellFormed isCallee = true) (hpieces : Identified e.pieces)
    (h : e.lower.Gives e') :
    e.BeginsAs e' := by
  cases e.lowersTo h with
  | name x =>
    rw [Expr.pieces, identified_name] at hpieces
    exact ⟨rfl, .inl hpieces.1⟩
  | @unary op operand _ hoperand =>
    rw [Expr.wellFormed] at he
    rw [Expr.pieces, identified_unary] at hpieces
    cases op with
    | length =>
      have hbegins := operand.beginsAs_lower he hpieces hoperand
      cases operand with
      | number x => exact ⟨rfl, trivial⟩
      | _ => exact hbegins
    | _ => exact ⟨rfl, trivial⟩
  | binary op => cases op <;> exact ⟨rfl, trivial⟩
  | @call callee args callee' _ hplain hcallee =>
    rw [Expr.wellFormed, Bool.and_eq_true] at he
    rw [Expr.pieces, identified_append] at hpieces
    obtain ⟨hbare, hnamed⟩ := callee.beginsAs_lower he.1 hpieces.1 hcallee
    exact ⟨hbare.trans (Expr.opensBare_call hplain args).symm, hnamed⟩
  | callMethod => exact ⟨rfl, .inr rfl⟩
  | member access hobject =>
    have hbegins := Expr.beginsAs_lower (Expr.wellFormed_owner he)
      (identified_owner hpieces) hobject
    cases access <;> exact hbegins
  | assign => cases he
  | _ => exact ⟨rfl, trivial⟩

theorem Expr.opensBare_of_isDotted {e : Expr} (h : e.isDotted = true) :
    e.opensBare = false := by
  induction e using Expr.isDotted.induct with
  | case1 x => rfl
  | case2 object key ih => exact ih h
  | case3 e hname hmember =>
    rw [Expr.isDotted] at h
    · exact absurd h Bool.false_ne_true
    · exact hname
    · exact hmember

theorem Expr.opensBare_of_namesFunction {target : Expr} {params : List String}
    (h : target.namesFunction params = true) :
    target.wellFormed true = true ∧ target.opensBare = false := by
  rw [Expr.namesFunction, Bool.or_eq_true, Bool.and_eq_true] at h
  rcases h with h | ⟨h, -⟩
  · exact ⟨Expr.wellFormed_callee (Expr.wellFormed_of_isDotted h),
      Expr.opensBare_of_isDotted h⟩
  · unfold Expr.isMethodName at h
    split at h
    · have howner := Expr.opensBare_of_isDotted h
      exact ⟨Expr.wellFormed_of_isDotted h, howner⟩
    · cases h

/-- None of the expressions that stand alone begins with a table or a
function. -/
def Stat.Stands (s : Stat) : Prop := ∀ e ∈ s.alone, e.opensBare = false

instance (s : Stat) : Decidable s.Stands := by
  unfold Stat.Stands
  infer_instance

theorem Stat.stands_expr (e : Expr) :
    (Stat.expr e).Stands ↔ e.opensBare = false := by
  simp [Stat.Stands, Stat.alone]

theorem Expr.BeginsAs.stands_iff {e : Expr} {e' : Script.Expr}
    (h : e.BeginsAs e') :
    (Script.Stat.expr e').Stands ↔ e.opensBare = false := by
  rw [Script.Expr.stands_iff h.2, h.1]

theorem identified_of_mem_exprs {es : List Expr}
    (h : Identified (exprPieces es)) :
    ∀ e ∈ es, Identified e.pieces := by
  induction es with
  | nil => exact List.forall_mem_nil _
  | cons e es ih =>
    rw [exprPieces, identified_append] at h
    exact List.forall_mem_cons.mpr ⟨h.1, ih h.2⟩

theorem beginsAs_lowerAssign {targets values : List Expr}
    {targets' values' : List Script.Expr}
    (hwellFormed : exprsWellFormed targets = true)
    (hpieces : Identified (exprPieces targets))
    (htargets : (lowerExprs targets).Gives targets')
    (hvalues : (lowerExprs values).Gives values') :
    (Expr.assign targets values).BeginsAs (lowerAssign targets' values') := by
  have htarget : ∀ e ∈ targets, ∀ e', e.lower.Gives e' → e.BeginsAs e' :=
    fun e he e' h =>
    e.beginsAs_lower (exprsWellFormed_iff.mp hwellFormed e he)
      (identified_of_mem_exprs hpieces e he) h
  -- one target and one value, or else all of them in brackets
  cases lowerExprs_gives htargets with
  | nil => exact ⟨rfl, trivial⟩
  | cons hfirst hmore =>
    cases hmore with
    | cons _ _ => exact ⟨rfl, trivial⟩
    | nil =>
      cases lowerExprs_gives hvalues with
      | nil => exact ⟨rfl, trivial⟩
      | cons _ hmore =>
        cases hmore with
        | cons _ _ => exact ⟨rfl, trivial⟩
        | nil =>
          have hbegins := htarget _ List.mem_cons_self _ hfirst
          exact hbegins

theorem Script.Stat.stands_of_isQuiet {st : Script.Stat}
    (h : st.isQuiet = true) :
    st.Stands := by
  cases st with
  | expr e => cases h
  | _ => trivial

theorem Stat.Becomes.stands_iff {s : Stat} {stats : List Script.Stat}
    (h : s.Becomes stats) (hs : s.Sound) :
    (∀ st ∈ stats, st.Stands) ↔ s.Stands := by
  obtain ⟨hpieces, hwellFormed⟩ := hs
  cases h with
  | @lets names values values' h =>
    simp only [Stat.wellFormed, Bool.and_eq_true, exprsWellFormed_iff]
      at hwellFormed
    simp only [Stat.pieces, List.cons_append, identified_keyword,
      identified_append, identified_values] at hpieces
    have hlets : (Script.Stat.lets names values').Stands := trivial
    rw [List.forall_mem_cons, and_iff_right hlets, List.forall_mem_map]
    refine forall_iff_of_forall₂
      (List.forall₂_drop names.length (lowerExprs_gives h)) ?_
    intro e he e' hlowers
    have hmem := List.mem_of_mem_drop he
    exact (e.beginsAs_lower (hwellFormed.2 e hmem)
      (identified_of_mem_exprs hpieces.2 e hmem) hlowers).stands_iff
  | letFunction =>
    exact iff_of_true (List.forall_mem_singleton.mpr trivial)
      (List.forall_mem_nil _)
  | @expr e e' hassign h =>
    have hcall : e.wellFormed false = true := by
      cases e with
      | call callee args => exact hwellFormed
      | assign targets values => exact absurd rfl (hassign targets values)
      | _ => cases hwellFormed
    rw [List.forall_mem_singleton,
      (e.beginsAs_lower hcall hpieces h).stands_iff, Stat.stands_expr]
  | @assign targets values targets' values' htargets hvalues =>
    simp only [Stat.wellFormed, Bool.and_eq_true] at hwellFormed
    rw [Stat.pieces, Expr.pieces, identified_append] at hpieces
    have hbegins :=
      beginsAs_lowerAssign hwellFormed.1.1.2 hpieces.1 htargets hvalues
    rw [List.forall_mem_singleton, hbegins.stands_iff, Stat.stands_expr]
  | @member target target' isLocal params body body' hname h =>
    cases isLocal with
    | true =>
      cases target with
      | name x => exact absurd rfl (hname x)
      | _ => cases hwellFormed
    | false =>
      rw [Stat.wellFormed_named, Bool.and_eq_true] at hwellFormed
      simp only [Stat.pieces, List.cons_append, identified_keyword,
        identified_append] at hpieces
      obtain ⟨htarget, hopens⟩ := Expr.opensBare_of_namesFunction hwellFormed.1
      have hbegins :
          target.BeginsAs (.assign target' (.function params body')) := by
        have htarget := target.beginsAs_lower htarget hpieces.1.1.1 h
        exact htarget
      rw [List.forall_mem_singleton, hbegins.stands_iff]
      exact iff_of_true hopens (List.forall_mem_nil _)
  | @nameless isLocal params body body' => cases isLocal <;> cases hwellFormed
  | @quiet s t hsource ht =>
    refine iff_of_true
      (List.forall_mem_singleton.mpr (Script.Stat.stands_of_isQuiet ht)) ?_
    have halone : s.alone = [] := by
      unfold Stat.alone
      split
      · cases hsource
      · cases hsource
      · rfl
    rw [Stat.Stands, halone]
    exact List.forall_mem_nil _

/-- Each expression that is a statement of a script can stand as one exactly if
no call, no assignment and no value of a `local` without a name begins with a
table or a function. -/
theorem Chunk.stands_lower_iff {source : String} {c : Chunk}
    (h : ofSource source = .ok c) :
    c.lower.Stands ↔ ∀ t ∈ c.stretches, ∀ s ∈ t.placed, s.Stands := by
  refine forall_iff_of_forall₂ c.lowers fun t ht r hlowers => ?_
  have hsound := allSound_stretches h t ht
  refine hlowers.forall_body_iff (fun _ => Script.Stat.stands_of_isQuiet)
    (fun _ _ => trivial) (fun _ _ => trivial) ?_
  exact fun s hs stats hbecomes =>
    hbecomes.stands_iff (hsound.sound_of_mem_placed hs)

theorem Chunk.stands_of_calls :
    let source :=
      "f() o:m() (function() end):m() local a = 1, f() a.b = {} " ++
        "local a = 1, {} return function() end"
    ∃ c, ofSource source = .ok c ∧ c.lower.Stands := by
  intro source
  obtain ⟨c, hsource, hplaced⟩ : ∃ c, ofSource source = .ok c ∧
      decide (∀ t ∈ c.stretches, ∀ s ∈ t.placed, s.Stands) = true :=
    exists_of_any (by decide +kernel)
  exact ⟨c, hsource, (stands_lower_iff hsource).mpr (of_decide_eq_true hplaced)⟩

def Script.Stat.failsToStand : Script.Stat → Bool
  | .expr e => !decide (CanStand ((Script.Stat.expr e).text 0))
  | _ => false

theorem Script.Stat.not_stands_of_failsToStand {st : Script.Stat}
    (h : st.failsToStand = true) :
    ¬st.Stands := by
  cases st with
  | expr e =>
    rw [Script.Stat.failsToStand, Bool.not_eq_true', decide_eq_false_iff_not]
      at h
    exact fun hstands => h (hstands 0)
  | _ => cases h

/-- The function that is called is read as a declaration. -/
theorem Chunk.not_stands_of_called_function :
    ∃ c, ofSource "(function() end)()" = .ok c ∧ ¬c.lower.Stands := by
  obtain ⟨c, hsource, hfails⟩ : ∃ c, ofSource "(function() end)()" = .ok c ∧
      c.lower.regions.any (·.body.any Script.Stat.failsToStand) = true :=
    exists_of_any (by decide +kernel)
  obtain ⟨r, hr, hfails⟩ := List.any_eq_true.mp hfails
  obtain ⟨st, hst, hfails⟩ := List.any_eq_true.mp hfails
  exact ⟨c, hsource,
    fun h => Script.Stat.not_stands_of_failsToStand hfails (h r hr st hst)⟩

end LuaCore
