import LuaCore.Proofs.Script.Escape
import LuaCore.Script.Text
import Mathlib.Data.List.Basic

/-! What stands in string literals is passed over; everywhere else the bracket
that was opened last is closed first. -/

namespace LuaCore.Script

/-- Where a reader is: in code, in a string literal, or after a
backslash in one. -/
inductive LiteralPlace
  | code
  | literal (quote : Char)
  | escaped (quote : Char)
deriving DecidableEq

/-- The closing brackets that are awaited, the innermost first. -/
structure Nesting where
  awaited : List Char
  place : LiteralPlace
deriving DecidableEq

def brackets : List (Char × Char) := [('(', ')'), ('[', ']'), ('\x7b', '\x7d')]

def quotes : List Char := ['"', '\'', '\x60']

def marks : List Char :=
  quotes ++ brackets.map Prod.fst ++ brackets.map Prod.snd

/-- Fails at a closing bracket that is not awaited. -/
def Nesting.step (n : Nesting) (c : Char) : Option Nesting :=
  match n.place with
  | .escaped quote => some ⟨n.awaited, .literal quote⟩
  | .literal quote =>
    some ⟨n.awaited, if c = quote then .code
        else if c = '\\' then .escaped quote else .literal quote⟩
  | .code =>
    if c ∈ quotes then some ⟨n.awaited, .literal c⟩
    else match brackets.lookup c with
      | some close => some ⟨close :: n.awaited, .code⟩
      | none =>
        if c ∉ brackets.map Prod.snd then some n
        else if n.awaited.head? = some c then some ⟨n.awaited.tail, .code⟩
        else none

def Nesting.read (n : Nesting) (cs : List Char) : Option Nesting :=
  cs.foldlM Nesting.step n

/-- A text that is read from code to code, where other brackets are
awaited after it. -/
def Shifts (before : List Char) (text : String) (after : List Char) : Prop :=
  Nesting.read ⟨before, .code⟩ text.toList = some ⟨after, .code⟩

instance (before : List Char) (text : String) (after : List Char) :
    Decidable (Shifts before text after) := by
  unfold Shifts
  infer_instance

/-- All brackets and all string literals of a text are closed. -/
def IsBalanced (text : String) : Prop := Shifts [] text []

instance (text : String) : Decidable (IsBalanced text) := by
  unfold IsBalanced
  infer_instance

example : IsBalanced "f([\"(\"]);" ∧ ¬IsBalanced "f([\"(\");]" := by decide

def IsPlain (text : String) : Prop := ∀ c ∈ text.toList, c ∉ marks

instance (text : String) : Decidable (IsPlain text) :=
  decidable_of_iff (text.toList.all (!marks.contains ·) = true)
    (by simp [IsPlain])

theorem Nesting.step_under {n m : Nesting} {c : Char} (h : n.step c = some m)
    (more : List Char) :
    Nesting.step ⟨n.awaited ++ more, n.place⟩ c =
      some ⟨m.awaited ++ more, m.place⟩ := by
  obtain ⟨awaited, place⟩ := n
  cases place with
  | literal quote => cases h; rfl
  | escaped quote => cases h; rfl
  | code =>
    dsimp only [Nesting.step] at h ⊢
    split at h
    · next hquote => cases h; exact if_pos hquote
    rw [if_neg ‹_›]
    split at h
    · cases h; rfl
    split at h
    · next hother => cases h; exact if_pos hother
    rw [if_neg ‹_›]
    split at h
    · next hclose =>
      obtain ⟨outer, rfl⟩ := List.head?_eq_some_iff.mp hclose
      cases h
      exact if_pos rfl
    · cases h

theorem Nesting.read_under {n m : Nesting} {cs : List Char}
    (h : n.read cs = some m) (more : List Char) :
    Nesting.read ⟨n.awaited ++ more, n.place⟩ cs =
      some ⟨m.awaited ++ more, m.place⟩ := by
  induction cs generalizing n with
  | nil => cases h; rfl
  | cons c cs ih =>
    rw [read, List.foldlM_cons, Option.bind_eq_bind, Option.bind_eq_some_iff]
      at h
    obtain ⟨next, hstep, hread⟩ := h
    rw [read, List.foldlM_cons, step_under hstep]
    exact ih hread

theorem Nesting.read_append {n m : Nesting} {cs ds : List Char}
    (h : n.read cs = some m) :
    n.read (cs ++ ds) = m.read ds := by
  rw [read, List.foldlM_append, ← read, h]
  rfl

section Shifts

variable {a b c : List Char} {s t text : String}

theorem Shifts.append (hs : Shifts a s b) (ht : Shifts b t c) :
    Shifts a (s ++ t) c := by
  unfold Shifts at *
  rw [String.toList_append, Nesting.read_append hs, ht]

/-- Brackets that are open around a text have no part in it. -/
theorem IsBalanced.inside (h : IsBalanced text) (a : List Char) :
    Shifts a text a :=
  Nesting.read_under h a

theorem isBalanced_empty : IsBalanced "" := rfl

theorem IsBalanced.append (hs : IsBalanced s) (ht : IsBalanced t) :
    IsBalanced (s ++ t) :=
  Shifts.append hs ht

theorem Nesting.step_plain {c : Char} (hc : c ∉ marks) (awaited : List Char) :
    Nesting.step ⟨awaited, .code⟩ c = some ⟨awaited, .code⟩ := by
  simp only [marks, List.mem_append, not_or] at hc
  obtain ⟨⟨hquote, hopens⟩, hcloses⟩ := hc
  have hlookup : brackets.lookup c = none := by
    refine List.lookup_eq_none_iff.mpr fun p hp => bne_iff_ne.mpr ?_
    rintro rfl
    exact hopens (List.mem_map_of_mem hp)
  rw [step, if_neg hquote, hlookup]
  exact if_pos hcloses

theorem IsPlain.isBalanced (h : IsPlain text) : IsBalanced text := by
  have hread : ∀ cs : List Char, (∀ c ∈ cs, c ∉ marks) →
      Nesting.read ⟨[], .code⟩ cs = some ⟨[], .code⟩ := by
    intro cs hcs
    induction cs with
    | nil => rfl
    | cons c cs ih =>
      rw [List.forall_mem_cons] at hcs
      rw [Nesting.read, List.foldlM_cons, Nesting.step_plain hcs.1]
      exact ih hcs.2
  exact hread text.toList h

theorem IsBalanced.between (h : IsBalanced text) (hs : Shifts [] s a)
    (ht : Shifts a t []) :
    IsBalanced (s ++ text ++ t) :=
  (hs.append (h.inside a)).append ht

theorem isBalanced_commaSeparated {texts : List String}
    (h : ∀ text ∈ texts, IsBalanced text) :
    IsBalanced (commaSeparated texts) := by
  unfold commaSeparated
  induction texts with
  | nil => rfl
  | cons text texts ih =>
    rw [List.forall_mem_cons] at h
    cases texts with
    | nil => simpa using h.1
    | cons next texts =>
      rw [String.intercalate_cons_cons]
      exact (h.1.append (by decide)).append (ih h.2)

theorem Nesting.read_literal {cs : List Char} (h : ∀ c ∈ cs, c ≠ '"' ∧ c ≠ '\\')
    (awaited : List Char) :
    Nesting.read ⟨awaited, .literal '"'⟩ cs = some ⟨awaited, .literal '"'⟩ := by
  induction cs with
  | nil => rfl
  | cons c cs ih =>
    rw [List.forall_mem_cons] at h
    have hstep : Nesting.step ⟨awaited, .literal '"'⟩ c =
        some ⟨awaited, .literal '"'⟩ := by
      dsimp only [step]
      rw [if_neg h.1.1, if_neg h.1.2]
    rw [read, List.foldlM_cons, hstep]
    exact ih h.2

theorem Nesting.read_escape (awaited : List Char) (c : Char) :
    Nesting.read ⟨awaited, .literal '"'⟩ (escape c) =
      some ⟨awaited, .literal '"'⟩ := by
  obtain ⟨e, -, heq⟩ | ⟨-, heq⟩ | ⟨⟨hquote, hbackslash, -⟩, heq⟩ :=
    escape_cases c
  · rw [heq]
    rfl
  · rw [heq]
    show Nesting.read ⟨awaited, .literal '"'⟩ (fourHexDigits c.toNat) = _
    apply read_literal _ awaited
    intro d hd
    have hdigit := isAlphanum_of_mem_fourHexDigits hd
    constructor <;> rintro rfl <;> exact nomatch hdigit
  · rw [heq]
    exact read_literal
      (List.forall_mem_singleton.mpr ⟨hquote, hbackslash⟩) awaited

theorem Nesting.read_escapes (awaited cs : List Char) :
    Nesting.read ⟨awaited, .literal '"'⟩ (cs.flatMap escape) =
      some ⟨awaited, .literal '"'⟩ := by
  induction cs with
  | nil => rfl
  | cons c cs ih =>
    rw [List.flatMap_cons, read_append (read_escape awaited c), ih]

theorem isBalanced_quote (text : String) : IsBalanced (quote text) := by
  have hbody :
      Nesting.read ⟨[], .literal '"'⟩ (text.toList.flatMap escape ++ ['"']) =
        some ⟨[], .code⟩ := by
    rw [Nesting.read_append (Nesting.read_escapes [] _)]
    rfl
  rw [IsBalanced, Shifts, quote, String.toList_ofList]
  exact hbody

theorem not_mem_marks_of_isDigit {c : Char} (h : c.isDigit = true) :
    c ∉ marks := by
  have hmarks : marks.all (!·.isDigit) = true := rfl
  intro hc
  have hnot := List.all_eq_true.mp hmarks c hc
  simp [h] at hnot

theorem not_mem_marks_of_mem_toDigits {n : Nat} {c : Char}
    (h : c ∈ Nat.toDigits 10 n) :
    c ∉ marks :=
  not_mem_marks_of_isDigit
    (Nat.isDigit_of_mem_toDigits (by decide) (by decide) h)

theorem mem_withPoint {digits : List Char} {places : Nat} {c : Char}
    (h : c ∈ Decimal.withPoint digits places) :
    c ∈ digits ∨ c = '.' ∨ c = '0' := by
  unfold Decimal.withPoint at h
  split at h
  · rcases List.mem_append.mp h with hwhole | hrest
    · exact .inl (List.mem_of_mem_take hwhole)
    · rcases List.mem_cons.mp hrest with rfl | hfraction
      · exact .inr (.inl rfl)
      · exact .inl (List.mem_of_mem_drop hfraction)
  · simp only [List.cons_append, List.mem_cons, List.mem_append] at h
    rcases h with rfl | rfl | hzero | hdigit
    · exact .inr (.inr rfl)
    · exact .inr (.inl rfl)
    · exact .inr (.inr (List.eq_of_mem_replicate hzero))
    · exact .inl hdigit

theorem not_mem_marks_of_mem_positional {d : Decimal} {c : Char}
    (h : c ∈ d.positional) :
    c ∉ marks := by
  unfold Decimal.positional at h
  split at h
  · rcases List.mem_append.mp h with hc | hc
    · exact not_mem_marks_of_mem_toDigits hc
    · rw [List.eq_of_mem_replicate hc]
      decide
  · rcases mem_withPoint h with hc | rfl | rfl
    · exact not_mem_marks_of_mem_toDigits hc
    · decide
    · decide

theorem isPlain_signed {sign : Float.Model.UnpackedFloat.Sign} {cs : List Char}
    (h : ∀ c ∈ cs, c ∉ marks) :
    IsPlain (String.ofList (Number.signed sign cs)) := by
  rw [IsPlain, String.toList_ofList]
  cases sign with
  | positive => exact h
  | negative => exact List.forall_mem_cons.mpr ⟨by decide, h⟩

theorem isPlain_plain (x : Float) : IsPlain (Number.plain x) := by
  unfold Number.plain
  split
  · exact (by decide : IsPlain "NaN")
  · exact isPlain_signed (by simp [marks, quotes, brackets])
  · exact isPlain_signed (by simp [marks, quotes, brackets])
  · exact isPlain_signed fun c hc => not_mem_marks_of_mem_positional hc

theorem isPlain_numberText (x : Float) : IsPlain (numberText x) := by
  unfold numberText
  split
  · decide
  · exact isPlain_plain x

theorem isBalanced_pad (depth : Nat) : IsBalanced (pad depth) := by
  refine IsPlain.isBalanced fun c hc => ?_
  rw [pad, String.toList_ofList] at hc
  rw [List.eq_of_mem_replicate hc]
  decide

theorem Shifts.line {depth : Nat} (h : Shifts a text b) :
    Shifts a (line depth text) b :=
  (((isBalanced_pad depth).inside a).append h).append
    (IsPlain.isBalanced (by decide) |>.inside b)

theorem shifts_ofList {cs : List Char}
    (h : Nesting.read ⟨a, .code⟩ cs = some ⟨b, .code⟩) :
    Shifts a (String.ofList cs) b := by
  rw [Shifts, String.toList_ofList, h]

theorem isBalanced_prelude : IsBalanced prelude := by
  unfold IsBalanced prelude
  simp only [List.map_cons, List.map_nil, String.join_cons, String.join_nil]
  refine .append (b := []) (.line (shifts_ofList ?_)) <|
    -- the function of `pairs`
    .append (b := ['\x7d']) (.line (shifts_ofList ?_)) <|
    .append (b := ['\x7d']) (.line (shifts_ofList ?_)) <|
    .append (b := ['\x7d']) (.line (shifts_ofList ?_)) <|
    .append (b := ['\x7d']) (.line (shifts_ofList ?_)) <|
    .append (b := []) (.line (shifts_ofList ?_)) <|
    -- the function of `ipairs`
    .append (b := ['\x7d']) (.line (shifts_ofList ?_)) <|
    .append (b := ['\x7d']) (.line (shifts_ofList ?_)) <|
    .append (b := ['\x7d']) (.line (shifts_ofList ?_)) <|
    .append (b := []) (.line (shifts_ofList ?_)) <|
    .append (b := []) (.line (shifts_ofList ?_)) <|
    .append (b := []) (.line (shifts_ofList ?_)) isBalanced_empty
  all_goals decide +kernel

end Shifts

end LuaCore.Script
