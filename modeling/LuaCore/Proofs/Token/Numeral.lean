import LuaCore.Proofs.Number.Reading
import LuaCore.Proofs.Token.Pull

namespace LuaCore

namespace Numeral

open Char Number

def Opens (first : Char) (rest : List Char) : Prop :=
  first.isDigit = true ∨ first = '.' ∧ rest.head?.any isDigit = true

instance (first : Char) (rest : List Char) : Decidable (Opens first rest) :=
  inferInstanceAs (Decidable (_ ∨ _ ∧ _))

/-- The digits of a numeral and its point, when `rest` follows. A point before
another point is not the numeral's. -/
inductive Mantissa : List Char → List Char → Prop
  | whole {digits rest : List Char} (h : IsRun digits) : Mantissa digits rest
  | point {whole digits rest : List Char}
      (hwhole : ∀ c ∈ whole, c.isDigit = true)
      (hdigits : ∀ c ∈ digits, c.isDigit = true) (hne : whole ++ digits ≠ [])
      (hpoint : (digits ++ rest).head? ≠ some '.') :
      Mantissa (whole ++ '.' :: digits) rest

inductive Written : List Char → List Char → Prop
  | hexadecimal {x : Char} {digits rest : List Char} (hx : x = 'x' ∨ x = 'X')
      (hne : digits ≠ []) (hdigits : ∀ c ∈ digits, isHexDigit c = true) :
      Written ('0' :: x :: digits) rest
  | plain {text rest : List Char} (h : Mantissa text rest) : Written text rest
  | scaled {text exponent rest : List Char}
      (htext : Mantissa text (exponent ++ rest))
      (hexponent : IsExponent exponent) :
      Written (text ++ exponent) rest

/-- The longest numeral that starts a text. -/
structure Longest (cs text rest : List Char) : Prop where
  split : cs = text ++ rest
  written : Written text rest
  longest : ∀ text' rest', cs = text' ++ rest' → Written text' rest' →
    text'.length ≤ text.length

theorem Longest.unique {cs text rest text' rest' : List Char}
    (h : Longest cs text rest) (h' : Longest cs text' rest') :
    text = text' ∧ rest = rest' := by
  have hlength : text.length = text'.length :=
    Nat.le_antisymm (h'.longest _ _ h.split h.written)
      (h.longest _ _ h'.split h'.written)
  exact List.append_inj (h.split.symm.trans h'.split) hlength

def Unsigned (cs : List Char) : Prop := ∀ c ∈ cs.head?, c ≠ '+' ∧ c ≠ '-'

/-- After the text comes a part that would go on with it, if digits
followed the part. -/
inductive Incomplete : List Char → List Char → List Char → Prop
  | hexadecimal {x : Char} {more : List Char} (hx : x = 'x' ∨ x = 'X')
      (hmore : more.head?.any isHexDigit = false) :
      Incomplete ['0'] (x :: more) [x]
  | exponent {text sign more : List Char} {mark : Char}
      (htext : Mantissa text (mark :: (sign ++ more)))
      (hmark : mark = 'e' ∨ mark = 'E') (hsign : IsSign sign)
      (hunsigned : sign = [] → Unsigned more)
      (hmore : more.head?.any isDigit = false) :
      Incomplete text (mark :: (sign ++ more)) (mark :: sign)

/-- The numeral is spoilt by what follows it: the start of a part that would
have made it longer, or else a name. -/
inductive Spoils : List Char → List Char → List Char → Prop
  | part {text rest part : List Char} (h : Incomplete text rest part) :
      Spoils text rest (text ++ part)
  | run {text rest : List Char} (hpart : ∀ part, ¬Incomplete text rest part)
      (hword : rest.head?.any isWordChar = true) :
      Spoils text rest (text ++ rest.takeWhile isWordChar)

/-- The number that a numeral stands for. -/
inductive Denotes : List Char → Float → Prop
  | hexadecimal {x : Char} (hx : x = 'x' ∨ x = 'X') (digits : List Char) :
      Denotes ('0' :: x :: digits) (hexValue digits)
  | decimal {text : List Char} {value : Float}
      (h : unsigned? text = some value) :
      Denotes text value

/-- The digits that start a text with the point among them, and what follows. -/
def mantissa (cs : List Char) : List Char × List Char :=
  match fraction (cs.dropWhile isDigit) with
  | some (digits, rest) => (cs.takeWhile isDigit ++ '.' :: digits, rest)
  | none => (cs.takeWhile isDigit, cs.dropWhile isDigit)

def closed (text rest : List Char) : Except LexFault (List Char) :=
  if rest.head?.any isWordChar then
    .error (malformed (text ++ rest.takeWhile isWordChar))
  else .ok text

def extended (text rest : List Char) : Except LexFault (List Char) :=
  match Exponent.ofText? rest with
  | none => closed text rest
  | some e =>
    if e.digits = [] then .error (malformed (text ++ e.text))
    else closed (text ++ e.text) e.rest

def decimalText (cs : List Char) : Except LexFault (List Char) :=
  extended (mantissa cs).1 (mantissa cs).2

def parsed (parse : List Char → Option Float) (text : List Char) :
    Except LexFault (Float × List Char) :=
  match parse text with
  | some value => .ok (value, text)
  | none => .error (malformed text)

def hexadecimal? : List Char → Option (Char × List Char)
  | '0' :: x :: more => if x = 'x' ∨ x = 'X' then some (x, more) else none
  | _ => none

/-- Reads a numeral, a decimal one by handing its text to `parse`. -/
def scanBy (parse : List Char → Option Float) (cs : List Char) :
    Except LexFault (Float × List Char) :=
  match hexadecimal? cs with
  | some (x, more) => hexadecimal x more
  | none => decimalText cs >>= parsed parse

variable {cs text rest digits more : List Char} {mark : Char} {value : Float}
    {parse : List Char → Option Float}

section Mantissa

theorem Mantissa.isMantissa (h : Mantissa text rest) : IsMantissa text := by
  cases h with
  | whole h => exact .whole h
  | point hwhole hdigits hne hpoint => exact .point hwhole hdigits hne

theorem Mantissa.ne_nil (h : Mantissa text rest) : text ≠ [] := by
  cases h with
  | whole h => exact h.nonempty
  | point => exact List.append_ne_nil_of_right_ne_nil _ (List.cons_ne_nil _ _)

theorem isDigit_of_digits (hdigits : ∀ c ∈ digits, c.isDigit = true)
    (hne : digits ≠ []) :
    (digits ++ rest).head?.any isDigit = true := by
  obtain ⟨d, digits, rfl⟩ := List.exists_cons_of_ne_nil hne
  exact hdigits d List.mem_cons_self

theorem head?_ne_point (h : cs.head?.any isDigit = true) :
    cs.head? ≠ some '.' := by
  intro heq
  rw [heq] at h
  cases h

theorem takeWhile_ne_nil (h : cs.head?.any isDigit = true) :
    cs.takeWhile isDigit ≠ [] := by
  rw [ne_eq, takeWhile_eq_nil_iff_head, h]
  exact Bool.noConfusion

theorem mantissa_append (hdigits : ∀ c ∈ digits, c.isDigit = true) :
    mantissa (digits ++ rest) =
      (digits ++ (mantissa rest).1, (mantissa rest).2) := by
  unfold mantissa
  rw [List.takeWhile_append_of_pos hdigits,
    List.dropWhile_append_of_pos hdigits]
  split
  · simp
  · rfl

theorem mantissa_point (h : rest.head? ≠ some '.') :
    mantissa ('.' :: rest) =
      ('.' :: rest.takeWhile isDigit, rest.dropWhile isDigit) := by
  have hpoint : ∀ more, rest ≠ '.' :: more := by
    rintro more rfl
    exact h rfl
  have hfraction : fraction ('.' :: rest) =
      some (rest.takeWhile isDigit, rest.dropWhile isDigit) :=
    fraction.eq_2 rest hpoint
  have hdrop : ('.' :: rest).dropWhile isDigit = '.' :: rest := rfl
  rw [mantissa, hdrop, hfraction]
  rfl

theorem mantissa_of_head (hdigit : rest.head?.any isDigit = false)
    (hpoint : fraction rest = none) :
    mantissa rest = ([], rest) := by
  have htake : rest.takeWhile isDigit = [] :=
    takeWhile_eq_nil_iff_head.mpr hdigit
  have hdrop : rest.dropWhile isDigit = rest :=
    dropWhile_run_append (fun _ h => absurd h List.not_mem_nil) hdigit
  rw [mantissa, htake, hdrop, hpoint]

theorem mantissa_split (cs : List Char) :
    cs = (mantissa cs).1 ++ (mantissa cs).2 := by
  unfold mantissa
  split
  · next digits rest hfraction =>
    have hdrop : cs.dropWhile isDigit = '.' :: digits ++ rest :=
      (fraction_eq_some hfraction).1
    simpa using eq_run_append hdrop
  · simp

theorem fraction_head (h : fraction cs = some (digits, rest)) :
    (digits ++ rest).head? ≠ some '.' := by
  obtain ⟨rfl, -⟩ := fraction_eq_some h
  intro hhead
  obtain ⟨more, hmore⟩ := List.head?_eq_some_iff.mp hhead
  rw [hmore] at h
  cases h

theorem fraction_of_head (h : cs.head? ≠ some '.') : fraction cs = none :=
  fraction.eq_3 cs (fun _ heq => h (by rw [heq]; rfl))
    (fun _ heq => h (by rw [heq]; rfl))

theorem mantissa_written {first : Char} (h : Opens first rest) :
    Mantissa (mantissa (first :: rest)).1 (mantissa (first :: rest)).2 := by
  rcases h with hfirst | ⟨rfl, hrest⟩
  · have hwhole : IsRun ((first :: rest).takeWhile isDigit) :=
      ⟨takeWhile_ne_nil hfirst, fun _ => List.mem_takeWhile_imp⟩
    unfold mantissa
    split
    · next digits after hfraction =>
      exact .point hwhole.digits (fraction_eq_some hfraction).2
        (List.append_ne_nil_of_left_ne_nil hwhole.nonempty _)
        (fraction_head hfraction)
    · exact .whole hwhole
  · have hpoint := head?_ne_point hrest
    rw [mantissa_point hpoint]
    refine @Mantissa.point [] _ _ nofun (fun _ => List.mem_takeWhile_imp)
      (takeWhile_ne_nil hrest) ?_
    rwa [List.takeWhile_append_dropWhile]

theorem Mantissa.length_le (h : Mantissa text rest) :
    text.length ≤ (mantissa (text ++ rest)).1.length := by
  cases h with
  | whole h =>
    rw [mantissa_append h.digits, List.length_append]
    exact Nat.le_add_right _ _
  | @point whole digits rest hwhole hdigits hne hpoint =>
    rw [List.append_assoc, mantissa_append hwhole, List.cons_append,
      mantissa_point hpoint, List.takeWhile_append_of_pos hdigits]
    simp

theorem Mantissa.eq_mantissa (h : Mantissa text rest)
    (hdigit : rest.head?.any isDigit = false) (hpoint : rest.head? ≠ some '.') :
    mantissa (text ++ rest) = (text, rest) := by
  cases h with
  | whole h =>
    rw [mantissa_append h.digits,
      mantissa_of_head hdigit (fraction_of_head hpoint), List.append_nil]
  | @point whole digits rest hwhole hdigits hne hnext =>
    rw [List.append_assoc, mantissa_append hwhole, List.cons_append,
      mantissa_point hnext, takeWhile_run_append hdigits hdigit,
      dropWhile_run_append hdigits hdigit]

end Mantissa

section Exponent

variable {e : Exponent} {sign : List Char}

structure Exponent.Starts (e : Exponent) (cs : List Char) : Prop where
  split : cs = e.text ++ e.rest
  mark : e.mark = 'e' ∨ e.mark = 'E'
  sign : IsSign e.sign
  unsigned : e.sign = [] → Unsigned (e.digits ++ e.rest)
  digits : ∀ c ∈ e.digits, c.isDigit = true
  boundary : e.rest.head?.any isDigit = false

theorem exists_sign (cs : List Char) :
    ∃ sign more, cs = sign ++ more ∧ IsSign sign ∧
      (sign = [] → Unsigned more) := by
  rcases cs with _ | ⟨c, cs⟩
  · exact ⟨[], [], rfl, .inl rfl, fun _ => nofun⟩
  · by_cases hc : c = '+' ∨ c = '-'
    · refine ⟨[c], cs, rfl, ?_, nofun⟩
      rcases hc with rfl | rfl
      · exact .inr (.inl rfl)
      · exact .inr (.inr rfl)
    · refine ⟨[], c :: cs, rfl, .inl rfl, fun _ d hd => ?_⟩
      cases hd
      exact not_or.mp hc

theorem Exponent.ofText?_mark (hmark : mark = 'e' ∨ mark = 'E')
    (hsign : IsSign sign) (hunsigned : sign = [] → Unsigned more) :
    Exponent.ofText? (mark :: (sign ++ more)) =
      some ⟨mark, sign, more.takeWhile isDigit, more.dropWhile isDigit⟩ := by
  rcases hsign with rfl | rfl | rfl
  · rcases more with _ | ⟨c, more⟩
    · simp [Exponent.ofText?, hmark]
    · have hc : ¬(c = '+' ∨ c = '-') := not_or.mpr (hunsigned rfl c rfl)
      simp only [List.nil_append, Exponent.ofText?, if_pos hmark, if_neg hc]
  · simp only [List.cons_append, List.nil_append, Exponent.ofText?,
      if_pos hmark, true_or, if_true]
  · simp only [List.cons_append, List.nil_append, Exponent.ofText?,
      if_pos hmark, or_true, if_true]

theorem Exponent.starts_of_ofText? (h : Exponent.ofText? cs = some e) :
    e.Starts cs := by
  rcases cs with _ | ⟨mark, more⟩
  · cases h
  · by_cases hmark : mark = 'e' ∨ mark = 'E'
    · obtain ⟨sign, more, rfl, hsign, hunsigned⟩ := exists_sign more
      rw [Exponent.ofText?_mark hmark hsign hunsigned] at h
      cases h
      refine ⟨?_, hmark, hsign, ?_, fun _ => List.mem_takeWhile_imp,
        head?_any_dropWhile more⟩
      · simp [Exponent.text]
      · simpa using hunsigned
    · simp only [Exponent.ofText?, if_neg hmark] at h
      cases h

theorem Exponent.Starts.isExponent (h : e.Starts cs) (hne : e.digits ≠ []) :
    IsExponent e.text :=
  .mk h.mark h.sign ⟨hne, h.digits⟩

/-- What is read as the exponent is no shorter than any exponent that
starts the text. -/
theorem Exponent.ofText?_append {part : List Char} (rest : List Char)
    (h : IsExponent part) :
    ∃ e, Exponent.ofText? (part ++ rest) = some e ∧ e.digits ≠ [] ∧
      part.length ≤ e.text.length := by
  obtain @⟨mark, sign, digits, hmark, hsign, hne, hdigits⟩ := h
  have hunsigned : Unsigned (digits ++ rest) := by
    intro c hc
    have hdigit : (digits ++ rest).head?.any isDigit = true :=
      isDigit_of_digits hdigits hne
    rw [Option.mem_def.mp hc] at hdigit
    constructor
    · rintro rfl
      cases hdigit
    · rintro rfl
      cases hdigit
  have htake : (digits ++ rest).takeWhile isDigit =
      digits ++ rest.takeWhile isDigit :=
    List.takeWhile_append_of_pos hdigits
  have he := Exponent.ofText?_mark hmark hsign fun _ => hunsigned
  refine ⟨_, by simpa using he, ?_, ?_⟩
  · simp [htake, hne]
  · simp [Exponent.text, htake]

end Exponent

section Longest

variable {e : Exponent} {x : Char} {part : List Char}

theorem hexadecimal?_eq_some_iff :
    hexadecimal? cs = some (x, more) ↔
      (x = 'x' ∨ x = 'X') ∧ cs = '0' :: x :: more := by
  constructor
  · intro h
    unfold hexadecimal? at h
    split at h
    · split at h
      · next hx =>
        cases h
        exact ⟨hx, rfl⟩
      · cases h
    · cases h
  · rintro ⟨hx, rfl⟩
    exact if_pos hx

theorem mantissa_of_hexadecimal? (h : hexadecimal? cs = some (x, more)) :
    mantissa cs = (['0'], x :: more) := by
  obtain ⟨hx, rfl⟩ := hexadecimal?_eq_some_iff.mp h
  have hzero : Mantissa ['0'] (x :: more) :=
    .whole ⟨List.cons_ne_nil _ _, List.forall_mem_singleton.mpr rfl⟩
  apply hzero.eq_mantissa
  · rcases hx with rfl | rfl <;> rfl
  · rcases hx with rfl | rfl <;> simp

theorem ofText?_of_hexadecimal? (h : hexadecimal? cs = some (x, more)) :
    Exponent.ofText? (x :: more) = none := by
  obtain ⟨hx, -⟩ := hexadecimal?_eq_some_iff.mp h
  rcases hx with rfl | rfl <;> rfl

theorem Mantissa.eq_mantissa_mark (h : Mantissa text (mark :: rest))
    (hmark : mark = 'e' ∨ mark = 'E') :
    mantissa (text ++ mark :: rest) = (text, mark :: rest) := by
  apply h.eq_mantissa
  · rcases hmark with rfl | rfl <;> rfl
  · rcases hmark with rfl | rfl <;> simp

theorem Written.ne_nil (h : Written text rest) : text ≠ [] := by
  cases h with
  | hexadecimal => exact List.cons_ne_nil _ _
  | plain h => exact h.ne_nil
  | scaled h => exact List.append_ne_nil_of_left_ne_nil h.ne_nil _

theorem Written.length_le (h : Written text rest) :
    (∃ x digits, (x = 'x' ∨ x = 'X') ∧ digits ≠ [] ∧
      (∀ c ∈ digits, isHexDigit c = true) ∧ text = '0' :: x :: digits) ∨
      text.length ≤ (mantissa (text ++ rest)).1.length ∨
      ∃ e, Exponent.ofText? (mantissa (text ++ rest)).2 = some e ∧
        e.digits ≠ [] ∧
        text.length ≤ (mantissa (text ++ rest)).1.length + e.text.length := by
  cases h with
  | hexadecimal hx hne hdigits => exact .inl ⟨_, _, hx, hne, hdigits, rfl⟩
  | plain h => exact .inr (.inl h.length_le)
  | @scaled text exponent rest htext hexponent =>
    obtain ⟨e, he, hne, hlength⟩ := Exponent.ofText?_append rest hexponent
    obtain ⟨hmark, -, -⟩ := hexponent
    -- The mark ends the digits, so that they are all that can stand before it.
    rw [List.append_assoc]
    rw [List.cons_append] at htext he ⊢
    rw [htext.eq_mantissa_mark hmark]
    refine .inr (.inr ⟨e, he, hne, ?_⟩)
    rw [List.length_append]
    exact Nat.add_le_add_left hlength _

/-- The part that is missing its digits is the one that the reader finds. -/
theorem Incomplete.found (h : Incomplete text rest part) :
    (∃ x more, hexadecimal? (text ++ rest) = some (x, more) ∧
      more.takeWhile isHexDigit = [] ∧ part = [x]) ∨
      mantissa (text ++ rest) = (text, rest) ∧ ∃ e,
          Exponent.ofText? rest = some e ∧ e.digits = [] ∧ part = e.text := by
  cases h with
  | @hexadecimal x more hx hmore =>
    exact .inl ⟨x, more, hexadecimal?_eq_some_iff.mpr ⟨hx, rfl⟩,
        takeWhile_eq_nil_iff_head.mpr hmore, rfl⟩
  | @exponent text sign more mark htext hmark hsign hunsigned hmore =>
    have htake : more.takeWhile isDigit = [] :=
      takeWhile_eq_nil_iff_head.mpr hmore
    refine .inr ⟨htext.eq_mantissa_mark hmark, _,
        Exponent.ofText?_mark hmark hsign hunsigned, htake, ?_⟩
    rw [Exponent.text, htake, List.append_nil]

theorem incomplete_of_ofText? (htext : Mantissa text rest)
    (he : Exponent.ofText? rest = some e) (hnone : e.digits = []) :
    Incomplete text rest e.text := by
  have h := Exponent.starts_of_ofText? he
  obtain ⟨mark, sign, digits, after⟩ := e
  obtain rfl : digits = [] := hnone
  obtain ⟨rfl, hmark, hsign, hunsigned, -, hboundary⟩ := h
  simpa [Exponent.text] using Incomplete.exponent
      (by simpa [Exponent.text] using htext) hmark hsign hunsigned hboundary

theorem longest_hexadecimal (h : hexadecimal? cs = some (x, more))
    (hne : more.takeWhile isHexDigit ≠ []) :
    Longest cs ('0' :: x :: more.takeWhile isHexDigit)
      (more.dropWhile isHexDigit) := by
  obtain ⟨hx, hcs⟩ := hexadecimal?_eq_some_iff.mp h
  refine ⟨by simp [hcs], .hexadecimal hx hne (fun _ => List.mem_takeWhile_imp),
    fun text rest hsplit hwritten => ?_⟩
  obtain ⟨y, digits, hy, -, hdigits, rfl⟩ | hlength | ⟨e, he, -⟩ :=
    hwritten.length_le
  · rw [hcs] at hsplit
    obtain ⟨rfl, rfl⟩ : x = y ∧ more = digits ++ rest := by simpa using hsplit
    simp [List.takeWhile_append_of_pos hdigits]
  · rw [← hsplit, mantissa_of_hexadecimal? h] at hlength
    exact Nat.le_trans hlength (by simp)
  · rw [← hsplit, mantissa_of_hexadecimal? h, ofText?_of_hexadecimal? h] at he
    cases he

def Hexless (cs : List Char) : Prop :=
  ∀ x more, hexadecimal? cs = some (x, more) → more.takeWhile isHexDigit = []

theorem Written.length_le_of_hexless (h : Written text rest)
    (hhex : Hexless (text ++ rest)) :
    text.length ≤ (mantissa (text ++ rest)).1.length ∨
      ∃ e, Exponent.ofText? (mantissa (text ++ rest)).2 = some e ∧
        e.digits ≠ [] ∧
        text.length ≤ (mantissa (text ++ rest)).1.length + e.text.length := by
  rcases h.length_le with ⟨x, digits, hx, hne, hdigits, rfl⟩ | hlength
  · have htake :=
      hhex x (digits ++ rest) (hexadecimal?_eq_some_iff.mpr ⟨hx, rfl⟩)
    rw [List.takeWhile_append_of_pos hdigits] at htake
    exact absurd (List.append_eq_nil_iff.mp htake).1 hne
  · exact hlength

/-- The exponent that is read at the start of a text, with its value and what
follows; there may be none. -/
inductive Exponent.Taken : List Char → List Char → Int → List Char → Prop
  | absent {cs : List Char} (h : Exponent.ofText? cs = none) :
      Exponent.Taken cs [] 0 cs
  | present {cs : List Char} {e : Exponent} (h : Exponent.ofText? cs = some e)
      (hne : e.digits ≠ []) :
      Exponent.Taken cs e.text e.value e.rest

theorem Exponent.taken_or_incomplete (cs : List Char) :
    (∃ tail n rest, Exponent.Taken cs tail n rest) ∨
      ∃ e, Exponent.ofText? cs = some e ∧ e.digits = [] := by
  cases he : Exponent.ofText? cs with
  | none => exact .inl ⟨[], 0, cs, .absent he⟩
  | some e =>
    by_cases hdigits : e.digits = []
    · exact .inr ⟨e, rfl, hdigits⟩
    · exact .inl ⟨e.text, e.value, e.rest, .present he hdigits⟩

variable {tail after : List Char} {n : Int} {first : Char} {places : Nat}

theorem Exponent.Taken.split (h : Exponent.Taken cs tail n rest) :
    cs = tail ++ rest := by
  cases h with
  | absent => rfl
  | present h hne => exact (Exponent.starts_of_ofText? h).split

theorem Exponent.Taken.ofText?_self (h : Exponent.Taken cs tail n cs) :
    Exponent.ofText? cs = none := by
  have htail : tail = [] := List.self_eq_append_left.mp h.split
  cases h with
  | absent h => exact h
  | present h hne => exact absurd htail (List.cons_ne_nil _ _)

theorem Exponent.Taken.isExponent (h : Exponent.Taken cs tail n rest) :
    tail = [] ∨ IsExponent tail := by
  cases h with
  | absent => exact .inl rfl
  | present h hne => exact .inr ((Exponent.starts_of_ofText? h).isExponent hne)

theorem Exponent.Taken.mayOpenExponent (h : Exponent.Taken cs tail n rest) :
    MayOpenExponent tail := by
  cases h with
  | absent => exact nofun
  | present h hne => exact (Exponent.ofText?_split h hne).2.1

theorem Exponent.Taken.exponent? (h : Exponent.Taken cs tail n rest) :
    Number.exponent? tail = some n := by
  cases h with
  | absent => rfl
  | present h hne =>
    have hstarts := Exponent.starts_of_ofText? h
    exact exponent?_text hstarts.mark hstarts.sign ⟨hne, hstarts.digits⟩

theorem Exponent.Taken.extended (h : Exponent.Taken cs tail n rest)
    (text : List Char) :
    extended text cs = closed (text ++ tail) rest := by
  cases h with
  | absent h => simp only [Numeral.extended, h, List.append_nil]
  | present h hne => simp only [Numeral.extended, h, if_neg hne]

theorem Exponent.Taken.scaled (h : Exponent.Taken cs tail n rest)
    (text digits : List Char) (places : Nat) :
    scaled text digits places cs = endingAt (text ++ tail)
        (Decimal.toFloat ⟨Decimal.natOfDigits digits, n - places⟩) rest := by
  cases h with
  | absent h => simp only [Numeral.scaled, h, List.append_nil]
  | present h hne => simp only [Numeral.scaled, h, if_neg hne]

theorem Exponent.Taken.longest
    (h : Exponent.Taken (mantissa (first :: rest)).2 tail n after)
    (hopens : Opens first rest) (hhex : Hexless (first :: rest)) :
    Longest (first :: rest) ((mantissa (first :: rest)).1 ++ tail) after := by
  have hsplit : first :: rest =
      (mantissa (first :: rest)).1 ++ tail ++ after := by
    rw [List.append_assoc, ← h.split]
    exact mantissa_split _
  refine ⟨hsplit, ?_, fun text' rest' hsplit' hwritten => ?_⟩
  · have hmantissa := mantissa_written hopens
    rw [h.split] at hmantissa
    rcases h.isExponent with rfl | hexponent
    · rw [List.append_nil]
      exact .plain hmantissa
    · exact .scaled hmantissa hexponent
  · rw [List.length_append]
    rw [hsplit'] at hhex
    obtain hlength | ⟨e, he, hne, hlength⟩ := hwritten.length_le_of_hexless hhex
    · rw [← hsplit'] at hlength
      exact Nat.le_add_right_of_le hlength
    · rw [← hsplit'] at he hlength
      cases h with
      | absent h =>
        rw [h] at he
        cases he
      | present h =>
        rw [h] at he
        cases he
        exact hlength

theorem longest_mantissa
    (he : Exponent.ofText? (mantissa (first :: rest)).2 = some e)
    (hnone : e.digits = []) (hopens : Opens first rest)
    (hhex : Hexless (first :: rest)) :
    Longest (first :: rest) (mantissa (first :: rest)).1
      (mantissa (first :: rest)).2 := by
  refine ⟨mantissa_split _, .plain (mantissa_written hopens),
    fun text' rest' hsplit' hwritten => ?_⟩
  rw [hsplit'] at hhex
  obtain hlength | ⟨e', he', hne, -⟩ := hwritten.length_le_of_hexless hhex
  · rwa [← hsplit'] at hlength
  · rw [← hsplit', he] at he'
    cases he'
    exact absurd hnone hne

end Longest

section Reading

variable {e : Exponent} {x first : Char} {part tail after : List Char} {n : Int}
    {places : Nat}

def ReadAs (text rest : List Char)
    (result : Except LexFault (Float × List Char)) : Prop :=
  (∀ spoilt, Spoils text rest spoilt → result = .error (malformed spoilt)) ∧
    ((∀ spoilt, ¬Spoils text rest spoilt) →
      ∃ value, Denotes text value ∧ result = .ok (value, text))

theorem readAs_endingAt (hpart : ∀ part, ¬Incomplete text rest part)
    (hvalue : Denotes text value) :
    ReadAs text rest (endingAt text value rest) := by
  constructor
  · intro spoilt hspoils
    cases hspoils with
    | part hincomplete => exact absurd hincomplete (hpart _)
    | run hnone hword => exact if_pos hword
  · intro hclean
    refine ⟨value, hvalue, if_neg fun hword => ?_⟩
    exact hclean _ (.run hpart hword)

theorem readAs_malformed (h : Incomplete text rest part)
    (hunique : ∀ part', Incomplete text rest part' → part' = part) :
    ReadAs text rest (.error (malformed (text ++ part))) := by
  constructor
  · intro spoilt hspoils
    cases hspoils with
    | part hpart => rw [hunique _ hpart]
    | run hnone hword => exact absurd h (hnone part)
  · intro hclean
    exact absurd (Spoils.part h) (hclean _)

theorem scan_eq_hexadecimal
    (h : hexadecimal? (first :: rest) = some (x, more)) :
    scan first rest = hexadecimal x more := by
  obtain ⟨hx, hcs⟩ := hexadecimal?_eq_some_iff.mp h
  obtain ⟨rfl, rfl⟩ := List.cons.inj hcs
  have hmark : '0' = '0' ∧ (x = 'x' ∨ x = 'X') := ⟨rfl, hx⟩
  exact if_pos hmark

/-- A mark without digits behind it spoils the zero before it. -/
theorem readAs_mark (h : hexadecimal? (first :: rest) = some (x, more))
    (hopens : Opens first rest) (hnone : more.takeWhile isHexDigit = []) :
    Longest (first :: rest) ['0'] (x :: more) ∧
      ReadAs ['0'] (x :: more) (hexadecimal x more) := by
  have hx := (hexadecimal?_eq_some_iff.mp h).1
  have hlongest : Longest (first :: rest) ['0'] (x :: more) := by
    have htaken :
        Exponent.Taken (mantissa (first :: rest)).2 [] 0 (x :: more) := by
      rw [mantissa_of_hexadecimal? h]
      exact .absent (ofText?_of_hexadecimal? h)
    have hhex : Hexless (first :: rest) := by
      intro y more' hmore
      cases h.symm.trans hmore
      exact hnone
    simpa [mantissa_of_hexadecimal? h] using htaken.longest hopens hhex
  refine ⟨hlongest, ?_⟩
  rw [hexadecimal, if_pos hnone]
  refine readAs_malformed (.hexadecimal hx (takeWhile_eq_nil_iff_head.mp hnone))
    fun part hpart => ?_
  obtain ⟨y, more', hmore, -, rfl⟩ | ⟨-, e, he, -⟩ := hpart.found
  · rw [← hlongest.split] at hmore
    cases h.symm.trans hmore
    rfl
  · rw [ofText?_of_hexadecimal? h] at he
    cases he

theorem readAs_hexadecimal (h : hexadecimal? (first :: rest) = some (x, more))
    (hne : more.takeWhile isHexDigit ≠ []) :
    ReadAs ('0' :: x :: more.takeWhile isHexDigit) (more.dropWhile isHexDigit)
      (hexadecimal x more) := by
  rw [hexadecimal, if_neg hne]
  refine readAs_endingAt (fun part hpart => ?_)
    (.hexadecimal (hexadecimal?_eq_some_iff.mp h).1 _)
  have hfound := hpart.found
  rw [← (longest_hexadecimal h hne).split, mantissa_of_hexadecimal? h] at hfound
  obtain ⟨y, more', hmore, htake, -⟩ | ⟨heq, -⟩ := hfound
  · cases h.symm.trans hmore
    exact hne htake
  · simp at heq

/-- The digits of the text, with a point before the last `places` of them,
whatever exponent follows. -/
def Measures (text digits : List Char) (places : Nat) : Prop :=
  ∀ tail, MayOpenExponent tail →
    unsigned? (text ++ tail) = (exponent? tail).map fun n =>
        Decimal.toFloat ⟨Decimal.natOfDigits digits, n - places⟩

theorem scan_eq_decimal (hfirst : first.isDigit = true)
    (h : hexadecimal? (first :: rest) = none) :
    scan first rest = decimal first rest := by
  have hpoint : first ≠ '.' := by
    rintro rfl
    cases hfirst
  rw [scan_eq, if_neg hpoint]
  split
  · next x more =>
    refine if_neg fun hx => ?_
    rw [hexadecimal?_eq_some_iff.mpr ⟨hx.2, congrArg (· :: x :: more) hx.1⟩]
      at h
    cases h
  · rfl

theorem exists_scaled (hopens : Opens first rest) :
    ∃ digits places, Measures (mantissa (first :: rest)).1 digits places ∧
      (hexadecimal? (first :: rest) = none →
        scan first rest = scaled (mantissa (first :: rest)).1 digits places
            (mantissa (first :: rest)).2) := by
  rcases hopens with hfirst | ⟨rfl, hrest⟩
  · have hwhole : IsRun (first :: rest.takeWhile isDigit) :=
      ⟨List.cons_ne_nil _ _,
        List.forall_mem_cons.mpr ⟨hfirst, fun _ => List.mem_takeWhile_imp⟩⟩
    have hdecimal := @scan_eq_decimal rest first hfirst
    unfold decimal at hdecimal
    rw [mantissa, List.takeWhile_cons_of_pos hfirst,
      List.dropWhile_cons_of_pos hfirst]
    cases hfraction : fraction (rest.dropWhile isDigit) with
    | some found =>
      obtain ⟨digits, more⟩ := found
      have hdigits := (fraction_eq_some hfraction).2
      have hne := List.append_ne_nil_of_left_ne_nil hwhole.nonempty digits
      rw [hfraction] at hdecimal
      refine ⟨_, digits.length, fun tail htail => ?_, hdecimal⟩
      rw [List.append_assoc]
      exact unsigned?_point_append hwhole.digits hdigits hne htail
    | none =>
      rw [hfraction] at hdecimal
      refine ⟨_, 0, fun tail htail => ?_, hdecimal⟩
      rw [unsigned?_whole_append hwhole htail]
      simp
  · have hwhole : ∀ c ∈ ([] : List Char), c.isDigit = true :=
      fun _ hc => absurd hc List.not_mem_nil
    have hne := takeWhile_ne_nil hrest
    rw [mantissa_point (head?_ne_point hrest), scan_eq, if_pos rfl]
    exact ⟨_, _, fun tail htail => unsigned?_point_append hwhole
        (fun _ => List.mem_takeWhile_imp) hne htail, fun _ => rfl⟩

theorem Measures.unsigned? (h : Measures text digits places)
    (htaken : Exponent.Taken cs tail n rest) :
    unsigned? (text ++ tail) =
      some (Decimal.toFloat ⟨Decimal.natOfDigits digits, n - places⟩) := by
  rw [h tail htaken.mayOpenExponent, htaken.exponent?]
  rfl

theorem closed_bind_parsed (h : parse text = some value) :
    closed text rest >>= parsed parse = endingAt text value rest := by
  unfold closed endingAt
  split
  · rfl
  · simp [bind, Except.bind, parsed, h]

theorem Measures.scaled_eq (h : Measures text digits places) (cs : List Char) :
    scaled text digits places cs =
      extended text cs >>= parsed Number.unsigned? := by
  obtain ⟨tail, n, rest, htaken⟩ | ⟨e, he, hnone⟩ :=
    Exponent.taken_or_incomplete cs
  · rw [htaken.scaled, htaken.extended, closed_bind_parsed (h.unsigned? htaken)]
  · simp only [scaled, extended, he, if_pos hnone]
    rfl

theorem closed_eq_ok (h : closed text rest = .ok digits) : digits = text := by
  unfold closed at h
  split at h
  · cases h
  · cases h
    rfl

/-- What the digits and the exponent make is the text of a number, and its
reader reads it. -/
theorem Measures.extended_eq_ok (h : Measures text digits places)
    (htext : IsMantissa text) (hextended : extended text cs = .ok more) :
    IsText more ∧ ∃ value, Number.unsigned? more = some value := by
  obtain ⟨tail, n, rest, htaken⟩ | ⟨e, he, hnone⟩ :=
    Exponent.taken_or_incomplete cs
  · rw [htaken.extended] at hextended
    rw [closed_eq_ok hextended]
    have hsign : IsSign [] := .inl rfl
    exact ⟨.decimal hsign htext htaken.isExponent, _, h.unsigned? htaken⟩
  · simp only [extended, he, if_pos hnone] at hextended
    cases hextended

theorem scan_eq_scanBy (hopens : Opens first rest) :
    scan first rest = scanBy Number.unsigned? (first :: rest) := by
  unfold scanBy
  cases h : hexadecimal? (first :: rest) with
  | some found => exact scan_eq_hexadecimal h
  | none =>
    obtain ⟨digits, places, hmeasures, hscan⟩ := exists_scaled hopens
    exact (hscan h).trans (hmeasures.scaled_eq _)

theorem readAs_decimal (hopens : Opens first rest)
    (h : hexadecimal? (first :: rest) = none) :
    ∃ text after, Longest (first :: rest) text after ∧
      ReadAs text after (scan first rest) := by
  have hhex : Hexless (first :: rest) := by
    intro x more hsome
    rw [h] at hsome
    cases hsome
  obtain ⟨digits, places, hmeasures, hscan⟩ := exists_scaled hopens
  obtain ⟨tail, n, after, htaken⟩ | ⟨e, he, hnone⟩ :=
    Exponent.taken_or_incomplete (mantissa (first :: rest)).2
  · have hlongest := htaken.longest hopens hhex
    refine ⟨_, _, hlongest, ?_⟩
    rw [hscan h, htaken.scaled]
    refine readAs_endingAt ?_ (.decimal (hmeasures.unsigned? htaken))
    intro part hpart
    have hfound := hpart.found
    rw [← hlongest.split] at hfound
    obtain ⟨x, more, hsome, -⟩ | ⟨heq, e, he, hnone, -⟩ := hfound
    · rw [h] at hsome
      cases hsome
    · -- What is read as the exponent would be empty, and yet a mark would
      -- follow the digits.
      have hafter : (mantissa (first :: rest)).2 = after :=
        congrArg Prod.snd heq
      rw [hafter] at htaken
      rw [htaken.ofText?_self] at he
      cases he
  · refine ⟨_, _, longest_mantissa he hnone hopens hhex, ?_⟩
    simp only [hscan h, scaled, he, if_pos hnone]
    refine readAs_malformed (incomplete_of_ofText?
        (mantissa_written hopens) he hnone) fun part hpart => ?_
    have hfound := hpart.found
    rw [← mantissa_split] at hfound
    obtain ⟨x, more, hsome, -⟩ | ⟨-, e', he', -, rfl⟩ := hfound
    · rw [h] at hsome
      cases hsome
    · rw [he] at he'
      cases he'
      rfl

theorem exists_longest (hopens : Opens first rest) :
    ∃ text after, Longest (first :: rest) text after ∧
      ReadAs text after (scan first rest) := by
  cases h : hexadecimal? (first :: rest) with
  | none => exact readAs_decimal hopens h
  | some found =>
    obtain ⟨x, more⟩ := found
    rw [scan_eq_hexadecimal h]
    by_cases hdigits : more.takeWhile isHexDigit = []
    · exact ⟨_, _, readAs_mark h hopens hdigits⟩
    · exact ⟨_, _, longest_hexadecimal h hdigits, readAs_hexadecimal h hdigits⟩

theorem decimalText_eq_ok (hopens : Opens first rest)
    (h : decimalText (first :: rest) = .ok text) :
    IsText text ∧ ∃ value, Number.unsigned? text = some value := by
  obtain ⟨digits, places, hmeasures, -⟩ := exists_scaled hopens
  exact hmeasures.extended_eq_ok (mantissa_written hopens).isMantissa h

theorem scan_of_mantissa {tail : List Char} (h : Mantissa (first :: tail) rest)
    (hfirst : first.isDigit = true) (hword : rest.head?.any isWordChar = false)
    (hpoint : rest.head? ≠ some '.') :
    ∃ value, Number.unsigned? (first :: tail) = some value ∧
      scan first (tail ++ rest) = .ok (value, first :: tail) := by
  have hdigit : rest.head?.any isDigit = false := by
    cases rest with
    | nil => rfl
    | cons c more =>
      exact Bool.eq_false_iff.mpr fun hc =>
        Bool.eq_false_iff.mp hword (Lexeme.isWordChar_of_isDigit hc)
  have hmantissa : mantissa (first :: (tail ++ rest)) = (first :: tail, rest) :=
    h.eq_mantissa hdigit hpoint
  have hdecimal : hexadecimal? (first :: (tail ++ rest)) = none := by
    refine Option.eq_none_iff_forall_ne_some.mpr fun ⟨x, more⟩ hsome => ?_
    have hmark := (hexadecimal?_eq_some_iff.mp hsome).1
    rw [mantissa_of_hexadecimal? hsome] at hmantissa
    cases hmantissa
    rcases hmark with rfl | rfl <;> cases hword
  have htaken : Exponent.Taken rest [] 0 rest := by
    refine .absent (Option.eq_none_iff_forall_ne_some.mpr fun e he => ?_)
    have hstarts := Exponent.starts_of_ofText? he
    rw [hstarts.split] at hword
    rcases hstarts.mark with hmark | hmark <;>
      simp [Exponent.text, hmark, isWordChar] at hword
  obtain ⟨digits, places, hmeasures, hscan⟩ :=
    @exists_scaled (tail ++ rest) first (.inl hfirst)
  rw [hmantissa] at hmeasures hscan
  have hvalue := hmeasures.unsigned? htaken
  rw [List.append_nil] at hvalue
  refine ⟨_, hvalue, (hscan hdecimal).trans ?_⟩
  rw [htaken.scaled, List.append_nil, endingAt,
    if_neg (Bool.eq_false_iff.mp hword)]

end Reading

theorem not_spoils_point {spoilt : List Char} :
    ¬Spoils text ('.' :: rest) spoilt := by
  intro h
  cases h with
  | part hpart =>
    cases hpart with
    | hexadecimal hx => rcases hx with h | h <;> exact absurd h (by decide)
    | exponent _ hmark => rcases hmark with h | h <;> exact absurd h (by decide)
  | run _ hword => cases hword

end Numeral

namespace Tokens

open Numeral

variable {first : Char} {rest text after : List Char} {x : Float}
    {p q : Position}

theorem scan_of_opens (h : Opens first rest) :
    Lexeme.scan first rest = Lexeme.numeral first rest := by
  rcases h with hdigit | ⟨rfl, hrest⟩
  · rw [Lexeme.scan_wordChar (Lexeme.isWordChar_of_isDigit hdigit),
      if_pos hdigit]
  · obtain ⟨d, rest, rfl⟩ : ∃ d more, rest = d :: more :=
      List.exists_cons_of_ne_nil (by rintro rfl; cases hrest)
    exact Lexeme.dots_of_isDigit hrest

theorem isBlank_of_opens (h : Opens first rest) : isBlank first = false := by
  rcases h with hdigit | ⟨rfl, -⟩
  · exact Lexeme.isBlank_of_isWordChar (Lexeme.isWordChar_of_isDigit hdigit)
  · rfl

theorem pull_numeral (h : Opens first rest)
    (hsplit : first :: rest = text ++ after) (htext : text ≠ [])
    (hscan : Numeral.scan first rest = .ok (x, text)) :
    pull p (first :: rest) = .token ⟨.number x, p⟩ (p.after text) after := by
  obtain ⟨c, used, rfl⟩ := List.exists_cons_of_ne_nil htext
  obtain ⟨rfl, rfl⟩ := List.cons.inj hsplit
  rw [pull_eq_scan (isBlank_of_opens h), scan_of_opens h, Lexeme.numeral, hscan]
  simp [bind, Except.bind, pure, Except.pure]

theorem pull_malformed {fault : LexFault} (h : Opens first rest)
    (hscan : Numeral.scan first rest = .error fault) :
    pull p (first :: rest) = .broken ⟨fault, p⟩ := by
  rw [pull_eq_scan (isBlank_of_opens h), scan_of_opens h, Lexeme.numeral, hscan]
  rfl

/-- Two points are a concatenation, and three are an ellipsis. -/
theorem pull_points (q : Position) (more : List Char) :
    pull q ('.' :: '.' :: more) =
      if more.head? = some '.' then
        .token ⟨.symbol .ellipsis, q⟩ (q.after ['.', '.', '.']) more.tail
      else .token ⟨.symbol .concat, q⟩ (q.after ['.', '.']) more := by
  split
  · next hthird =>
    obtain ⟨more, rfl⟩ := List.head?_eq_some_iff.mp hthird
    rfl
  · next hthird =>
    have hdots : Lexeme.dots ('.' :: more) = .ok (.symbol .concat, 1) :=
      Lexeme.dots.eq_2 more fun _ heq => hthird (by rw [heq]; rfl)
    have hscan : Lexeme.scan '.' ('.' :: more) = Lexeme.dots ('.' :: more) :=
      rfl
    rw [pull_eq_scan rfl, hscan, hdots]
    rfl

/-- The longest numeral is one token, unless what follows spoils it, and two
points behind it are no part of it. A decimal is read by its text, which is
always the text of a number. -/
theorem numeral_longest (h : Opens first rest) (p : Position) :
    (∃ text after, Longest (first :: rest) text after ∧
      (∀ spoilt, Spoils text after spoilt →
        pull p (first :: rest) =
          .broken ⟨.malformedNumber (String.ofList spoilt), p⟩) ∧
      ((∀ spoilt, ¬Spoils text after spoilt) →
        ∃ x, Denotes text x ∧
          pull p (first :: rest) = .token ⟨.number x, p⟩ (p.after text) after) ∧
      ∀ more, after = '.' :: '.' :: more →
        (∃ x, Denotes text x ∧
          pull p (first :: rest) =
            .token ⟨.number x, p⟩ (p.after text) after) ∧
        pull (p.after text) after =
          if more.head? = some '.' then
            .token ⟨.symbol .ellipsis, p.after text⟩
              ((p.after text).after ['.', '.', '.']) more.tail
          else
            .token ⟨.symbol .concat, p.after text⟩
              ((p.after text).after ['.', '.']) more) ∧
    (∀ text, decimalText (first :: rest) = .ok text →
      Number.IsText text ∧ ∃ x, Number.unsigned? text = some x) ∧
    Numeral.scan first rest = scanBy Number.unsigned? (first :: rest) := by
  refine ⟨?_, fun text htext => decimalText_eq_ok h htext, scan_eq_scanBy h⟩
  obtain ⟨text, after, hlongest, hspoilt, hclean⟩ := exists_longest h
  have hread (hnot : ∀ spoilt, ¬Spoils text after spoilt) :
      ∃ x, Denotes text x ∧
        pull p (first :: rest) =
          .token ⟨.number x, p⟩ (p.after text) after := by
    obtain ⟨x, hx, hscan⟩ := hclean hnot
    exact ⟨x, hx, pull_numeral h hlongest.split hlongest.written.ne_nil hscan⟩
  refine ⟨text, after, hlongest,
    fun spoilt hspoils => pull_malformed h (hspoilt spoilt hspoils), hread, ?_⟩
  rintro more rfl
  exact ⟨hread fun spoilt => not_spoils_point, pull_points _ more⟩

/-- The longest numeral in `1..2` is `1`. -/
theorem numeral_longest_concat :
    Opens '1' ['.', '.', '2'] ∧
      Longest ['1', '.', '.', '2'] ['1'] ['.', '.', '2'] ∧
      (∃ x, Denotes ['1'] x ∧ pull .start ['1', '.', '.', '2'] =
          .token ⟨.number x, .start⟩ ⟨1, 2⟩ ['.', '.', '2']) ∧
      pull ⟨1, 2⟩ ['.', '.', '2'] =
        .token ⟨.symbol .concat, ⟨1, 2⟩⟩ ⟨1, 4⟩ ['2'] := by
  have hopens : Opens '1' ['.', '.', '2'] := by decide
  have htaken : Exponent.Taken (mantissa ['1', '.', '.', '2']).2 [] 0
      ['.', '.', '2'] := .absent rfl
  have hone : Longest ['1', '.', '.', '2'] ['1'] ['.', '.', '2'] :=
    htaken.longest hopens nofun
  obtain ⟨⟨text, after, hlongest, -, -, hpoints⟩, -⟩ :=
    numeral_longest hopens .start
  obtain ⟨rfl, rfl⟩ := hone.unique hlongest
  exact ⟨hopens, hone, hpoints ['2'] rfl⟩

example : pull .start ['1', 'e', '+', 'x'] =
      .broken ⟨.malformedNumber "1e+", .start⟩ := by
  decide

end Tokens

end LuaCore
