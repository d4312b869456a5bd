import LuaCore.Token.Scan
import Mathlib.Data.List.TakeWhile

/-! What is recognised at the start of a text is recognised just the same when
the text ends with it. -/

namespace LuaCore

section Runs

variable {α : Type} {p : α → Bool} {run rest : List α}

theorem takeWhile_run_append (hrun : ∀ a ∈ run, p a = true)
    (hrest : rest.head?.any p = false) :
    (run ++ rest).takeWhile p = run := by
  rw [List.takeWhile_append_of_pos hrun]
  cases rest with
  | nil => simp
  | cons a rest =>
    have ha : p a = false := hrest
    simp [ha]

theorem dropWhile_run_append (hrun : ∀ a ∈ run, p a = true)
    (hrest : rest.head?.any p = false) :
    (run ++ rest).dropWhile p = rest := by
  rw [List.dropWhile_append_of_pos hrun]
  cases rest with
  | nil => rfl
  | cons a rest =>
    have ha : p a = false := hrest
    simp [ha]

theorem head?_any_dropWhile (l : List α) :
    (l.dropWhile p).head?.any p = false := by
  have h := List.head?_dropWhile_not p l
  cases hhead : (l.dropWhile p).head? with
  | none => rfl
  | some a => simpa [hhead] using h

theorem takeWhile_eq_nil_iff_head {l : List α} :
    l.takeWhile p = [] ↔ l.head?.any p = false := by
  cases l with
  | nil => simp
  | cons a l => simp [List.takeWhile_cons]

theorem dropWhile_takeWhile (l : List α) : (l.takeWhile p).dropWhile p = [] :=
  List.dropWhile_eq_nil_iff.mpr fun _ => List.mem_takeWhile_imp

theorem eq_run_append {l used more : List α}
    (h : l.dropWhile p = used ++ more) :
    l = l.takeWhile p ++ used ++ more := by
  rw [List.append_assoc, ← h]
  exact List.takeWhile_append_dropWhile.symm

end Runs

namespace Numeral

open Char

variable {text mantissa digits rest : List Char} {value v : Float}
    {places : Nat}

theorem endingAt_eq_ok (h : endingAt text value rest = .ok (v, digits)) :
    v = value ∧ digits = text := by
  unfold endingAt at h
  split at h
  · cases h
  · cases h
    exact ⟨rfl, rfl⟩

@[simp] theorem endingAt_nil : endingAt text value [] = .ok (value, text) := rfl

def MayOpenExponent (cs : List Char) : Prop := ∀ c ∈ cs.head?, c = 'e' ∨ c = 'E'

theorem MayOpenExponent.not_isDigit (h : MayOpenExponent rest) :
    rest.head?.any isDigit = false := by
  cases rest with
  | nil => rfl
  | cons c cs =>
    rcases h c rfl with rfl | rfl
    · rfl
    · rfl

theorem MayOpenExponent.fraction_eq_none (h : MayOpenExponent rest) :
    fraction rest = none := by
  cases rest with
  | nil => rfl
  | cons c cs =>
    rcases h c rfl with rfl | rfl
    · rfl
    · rfl

theorem Exponent.ofText?_split {e : Exponent}
    (h : Exponent.ofText? rest = some e) (hdigits : e.digits ≠ []) :
    rest = e.text ++ e.rest ∧ MayOpenExponent e.text ∧
      Exponent.ofText? e.text = some { e with rest := [] } := by
  unfold Exponent.ofText? at h
  split at h
  · next mark rest =>
    split at h
    · next hmark =>
      split at h
      · next sign more =>
        split at h
        · next hsign =>
          cases h
          refine ⟨by simp [text], by simpa [MayOpenExponent, text] using hmark,
            ?_⟩
          simp [Exponent.ofText?, text, hmark, hsign, dropWhile_takeWhile,
            List.takeWhile_idem]
        · next hsign =>
          cases h
          refine ⟨by simp [text], by simpa [MayOpenExponent, text] using hmark,
            ?_⟩
          -- The first digit stands where a sign could stand.
          have hfirst : sign.isDigit = true := by
            by_contra hdigit
            exact hdigits (List.takeWhile_cons_of_neg hdigit)
          simp [Exponent.ofText?, text, hmark, hsign, hfirst,
            dropWhile_takeWhile, List.takeWhile_idem]
      · cases h
        exact absurd rfl hdigits
    · cases h
  · cases h

theorem scaled_split (h : scaled mantissa digits places rest = .ok (v, text)) :
    ∃ used more, rest = used ++ more ∧ text = mantissa ++ used ∧
      MayOpenExponent used ∧
      scaled mantissa digits places used = .ok (v, text) := by
  unfold scaled at h
  split at h
  · obtain ⟨rfl, rfl⟩ := endingAt_eq_ok h
    exact ⟨[], rest, rfl, by simp, nofun, by simp [scaled, Exponent.ofText?]⟩
  · next e he =>
    split at h
    · cases h
    · next hdigits =>
      obtain ⟨rfl, rfl⟩ := endingAt_eq_ok h
      obtain ⟨hrest, hmark, htext⟩ := Exponent.ofText?_split he hdigits
      refine ⟨e.text, e.rest, hrest, rfl, hmark, ?_⟩
      unfold scaled
      rw [htext]
      simp [hdigits, Exponent.text, Exponent.value]

theorem fraction_eq_some {more : List Char}
    (h : fraction rest = some (digits, more)) :
    rest = '.' :: (digits ++ more) ∧ ∀ c ∈ digits, c.isDigit = true := by
  unfold fraction at h
  split at h
  · cases h
  · cases h
    exact ⟨by simp, fun _ => List.mem_takeWhile_imp⟩
  · cases h

theorem fraction_append {used : List Char}
    (hdigits : ∀ c ∈ digits, c.isDigit = true) (hused : MayOpenExponent used) :
    fraction ('.' :: (digits ++ used)) = some (digits, used) := by
  have hhead : ∀ more, digits ++ used ≠ '.' :: more := by
    intro more heq
    cases digits with
    | nil =>
      rcases hused '.' (by simp_all) with h | h
      · exact absurd h (by decide)
      · exact absurd h (by decide)
    | cons d digits =>
      obtain ⟨rfl, -⟩ := List.cons.inj heq
      exact absurd (hdigits '.' (by simp)) (by decide)
  rw [fraction.eq_2 _ hhead, takeWhile_run_append hdigits hused.not_isDigit,
    dropWhile_run_append hdigits hused.not_isDigit]

def decimal (first : Char) (rest : List Char) :
    Except LexFault (Float × List Char) :=
  let whole := first :: rest.takeWhile isDigit
  match fraction (rest.dropWhile isDigit) with
  | some (digits, more) =>
    scaled (whole ++ '.' :: digits) (whole ++ digits) digits.length more
  | none => scaled whole whole 0 (rest.dropWhile isDigit)

theorem scan_eq (first : Char) (rest : List Char) :
    scan first rest =
      if first = '.' then
        scaled ('.' :: rest.takeWhile isDigit) (rest.takeWhile isDigit)
          (rest.takeWhile isDigit).length (rest.dropWhile isDigit)
      else match rest with
        | x :: more =>
          if first = '0' ∧ (x = 'x' ∨ x = 'X') then hexadecimal x more
          else decimal first rest
        | [] => decimal first rest := rfl

theorem decimal_split {first : Char} (h : decimal first rest = .ok (v, text)) :
    ∃ used more, rest = used ++ more ∧ text = first :: used ∧
      decimal first used = .ok (v, text) := by
  unfold decimal at h
  have hwhole : ∀ c ∈ rest.takeWhile isDigit, isDigit c = true :=
    fun _ => List.mem_takeWhile_imp
  split at h
  · next digits more hfraction =>
    obtain ⟨hrest, hdigits⟩ := fraction_eq_some hfraction
    obtain ⟨used, after, rfl, rfl, hmark, hscaled⟩ := scaled_split h
    have hpoint : ('.' :: (digits ++ used)).head?.any isDigit = false := rfl
    refine ⟨rest.takeWhile isDigit ++ '.' :: (digits ++ used), after, ?_,
      by simp, ?_⟩
    · apply eq_run_append
      simpa using hrest
    · unfold decimal
      rw [takeWhile_run_append hwhole hpoint,
        dropWhile_run_append hwhole hpoint, fraction_append hdigits hmark]
      exact hscaled
  · obtain ⟨used, after, hrest, rfl, hmark, hscaled⟩ := scaled_split h
    refine ⟨rest.takeWhile isDigit ++ used, after, eq_run_append hrest, by simp,
      ?_⟩
    unfold decimal
    rw [takeWhile_run_append hwhole hmark.not_isDigit,
      dropWhile_run_append hwhole hmark.not_isDigit, hmark.fraction_eq_none]
    exact hscaled

theorem hexadecimal_split {x : Char} (h : hexadecimal x rest = .ok (v, text)) :
    ∃ used more, rest = used ++ more ∧ text = '0' :: x :: used ∧
      hexadecimal x used = .ok (v, text) := by
  unfold hexadecimal at h
  dsimp only at h
  split at h
  · cases h
  · next hdigits =>
    obtain ⟨rfl, rfl⟩ := endingAt_eq_ok h
    refine ⟨rest.takeWhile isHexDigit, rest.dropWhile isHexDigit, by simp, rfl,
      ?_⟩
    simp [hexadecimal, hdigits, List.takeWhile_idem, dropWhile_takeWhile]

theorem scan_split {first : Char} (h : scan first rest = .ok (v, text)) :
    ∃ used more, rest = used ++ more ∧ text = first :: used ∧
      scan first used = .ok (v, text) := by
  by_cases hpoint : first = '.'
  · rw [scan_eq, if_pos hpoint] at h
    obtain ⟨used, more, hrest, rfl, hmark, hscaled⟩ := scaled_split h
    have hdigits : ∀ c ∈ rest.takeWhile isDigit, isDigit c = true :=
      fun _ => List.mem_takeWhile_imp
    refine ⟨rest.takeWhile isDigit ++ used, more, eq_run_append hrest,
      by simp [hpoint], ?_⟩
    rw [scan_eq, if_pos hpoint, takeWhile_run_append hdigits hmark.not_isDigit,
      dropWhile_run_append hdigits hmark.not_isDigit]
    exact hscaled
  · simp only [scan_eq, if_neg hpoint] at h ⊢
    cases rest with
    | nil =>
      obtain ⟨used, more, hrest, htext, hdecimal⟩ := decimal_split h
      obtain ⟨rfl, rfl⟩ := List.append_eq_nil_iff.mp hrest.symm
      exact ⟨[], [], rfl, htext, hdecimal⟩
    | cons x rest =>
      dsimp only at h
      split at h
      · next hhex =>
        obtain ⟨used, more, rfl, rfl, hused⟩ := hexadecimal_split h
        refine ⟨x :: used, more, rfl, by rw [hhex.1], ?_⟩
        dsimp only
        rw [if_pos hhex]
        exact hused
      · next hhex =>
        obtain ⟨used, more, hrest, htext, hdecimal⟩ := decimal_split h
        refine ⟨used, more, hrest, htext, ?_⟩
        cases used with
        | nil => exact hdecimal
        | cons y used =>
          obtain ⟨rfl, -⟩ := List.cons.inj hrest
          dsimp only
          rw [if_neg hhex]
          exact hdecimal

end Numeral

namespace Lexeme

variable {cs rest body : List Char} {kind : TokenKind} {level n : Nat}

theorem bracketLevel?_eq_some_iff :
    bracketLevel? cs = some level ↔
      ∃ rest, cs = List.replicate level '=' ++ '[' :: rest := by
  constructor
  · intro h
    unfold bracketLevel? at h
    dsimp only at h
    split at h
    · next hopen =>
      cases h
      have hrun : cs.takeWhile (· == '=') =
          List.replicate (cs.takeWhile (· == '=')).length '=' := by
        apply List.eq_replicate_of_mem
        intro c hc
        simpa using List.mem_takeWhile_imp hc
      have hcs : cs.takeWhile (· == '=') ++ cs.dropWhile (· == '=') = cs :=
        List.takeWhile_append_dropWhile
      have hnext : ∀ run tail : List Char, (run ++ tail)[run.length]? =
          tail[0]? := by
        intro run tail
        rw [List.getElem?_append_right (Nat.le_refl _), Nat.sub_self]
      have hdrop := hnext (cs.takeWhile (· == '=')) (cs.dropWhile (· == '='))
      rw [hcs, hopen] at hdrop
      cases hrest : cs.dropWhile (· == '=') with
      | nil => simp [hrest] at hdrop
      | cons c rest =>
        obtain rfl : '[' = c := by simpa [hrest] using hdrop
        exact ⟨rest, by rw [← hrun, ← hrest, hcs]⟩
    · cases h
  · rintro ⟨rest, rfl⟩
    have hrun : ∀ c ∈ List.replicate level '=', (c == '=') = true := by simp
    have htake :
        (List.replicate level '=' ++ '[' :: rest).takeWhile (· == '=') =
          List.replicate level '=' := takeWhile_run_append hrun rfl
    simp [bracketLevel?, htake]

theorem untilCloser?_split (h : untilCloser? level cs = some body) :
    ∃ more, cs = body ++ ']' :: closerTail level ++ more ∧
      untilCloser? level (body ++ ']' :: closerTail level) = some body := by
  induction cs generalizing body with
  | nil => cases h
  | cons c cs ih =>
    unfold untilCloser? at h
    split at h
    · next hclose =>
      cases h
      obtain ⟨more, hmore⟩ := List.isPrefixOf_iff_prefix.mp hclose.2
      exact ⟨more, by simp [hclose.1, hmore], by simp [untilCloser?]⟩
    · next hclose =>
      obtain ⟨body, hbody, rfl⟩ := Option.map_eq_some_iff.mp h
      obtain ⟨more, rfl, huntil⟩ := ih hbody
      refine ⟨more, rfl, ?_⟩
      have hopen : ¬(c = ']' ∧
          (closerTail level).isPrefixOf (body ++ ']' :: closerTail level)) := by
        rintro ⟨hc, hp⟩
        apply hclose
        refine ⟨hc, List.isPrefixOf_iff_prefix.mpr ?_⟩
        exact (List.isPrefixOf_iff_prefix.mp hp).trans (List.prefix_append _ _)
      rw [List.cons_append, untilCloser?, if_neg hopen, huntil]
      rfl

theorem longBracket_eq_ok_iff :
    longBracket level cs = .ok body ↔
      untilCloser? level (cs.drop (level + 1)) = some body := by
  unfold longBracket
  cases untilCloser? level (cs.drop (level + 1)) <;> simp

theorem longBracket_split (hlevel : bracketLevel? cs = some level)
    (h : longBracket level cs = .ok body) :
    ∃ used more, cs = used ++ more ∧
      used.length = longBracketLength level body ∧
      bracketLevel? used = some level ∧ longBracket level used = .ok body := by
  obtain ⟨rest, rfl⟩ := bracketLevel?_eq_some_iff.mp hlevel
  have hdrop : ∀ text,
      (List.replicate level '=' ++ '[' :: text).drop (level + 1) = text := by
    intro text
    rw [List.drop_append]
    simp
  rw [longBracket_eq_ok_iff, hdrop] at h
  obtain ⟨more, rfl, huntil⟩ := untilCloser?_split h
  refine ⟨List.replicate level '=' ++ '[' :: (body ++ ']' :: closerTail level),
    more, ?_, ?_, ?_, ?_⟩
  · simp
  · simp [closerTail, longBracketLength]
    omega
  · exact bracketLevel?_eq_some_iff.mpr ⟨_, rfl⟩
  · rw [longBracket_eq_ok_iff, hdrop]
    exact huntil

theorem lineComment_eq
    (h : ∀ rest level, cs = '[' :: rest → bracketLevel? rest ≠ some level) :
    comment cs = .ok (.comment (String.ofList (cs.takeWhile (· != '\n'))),
      (cs.takeWhile (· != '\n')).length + 1) := by
  unfold comment
  dsimp only
  split
  · next rest =>
    split
    · next level hlevel => exact absurd hlevel (h rest level rfl)
    · rfl
  · rfl

theorem comment_split (h : comment cs = .ok (kind, n)) :
    ∃ used more, cs = used ++ more ∧ n = used.length + 1 ∧
      comment used = .ok (kind, n) := by
  by_cases hlong : ∃ rest level, cs = '[' :: rest ∧
    bracketLevel? rest = some level
  · obtain ⟨rest, level, rfl, hlevel⟩ := hlong
    simp only [comment, hlevel] at h
    cases hbody : longBracket level rest with
    | error fault =>
      rw [hbody] at h
      cases h
    | ok body =>
      obtain ⟨used, more, rfl, hlength, hlevel', hbody'⟩ :=
        longBracket_split hlevel hbody
      rw [hbody] at h
      cases h
      refine ⟨'[' :: used, more, rfl, by simp [hlength], ?_⟩
      simp only [comment, hlevel', hbody']
      rfl
  · have hline : ∀ rest level, cs = '[' :: rest →
        bracketLevel? rest ≠ some level :=
      fun rest level hcs hlevel => hlong ⟨rest, level, hcs, hlevel⟩
    rw [lineComment_eq hline] at h
    cases h
    refine ⟨cs.takeWhile (· != '\n'), cs.dropWhile (· != '\n'), by simp, rfl,
      ?_⟩
    rw [lineComment_eq]
    · rw [List.takeWhile_idem]
    · -- What opens a long bracket before the end of the line opens it in the
      -- whole text.
      intro rest level htake hlevel
      obtain ⟨more, rfl⟩ := bracketLevel?_eq_some_iff.mp hlevel
      have hcs : cs = '[' ::
          (List.replicate level '=' ++
            '[' :: (more ++ cs.dropWhile (· != '\n'))) := by
        conv =>
          lhs
          rw [← List.takeWhile_append_dropWhile (p := (· != '\n')) (l := cs),
            htake]
        simp
      exact hline _ level hcs (bracketLevel?_eq_some_iff.mpr ⟨_, rfl⟩)

/-- What is recognised after the first character is recognised from its own
characters. -/
def IsLocal (f : List Char → Except LexFault Lexeme) : Prop :=
  ∀ ⦃rest kind n⦄, f rest = .ok (kind, n) →
    ∃ used more, rest = used ++ more ∧ used.length = n ∧ f used = .ok (kind, n)

theorem isLocal_single (s : Symbol) : IsLocal fun _ => .ok (.symbol s, 0) := by
  intro rest kind n h
  cases h
  exact ⟨[], rest, rfl, rfl, rfl⟩

theorem isLocal_withEquals (long short : Symbol) :
    IsLocal fun rest => .ok (withEquals long short rest) := by
  intro rest kind n h
  unfold withEquals at h
  dsimp only at h
  split at h
  · next hhead =>
    cases h
    obtain ⟨more, rfl⟩ := List.head?_eq_some_iff.mp hhead
    exact ⟨['='], more, rfl, rfl, rfl⟩
  · cases h
    exact ⟨[], rest, rfl, rfl, rfl⟩

theorem isLocal_dash : IsLocal dash := by
  intro rest kind n h
  unfold dash at h
  split at h
  · next more =>
    obtain ⟨used, after, rfl, rfl, hused⟩ := comment_split h
    exact ⟨'-' :: used, after, rfl, rfl, hused⟩
  · cases h
    exact ⟨[], rest, rfl, rfl, rfl⟩

theorem isLocal_bracket : IsLocal bracket := by
  intro rest kind n h
  cases hlevel : bracketLevel? rest with
  | some level =>
    simp only [bracket, hlevel] at h
    cases hbody : longBracket level rest with
    | error fault =>
      rw [hbody] at h
      cases h
    | ok body =>
      obtain ⟨used, more, rfl, hlength, hlevel', hbody'⟩ :=
        longBracket_split hlevel hbody
      rw [hbody] at h
      cases h
      refine ⟨used, more, rfl, hlength, ?_⟩
      simp only [bracket, hlevel', hbody']
      rfl
  | none =>
    simp only [bracket, hlevel] at h
    split at h
    · cases h
    · cases h
      exact ⟨[], rest, rfl, rfl, rfl⟩

theorem isLocal_quoted (quote : Char) : IsLocal (quoted quote) := by
  intro rest kind n h
  unfold quoted at h
  dsimp only at h
  split at h
  · next hclosed =>
    cases h
    have hrest :=
      List.takeWhile_append_dropWhile (p := (· != quote)) (l := rest)
    cases hdrop : rest.dropWhile (· != quote) with
    | nil =>
      rw [hdrop, List.append_nil] at hrest
      rw [hrest] at hclosed
      exact absurd hclosed (Nat.lt_irrefl _)
    | cons c more =>
      have hc : c = quote := by
        have hhead := List.head?_dropWhile_not (· != quote) rest
        simpa [hdrop] using hhead
      rw [hdrop, hc] at hrest
      have htake :
          (rest.takeWhile (· != quote) ++ [quote]).takeWhile (· != quote) =
            rest.takeWhile (· != quote) :=
        takeWhile_run_append (fun _ => List.mem_takeWhile_imp) (by simp)
      refine ⟨rest.takeWhile (· != quote) ++ [quote], more, ?_, by simp, ?_⟩
      · rw [List.append_assoc]
        exact hrest.symm
      · unfold quoted
        dsimp only
        rw [htake]
        simp
  · cases h

theorem isLocal_numeral (first : Char) : IsLocal (numeral first) := by
  intro rest kind n h
  unfold numeral at h
  cases hscan : Numeral.scan first rest with
  | error fault =>
    rw [hscan] at h
    cases h
  | ok result =>
    obtain ⟨value, text⟩ := result
    obtain ⟨used, more, rfl, rfl, hused⟩ := Numeral.scan_split hscan
    rw [hscan] at h
    cases h
    refine ⟨used, more, rfl, rfl, ?_⟩
    unfold numeral
    rw [hused]
    rfl

theorem numeral_point_length {d : Char} (hd : d.isDigit = true)
    (h : numeral '.' (d :: rest) = .ok (kind, n)) : 0 < n := by
  unfold numeral at h
  cases hscan : Numeral.scan '.' (d :: rest) with
  | error fault =>
    rw [hscan] at h
    cases h
  | ok result =>
    obtain ⟨value, text⟩ := result
    rw [hscan] at h
    cases h
    rw [Numeral.scan_eq, if_pos rfl, List.takeWhile_cons_of_pos hd] at hscan
    obtain ⟨used, -, -, rfl, -, -⟩ := Numeral.scaled_split hscan
    simp

theorem dots_of_isDigit {d : Char} (hd : d.isDigit = true) :
    dots (d :: rest) = numeral '.' (d :: rest) := by
  have hpoint : d ≠ '.' := by
    rintro rfl
    exact absurd hd (by decide)
  unfold dots
  split
  · next heq => exact absurd (List.cons.inj heq).1 hpoint
  · next heq => exact absurd (List.cons.inj heq).1 hpoint
  · next heq =>
    cases heq
    exact if_pos hd
  · next heq => cases heq

theorem isLocal_dots : IsLocal dots := by
  intro rest kind n h
  unfold dots at h
  split at h
  · next more =>
    cases h
    exact ⟨['.', '.'], more, rfl, rfl, rfl⟩
  · next more _ =>
    cases h
    exact ⟨['.'], more, rfl, rfl, rfl⟩
  · next d more _ _ =>
    split at h
    · next hdigit =>
      obtain ⟨used, after, hsplit, hlength, hused⟩ := isLocal_numeral '.' h
      cases used with
      | nil =>
        exact absurd hlength (Nat.ne_of_lt (numeral_point_length hdigit h))
      | cons c used =>
        obtain ⟨rfl, -⟩ := List.cons.inj hsplit
        exact ⟨d :: used, after, hsplit, hlength,
          (dots_of_isDigit hdigit).trans hused⟩
    · cases h
      exact ⟨[], _, rfl, rfl, rfl⟩
  · cases h
    exact ⟨[], [], rfl, rfl, rfl⟩

theorem isLocal_word (first : Char) :
    IsLocal fun rest => .ok (word first rest) := by
  intro rest kind n h
  cases h
  refine ⟨rest.takeWhile Numeral.isWordChar, rest.dropWhile Numeral.isWordChar,
    by simp, rfl, ?_⟩
  simp [word, List.takeWhile_idem]

theorem isLocal_tilde (c : Char) : IsLocal fun rest =>
    if rest.head? = some '=' then .ok (.symbol .notEqual, 1)
    else .error (.unexpectedCharacter c) := by
  intro rest kind n h
  dsimp only at h
  split at h
  · next hhead =>
    cases h
    obtain ⟨more, rfl⟩ := List.head?_eq_some_iff.mp hhead
    exact ⟨['='], more, rfl, rfl, rfl⟩
  · cases h

theorem isLocal_error (fault : LexFault) : IsLocal fun _ => .error fault :=
  nofun

theorem isLocal_ite {c : Prop} [Decidable c]
    {scanner other : List Char → Except LexFault Lexeme} (h : IsLocal scanner)
    (h' : IsLocal other) :
    IsLocal fun rest => if c then scanner rest else other rest := by
  split
  · exact h
  · exact h'

theorem isLocal_scan (c : Char) : IsLocal (scan c) := by
  unfold scan
  split
  · exact isLocal_single _
  refine isLocal_ite isLocal_dash ?_
  refine isLocal_ite isLocal_bracket ?_
  refine isLocal_ite (isLocal_withEquals _ _) ?_
  refine isLocal_ite (isLocal_withEquals _ _) ?_
  refine isLocal_ite (isLocal_withEquals _ _) ?_
  refine isLocal_ite (isLocal_tilde c) ?_
  refine isLocal_ite isLocal_dots ?_
  refine isLocal_ite (isLocal_quoted c) ?_
  refine isLocal_ite (isLocal_numeral c) ?_
  exact isLocal_ite (isLocal_word c) (isLocal_error _)

section WordChar

open Numeral

variable {c : Char}

/-- Letters, digits and `_` start words and numerals only. -/
theorem scan_wordChar (h : isWordChar c = true) (rest : List Char) :
    scan c rest =
      if c.isDigit then numeral c rest
      else if startsName c then .ok (word c rest)
      else .error (.unexpectedCharacter c) := by
  have hother : ∀ d : Char, isWordChar d = false → c ≠ d := by
    rintro d hd rfl
    rw [h] at hd
    cases hd
  have hsingle : single? c = none := by
    unfold single?
    split <;> first | rfl | exact absurd h (by decide)
  unfold scan
  rw [hsingle]
  dsimp only
  rw [if_neg (hother '-' rfl), if_neg (hother '[' rfl), if_neg (hother '=' rfl),
    if_neg (hother '<' rfl), if_neg (hother '>' rfl), if_neg (hother '~' rfl),
    if_neg (hother '.' rfl),
    if_neg (not_or.mpr ⟨hother '"' rfl, hother '\'' rfl⟩)]

theorem isBlank_of_isWordChar (h : isWordChar c = true) :
    isBlank c = false := by
  refine Bool.eq_false_iff.mpr fun hblank => ?_
  simp only [isBlank, Bool.or_eq_true, beq_iff_eq] at hblank
  rcases hblank with ((((rfl | rfl) | rfl) | rfl) | rfl) | rfl <;>
    exact absurd h (by decide)

theorem isWordChar_of_isDigit (h : c.isDigit = true) : isWordChar c = true := by
  simp [isWordChar, Char.isAlphanum, h]

theorem isWordChar_of_startsName (h : startsName c = true) :
    isWordChar c = true := by
  simp only [startsName, Bool.or_eq_true] at h
  simp only [isWordChar, Char.isAlphanum, Bool.or_eq_true]
  rcases h with halpha | hscore
  · exact .inl (.inl halpha)
  · exact .inr hscore

end WordChar

end Lexeme

end LuaCore
