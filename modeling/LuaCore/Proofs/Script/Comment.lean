import LuaCore.Script.Text
import LuaCore.Proofs.Reader.Faithful
import Mathlib.Data.List.Induction

namespace LuaCore

namespace Script

/-- The characters that end a line of a script. -/
def endsLine (c : Char) : Bool :=
  c == '\n' || c == '\r' || c == '\u2028' || c == '\u2029'

def isSpace (c : Char) : Bool :=
  endsLine c || c == '\t' || c == '\x0b' || c == '\x0c' || c == ' ' ||
    c == '\u00a0' || c == '\u1680' || ('\u2000' ≤ c && c ≤ '\u200a') ||
    c == '\u202f' || c == '\u205f' || c == '\u3000' || c == '\ufeff'

inductive Place
  | code | line | block
deriving DecidableEq

/-- What a reader makes of a text: its characters outside of comments, and the
place in which it ends. -/
structure Reading where
  outside : List Char
  place : Place
deriving DecidableEq

def Reading.expose (c : Char) (r : Reading) : Reading :=
  ⟨c :: r.outside, r.place⟩

def readComments : Place → List Char → Reading
  | place, [] => ⟨[], place⟩
  | .code, '/' :: '/' :: cs => readComments .line cs
  | .code, '/' :: '*' :: cs => readComments .block cs
  | .code, c :: cs => (readComments .code cs).expose c
  | .line, c :: cs =>
    if endsLine c then (readComments .code cs).expose c
    else readComments .line cs
  | .block, '*' :: '/' :: cs => readComments .code cs
  | .block, _ :: cs => readComments .block cs

-- Its equations are made here, once for all that is proved with them.
attribute [grind =] readComments

/-- A text of comments and spaces that leads back to code. -/
structure IsComment (cs : List Char) : Prop where
  outside : ∀ c ∈ (readComments .code cs).outside, isSpace c = true
  place : (readComments .code cs).place = .code

instance (cs : List Char) : Decidable (IsComment cs) :=
  decidable_of_iff ((readComments .code cs).outside.all isSpace = true ∧
      (readComments .code cs).place = .code)
    ⟨fun h => ⟨List.all_eq_true.mp h.1, h.2⟩,
      fun h => ⟨List.all_eq_true.mpr h.outside, h.place⟩⟩

def opening (comments : List String) : List Char :=
  (prelude ++ String.join (comments.map commentText)).toList

/-- Each comment, read after what stands before it, adds nothing but spaces to
the text outside of comments, and what stands after it is code. -/
def CommentsHold (s : Script) : Prop :=
  ∀ before text after, s.comments = before ++ text :: after →
    ∃ spaces, (∀ c ∈ spaces, isSpace c = true) ∧
      readComments .code (opening (before ++ [text])) =
        ⟨(readComments .code (opening before)).outside ++ spaces, .code⟩

theorem toList_text (s : Script) :
    s.text.toList = opening s.comments ++ (statTexts 0 s.body).toList :=
  String.toList_append

/-! A reader who has come to the end of a line goes on from the place in which
the line ends. -/

def Reading.andThen (r : Reading) (cs : List Char) : Reading :=
  ⟨r.outside ++ (readComments r.place cs).outside,
    (readComments r.place cs).place⟩

theorem no_mark_append {a b c : Char} {cs : List Char} (hb : b ≠ '\n')
    (h : ∀ rest, c = a → cs = b :: rest → False) (ds : List Char) :
    ∀ rest, c = a → cs ++ '\n' :: ds = b :: rest → False := by
  intro rest hc happend
  cases cs with
  | nil => exact hb (List.cons.inj happend).1.symm
  | cons c' cs => exact h cs hc (by rw [(List.cons.inj happend).1])

theorem readComments_append (place : Place) (cs ds : List Char) :
    readComments place (cs ++ '\n' :: ds) =
      (readComments place (cs ++ ['\n'])).andThen ds := by
  induction place, cs using readComments.induct with
  | case1 place => cases place <;> rfl
  | case2 cs ih => exact ih
  | case3 cs ih => exact ih
  | case4 c cs hline hblock ih =>
    rw [List.cons_append, List.cons_append,
      readComments.eq_4 c _ (no_mark_append (by decide) hline ds)
        (no_mark_append (by decide) hblock ds),
      readComments.eq_4 c _ (no_mark_append (by decide) hline [])
        (no_mark_append (by decide) hblock []), ih]
    rfl
  | case5 c cs hends ih =>
    rw [List.cons_append, List.cons_append, readComments, if_pos hends,
      readComments, if_pos hends, ih]
    rfl
  | case6 c cs hends ih =>
    rw [List.cons_append, List.cons_append, readComments, if_neg hends,
      readComments, if_neg hends, ih]
  | case7 cs ih => exact ih
  | case8 c cs hclose ih =>
    rw [List.cons_append, List.cons_append,
      readComments.eq_7 c _ (no_mark_append (by decide) hclose ds),
      readComments.eq_7 c _ (no_mark_append (by decide) hclose []), ih]

/-! What the two kinds of comments read as. -/

theorem openClosers_cons (c : Char) (cs : List Char) :
    ∃ rest, openClosers (c :: cs) = c :: rest := by
  unfold openClosers
  split
  · next h => cases h
  · next h => exact ⟨_, by rw [(List.cons.inj h).1]⟩
  · next h => exact ⟨_, by rw [(List.cons.inj h).1]⟩

theorem readComments_openClosers (cs rest : List Char) :
    readComments .block (openClosers cs ++ '*' :: '/' :: rest) =
      readComments .code rest := by
  induction cs using openClosers.induct with
  | case1 => rfl
  | case2 cs ih =>
    rw [openClosers]
    simpa [readComments] using ih
  | case3 c cs hclose ih =>
    -- what follows the character starts as before, or with the mark that ends
    -- the comment
    have hnext : ∀ more, c = '*' →
        openClosers cs ++ '*' :: '/' :: rest = '/' :: more → False := by
      intro more hc happend
      cases cs with
      | nil => exact absurd (List.cons.inj happend).1 (by decide)
      | cons d cs =>
        obtain ⟨opened, hopened⟩ := openClosers_cons d cs
        rw [hopened] at happend
        exact hclose cs hc (by rw [(List.cons.inj happend).1])
    rw [openClosers.eq_3 c cs hclose, List.cons_append,
      readComments.eq_7 c _ hnext, ih]

theorem readComments_line (cs rest : List Char) :
    readComments .line (cs ++ '\n' :: rest) =
      readComments .code (cs.dropWhile (!endsLine ·) ++ '\n' :: rest) := by
  induction cs with
  | nil => rfl
  | cons c cs ih =>
    cases hends : endsLine c with
    | false =>
      rw [List.dropWhile_cons_of_pos (by simp [hends]), ← ih, List.cons_append,
        readComments, if_neg (by simp [hends])]
    | true =>
      have hslash : c ≠ '/' := by
        rintro rfl
        cases hends
      rw [List.dropWhile_cons_of_neg (by simp [hends]), List.cons_append,
        readComments.eq_5, if_pos hends,
        readComments.eq_4 c _ (fun _ h _ => hslash h) (fun _ h _ => hslash h)]

theorem readComments_of_no_slash {cs : List Char} (h : '/' ∉ cs) :
    readComments .code cs = ⟨cs, .code⟩ := by
  induction cs with
  | nil => rfl
  | cons c cs ih =>
    obtain ⟨hc, hcs⟩ := List.ne_and_not_mem_of_not_mem_cons h
    have hslash : c ≠ '/' := Ne.symm hc
    rw [readComments.eq_4 c _ (fun _ h _ => hslash h) (fun _ h _ => hslash h),
      ih hcs]
    rfl

theorem toList_line (text : String) :
    (line 0 text).toList = text.toList ++ ['\n'] := by
  simp [line, pad]

/-- A comment of several lines is one comment. -/
theorem isComment_block {text : String} (h : '\n' ∈ text.toList) :
    IsComment (commentText text).toList := by
  have hread : readComments .code (commentText text).toList =
      ⟨['\n'], .code⟩ := by
    rw [commentText, String.contains_char_eq, if_pos (decide_eq_true h),
      toList_line]
    have hblock := readComments_openClosers text.toList ['\n']
    simpa [readComments, Reading.expose] using hblock
  constructor
  · rw [hread]
    exact List.forall_mem_singleton.mpr rfl
  · rw [hread]

/-- A comment of a single line goes on after the first character that
ends a line. -/
theorem isComment_line_iff {text : String} (h : '\n' ∉ text.toList) :
    IsComment (commentText text).toList ↔
      IsComment (text.toList.dropWhile (!endsLine ·) ++ ['\n']) := by
  have hread : readComments .code (commentText text).toList =
      readComments .code (text.toList.dropWhile (!endsLine ·) ++ ['\n']) := by
    rw [commentText, String.contains_char_eq, if_neg (by simpa using h),
      toList_line, ← readComments_line]
    simp [readComments]
  exact ⟨fun hc => ⟨hread ▸ hc.outside, hread ▸ hc.place⟩,
    fun hc => ⟨hread.symm ▸ hc.outside, hread.symm ▸ hc.place⟩⟩

/-! The opening of a script, comment after comment. -/

theorem opening_append (before : List String) (text : String) :
    opening (before ++ [text]) =
      opening before ++ (commentText text).toList := by
  simp [opening]

theorem toList_lines (texts : List String) :
    (String.join (texts.map (line 0))).toList =
      texts.flatMap fun text => text.toList ++ ['\n'] := by
  induction texts with
  | nil => rfl
  | cons text texts ih => simp [toList_line, ih]

theorem toList_lines_ends_line {texts : List String} (h : texts ≠ []) :
    ∃ cs, (String.join (texts.map (line 0))).toList = cs ++ ['\n'] := by
  rcases List.eq_nil_or_concat texts with rfl | ⟨texts, text, rfl⟩
  · exact absurd rfl h
  · refine ⟨(texts.flatMap fun text => text.toList ++ ['\n']) ++ text.toList,
      ?_⟩
    rw [toList_lines, List.concat_eq_append, List.flatMap_append,
      List.flatMap_singleton, List.append_assoc]

theorem opening_nil : opening [] = prelude.toList := by
  simp [opening]

theorem commentText_ends_line (text : String) :
    ∃ cs, (commentText text).toList = cs ++ ['\n'] := by
  unfold commentText
  split
  · exact ⟨_, toList_line _⟩
  · exact ⟨_, toList_line _⟩

theorem opening_ends_line (before : List String) :
    ∃ cs, opening before = cs ++ ['\n'] := by
  rcases List.eq_nil_or_concat before with rfl | ⟨before, text, rfl⟩
  · rw [opening_nil]
    exact toList_lines_ends_line (List.cons_ne_nil _ _)
  · obtain ⟨cs, hcs⟩ := commentText_ends_line text
    exact ⟨opening before ++ cs,
      by rw [List.concat_eq_append, opening_append, hcs, List.append_assoc]⟩

theorem readComments_opening_append (before : List String) (text : String) :
    readComments .code (opening (before ++ [text])) =
      (readComments .code (opening before)).andThen
        (commentText text).toList := by
  obtain ⟨cs, hcs⟩ := opening_ends_line before
  rw [opening_append, hcs, List.append_assoc]
  exact readComments_append .code cs (commentText text).toList

theorem readComments_opening_nil :
    readComments .code (opening []) = ⟨opening [], .code⟩ := by
  apply readComments_of_no_slash
  rw [opening_nil, prelude, toList_lines]
  simp only [List.mem_flatMap, not_exists, not_and]
  decide +kernel

theorem place_opening {before : List String}
    (h : ∀ text ∈ before, IsComment (commentText text).toList) :
    (readComments .code (opening before)).place = .code := by
  induction before using List.reverseRecOn with
  | nil => rw [readComments_opening_nil]
  | append_singleton before text ih =>
    rw [List.forall_mem_append, List.forall_mem_singleton] at h
    rw [readComments_opening_append, Reading.andThen, ih h.1]
    exact h.2.place

theorem commentsHold_iff (s : Script) :
    s.CommentsHold ↔
      ∀ text ∈ s.comments, IsComment (commentText text).toList := by
  constructor
  · intro h text htext
    obtain ⟨before, after, hsplit⟩ := List.append_of_mem htext
    have hplace : (readComments .code (opening before)).place = .code := by
      rcases List.eq_nil_or_concat before with rfl | ⟨before, last, rfl⟩
      · rw [readComments_opening_nil]
      · rw [List.concat_eq_append] at hsplit ⊢
        obtain ⟨_, _, hlast⟩ :=
          h before last (text :: after) (by rw [hsplit, List.append_assoc]; rfl)
        rw [hlast]
    obtain ⟨spaces, hspaces, hread⟩ := h before text after hsplit
    rw [readComments_opening_append, Reading.andThen, hplace] at hread
    obtain ⟨houtside, hcode⟩ := Reading.mk.inj hread
    exact ⟨List.append_cancel_left houtside ▸ hspaces, hcode⟩
  · intro h before text after hsplit
    rw [hsplit, List.forall_mem_append, List.forall_mem_cons] at h
    obtain ⟨hbefore, htext, -⟩ := h
    refine ⟨_, htext.outside, ?_⟩
    rw [readComments_opening_append, Reading.andThen, place_opening hbefore,
      htext.place]

end Script

/-- Comments stay comments exactly if, in each that stands on a single line,
what follows the first character that ends a line in a script is spaces and
whole comments. -/
theorem Chunk.commentsHold_lower_iff (c : Chunk) :
    c.lower.CommentsHold ↔ ∀ comment ∈ c.comments, '\n' ∈ comment.text.toList ∨
      Script.IsComment
        (comment.text.toList.dropWhile (!Script.endsLine ·) ++ ['\n']) := by
  have heach :
      ∀ text : String, Script.IsComment (Script.commentText text).toList ↔
      '\n' ∈ text.toList ∨ Script.IsComment
          (text.toList.dropWhile (!Script.endsLine ·) ++ ['\n']) := by
    intro text
    by_cases hlines : '\n' ∈ text.toList
    · exact iff_of_true (Script.isComment_block hlines) (.inl hlines)
    · rw [Script.isComment_line_iff hlines, or_iff_right hlines]
  rw [Script.commentsHold_iff]
  simp only [Chunk.lower, List.forall_mem_map, heach]

/-- A carriage return ends the line of the comment, and the call after
it is made. -/
theorem Chunk.not_commentsHold_of_carriage_return :
    ∃ c, ofSource "-- a\rf()" = .ok c ∧ ¬c.lower.CommentsHold := by
  obtain ⟨c, hsource, hcall⟩ : ∃ c, ofSource "-- a\rf()" = .ok c ∧
      decide (∃ text ∈ c.lower.comments, '\n' ∉ text.toList ∧ ¬Script.IsComment
            (text.toList.dropWhile (!Script.endsLine ·) ++ ['\n'])) = true :=
    exists_of_any (by decide +kernel)
  obtain ⟨text, htext, hline, hcall⟩ := of_decide_eq_true hcall
  refine ⟨c, hsource, fun h => hcall ?_⟩
  exact (Script.isComment_line_iff hline).mp
    (c.lower.commentsHold_iff.mp h text htext)

end LuaCore
