import LuaCore.Proofs.Token.Pull

namespace LuaCore

section Occurrence

variable {α : Type} {word text : List α} {i : Nat}

/-- The word stands after the first `i` elements of the text, and
nowhere before. -/
def FirstOccurs (word text : List α) (i : Nat) : Prop :=
  word <+: text.drop i ∧ ∀ j < i, ¬word <+: text.drop j

instance [DecidableEq α] : Decidable (FirstOccurs word text i) :=
  inferInstanceAs (Decidable (_ ∧ _))

theorem FirstOccurs.cons {a : α} (hhere : ¬word <+: a :: text) :
    FirstOccurs word (a :: text) (i + 1) ↔ FirstOccurs word text i := by
  constructor
  · rintro ⟨hoccurs, hbefore⟩
    exact ⟨hoccurs, fun j hj => hbefore (j + 1) (Nat.succ_lt_succ hj)⟩
  · rintro ⟨hoccurs, hbefore⟩
    refine ⟨hoccurs, fun j hj => ?_⟩
    cases j with
    | zero => exact hhere
    | succ j => exact hbefore j (Nat.lt_of_succ_lt_succ hj)

theorem firstOccurs_append {before : List α} (after : List α) :
    FirstOccurs word (before ++ word ++ after) before.length ↔
      FirstOccurs word (before ++ word) before.length := by
  have hsame : ∀ j < before.length, (word <+: (before ++ word ++ after).drop j ↔
      word <+: (before ++ word).drop j) := by
    intro j hj
    rw [List.drop_append_of_le_length (by rw [List.length_append]; omega)]
    refine ⟨fun h => ?_, fun h => h.trans (List.prefix_append _ _)⟩
    -- There is room for the whole word before the rest starts.
    refine List.prefix_of_prefix_length_le h (List.prefix_append _ _) ?_
    rw [List.length_drop, List.length_append]
    omega
  constructor
  · rintro ⟨-, hbefore⟩
    exact ⟨by simp, fun j hj h => hbefore j hj ((hsame j hj).mpr h)⟩
  · rintro ⟨-, hbefore⟩
    exact ⟨by simp, fun j hj h => hbefore j hj ((hsame j hj).mp h)⟩

end Occurrence

section Runs

variable {α : Type} {p : α → Bool}

theorem take_length_takeWhile (l : List α) :
    l.take (l.takeWhile p).length = l.takeWhile p :=
  (List.prefix_iff_eq_take.mp (List.takeWhile_prefix p)).symm

theorem drop_length_takeWhile (l : List α) :
    l.drop (l.takeWhile p).length = l.dropWhile p := by
  have h : (l.takeWhile p ++ l.dropWhile p).drop (l.takeWhile p).length =
      l.dropWhile p := List.drop_left
  rwa [List.takeWhile_append_dropWhile] at h

end Runs

namespace Lexeme

variable {level : Nat} {cs body : List Char}

def opener (level : Nat) : List Char := '[' :: List.replicate level '=' ++ ['[']

def closer (level : Nat) : List Char := ']' :: closerTail level

theorem closer_prefix_iff {c : Char} :
    closer level <+: c :: cs ↔ c = ']' ∧ (closerTail level).isPrefixOf cs := by
  rw [closer, List.cons_prefix_cons, List.isPrefixOf_iff_prefix, eq_comm]

theorem not_closer_prefix_nil : ¬closer level <+: [] := by
  rw [List.prefix_nil]
  exact List.cons_ne_nil _ _

/-- The body ends where the closer of the level first occurs. -/
theorem untilCloser?_eq_some_iff :
    untilCloser? level cs = some body ↔
      FirstOccurs (closer level) cs body.length ∧
        cs.take body.length = body := by
  induction cs generalizing body with
  | nil =>
    constructor
    · exact fun h => absurd h (Option.some_ne_none body).symm
    · rintro ⟨⟨hoccurs, -⟩, -⟩
      rw [List.drop_nil] at hoccurs
      exact absurd hoccurs not_closer_prefix_nil
  | cons c cs ih =>
    rw [untilCloser?]
    split
    · next hclose =>
      have hhere := closer_prefix_iff.mpr hclose
      constructor
      · rintro ⟨⟩
        exact ⟨⟨hhere, fun j hj => absurd hj (Nat.not_lt_zero j)⟩, rfl⟩
      · rintro ⟨hfirst, -⟩
        cases body with
        | nil => rfl
        | cons b body => exact absurd hhere (hfirst.2 0 (Nat.succ_pos _))
    · next hopen =>
      have hhere : ¬closer level <+: c :: cs :=
        fun h => hopen (closer_prefix_iff.mp h)
      cases body with
      | nil =>
        constructor
        · intro h
          obtain ⟨body, -, hbody⟩ := Option.map_eq_some_iff.mp h
          cases hbody
        · rintro ⟨⟨hoccurs, -⟩, -⟩
          exact absurd hoccurs hhere
      | cons b body =>
        rw [List.length_cons, FirstOccurs.cons hhere, List.take_succ_cons,
          List.cons.injEq, Option.map_eq_some_iff]
        constructor
        · rintro ⟨body, hbody, ⟨⟩⟩
          exact ⟨(ih.mp hbody).1, rfl, (ih.mp hbody).2⟩
        · rintro ⟨hfirst, rfl, htake⟩
          exact ⟨body, ih.mpr ⟨hfirst, htake⟩, rfl⟩

theorem untilCloser?_eq_none_iff :
    untilCloser? level cs = none ↔ ¬closer level <:+: cs := by
  induction cs with
  | nil =>
    rw [List.infix_nil]
    exact iff_of_true rfl (List.cons_ne_nil _ _)
  | cons c cs ih =>
    rw [untilCloser?, List.infix_cons_iff, closer_prefix_iff, not_or, ← ih]
    split
    · next hclose =>
        exact iff_of_false (Option.some_ne_none _) fun h => h.1 hclose
    · next hopen =>
      rw [Option.map_eq_none_iff]
      exact ⟨fun h => ⟨hopen, h⟩, fun h => h.2⟩

theorem untilCloser?_closed_iff (T R : List Char) :
    untilCloser? level (T ++ closer level ++ R) = some T ↔
      FirstOccurs (closer level) (T ++ closer level) T.length := by
  rw [untilCloser?_eq_some_iff, firstOccurs_append, List.append_assoc,
    List.take_left]
  exact and_iff_left rfl

/-- A closer whose signs are as many as the characters of the text cannot
start in the text: where the text ends, a bracket would have to stand for one
of the signs. -/
theorem firstOccurs_closer_length (T : List Char) :
    FirstOccurs (closer T.length) (T ++ closer T.length) T.length := by
  refine ⟨by simp, fun j hj h => ?_⟩
  obtain ⟨more, hmore⟩ := h
  obtain ⟨d, hd⟩ := Nat.exists_eq_add_of_lt hj
  have hsign : (closer T.length ++ more)[d + 1]? = some '=' := by
    rw [closer, closerTail, List.cons_append, List.getElem?_cons_succ,
      List.append_assoc,
      List.getElem?_append_left (by rw [List.length_replicate]; omega),
      List.getElem?_replicate_of_lt (by omega)]
  have hbracket : ((T ++ closer T.length).drop j)[d + 1]? = some ']' := by
    rw [List.getElem?_drop, ← Nat.add_assoc, ← hd,
      List.getElem?_append_right (Nat.le_refl _), Nat.sub_self]
    rfl
  rw [hmore, hbracket] at hsign
  exact absurd hsign (by decide)

theorem bracketLevel?_opened (level : Nat) (cs : List Char) :
    bracketLevel? (List.replicate level '=' ++ '[' :: cs) = some level :=
  bracketLevel?_eq_some_iff.mpr ⟨cs, rfl⟩

theorem longBracket_opened (level : Nat) (cs : List Char) :
    longBracket level (List.replicate level '=' ++ '[' :: cs) =
      match untilCloser? level cs with
      | some body => .ok body
      | none => .error .unfinishedLongBracket := by
  have hdrop : (List.replicate level '=' ++ '[' :: cs).drop (level + 1) =
      cs := by
    rw [List.drop_append]
    simp
  cases hbody : untilCloser? level cs <;> simp only [longBracket, hdrop, hbody]

theorem longBracketLength_eq (level : Nat) (body : List Char) :
    longBracketLength level body =
      (level + 1) + (body.length + (closer level).length) := by
  simp [longBracketLength, closer, closerTail]
  omega

theorem take_opened (level k : Nat) (cs : List Char) :
    (List.replicate level '=' ++ '[' :: cs).take ((level + 1) + k) =
      List.replicate level '=' ++ '[' :: cs.take k := by
  rw [List.take_append,
    List.take_of_length_le (by rw [List.length_replicate]; omega),
    List.length_replicate,
    show level + 1 + k - level = k + 1 by omega, List.take_succ_cons]

theorem drop_opened (level k : Nat) (cs : List Char) :
    (List.replicate level '=' ++ '[' :: cs).drop ((level + 1) + k) =
      cs.drop k := by
  rw [List.drop_append,
    List.drop_of_length_le (by rw [List.length_replicate]; omega),
    List.length_replicate,
    show level + 1 + k - level = k + 1 by
      omega, List.nil_append, List.drop_succ_cons]

theorem scan_bracket (rest : List Char) : scan '[' rest = bracket rest := rfl

theorem scan_dashes (rest : List Char) :
    scan '-' ('-' :: rest) = comment rest :=
  rfl

/-- A long bracket gives a string, or after two dashes a comment. -/
inductive Bracketed
  | string
  | comment
deriving DecidableEq, Repr

namespace Bracketed

def mark : Bracketed → List Char
  | string => []
  | comment => ['-', '-']

def kind : Bracketed → String → TokenKind
  | string => .string
  | comment => .comment

theorem kind_inj {use : Bracketed} {x y : String} :
    use.kind x = use.kind y ↔ x = y := by
  cases use with
  | string => exact TokenKind.string.injEq x y ▸ Iff.rfl
  | comment => exact TokenKind.comment.injEq x y ▸ Iff.rfl

end Bracketed

end Lexeme

namespace Tokens

open Lexeme

variable {p q : Position} {n : Nat} {T R : List Char}

theorem pull_opened (use : Bracketed) (p : Position) (n : Nat)
    (cs : List Char) :
    pull p (use.mark ++ opener n ++ cs) =
      match untilCloser? n cs with
      | some body =>
        .token ⟨use.kind (String.ofList body), p⟩ (p.after
            (use.mark ++ opener n ++ cs.take (body.length + (closer n).length)))
          (cs.drop (body.length + (closer n).length))
      | none => .broken ⟨.unfinishedLongBracket, p⟩ := by
  have hopener : ∀ text, opener n ++ text =
      '[' :: (List.replicate n '=' ++ '[' :: text) := by simp [opener]
  simp only [List.append_assoc, hopener]
  cases use with
  | string =>
    change pull p ('[' :: _) = _
    rw [pull_eq_scan rfl, scan_bracket, bracket, bracketLevel?_opened]
    dsimp only
    rw [longBracket_opened]
    cases untilCloser? n cs with
    | none => rfl
    | some body =>
      change Pulled.token _ _ _ = _
      rw [longBracketLength_eq, take_opened, drop_opened]
      rfl
  | comment =>
    change pull p ('-' :: '-' :: '[' :: _) = _
    rw [pull_eq_scan rfl, scan_dashes, comment]
    dsimp only
    rw [bracketLevel?_opened]
    dsimp only
    rw [longBracket_opened]
    cases untilCloser? n cs with
    | none => rfl
    | some body =>
      change Pulled.token _ (p.after ('-' :: '-' :: '[' :: List.take _ _))
          (List.drop _ _) = _
      rw [longBracketLength_eq, take_opened, List.drop_succ_cons,
        List.drop_succ_cons, drop_opened]
      rfl

theorem pull_unclosed_iff (use : Bracketed) :
    pull p (use.mark ++ opener n ++ R) = .broken ⟨.unfinishedLongBracket, p⟩ ↔
      ¬closer n <:+: R := by
  rw [pull_opened, ← untilCloser?_eq_none_iff]
  cases untilCloser? n R with
  | none => exact iff_of_true rfl rfl
  | some body => exact iff_of_false nofun nofun

/-- A bracket gives the text exactly if no closer starts before the one
after the text. -/
theorem pull_closed_iff (use : Bracketed) :
    pull p (use.mark ++ opener n ++ T ++ closer n ++ R) =
      .token ⟨use.kind (String.ofList T), p⟩ q R ↔
      FirstOccurs (closer n) (T ++ closer n) T.length ∧
        q = p.after (use.mark ++ opener n ++ T ++ closer n) := by
  have htext : use.mark ++ opener n ++ T ++ closer n ++ R =
      use.mark ++ opener n ++ (T ++ closer n ++ R) := by
    simp only [List.append_assoc]
  have hlength : T.length + (closer n).length = (T ++ closer n).length :=
    List.length_append.symm
  rw [← untilCloser?_closed_iff T R]
  constructor
  · intro h
    obtain ⟨used, -, hused, rfl⟩ := pull_takes h
    refine ⟨?_, congrArg p.after (List.append_cancel_right hused).symm⟩
    rw [htext, pull_opened] at h
    cases hbody : untilCloser? n (T ++ closer n ++ R) with
    | none =>
      rw [hbody] at h
      cases h
    | some body =>
      rw [hbody] at h
      injection h with htoken
      rw [Token.mk.injEq, Bracketed.kind_inj, String.ofList_inj] at htoken
      rw [htoken.1]
  · rintro ⟨hbody, rfl⟩
    rw [htext, pull_opened, hbody]
    dsimp only
    rw [hlength, List.take_left, List.drop_left]
    simp only [List.append_assoc]

theorem pull_unopened (h : (R.dropWhile (· == '=')).head? ≠ some '[') :
    pull p ('[' :: '=' :: R) = .broken ⟨.invalidLongBracket, p⟩ ∧
      pull p ('-' :: '-' :: '[' :: '=' :: R) = .token
          ⟨.comment (String.ofList ('[' :: '=' :: R.takeWhile (· != '\n'))), p⟩
          (p.after ('-' :: '-' :: '[' :: '=' :: R.takeWhile (· != '\n')))
          (R.dropWhile (· != '\n')) := by
  have hnone : bracketLevel? ('=' :: R) = none := by
    rw [Option.eq_none_iff_forall_ne_some]
    intro level hlevel
    obtain ⟨rest, hrest⟩ := bracketLevel?_eq_some_iff.mp hlevel
    cases level with
    | zero => cases hrest
    | succ level =>
      have htail : R = List.replicate level '=' ++ '[' :: rest :=
        (List.cons.inj hrest).2
      rw [htail, dropWhile_run_append (by simp) rfl] at h
      exact h rfl
  constructor
  · rw [pull_eq_scan rfl, scan_bracket, bracket, hnone]
    rfl
  · rw [pull_eq_scan rfl, scan_dashes, lineComment_eq]
    · simp [take_length_takeWhile, drop_length_takeWhile]
    · rintro rest level ⟨⟩ hlevel
      rw [hnone] at hlevel
      cases hlevel

/-- A long bracket gives a text exactly if no closer of its level starts before
the one after the text, and is unfinished exactly if there is none. Every text
has a level that carries it. -/
theorem longBracket_verbatim (use : Bracketed) (n : Nat) (T R : List Char)
    (p q : Position) :
    (pull p (use.mark ++ opener n ++ T ++ closer n ++ R) =
        .token ⟨use.kind (String.ofList T), p⟩ q R ↔
      FirstOccurs (closer n) (T ++ closer n) T.length ∧
        q = p.after (use.mark ++ opener n ++ T ++ closer n)) ∧
    (pull p (use.mark ++ opener n ++ R) = .broken ⟨.unfinishedLongBracket, p⟩ ↔
      ¬closer n <:+: R) ∧
    ((R.dropWhile (· == '=')).head? ≠ some '[' →
      pull p ('[' :: '=' :: R) = .broken ⟨.invalidLongBracket, p⟩ ∧
        pull p ('-' :: '-' :: '[' :: '=' :: R) =
          .token
            ⟨.comment (String.ofList ('[' :: '=' :: R.takeWhile (· != '\n'))),
              p⟩
            (p.after ('-' :: '-' :: '[' :: '=' :: R.takeWhile (· != '\n')))
            (R.dropWhile (· != '\n'))) ∧
    ∃ level, ∀ (use : Bracketed) (R : List Char) (p : Position),
      pull p (use.mark ++ opener level ++ T ++ closer level ++ R) =
        .token ⟨use.kind (String.ofList T), p⟩
          (p.after (use.mark ++ opener level ++ T ++ closer level)) R := by
  refine ⟨pull_closed_iff use, pull_unclosed_iff use, pull_unopened, T.length,
    fun use R p => ?_⟩
  exact (pull_closed_iff use).mpr ⟨firstOccurs_closer_length T, rfl⟩

/-- Closers of the levels below and above stand in the text. -/
theorem longBracket_verbatim_levels :
    pull .start "--[=[x]]==]]=]..".toList =
      .token ⟨.comment "x]]==]", .start⟩ ⟨1, 15⟩ "..".toList ∧
    pull .start "[=..".toList = .broken ⟨.invalidLongBracket, .start⟩ := by
  have h :=
    longBracket_verbatim .comment 1 "x]]==]".toList "..".toList .start ⟨1, 15⟩
  exact ⟨h.1.mpr (by decide +kernel), (h.2.2.1 (by decide)).1⟩

end Tokens

end LuaCore
