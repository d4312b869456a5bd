import LuaCore.Proofs.Token.Lexeme

namespace LuaCore

/-- What one pull gives: the end of the text, an error, or a token with the text
after it and where that starts. -/
inductive Pulled
  | ended (p : Position)
  | broken (e : LexError)
  | token (t : Token) (p : Position) (rest : List Char)
deriving DecidableEq

namespace Tokens

/-- Passes blanks and takes one lexeme. -/
def pull (p : Position) : List Char → Pulled
  | [] => .ended p
  | c :: cs =>
    if isBlank c then pull (p.next c) cs
    else match Lexeme.scan c cs with
      | .ok (kind, length) =>
        .token ⟨kind, p⟩ ((p.next c).after (cs.take length)) (cs.drop length)
      | .error fault => .broken ⟨fault, p⟩

variable {p q : Position} {cs rest : List Char} {t : Token}

theorem pull_eq_scan {c : Char} (hc : isBlank c = false) (p : Position)
    (cs : List Char) :
    pull p (c :: cs) =
      match Lexeme.scan c cs with
      | .ok (kind, length) =>
        .token ⟨kind, p⟩ (p.after (c :: cs.take length)) (cs.drop length)
      | .error fault => .broken ⟨fault, p⟩ := by
  rw [pull, hc]
  rfl

/-- A pull of a token takes at least one character, and the position keeps up
with what it takes. -/
theorem pull_takes (h : pull p cs = .token t q rest) :
    ∃ used, used ≠ [] ∧ cs = used ++ rest ∧ q = p.after used := by
  induction cs generalizing p with
  | nil => cases h
  | cons c cs ih =>
    rw [pull] at h
    split at h
    · obtain ⟨used, -, rfl, rfl⟩ := ih h
      exact ⟨c :: used, List.cons_ne_nil c used, rfl, rfl⟩
    · cases hscan : Lexeme.scan c cs with
      | error fault =>
        rw [hscan] at h
        cases h
      | ok lexeme =>
        rw [hscan] at h
        cases h
        refine ⟨c :: cs.take lexeme.2, List.cons_ne_nil _ _, ?_, rfl⟩
        rw [List.cons_append, List.take_append_drop]

theorem length_of_pull (h : pull p cs = .token t q rest) :
    rest.length < cs.length := by
  obtain ⟨used, hused, rfl, -⟩ := pull_takes h
  rw [List.length_append]
  exact Nat.lt_add_of_pos_left (List.length_pos_iff.mpr hused)

def pullAll (p : Position) (cs : List Char) : Tokens :=
  match _h : pull p cs with
  | .ended q => ⟨[], .finished q⟩
  | .broken e => ⟨[], .broken e⟩
  | .token t q rest => (pullAll q rest).cons t
termination_by cs.length
decreasing_by exact length_of_pull _h

/-- Characters that belong to the token before them only move the position. -/
theorem ofChars_skip (p : Position) (n : Nat) (cs : List Char) :
    ofChars p n cs = ofChars (p.after (cs.take n)) 0 (cs.drop n) := by
  induction cs generalizing p n with
  | nil =>
    rw [List.take_nil, List.drop_nil]
    rfl
  | cons c cs ih =>
    cases n with
    | zero => rfl
    | succ n => exact ih (p.next c) n

theorem ofChars_eq_pull (p : Position) (cs : List Char) :
    ofChars p 0 cs =
      match pull p cs with
      | .ended q => ⟨[], .finished q⟩
      | .broken e => ⟨[], .broken e⟩
      | .token t q rest => (ofChars q 0 rest).cons t := by
  induction cs generalizing p with
  | nil => rfl
  | cons c cs ih =>
    rw [ofChars, pull]
    split
    · exact ih (p.next c)
    · cases Lexeme.scan c cs with
      | error fault => rfl
      | ok lexeme => exact congrArg (cons _) (ofChars_skip _ _ _)

theorem pullAll_eq_ofChars (p : Position) (cs : List Char) :
    pullAll p cs = ofChars p 0 cs := by
  induction p, cs using pullAll.induct with
  | case1 p cs q h => rw [pullAll, ofChars_eq_pull, h]
  | case2 p cs e h => rw [pullAll, ofChars_eq_pull, h]
  | case3 p cs t q rest h ih =>
    rw [pullAll, ofChars_eq_pull, h]
    exact congrArg (cons t) ih

theorem length_pullAll_le (p : Position) (cs : List Char) :
    (pullAll p cs).list.length ≤ cs.length := by
  induction p, cs using pullAll.induct with
  | case1 p cs q h =>
    rw [pullAll, h]
    exact Nat.zero_le _
  | case2 p cs e h =>
    rw [pullAll, h]
    exact Nat.zero_le _
  | case3 p cs t q rest h ih =>
    rw [pullAll, h]
    exact Nat.le_trans (Nat.succ_le_succ ih) (length_of_pull h)

theorem ofSource_eq_pullAll (source : String) :
    ofSource source = pullAll .start source.toList :=
  (pullAll_eq_ofChars _ _).symm

end Tokens

end LuaCore
