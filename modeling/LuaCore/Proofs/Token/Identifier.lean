import LuaCore.Proofs.Token.Found

namespace LuaCore

open Lexeme Numeral

structure IsIdentifier (x : String) : Prop where
  spelled : ∃ first rest, x.toList = first :: rest ∧ startsName first = true ∧
    ∀ c ∈ rest, isWordChar c = true
  notKeyword : Keyword.ofText? x = none

def isWordText : List Char → Bool
  | [] => false
  | first :: rest => startsName first && rest.all isWordChar

theorem isWordText_iff {cs : List Char} :
    isWordText cs = true ↔
      ∃ first rest, cs = first :: rest ∧ startsName first = true ∧
        ∀ c ∈ rest, isWordChar c = true := by
  cases cs with
  | nil => simp [isWordText]
  | cons first rest =>
    rw [isWordText, Bool.and_eq_true, List.all_eq_true]
    constructor
    · exact fun h => ⟨first, rest, rfl, h⟩
    · rintro ⟨_, _, ⟨⟩, h⟩
      exact h

theorem isIdentifier_iff {x : String} :
    IsIdentifier x ↔ isWordText x.toList = true ∧ Keyword.ofText? x = none :=
  ⟨fun h => ⟨isWordText_iff.mpr h.spelled, h.notKeyword⟩,
    fun h => ⟨isWordText_iff.mp h.1, h.2⟩⟩

instance (x : String) : Decidable (IsIdentifier x) :=
  decidable_of_iff _ isIdentifier_iff.symm

theorem isIdentifier_self : IsIdentifier "self" := by decide

namespace Lexeme

theorem isIdentifier_word {first : Char} {rest : List Char} {x : String}
    (hfirst : startsName first = true) (h : (word first rest).1 = .name x) :
    IsIdentifier x := by
  unfold word at h
  dsimp only at h
  split at h
  · cases h
  · next hkeyword =>
    cases h
    exact ⟨⟨first, rest.takeWhile isWordChar, String.toList_ofList, hfirst,
      fun c hc => List.all_eq_true.mp List.all_takeWhile c hc⟩, hkeyword⟩

end Lexeme

namespace Tokens

theorem isIdentifier_of_mem {source : String} {t : Token} {x : String}
    (ht : t ∈ (ofSource source).list) (hx : t.kind = .name x) :
    IsIdentifier x := by
  have hword : ∀ c rest, Finds (fun kind => ∀ x, kind = .name x →
        IsIdentifier x) (Lexeme.scan c rest) := by
    intro c rest
    refine finds_scan ?_ c rest fun hname x => isIdentifier_word hname
    constructor <;> nofun
  exact ofChars_finds hword .start 0 source.toList t ht x hx

end Tokens

end LuaCore
