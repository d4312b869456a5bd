import LuaCore.Proofs.Reader.Layout
import LuaCore.Proofs.Reader.Mirror

namespace LuaCore

open Reader

namespace Cursor

variable {c : Cursor} {a b : Token} {ts : List Token}

theorem isEos_of_ahead (h : c.ahead = a :: b :: ts) :
    c.current.kind.isEos = false := by
  refine TokenKind.isEos_eq_false_iff.mpr fun hend => ?_
  rw [ahead_of_eos hend] at h
  cases h

theorem Proper.next (hc : c.Proper) (h : c.ahead = a :: b :: ts) :
    ∃ d, Reader.next c = .ok () d ∧ d.Proper ∧ d.ahead = b :: ts := by
  have hkind := isEos_of_ahead h
  cases hnext : Reader.next c with
  | error e d =>
    obtain ⟨-, -, -, hnone⟩ := advance_eq_error hnext
    rw [ahead_of_isEos hkind] at h
    exact absurd ((List.cons.inj h).2.symm.trans hnone) (List.cons_ne_nil b ts)
  | ok u d =>
    have hmoves := next_moves hc hkind hnext
    have hahead := hmoves.ahead
    rw [h] at hahead
    exact ⟨d, rfl, hmoves.proper, (List.cons.inj hahead).2.symm⟩

end Cursor

/-- Two cursors before the same token, with the same tokens up to some token,
until the left one is moved past it. -/
def Mirror.upTo (before : List Token) (near : Token) (after after' : List Token)
    (ending : Ending) (bound : Nat) :
    Mirror where
  Sees c d := (c.Proper ∧ c.rest.ending = ending ∧ c.left ≤ bound) ∧ d.Proper ∧
    ∃ mid, mid <:+ before ∧ c.ahead = mid ++ near :: after ∧
      d.ahead = mid ++ near :: after'
  exit := .along after ending bound
  current := fun {c d} ⟨_, _, mid, _, hc, hd⟩ => by
    have hleft := c.head?_ahead
    have hright := d.head?_ahead
    rw [hc] at hleft
    rw [hd] at hright
    cases mid with
    | nil => exact Option.some.inj (hleft.symm.trans hright)
    | cons a mid => exact Option.some.inj (hleft.symm.trans hright)
  afterBuild := fun hnode ⟨⟨hc, hrest⟩, hd, hmid⟩ =>
    have hnode := Node.comment?_of_isPart hnode
    ⟨⟨(hc.build hnode).proper, hrest⟩, (hd.build hnode).proper, hmid⟩
  afterNext := fun {c d}
    ⟨⟨hc, hending, hbound⟩, hd, mid, hsuffix, hleft, hright⟩ hkind => by
    cases mid with
    | nil =>
      refine .inl ?_
      cases hnext : next c with
      | ok u c' =>
        have hmoves := next_moves hc hkind hnext
        have hahead := hmoves.ahead
        rw [hleft] at hahead
        have hlength := c'.length_ahead_le_left
        have hdecr := next_left hkind hnext
        exact ⟨c'.ahead.length, Nat.le_trans hlength hdecr,
          ⟨hmoves.proper, hmoves.ending.trans hending,
            (List.cons.inj hahead).2 ▸ List.suffix_refl _⟩, rfl, by omega⟩
      | error e c' =>
        obtain ⟨broken, hbroken, rfl⟩ := next_eq_error hnext
        exact hending ▸ hbroken
    | cons a mid =>
      obtain ⟨b, ts, hmore⟩ : ∃ b ts, mid ++ near :: after = b :: ts :=
        List.exists_cons_of_ne_nil (by simp)
      obtain ⟨b', ts', hmore'⟩ : ∃ b ts, mid ++ near :: after' = b :: ts :=
        List.exists_cons_of_ne_nil (by simp)
      obtain ⟨c', hc', hproper, hahead⟩ :=
        hc.next (hleft.trans (congrArg (a :: ·) hmore))
      obtain ⟨d', hd', hproper', hahead'⟩ :=
        hd.next (hright.trans (congrArg (a :: ·) hmore'))
      have hmoves := next_moves hc hkind hc'
      have hdecr := next_left hkind hc'
      rw [hc', hd']
      exact .inr <| .ok ()
        ⟨⟨hproper, hmoves.ending.trans hending, by omega⟩, hproper', mid,
          List.IsSuffix.trans (List.suffix_cons a mid) hsuffix,
          hahead.trans hmore.symm, hahead'.trans hmore'.symm⟩

namespace Chunk

/-- What a reply says of the tokens: that they come to an end, with which error
they do not, or at which of them the grammar fails. -/
def Explains (ts : List Token) (ending : Ending) : Reply Chunk → Prop
  | .ok _ _ => ∃ p, ending = .finished p
  | .error (.lexical broken) _ => ending = .broken broken
  | .error (.grammatical e) c => e.near = c.current ∧ e.near ∈ ts

variable {ts : List Token} {ending : Ending} {bound : Nat} {m : Block → Nat}
    {p q : Reader Block} {c d : Cursor}

theorem explains_closing (h : (Course.along ts ending bound).Keeps m (p c)) :
    Explains ts ending ((p >>= closing) c) := by
  rw [bind_apply]
  revert h
  cases p c with
  | error e d =>
    cases e with
    | lexical broken => exact id
    | grammatical e => exact id
  | ok body d =>
    rintro ⟨_, _, ⟨hproper, hending, hsuffix⟩, _⟩
    dsimp only
    rw [closing_apply]
    by_cases hend : d.current.kind = .eos
    · rw [if_pos hend]
      exact ⟨d.current.position,
        hending.symm.trans (congrArg (·.ending) (hproper.ended hend))⟩
    · rw [if_neg hend]
      exact ⟨rfl, hsuffix.subset (List.mem_of_head? d.head?_ahead)⟩

theorem Explains.near_mem {r : Reply Chunk} {e : SyntaxError}
    (h : Explains ts ending r) (hr : r.result = .error (.grammatical e)) :
    e.near ∈ ts := by
  cases r with
  | ok body c => cases hr
  | error e' c =>
    cases hr
    exact h.2

theorem explains_read (s : String) :
    Explains (Tokens.ofSource s).significant (Tokens.ofSource s).ending
      (read s) := by
  cases hnext : next (.start (Tokens.ofSource s)) with
  | error e c =>
    obtain ⟨broken, hbroken, rfl⟩ := next_eq_error hnext
    rw [read, readTokens, chunk_of_next_error hnext]
    exact hbroken
  | ok u c =>
    have hreach := Tokens.ofSource_reaches hnext
    have hat :
        (Course.along (Tokens.ofSource s).significant
          (Tokens.ofSource s).ending ((Tokens.ofSource s).list.length + 1)).At
            c.ahead.length c :=
      ⟨⟨hreach.proper, hreach.ending, hreach.ahead ▸ List.suffix_refl _⟩, rfl,
        hreach.ahead ▸ (Tokens.ofSource s).length_significant_le⟩
    rw [read_eq hnext]
    exact explains_closing
      (Course.keeps_block _ maxLevels (Nat.succ_pos _) (Nat.le_refl _) hat)

theorem closing_error_of_mirrors {Sees : Cursor → Cursor → Prop} {e : ReadError}
    (hsame : ∀ {c d}, Sees c d → c.current = d.current)
    (h : (p c).Mirrors Sees (q d))
    (he : ((p >>= closing) c).result = .error e) :
    ((q >>= closing) d).result = .error e := by
  rw [bind_apply] at he ⊢
  generalize p c = r, q d = r' at h he
  cases h with
  | error e' hsees => exact he
  | ok body hsees =>
    dsimp only at he ⊢
    rw [closing_apply] at he ⊢
    rw [← hsame hsees]
    split at he
    · cases he
    · next hend =>
      rw [if_neg hend]
      exact he

variable {s t : String} {e : SyntaxError} {before after after' : List Token}

/-- A failure of the grammar is the same in every source with the same tokens up
to the one that it is reported at. -/
theorem ofSource_error_of_upTo (hs : ofSource s = .error (.grammatical e))
    (hleft : (Tokens.ofSource s).significant = before ++ e.near :: after)
    (hright : (Tokens.ofSource t).significant = before ++ e.near :: after') :
    ofSource t = .error (.grammatical e) := by
  let rounds :=
    max (Tokens.ofSource s).list.length (Tokens.ofSource t).list.length + 1
  let deeper := Deeper.ofLevels rounds maxLevels
  have hchunkS : (Reader.chunk deeper (.start (Tokens.ofSource s))).result =
      .error (.grammatical e) := by
    rw [chunk_eq_readTokens (Nat.lt_succ_of_le (Nat.le_max_left _ _))]
    exact (ofSource_eq_result s).symm.trans hs
  suffices hchunkT : (Reader.chunk deeper (.start (Tokens.ofSource t))).result =
      .error (.grammatical e) by
    rw [chunk_eq_readTokens (Nat.lt_succ_of_le (Nat.le_max_right _ _))]
      at hchunkT
    exact (ofSource_eq_result t).trans hchunkT
  have hpast : e.near ∉ after := by
    have hnodup := Tokens.nodup_significant s
    rw [hleft] at hnodup
    exact (List.nodup_cons.mp (List.nodup_append.mp hnodup).2.1).1
  cases hc : next (.start (Tokens.ofSource s)) with
  | error e' c =>
    obtain ⟨broken, -, rfl⟩ := next_eq_error hc
    rw [chunk_of_next_error hc] at hchunkS
    cases hchunkS
  | ok u c =>
    cases hd : next (.start (Tokens.ofSource t)) with
    | error e' d =>
      obtain ⟨-, -, -, hnone⟩ := advance_eq_error hd
      exact absurd (hright.symm.trans hnone) (by simp)
    | ok u d =>
      have hreach := Tokens.ofSource_reaches hc
      have hreach' := Tokens.ofSource_reaches hd
      have hbound : c.left ≤ rounds :=
        Nat.le_trans (advance_left hc) (Nat.succ_le_succ (Nat.le_max_left _ _))
      have halike : deeper.Alike
          ((Mirror.upTo before e.near after after' (Tokens.ofSource s).ending
              rounds).pairing rounds (Nat.succ_pos _) (Nat.le_refl _)) deeper :=
        .ofLevels ⟨Nat.le_refl _, Nat.le_refl _⟩ maxLevels
      rw [chunk_of_next hc] at hchunkS
      rw [chunk_of_next hd]
      have hreply := Mirror.replies halike.block (d := d)
        ⟨⟨hreach.proper, hreach.ending, hbound⟩, hreach'.proper, before,
          List.suffix_refl _, hreach.ahead.trans hleft,
          hreach'.ahead.trans hright⟩ hbound
      rcases hreply with hkeeps | hmirrors
      -- past the token the left run can no longer fail at it
      · exact absurd ((explains_closing hkeeps).near_mem hchunkS) hpast
      · exact closing_error_of_mirrors (Mirror.current _) hmirrors hchunkS

/-- A program is read only from tokens that come to an end, an error of the
tokens is the one that ends them, and a failure of the grammar is reported at
one of the tokens that matter or at the end: it is the same error in every
source with the same tokens up to there, whatever follows. -/
theorem ofSource_looks_no_further (s : String) :
    (∀ c, ofSource s = .ok c → ∃ p, (Tokens.ofSource s).ending = .finished p) ∧
    (∀ broken, ofSource s = .error (.lexical broken) →
      (Tokens.ofSource s).ending = .broken broken) ∧
    (∀ e, ofSource s = .error (.grammatical e) →
      (∃ c, read s = .error (.grammatical e) c ∧ e.near = c.current) ∧
        ∃ k, (Tokens.ofSource s).significant[k]? = some e.near ∧
          ∀ t, (Tokens.ofSource t).significant.take (k + 1) =
              (Tokens.ofSource s).significant.take (k + 1) →
            ofSource t = .error (.grammatical e)) := by
  have hexplains := explains_read s
  rw [ofSource_eq_result]
  refine ⟨fun c hc => ?_, fun broken hbroken => ?_, fun e he => ?_⟩
  · revert hc hexplains
    cases read s with
    | ok c' d => exact fun hexplains _ => hexplains
    | error e d => exact fun _ => nofun
  · revert hbroken hexplains
    cases read s with
    | ok c' d => exact fun _ => nofun
    | error e d =>
      rintro hexplains ⟨⟩
      exact hexplains
  · obtain ⟨c, hread⟩ : ∃ c, read s = .error (.grammatical e) c := by
      revert he
      cases read s with
      | ok c' d => exact nofun
      | error e' d =>
        rintro ⟨⟩
        exact ⟨d, rfl⟩
    rw [hread] at hexplains
    obtain ⟨hnear, hmem⟩ := hexplains
    refine ⟨⟨c, hread, hnear⟩, ?_⟩
    obtain ⟨before, after, hleft⟩ := List.append_of_mem hmem
    refine ⟨before.length, by simp [hleft], fun t ht => ?_⟩
    rw [hleft] at ht
    obtain ⟨after', hright⟩ : before ++ [e.near] <+:
        (Tokens.ofSource t).significant := by
      rw [List.take_length_add_append, List.take_succ_cons, List.take_zero]
        at ht
      rw [← ht]
      exact List.take_prefix _ _
    have hsame : (Tokens.ofSource t).significant =
        before ++ e.near :: after' := by
      rw [← hright, List.append_assoc]
      rfl
    exact ofSource_error_of_upTo ((ofSource_eq_result s).trans he) hleft hsame

/-- Nothing after the token that does not fit is asked for, not even a string
without an end. -/
theorem ofSource_looks_no_further_string :
    ofSource "x = )" =
      .error (.grammatical ⟨.unexpectedSymbol, ⟨.symbol .rightParen, ⟨1, 5⟩⟩⟩) ∧
    ofSource "x = ) \"y" =
      .error (.grammatical ⟨.unexpectedSymbol, ⟨.symbol .rightParen, ⟨1, 5⟩⟩⟩) ∧
    (Tokens.ofSource "x = ) \"y").ending =
      .broken ⟨.unfinishedString, ⟨1, 7⟩⟩ := by
  have hfails :
      (match ofSource "x = )" with | .error e => some e | .ok _ => none) =
        some (.grammatical ⟨.unexpectedSymbol,
              ⟨.symbol .rightParen, ⟨1, 5⟩⟩⟩) := by decide +kernel
  have he : ofSource "x = )" = .error
        (.grammatical ⟨.unexpectedSymbol, ⟨.symbol .rightParen, ⟨1, 5⟩⟩⟩) := by
    revert hfails
    cases ofSource "x = )" with
    | error e => exact fun h => congrArg _ (Option.some.inj h)
    | ok c => exact nofun
  have hbroken : (Tokens.ofSource "x = ) \"y").ending =
      .broken ⟨.unfinishedString, ⟨1, 7⟩⟩ := by decide +kernel
  obtain ⟨-, k, hk, hsame⟩ := (ofSource_looks_no_further "x = )").2.2 _ he
  have hplace : (Tokens.ofSource "x = )").significant[2]? =
      some ⟨.symbol .rightParen, ⟨1, 5⟩⟩ := by decide +kernel
  have hlt : k < (Tokens.ofSource "x = )").significant.length :=
    (List.getElem?_eq_some_iff.mp hk).1
  have hk2 : k = 2 := (List.getElem?_inj hlt (Tokens.nodup_significant _)).mp
    (hk.trans hplace.symm)
  subst hk2
  exact ⟨he, hsame _ (by decide +kernel), hbroken⟩

end Chunk

end LuaCore
