import LuaCore.Proofs.Reader.Layout
import LuaCore.Proofs.Reader.WellFormed
import LuaCore.Proofs.Token.Line

namespace LuaCore

open Reader

theorem significantKinds_append (ts us : List Token) :
    significantKinds (ts ++ us) =
      significantKinds ts ++ significantKinds us := by
  simp [significantKinds_eq_map]

theorem significantKinds_down (lines : Nat) (ts : List Token) :
    significantKinds (ts.map (·.down lines)) = significantKinds ts := by
  have hcomment : ∀ t : Token, (t.down lines).comment?.isNone =
      t.comment?.isNone := by
    rintro ⟨kind, p⟩
    cases kind <;> rfl
  rw [significantKinds_eq_map, significantKinds_eq_map, List.filter_map,
    List.map_map]
  simp only [Function.comp_def, hcomment]
  rfl

namespace Tokens

variable {s t : String} {ks ks' : List TokenKind}

theorem Spell.line (hs : (ofSource s).Spell ks) (ht : (ofSource t).Spell ks') :
    (ofSource (s ++ "\n" ++ t)).Spell (ks ++ ks') := by
  obtain ⟨rfl, p, hp⟩ := hs
  obtain ⟨rfl, q, hq⟩ := ht
  rw [ofSource_line hp]
  refine ⟨?_, q.down p.line, ?_⟩
  · rw [kinds, before, down, significantKinds_append, significantKinds_down]
    rfl
  · rw [before, down, hq]
    rfl

theorem Spell.joined (hs : (ofSource s).Spell ks)
    (ht : (ofSource t).Spell ks') :
    (ofSource (s ++ "\n;\n" ++ t)).Spell (ks ++ .symbol .semicolon :: ks') := by
  have hsemicolon : (ofSource ";").Spell [.symbol .semicolon] :=
    spell_at ⟨1, 2⟩ (by decide +kernel) (by decide +kernel)
  have htext : s ++ "\n;\n" ++ t = s ++ "\n" ++ (";" ++ "\n" ++ t) := by
    apply String.toList_injective
    simp
  rw [htext]
  exact hs.line (hsemicolon.line ht)

end Tokens

/-- The left tokens end where a semicolon goes before others on the right. -/
def Pairing.ofContinued (s t : List Token) (more : List TokenKind) : Pairing :=
  .ofTokens s t .success (.symbol .semicolon) more (.inr ⟨trivial, rfl⟩) rfl

namespace Reader

variable {deeper : Deeper} {ts : List Token} {k : TokenKind}
    {ks : List TokenKind} {r : Nat} {c : Cursor}

theorem yields_returnStat (deeper : Deeper) :
    Yields (returnStat deeper) fun s => s.isReturn = true := by
  refine yields_then fun _ => yields_then fun kind => ?_
  split
  · exact yields_madeStat rfl
  · exact yields_then fun values => yields_madeStat rfl

theorem stats_succ (deeper : Deeper) (r : Nat) (c : Cursor) :
    stats deeper (r + 1) c =
      if c.current.kind.closesBlock then .ok [] c
      else if c.current.kind = .keyword .return then
        (do
          let s ← returnStat deeper
          let _ ← consume (.symbol .semicolon)
          return [s]) c
      else
        (do
          let s ← stat deeper
          let _ ← consume (.symbol .semicolon)
          return s :: (← stats deeper r)) c := by
  rw [stats, bind_apply]
  show (ite _ _ _ : Reader Block) c = _
  split
  · rfl
  · split <;> rfl

theorem stats_closed (hclosed : c.current.kind.closesBlock = true) :
    stats deeper r c = .ok [] c := by
  cases r with
  | zero => rfl
  | succ r => rw [stats_succ, if_pos hclosed]

theorem stats_eq_ok {body : Block} {d : Cursor}
    (h : stats deeper r c = .ok body d) (hbody : body ≠ [])
    (hreturn : body.getLast?.any Stat.isReturn = false) :
    ∃ s ss found c₁ c₂ r₀, body = s :: ss ∧ r = r₀ + 1 ∧
      c.current.kind.closesBlock = false ∧
      c.current.kind ≠ .keyword .return ∧ stat deeper c = .ok s c₁ ∧
      consume (.symbol .semicolon) c₁ = .ok found c₂ ∧
        stats deeper r₀ c₂ = .ok ss d := by
  cases r with
  | zero => exact absurd (by cases h; rfl) hbody
  | succ r =>
    rw [stats_succ] at h
    split at h
    · cases h
      exact absurd rfl hbody
    next hopen =>
      split at h
      · obtain ⟨s, c₁, hs, h⟩ := bind_eq_ok.mp h
        obtain ⟨found, c₂, hfound, h⟩ := bind_eq_ok.mp h
        cases h
        have hyields := yields_returnStat deeper hs
        simp [hyields] at hreturn
      next hkind =>
        obtain ⟨s, c₁, hs, h⟩ := bind_eq_ok.mp h
        obtain ⟨found, c₂, hfound, h⟩ := bind_eq_ok.mp h
        obtain ⟨ss, c₃, hss, h⟩ := bind_eq_ok.mp h
        cases h
        exact ⟨s, ss, found, c₁, c₂, r, rfl, rfl, Bool.not_eq_true _ ▸ hopen,
          hkind, hs, hfound, hss⟩

theorem eq_of_stats_nil {d : Cursor} (h : stats deeper r c = .ok [] d) :
    d = c := by
  cases r with
  | zero =>
    cases h
    rfl
  | succ r =>
    rw [stats_succ] at h
    split at h
    · cases h
      rfl
    · split at h
      · obtain ⟨s, c₁, -, h⟩ := bind_eq_ok.mp h
        obtain ⟨found, c₂, -, h⟩ := bind_eq_ok.mp h
        cases h
      · obtain ⟨s, c₁, -, h⟩ := bind_eq_ok.mp h
        obtain ⟨found, c₂, -, h⟩ := bind_eq_ok.mp h
        obtain ⟨ss, c₃, -, h⟩ := bind_eq_ok.mp h
        cases h

theorem consume_faced (h : c.Faces ts (k :: ks)) (hk : k.isEos = false) :
    ∃ d, consume k c = .ok true d ∧ d.Faces ts ks := by
  obtain ⟨d, hd, hfaces⟩ := h.next hk
  refine ⟨d, ?_, hfaces⟩
  simp only [consume, check, bind_apply, peek, pure_apply,
    decide_eq_true h.kind]
  show (next >>= fun _ => pure true) c = _
  rw [bind_apply, hd]
  rfl

end Reader

namespace Cursor

variable {s t : List Token} {more : List TokenKind} {n : Nat} {c d : Cursor}

theorem Faces.eq_nil {ks : List TokenKind} (h : c.Faces s (ks ++ [.eos]))
    (hend : c.current.kind = .eos) :
    ks = [] := by
  have hkinds := h.kinds
  rw [ahead_of_eos hend, List.map_singleton] at hkinds
  simpa [hend] using hkinds.symm

theorem Faces.suffix_kinds {ks : List TokenKind} (h : c.Faces s ks) :
    ks <:+ s.map (·.kind) :=
  h.kinds ▸ h.suffix.map _

/-- Before the end of the left tokens a semicolon is skipped on both sides or
on neither, and the left side comes to its end only if the semicolon is its
last token. -/
theorem Level.skip (h : Level s t (.symbol .semicolon :: more) n c d)
    (hkind : c.current.kind ≠ .eos) :
    ∃ found c' d', consume (.symbol .semicolon) c = .ok found c' ∧
      consume (.symbol .semicolon) d = .ok found d' ∧
      (∃ j ≤ n, Level s t (.symbol .semicolon :: more) j c' d') ∧
      (c'.current.kind = .eos → c.Faces s [.symbol .semicolon, .eos]) := by
  obtain ⟨ks, rfl, hleft, hright⟩ := h
  cases ks with
  | nil => exact absurd hleft.kind hkind
  | cons k ks =>
    by_cases hk : k = .symbol .semicolon
    · subst hk
      obtain ⟨c', hc', hleft'⟩ := consume_faced hleft rfl
      obtain ⟨d', hd', hright'⟩ := consume_faced hright rfl
      refine ⟨true, c', d', hc', hd',
        ⟨ks.length + 1, Nat.le_succ _, ks, rfl, hleft', hright'⟩,
        fun hend => ?_⟩
      obtain rfl := hleft'.eq_nil hend
      exact hleft
    · have hc := consume_other (c := c) (by rwa [hleft.kind])
      have hd := consume_other (c := d) (by rwa [hright.kind])
      exact ⟨false, c, d, hc, hd,
        ⟨_, Nat.le_refl _, k :: ks, rfl, hleft, hright⟩,
        fun hend => absurd hend hkind⟩

end Cursor

namespace Reader

variable {s t : List Token} {more : List TokenKind} {deeper deeper' : Deeper}
    {body : Block}
variable {n r r' : Nat} {c c' d : Cursor}

theorem stats_continued (h : deeper.Alike (.ofContinued s t more) deeper')
    (hlast : ¬[.symbol .semicolon, .eos] <:+ s.map (·.kind))
    (hlevel : Cursor.Level s t (.symbol .semicolon :: more) n c d)
    (hrounds : n + more.length ≤ r') (hrun : stats deeper r c = .ok body c')
    (hend : c'.current.kind = .eos) (hbody : body ≠ [])
    (hreturn : body.getLast?.any Stat.isReturn = false) :
    ∃ turns d', more.length ≤ turns ∧ d'.Faces t more ∧
      stats deeper' r' d = ((body ++ ·) <$> stats deeper' turns) d' := by
  induction body generalizing n r r' c d with
  | nil => exact absurd rfl hbody
  | cons st ss ih =>
    obtain ⟨_, _, found, c₁, c₂, r₀, heq, rfl, hopen, hkind, hst, hfound,
      hss⟩ :=
      stats_eq_ok hrun hbody hreturn
    obtain ⟨rfl, rfl⟩ := List.cons.inj heq
    have hpos := (Pairing.ofContinued s t more).pos hlevel
    obtain ⟨turns, rfl, hturns⟩ : ∃ turns, r' = turns + 1 ∧
        n - 1 + more.length ≤ turns :=
      exists_turn (by omega)
    have hsame : c.current.kind = d.current.kind := by
      rcases (Pairing.ofContinued s t more).kinds hlevel with hsame |
          ⟨-, heos, -⟩
      · exact hsame
      · rw [heos] at hopen
        cases hopen
    have hreply := (h.stat n _).replies (Nat.le_refl n) hlevel rfl
    rw [hst] at hreply
    obtain ⟨d₁, hst', j, hj, hlevel₁⟩ := hreply.succeeds fun _ => id
    have hturn : stats deeper' (turns + 1) d = (do
        let _ ← consume (.symbol .semicolon)
        return st :: (← stats deeper' turns)) d₁ := by
      rw [stats_succ, ← hsame, hopen, if_neg Bool.false_ne_true, if_neg hkind,
        bind_apply, hst']
    by_cases heos : c₁.current.kind = .eos
    · obtain ⟨ks, rfl, hleft, hright⟩ := hlevel₁
      obtain rfl := hleft.eq_nil heos
      obtain ⟨d₂, hd₂, hfaces⟩ := consume_faced hright rfl
      rw [consume_other (by rw [heos]; simp)] at hfound
      cases hfound
      rw [stats_closed (by rw [heos]; rfl)] at hss
      cases hss
      refine ⟨turns, d₂, Nat.le_trans (Nat.le_add_left _ _) hturns, hfaces, ?_⟩
      rw [hturn, bind_apply, hd₂]
      rfl
    · obtain ⟨found', c₂', d₂, hc₂, hd₂, ⟨i, hi, hlevel₂⟩, hsemicolon⟩ :=
        hlevel₁.skip heos
      obtain ⟨rfl, rfl⟩ : found' = found ∧ c₂' = c₂ := by
        rw [hc₂] at hfound
        cases hfound
        exact ⟨rfl, rfl⟩
      have hmore : ss ≠ [] := by
        rintro rfl
        obtain rfl := eq_of_stats_nil hss
        exact hlast (hsemicolon hend).suffix_kinds
      have hreturn' : ss.getLast?.any Stat.isReturn = false := by
        rwa [List.getLast?_cons_of_ne_nil hmore] at hreturn
      have hrounds' : i + more.length ≤ turns := by omega
      obtain ⟨left, d', hleft, hfaces, hrest⟩ :=
        ih hlevel₂ hrounds' hss hmore hreturn'
      refine ⟨left, d', hleft, hfaces, ?_⟩
      rw [hturn, bind_apply, hd₂]
      dsimp only
      rw [map_eq_pure_bind, bind_apply, hrest, map_eq_pure_bind, bind_apply,
        bind_apply]
      cases stats deeper' left d' <;> rfl

end Reader

namespace Chunk

variable {s t u : String} {a b : Chunk}

def topReaders (s : String) : Deeper :=
  .ofLevels ((Tokens.ofSource s).list.length + 1) (maxLevels - 1)

theorem ofSource_body_iff {c : Cursor} {body : Block}
    (hc : next (.start (Tokens.ofSource s)) = .ok () c) :
    (∃ p, ofSource s = .ok p ∧ p.body = body) ↔
      ∃ d, stats (topReaders s) ((Tokens.ofSource s).list.length + 1) c =
        .ok body d ∧
        d.current.kind = .eos := by
  have hread := read_eq hc
  constructor
  · rintro ⟨p, hp, rfl⟩
    obtain ⟨last, hlast⟩ := read_of_ofSource hp
    rw [hread] at hlast
    obtain ⟨body, d, hblock, hclosing⟩ := bind_eq_ok.mp hlast
    obtain ⟨body', d', hstats, hbuild⟩ := bind_eq_ok.mp hblock
    cases hbuild
    obtain ⟨hend, rfl, -⟩ := closing_eq_ok hclosing
    exact ⟨d', hstats, hend⟩
  · rintro ⟨d, hstats, hend⟩
    have hblock :
        (Deeper.ofLevels ((Tokens.ofSource s).list.length + 1) maxLevels).block
            c = .ok body { d with built := .block body :: d.built } :=
      bind_eq_ok.mpr ⟨body, d, hstats, rfl⟩
    rw [bind_apply, hblock] at hread
    dsimp only at hread
    rw [closing_apply, if_pos hend] at hread
    exact ⟨_, ofSource_ok hread, rfl⟩

theorem spell_of_ofSource (h : ofSource s = .ok a) :
    (Tokens.ofSource s).Spell (Tokens.ofSource s).kinds :=
  ⟨rfl, (accounts_of_ofSource h).finished⟩

theorem not_semicolon_last {ks : List TokenKind}
    (hs : (Tokens.ofSource s).Spell ks)
    (hlast : ks.getLast? ≠ some (.symbol .semicolon)) :
    ¬[.symbol .semicolon, .eos] <:+
      (Tokens.ofSource s).significant.map (·.kind) := by
  rw [hs.map_kind_significant]
  rintro ⟨before, hbefore⟩
  have hkinds : (before ++ [.symbol .semicolon]) ++ [.eos] = ks ++ [.eos] := by
    simpa using hbefore
  obtain rfl := List.append_cancel_right hkinds
  exact hlast List.getLast?_concat

/-- Where the tokens of one text, a semicolon and those of another text are the
tokens of a third one, it expresses the statements of the first two. -/
theorem ofSource_continued (ha : ofSource s = .ok a) (hb : ofSource t = .ok b)
    (hu : (Tokens.ofSource u).Spell ((Tokens.ofSource s).kinds ++
        .symbol .semicolon :: (Tokens.ofSource t).kinds))
    (hbody : a.body ≠ []) (hreturn : a.body.getLast?.any Stat.isReturn = false)
    (hlast : (Tokens.ofSource s).kinds.getLast? ≠ some (.symbol .semicolon)) :
    ∃ c, ofSource u = .ok c ∧ c.body = a.body ++ b.body := by
  have hs := spell_of_ofSource ha
  have ht := spell_of_ofSource hb
  have hlength := length_significant_le hu
  rw [List.length_append, List.length_cons] at hlength
  obtain ⟨c, hc, hfaces⟩ := faces_start hs
  obtain ⟨d, hd, hfacesU⟩ := faces_start hu
  obtain ⟨e, he, hfacesT⟩ := faces_start ht
  rw [List.append_assoc, List.cons_append] at hfacesU
  obtain ⟨c', hrun, hend⟩ := (ofSource_body_iff hc).mp ⟨a, ha, rfl⟩
  obtain ⟨e', hrunT, hendT⟩ := (ofSource_body_iff he).mp ⟨b, hb, rfl⟩
  -- up to the semicolon the third text is read like the first one
  have hfirst : Deeper.Alike (.ofContinued _ (Tokens.ofSource u).significant
        ((Tokens.ofSource t).kinds ++ [.eos])) (topReaders s) (topReaders u) :=
    alike_ofLevels hs rfl (by omega) _
  have hrounds : (Tokens.ofSource s).kinds.length + 1 +
        ((Tokens.ofSource t).kinds ++ [TokenKind.eos]).length ≤
      (Tokens.ofSource u).list.length + 1 := by
    rw [List.length_append, List.length_singleton]
    omega
  obtain ⟨turns, d', hturns, hfacesD, hwhole⟩ :=
    stats_continued hfirst (not_semicolon_last hs hlast)
      ⟨_, rfl, hfaces, hfacesU⟩ hrounds hrun hend hbody hreturn
  -- and after it like the second one
  have hsecond : Deeper.Alike (.ofKinds _ (Tokens.ofSource u).significant)
      (topReaders t) (topReaders u) :=
    alike_ofLevels ht rfl (by omega) _
  have hreply :=
    (hsecond.stats (length_significant_le ht) (by simpa using hturns) _).replies
      (Nat.le_refl _) ⟨_, rfl, hfacesT, hfacesD⟩ rfl
  rw [hrunT] at hreply
  obtain ⟨d'', hrunD, j, -, hlevel⟩ := hreply.succeeds fun _ => id
  have hendD := (Cursor.Level.sameKind hlevel).symm.trans hendT
  refine (ofSource_body_iff hd).mpr ⟨d'', ?_, hendD⟩
  rw [hwhole, map_eq_pure_bind, bind_apply, hrunD]
  rfl

theorem ofSource_joined (ha : ofSource s = .ok a) (hb : ofSource t = .ok b)
    (hbody : a.body ≠ []) (hreturn : a.body.getLast?.any Stat.isReturn = false)
    (hlast : (Tokens.ofSource s).kinds.getLast? ≠ some (.symbol .semicolon)) :
    ∃ c, ofSource (s ++ "\n;\n" ++ t) = .ok c ∧ c.body = a.body ++ b.body :=
  ofSource_continued ha hb
    ((spell_of_ofSource ha).joined (spell_of_ofSource hb)) hbody hreturn hlast

end Chunk

end LuaCore
