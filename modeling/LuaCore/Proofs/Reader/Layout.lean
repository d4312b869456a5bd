import LuaCore.Proofs.Reader.Agreement
import LuaCore.Proofs.Reader.Faithful

namespace LuaCore

open Reader

namespace Cursor

/-- Tokens of these kinds are ahead of the cursor, the last ones of a list, and
an end that can be reached. -/
structure Faces (ts : List Token) (ks : List TokenKind) (c : Cursor) :
    Prop where
  kinds : c.ahead.map (·.kind) = ks
  suffix : c.ahead <:+ ts
  proper : c.Proper
  finished : ∃ p, c.rest.ending = .finished p

/-- The same kinds of tokens are ahead of both cursors; where the left one ends,
these tokens end the right one. -/
def Level (s t : List Token) (ending : List TokenKind) (n : Nat)
    (c d : Cursor) : Prop :=
  ∃ ks, n = ks.length + 1 ∧ c.Faces s (ks ++ [.eos]) ∧ d.Faces t (ks ++ ending)

variable {s t ts : List Token} {k : TokenKind} {ks ending : List TokenKind}
    {n : Nat} {c d : Cursor}

theorem Faces.kind (h : c.Faces ts (k :: ks)) : c.current.kind = k := by
  have hhead := congrArg List.head? h.kinds
  rw [List.head?_map, c.head?_ahead] at hhead
  exact Option.some.inj hhead

theorem Faces.build (h : c.Faces ts ks) {node : Node}
    (hnode : node.isPart = true) :
    Faces ts ks { c with built := node :: c.built } where
  kinds := h.kinds
  suffix := h.suffix
  proper := (h.proper.build (Node.comment?_of_isPart hnode)).proper
  finished := h.finished

theorem Faces.next (h : c.Faces ts (k :: ks)) (hk : k.isEos = false) :
    ∃ d, Reader.next c = .ok () d ∧ d.Faces ts ks := by
  obtain ⟨p, hp⟩ := h.finished
  obtain ⟨d, hd⟩ := exists_next hp
  have hmoves := next_moves h.proper (h.kind ▸ hk) hd
  have hkinds := h.kinds
  rw [hmoves.ahead] at hkinds
  exact ⟨d, hd,
    { kinds := (List.cons.inj hkinds).2
      suffix := List.IsSuffix.trans ⟨_, hmoves.ahead.symm⟩ h.suffix
      proper := hmoves.proper
      finished := ⟨p, hmoves.ending.trans hp⟩ }⟩

theorem Level.sameKinds (h : Level s t [.eos] n c d) :
    c.ahead.map (·.kind) = d.ahead.map (·.kind) := by
  obtain ⟨ks, -, hleft, hright⟩ := h
  exact hleft.kinds.trans hright.kinds.symm

theorem Level.sameKind (h : Level s t [.eos] n c d) :
    c.current.kind = d.current.kind := by
  have hhead := congrArg List.head? h.sameKinds
  rw [List.head?_map, List.head?_map, c.head?_ahead, d.head?_ahead] at hhead
  exact Option.some.inj hhead

def Mismatch (s t : List Token) (ending : List TokenKind) (e : ReadError)
    (c : Cursor) (e' : ReadError) (d : Cursor) : Prop :=
  (∃ j, Level s t ending j c d) ∧
    ∃ fault fault', e = .grammatical ⟨fault, c.current⟩ ∧
      e' = .grammatical ⟨fault', d.current⟩

theorem Level.next (h : Level s t ending n c d)
    (hkind : c.current.kind.isEos = false) :
    (Reader.next c).Matches (Level s t ending) (Mismatch s t ending)
      (fun _ => n - 1) (Reader.next d) := by
  obtain ⟨ks, rfl, hleft, hright⟩ := h
  cases ks with
  | nil => exact absurd hleft.kind (TokenKind.isEos_eq_false_iff.mp hkind)
  | cons k ks =>
    have hk : k.isEos = false := hleft.kind ▸ hkind
    obtain ⟨c', hc', hleft'⟩ := hleft.next hk
    obtain ⟨d', hd', hright'⟩ := hright.next hk
    rw [hc', hd']
    exact ⟨rfl, ks.length + 1, Nat.le_refl _, ks, rfl, hleft', hright'⟩

end Cursor

/-- The right tokens end like the left ones, or a semicolon goes before
others there. -/
def Pairing.ofTokens (s t : List Token) (demand : Demand) (e : TokenKind)
    (more : List TokenKind)
    (he : e = .eos ∨ demand.GoesOn ∧ e = .symbol .semicolon)
    (hexit : demand.exit.bound = 0) : Pairing where
  Level := Cursor.Level s t (e :: more)
  Fails := Cursor.Mismatch s t (e :: more)
  exact := False
  demand := demand
  bound := max 1 s.length
  bound_pos := Nat.le_max_left 1 _
  exit_bound := hexit ▸ Nat.zero_le _
  pos h := by
    obtain ⟨ks, rfl, -⟩ := h
    exact Nat.succ_pos _
  le_bound {n c d} h := by
    obtain ⟨ks, rfl, hleft, -⟩ := h
    have hlength : c.ahead.length = ks.length + 1 := by
      rw [← List.length_map (·.kind), hleft.kinds, List.length_append,
        List.length_singleton]
    exact Nat.le_trans (hlength ▸ hleft.suffix.length_le) (Nat.le_max_right 1 _)
  kinds h := by
    obtain ⟨ks, rfl, hleft, hright⟩ := h
    cases ks with
    | nil =>
      rcases he with rfl | ⟨hdemand, rfl⟩
      · exact .inl (hleft.kind.trans hright.kind.symm)
      · exact .inr ⟨hdemand, hleft.kind, hright.kind⟩
    | cons k ks => exact .inl (hleft.kind.trans hright.kind.symm)
  lines _ := False.elim
  fails h fault fault' _ := ⟨⟨_, h⟩, fault, fault', rfl, rfl⟩
  afterBuild hnode h := by
    obtain ⟨ks, rfl, hleft, hright⟩ := h
    exact ⟨ks, rfl, hleft.build hnode, hright.build hnode⟩
  afterNext h hkind := .inr (h.next hkind)

def Pairing.ofKinds (s t : List Token) : Pairing :=
  .ofTokens s t (.outcome .never) .eos [] (.inl rfl) rfl

theorem idxOf_of_suffix {ts rest : List Token} {a : Token} (hnodup : ts.Nodup)
    (h : rest <:+ ts) (ha : rest.head? = some a) :
    ts.idxOf a + rest.length = ts.length := by
  obtain ⟨before, rfl⟩ := h
  obtain ⟨more, rfl⟩ := List.head?_eq_some_iff.mp ha
  have hnot : a ∉ before := fun hmem =>
    (List.nodup_append.mp hnodup).2.2 a hmem a List.mem_cons_self rfl
  rw [List.idxOf_append, if_neg hnot, List.idxOf_cons_self, List.length_append,
    Nat.zero_add]

theorem Tokens.Spell.map_kind_significant {ts : Tokens} {ks : List TokenKind}
    (h : ts.Spell ks) :
    ts.significant.map (·.kind) = ks ++ [.eos] := by
  obtain ⟨rfl, p, hp⟩ := h
  exact Tokens.map_kind_significant hp

theorem Tokens.spell_at {ts : Tokens} {ks : List TokenKind} (p : Position)
    (hkinds : ts.kinds = ks) (hending : ts.ending = .finished p) :
    ts.Spell ks :=
  ⟨hkinds, p, hending⟩

namespace Chunk

/-- Programs with the same block, or errors at the same token; comments are
not counted. -/
inductive SameOutcome (s t : String) : Prop
  | programs {c d : Chunk} (left : ofSource s = .ok c)
      (right : ofSource t = .ok d) (body : c.body = d.body)
  | errors {e e' : SyntaxError} (left : ofSource s = .error (.grammatical e))
      (right : ofSource t = .error (.grammatical e'))
      (mem : e.near ∈ (Tokens.ofSource s).significant ∧
        e'.near ∈ (Tokens.ofSource t).significant)
      (index : (Tokens.ofSource s).significant.idxOf e.near =
        (Tokens.ofSource t).significant.idxOf e'.near)

variable {s t : String} {ks : List TokenKind}

theorem faces_start (hs : (Tokens.ofSource s).Spell ks) :
    ∃ c, next (.start (Tokens.ofSource s)) = .ok () c ∧
      c.Faces (Tokens.ofSource s).significant (ks ++ [.eos]) := by
  obtain ⟨p, hp⟩ := hs.2
  obtain ⟨c, hc⟩ := exists_next (c := .start (Tokens.ofSource s)) hp
  have hreach := Tokens.ofSource_reaches hc
  exact ⟨c, hc,
    { kinds := by rw [hreach.ahead, hs.map_kind_significant]
      suffix := hreach.ahead ▸ List.suffix_refl _
      proper := hreach.proper
      finished := ⟨p, hreach.ending.trans hp⟩ }⟩

theorem length_significant (hs : (Tokens.ofSource s).Spell ks) :
    (Tokens.ofSource s).significant.length = ks.length + 1 := by
  obtain ⟨rfl, p, hp⟩ := hs
  rw [← List.length_map (·.kind), Tokens.map_kind_significant hp,
    List.length_append]
  rfl

theorem length_significant_le (hs : (Tokens.ofSource s).Spell ks) :
    ks.length + 1 ≤ (Tokens.ofSource s).list.length + 1 := by
  obtain ⟨rfl, -⟩ := hs
  exact Nat.succ_le_succ (significantKinds_length_le _)

theorem alike_ofLevels {P : Pairing} (hs : (Tokens.ofSource s).Spell ks)
    (hP : P.bound = max 1 (Tokens.ofSource s).significant.length) {rounds : Nat}
    (hrounds : ks.length + 1 ≤ rounds) (levels : Nat) :
    Deeper.Alike P (.ofLevels ((Tokens.ofSource s).list.length + 1) levels)
      (.ofLevels rounds levels) := by
  refine .ofLevels ?_ levels
  rw [hP, length_significant hs, Nat.max_eq_right (Nat.le_add_left 1 _)]
  exact ⟨length_significant_le hs, hrounds⟩

theorem read_eq {c : Cursor}
    (hc : next (.start (Tokens.ofSource s)) = .ok () c) :
    read s =
      ((Deeper.ofLevels ((Tokens.ofSource s).list.length + 1)
        maxLevels).block >>= closing) c :=
  chunk_of_next hc _

theorem ofSource_ok {c : Chunk} {d : Cursor} (h : read s = .ok c d) :
    ofSource s = .ok c := by
  rw [ofSource, h]

theorem ofSource_error {e : ReadError} {d : Cursor} (h : read s = .error e d) :
    ofSource s = .error e := by
  rw [ofSource, h]

theorem sameToken {n : Nat} {c d : Cursor}
    (hlength : (Tokens.ofSource s).significant.length =
      (Tokens.ofSource t).significant.length)
    (h : Cursor.Level (Tokens.ofSource s).significant
      (Tokens.ofSource t).significant [.eos] n c d) :
    (c.current ∈ (Tokens.ofSource s).significant ∧
      d.current ∈ (Tokens.ofSource t).significant) ∧
      (Tokens.ofSource s).significant.idxOf c.current =
        (Tokens.ofSource t).significant.idxOf d.current := by
  have hahead : c.ahead.length = d.ahead.length := by
    rw [← List.length_map (·.kind), h.sameKinds, List.length_map]
  obtain ⟨ks, -, hc, hd⟩ := h
  have hleft :=
    idxOf_of_suffix (Tokens.nodup_significant s) hc.suffix c.head?_ahead
  have hright :=
    idxOf_of_suffix (Tokens.nodup_significant t) hd.suffix d.head?_ahead
  refine ⟨⟨hc.suffix.subset (List.mem_of_head? c.head?_ahead),
    hd.suffix.subset (List.mem_of_head? d.head?_ahead)⟩, ?_⟩
  omega

theorem sameOutcome (hs : (Tokens.ofSource s).Spell ks)
    (ht : (Tokens.ofSource t).Spell ks) :
    SameOutcome s t := by
  obtain ⟨c, hc, hfaces⟩ := faces_start hs
  obtain ⟨d, hd, hfaces'⟩ := faces_start ht
  have hlength := (length_significant hs).trans (length_significant ht).symm
  have halike :=
    alike_ofLevels (P := .ofKinds _ (Tokens.ofSource t).significant) hs rfl
      (length_significant_le ht) maxLevels
  have hreply := ((halike.block _ _).replies (Nat.le_refl _)
      ⟨ks, rfl, hfaces, hfaces'⟩ rfl).matches rfl
  have hleft := read_eq hc
  have hright := read_eq hd
  rw [bind_apply] at hleft hright
  revert hreply
  cases hblock : Deeper.block _ c with
  | error e c' =>
    rw [hblock] at hleft
    cases hblock' : Deeper.block _ d with
    | ok body d' => exact False.elim
    | error e' d' =>
      rintro ⟨⟨j, hlevel'⟩, fault, fault', rfl, rfl⟩
      rw [hblock'] at hright
      obtain ⟨hmem, hindex⟩ := sameToken hlength hlevel'
      exact .errors (ofSource_error hleft) (ofSource_error hright) hmem hindex
  | ok body c' =>
    rw [hblock] at hleft
    cases hblock' : Deeper.block _ d with
    | error e' d' => exact False.elim
    | ok body' d' =>
      rintro ⟨rfl, j, -, hlevel'⟩
      rw [hblock'] at hright
      dsimp only at hleft hright
      rw [closing_apply] at hleft hright
      rw [← hlevel'.sameKind] at hright
      by_cases hend : c'.current.kind = .eos
      · rw [if_pos hend] at hleft hright
        exact .programs (ofSource_ok hleft) (ofSource_ok hright) rfl
      · rw [if_neg hend] at hleft hright
        obtain ⟨hmem, hindex⟩ := sameToken hlength hlevel'
        exact .errors (ofSource_error hleft) (ofSource_error hright) hmem hindex

/-- Two sources with the same kinds of tokens come to the same block, or fail
at the same token; the comments of a program are those of its source, wherever
they stand. -/
theorem layout_independent :
    (∀ (s t : String) (ks : List TokenKind), (Tokens.ofSource s).Spell ks →
      (Tokens.ofSource t).Spell ks → SameOutcome s t) ∧
    (∀ (s : String) (c : Chunk), ofSource s = .ok c →
      c.comments = (Tokens.ofSource s).comments) :=
  ⟨fun _ _ _ hs ht => sameOutcome hs ht,
    fun _ _ h => (accounts_of_ofSource h).comments⟩

/-- A call with comments before, within and after it, and one that is
not closed. -/
theorem layout_independent_call :
    let spread := "-- x\nf --[[y]] (\n a ,b) --z"
    (Tokens.ofSource spread).Spell [.name "f", .symbol .leftParen, .name "a",
        .symbol .comma, .name "b", .symbol .rightParen] ∧
    SameOutcome "f(a, b)" spread ∧
    (∃ c, ofSource spread = .ok c ∧
      c.comments = [⟨" x", ⟨1, 1⟩⟩, ⟨"y", ⟨2, 3⟩⟩, ⟨"z", ⟨3, 8⟩⟩]) ∧
    SameOutcome "f(a" "f -- x\n (a" := by
  intro spread
  have hspread : (Tokens.ofSource spread).Spell
      [.name "f", .symbol .leftParen, .name "a", .symbol .comma, .name "b",
        .symbol .rightParen] :=
    Tokens.spell_at ⟨3, 11⟩ (by decide +kernel) (by decide +kernel)
  have hplain : (Tokens.ofSource "f(a, b)").Spell
      [.name "f", .symbol .leftParen, .name "a", .symbol .comma, .name "b",
        .symbol .rightParen] :=
    Tokens.spell_at ⟨1, 8⟩ (by decide +kernel) (by decide +kernel)
  have hopen : (Tokens.ofSource "f(a").Spell
      [.name "f", .symbol .leftParen, .name "a"] :=
    Tokens.spell_at ⟨1, 4⟩ (by decide +kernel) (by decide +kernel)
  have hopen' : (Tokens.ofSource "f -- x\n (a").Spell
      [.name "f", .symbol .leftParen, .name "a"] :=
    Tokens.spell_at ⟨2, 4⟩ (by decide +kernel) (by decide +kernel)
  obtain ⟨c, hread⟩ : ∃ c, ofSource spread = .ok c :=
    exists_of_isOk (by decide +kernel)
  have hcomments : (Tokens.ofSource spread).comments =
      [⟨" x", ⟨1, 1⟩⟩, ⟨"y", ⟨2, 3⟩⟩, ⟨"z", ⟨3, 8⟩⟩] := by decide +kernel
  have hkept := (layout_independent.2 spread c hread).trans hcomments
  exact ⟨hspread, layout_independent.1 _ _ _ hplain hspread, ⟨c, hread, hkept⟩,
    layout_independent.1 _ _ _ hopen hopen'⟩

end Chunk

end LuaCore
