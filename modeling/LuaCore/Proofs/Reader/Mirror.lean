import LuaCore.Proofs.Reader.Agreement

/-! Where one cursor mirrors another one, the readers return the same value or
fail with the same error. -/

namespace LuaCore

open Reader Pairing

def Cursor.left (c : Cursor) : Nat :=
  c.rest.list.length + if c.current.kind = .eos then 1 else 2

theorem Cursor.left_pos (c : Cursor) : 0 < c.left := by
  unfold left
  split <;> omega

theorem Cursor.ahead_pos (c : Cursor) : 0 < c.ahead.length := by
  have hfirst := c.head?_ahead
  cases hahead : c.ahead with
  | nil =>
    rw [hahead] at hfirst
    cases hfirst
  | cons t ts => exact Nat.succ_pos _

theorem Tokens.length_significant_le (ts : Tokens) :
    ts.significant.length ≤ ts.list.length + 1 := by
  have hcomments := List.length_filter_le (·.comment?.isNone) ts.list
  have hending : ts.ending.tokens.length ≤ 1 := by
    cases ts.ending with
    | finished p => exact Nat.le_refl 1
    | broken e => exact Nat.zero_le 1
  rw [significant, List.length_append]
  omega

theorem Cursor.length_ahead_le_left (c : Cursor) : c.ahead.length ≤ c.left := by
  have hrest := c.rest.length_significant_le
  unfold ahead left
  split
  · exact Nat.succ_le_succ (Nat.zero_le _)
  · exact Nat.succ_le_succ hrest

namespace Reader

variable {ending : Ending} {ts : List Token} {c d : Cursor} {e : ReadError}

theorem advance_eq_error (h : advance ending ts c = .error e d) :
    ∃ broken, ending = .broken broken ∧ e = .lexical broken ∧
      (Tokens.mk ts ending).significant = [] := by
  induction ts using significantKinds.induct generalizing c with
  | case1 =>
    cases ending with
    | finished p => cases h
    | broken broken =>
      cases h
      exact ⟨broken, rfl, rfl, rfl⟩
  | case2 text p ts ih => exact ih h
  | case3 t ts hkind ih =>
    rw [advance.eq_4 _ _ _ _ hkind] at h
    cases h

theorem next_eq_error (h : next c = .error e d) :
    ∃ broken, c.rest.ending = .broken broken ∧ e = .lexical broken := by
  obtain ⟨broken, hending, he, -⟩ := advance_eq_error h
  exact ⟨broken, hending, he⟩

theorem advance_left (h : advance ending ts c = .ok () d) :
    d.left ≤ ts.length + 1 := by
  induction ts using significantKinds.induct generalizing c with
  | case1 =>
    cases ending with
    | finished p =>
      cases h
      exact Nat.le_refl _
    | broken e => cases h
  | case2 text p ts ih => exact Nat.le_trans (ih h) (Nat.le_succ _)
  | case3 t ts hkind ih =>
    rw [advance.eq_4 _ _ _ _ hkind] at h
    cases h
    unfold Cursor.left
    dsimp only
    rw [List.length_cons]
    split <;> omega

theorem next_left (hkind : c.current.kind.isEos = false)
    (h : next c = .ok () d) :
    d.left ≤ c.left - 1 := by
  have hleft := advance_left h
  have hc : c.left = c.rest.list.length + 2 := by
    rw [Cursor.left, if_neg (TokenKind.isEos_eq_false_iff.mp hkind)]
  omega

end Reader

namespace Reply

variable {α : Type}

/-- The same value or the same error. -/
inductive Mirrors (Sees : Cursor → Cursor → Prop) : Reply α → Reply α → Prop
  | ok (a : α) {c d : Cursor} (hsees : Sees c d) :
      Mirrors Sees (.ok a c) (.ok a d)
  | error (e : ReadError) {c d : Cursor} (hsees : Sees c d) :
      Mirrors Sees (.error e c) (.error e d)

def result : Reply α → Except ReadError α
  | .ok a _ => .ok a
  | .error e _ => .error e

variable {Sees Sees' : Cursor → Cursor → Prop} {r r' : Reply α}

theorem Mirrors.result (h : r.Mirrors Sees r') : r'.result = r.result := by
  cases h <;> rfl

theorem Mirrors.eq (h : r.Mirrors (· = ·) r') : r' = r := by
  cases h with
  | ok a hsees => rw [hsees]
  | error e hsees => rw [hsees]

theorem Mirrors.imp (h : r.Mirrors Sees r')
    (himp : ∀ c d, Sees c d → Sees' c d) :
    r.Mirrors Sees' r' := by
  cases h with
  | ok a hsees => exact .ok a (himp _ _ hsees)
  | error e hsees => exact .error e (himp _ _ hsees)

theorem Mirrors.bind {β : Type} {p q : Reader α} {f g : α → Reader β}
    {c d : Cursor} (h : (p c).Mirrors Sees (q d))
    (hf : ∀ {a c' d'}, p c = .ok a c' → Sees c' d' →
      (f a c').Mirrors Sees (g a d')) :
    ((p >>= f) c).Mirrors Sees ((q >>= g) d) := by
  rw [bind_apply, bind_apply]
  generalize p c = r, q d = r' at h hf
  cases h with
  | ok a hsees => exact hf rfl hsees
  | error e hsees => exact .error e hsees

theorem mirrors_refl (hsees : ∀ c, Sees c c) (r : Reply α) :
    r.Mirrors Sees r := by
  cases r with
  | ok a c => exact .ok a (hsees c)
  | error e c => exact .error e (hsees c)

end Reply

/-- When a cursor mirrors another one, unless the run of that one takes a
course. -/
structure Mirror where
  Sees : Cursor → Cursor → Prop
  exit : Course
  current : ∀ {c d}, Sees c d → c.current = d.current
  afterBuild : ∀ {c d} {node : Node}, node.isPart = true → Sees c d →
    Sees { c with built := node :: c.built } { d with built := node :: d.built }
  afterNext : ∀ {c d}, Sees c d → c.current.kind.isEos = false →
    exit.Keeps (fun _ => c.left - 1) (next c) ∨ (next c).Mirrors Sees (next d)

namespace Mirror

variable {M : Mirror} {α : Type} {c d : Cursor} {m : α → Nat} {r r' : Reply α}

def Level (M : Mirror) (bound n : Nat) (c d : Cursor) : Prop :=
  M.Sees c d ∧ n = c.left ∧ n ≤ bound

def Fails (M : Mirror) (e : ReadError) (c : Cursor) (e' : ReadError)
    (d : Cursor) : Prop :=
  e = e' ∧ M.Sees c d

theorem matches_next {bound n : Nat} (hlevel : M.Level bound n c d)
    (hkind : c.current.kind.isEos = false)
    (h : (next c).Mirrors M.Sees (next d)) :
    (next c).Matches (M.Level bound) M.Fails (fun _ => n - 1) (next d) := by
  obtain ⟨-, rfl, hn⟩ := hlevel
  generalize hc : next c = r, next d = r' at h
  cases h with
  | ok u hsees =>
    have hleft := next_left hkind hc
    exact ⟨rfl, _, hleft, hsees, rfl, by omega⟩
  | error e hsees => exact ⟨rfl, hsees⟩

def pairing (M : Mirror) (bound : Nat) (hpos : 0 < bound)
    (hexit : M.exit.bound ≤ bound) : Pairing where
  Level := M.Level bound
  Fails := M.Fails
  exact := True
  demand := .outcome M.exit
  bound := bound
  bound_pos := hpos
  exit_bound := hexit
  pos := fun ⟨_, hn, _⟩ => hn ▸ Cursor.left_pos _
  le_bound := fun ⟨_, _, hn⟩ => hn
  kinds := fun ⟨hsees, _⟩ => .inl (congrArg Token.kind (M.current hsees))
  lines := fun ⟨hsees, _⟩ _ => congrArg (·.position.line) (M.current hsees)
  fails := fun {_ c d} ⟨hsees, _⟩ fault fault' hfault => by
    rw [hfault trivial, M.current hsees]
    exact ⟨rfl, hsees⟩
  afterBuild := fun hnode ⟨hsees, hn⟩ => ⟨M.afterBuild hnode hsees, hn⟩
  afterNext := fun hlevel hkind =>
    (M.afterNext hlevel.1 hkind).imp (fun h => hlevel.2.1 ▸ h)
      (matches_next hlevel hkind)

variable {bound : Nat} {hpos : 0 < bound} {hexit : M.exit.bound ≤ bound}

theorem mirrors_of_matches (h : (M.pairing bound hpos hexit).Matches m r r') :
    r.Mirrors M.Sees r' := by
  cases r with
  | ok a c =>
    cases r' with
    | ok b d =>
      obtain ⟨rfl, _, _, hsees, _⟩ := h
      exact .ok a hsees
    | error e' d => exact False.elim h
  | error e c =>
    cases r' with
    | ok b d => exact False.elim h
    | error e' d =>
      obtain ⟨rfl, hsees⟩ := h
      exact .error e hsees

theorem replies {p q : Reader α} (h : (M.pairing bound hpos hexit).Agrees p q)
    (hsees : M.Sees c d) (hbound : c.left ≤ bound) :
    M.exit.Keeps (fun _ => c.left) (p c) ∨ (p c).Mirrors M.Sees (q d) :=
  ((h c.left _).replies (Nat.le_refl _) ⟨hsees, rfl, hbound⟩ rfl).imp_right
    mirrors_of_matches

def same (exit : Course) : Mirror where
  Sees := (· = ·)
  exit := exit
  current := congrArg _
  afterBuild := fun _ hsame => by rw [hsame]
  afterNext := fun hsame _ => .inr (hsame ▸ Reply.mirrors_refl (fun _ => rfl) _)

end Mirror

namespace Course

variable {S : Course} {n rounds : Nat} {c : Cursor}

theorem keeps_block (S : Course) (levels : Nat) (hpos : 0 < rounds)
    (hS : S.bound ≤ rounds) (hat : S.At n c) :
    S.Keeps (fun _ => n) ((Deeper.ofLevels rounds levels).block c) := by
  have hexit : (Mirror.same .never).exit.bound ≤ rounds := Nat.zero_le _
  have halike : (Deeper.ofLevels rounds levels).Alike
      ((Mirror.same .never).pairing rounds hpos hexit)
      (.ofLevels rounds levels) :=
    .ofLevels ⟨Nat.le_refl _, Nat.le_refl _⟩ levels
  exact (halike.block n _).keeps S hS (Nat.le_refl n) hat rfl

/-- A run over the last of some tokens, which fails at one of them or with the
error that ends them. -/
def along (ts : List Token) (ending : Ending) (bound : Nat) : Course where
  At n c := (c.Proper ∧ c.rest.ending = ending ∧ c.ahead <:+ ts) ∧
    n = c.ahead.length ∧ n ≤ bound
  Fails
    | .lexical broken, _ => ending = .broken broken
    | .grammatical e, c => e.near = c.current ∧ e.near ∈ ts
  bound := bound
  pos := fun ⟨_, hn, _⟩ => hn ▸ Cursor.ahead_pos _
  le_bound := fun ⟨_, _, hn⟩ => hn
  fails := fun {_ c} ⟨⟨_, _, hsuffix⟩, _⟩ _ =>
    ⟨rfl, hsuffix.subset (List.mem_of_head? c.head?_ahead)⟩
  afterBuild := fun hnode ⟨⟨hproper, hrest⟩, hn⟩ =>
    ⟨⟨(hproper.build (Node.comment?_of_isPart hnode)).proper, hrest⟩, hn⟩
  afterNext := fun {n c} ⟨⟨hproper, hending, hsuffix⟩, hn, hbound⟩ hkind => by
    cases hnext : next c with
    | ok u d =>
      have hmoves := next_moves hproper hkind hnext
      have hlength : d.ahead.length = n - 1 := by
        rw [hn, hmoves.ahead]
        rfl
      exact ⟨d.ahead.length, Nat.le_of_eq hlength,
        ⟨hmoves.proper, hmoves.ending.trans hending,
          List.IsSuffix.trans ⟨_, hmoves.ahead.symm⟩ hsuffix⟩, rfl, by omega⟩
    | error e d =>
      obtain ⟨broken, hbroken, rfl⟩ := next_eq_error hnext
      exact hending ▸ hbroken

end Course

theorem Pairing.within_tooDeep {P : Pairing} {α : Type} {n : Nat} {m : α → Nat}
    (q : Reader α) (hexit : P.demand = .outcome .tooDeep) :
    P.Within n m (fail .tooDeep) q :=
  fun _ =>
  { replies := fun _ c _ _ _ _ => .inl (by rw [hexit]; exact ⟨c.current, rfl⟩)
    keeps := fun S _ _ _ _ hat _ => S.fails hat .tooDeep }

/-- Readers that may open more levels agree with others unless those want
for levels. -/
theorem Deeper.Alike.moreLevels {P : Pairing}
    {rounds rounds' levels levels' : Nat} (hexit : P.demand = .outcome .tooDeep)
    (h : P.bound ≤ rounds ∧ P.bound ≤ rounds') (hle : levels ≤ levels') :
    (Deeper.ofLevels rounds levels).Alike P (.ofLevels rounds' levels') := by
  induction levels generalizing levels' with
  | zero =>
    refine ⟨fun _ => ?_, fun _ _ => within_tooDeep _ hexit, h.1, ?_⟩
    · exact within_tooDeep _ (congrArg Demand.relaxed hexit)
    · rw [Deeper.ofLevels_rounds]
      exact h.2
  | succ levels ih =>
    obtain ⟨levels', rfl⟩ : ∃ more, levels' = more + 1 :=
      ⟨levels' - 1, by omega⟩
    have ih := ih (Nat.le_of_succ_le_succ hle)
    exact ⟨ih.readBlock, ih.readOperand, h⟩

namespace Chunk

variable {tokens : Tokens} {levels : Nat}

theorem ofSource_eq_result (source : String) :
    ofSource source = (read source).result := by
  rw [ofSource]
  cases read source <;> rfl

theorem reads_alike {exit : Course} {deeper deeper' : Deeper}
    {hexit : exit.bound ≤ tokens.list.length + 1}
    (h : deeper.Alike ((Mirror.same exit).pairing (tokens.list.length + 1)
        (Nat.succ_pos _) hexit) deeper') :
    (∃ c, next (.start tokens) = .ok () c ∧
      exit.Keeps (fun _ => c.left) (deeper.block c)) ∨
      Reader.chunk deeper' (.start tokens) =
        Reader.chunk deeper (.start tokens) := by
  cases hnext : next (.start tokens) with
  | error e c =>
    rw [chunk_of_next_error hnext, chunk_of_next_error hnext]
    exact .inr rfl
  | ok u c =>
    rw [chunk_of_next hnext, chunk_of_next hnext]
    refine (Mirror.replies h.block rfl (advance_left hnext)).imp
      (fun hkeeps => ⟨c, rfl, hkeeps⟩) fun hmirrors => ?_
    rw [bind_apply, bind_apply, hmirrors.eq]

/-- Loops do not run out of turns: more turns than tokens change nothing. -/
theorem chunk_eq_readTokens {rounds : Nat}
    (hrounds : tokens.list.length < rounds) :
    Reader.chunk (.ofLevels rounds levels) (.start tokens) =
      readTokens levels tokens := by
  have halike : (Deeper.ofLevels (tokens.list.length + 1) levels).Alike
      ((Mirror.same .never).pairing (tokens.list.length + 1) (Nat.succ_pos _)
        (Nat.zero_le _)) (.ofLevels rounds levels) :=
    .ofLevels ⟨Nat.le_refl _, hrounds⟩ levels
  exact (reads_alike halike).resolve_left fun ⟨_, _, hkeeps⟩ =>
    Course.not_keeps_never hkeeps

/-- A program that is read without want for levels is read alike with more of
them, and so is what is no program. -/
theorem readTokens_of_le {more : Nat} (hle : levels ≤ more)
    (h : ∀ t c, readTokens levels tokens ≠
      .error (.grammatical ⟨.tooDeep, t⟩) c) :
    readTokens more tokens = readTokens levels tokens := by
  have halike : (Deeper.ofLevels (tokens.list.length + 1) levels).Alike
      ((Mirror.same .tooDeep).pairing (tokens.list.length + 1) (Nat.succ_pos _)
        (Nat.zero_le _)) (.ofLevels (tokens.list.length + 1) more) :=
    .moreLevels rfl ⟨Nat.le_refl _, Nat.le_refl _⟩ hle
  refine (reads_alike halike).resolve_left ?_
  rintro ⟨c, hc, hkeeps⟩
  revert hkeeps
  cases hblock : Deeper.block _ c with
  | ok body d => exact fun ⟨_, _, hat⟩ => hat
  | error e d =>
    rintro ⟨t, rfl⟩
    exact h t d (by rw [readTokens, chunk_of_next hc, bind_apply, hblock])

end Chunk

end LuaCore
