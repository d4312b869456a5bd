import LuaCore.Proofs.Reader.Mirror
import LuaCore.Proofs.Reader.Readable
import LuaCore.Proofs.Reader.Sequence
import LuaCore.Proofs.Reader.Statement

namespace LuaCore

open Reader

def Stat.method (object name : String) (params : List String) (body : Block) :
    Stat :=
  .function (some (.member (.name object) .colon (.name name))) false
    ("self" :: params) body

def Stat.assignMethod (object name : String) (params : List String)
    (body : Block) : Stat :=
  .expr (.assign [.member (.name object) .dot (.name name)]
      [.function ("self" :: params) body])

def methodText (object name : String) (params : List String)
    (body : List TokenKind) : List TokenKind :=
  .keyword .function :: .name object :: .symbol .colon :: .name name ::
    (signatureText params ++ (body ++ [.keyword .end]))

def assignMethodText (object name : String) (params : List String)
    (body : List TokenKind) : List TokenKind :=
  .name object :: .symbol .dot :: .name name :: .symbol .assign ::
    .keyword .function ::
    (signatureText ("self" :: params) ++ (body ++ [.keyword .end]))

/-- With tokens of the kinds `ks` ahead the reader goes on before `rest` as
another one does, which may depend on a line. -/
def Continues (rounds : Nat) {α : Type} (p : Reader α)
    (ks rest : List TokenKind) (q : Nat → Reader α) : Prop :=
  ∀ c : Cursor, c.Shows rounds ks →
    ∃ opened d, d.Shows rounds rest ∧ p c = q opened d

namespace Continues

variable {rounds : Nat} {α β : Type} {p : Reader α} {q : Nat → Reader α} {a : α}
    {ks mid rest : List TokenKind}

theorem here (opened : Nat) : Continues rounds (q opened) ks ks q :=
  fun c hc => ⟨opened, c, hc, rfl⟩

theorem step {f : α → Reader β} {q : Nat → Reader β}
    (hp : Reads rounds p ks mid True a)
    (hf : Continues rounds (f a) mid rest q) :
    Continues rounds (p >>= f) ks rest q := by
  intro c hc
  obtain ⟨d, hrun, hd, -⟩ := (hp c hc).1 trivial
  rw [bind_apply, hrun]
  exact hf d hd

theorem look {f : TokenKind → Reader α}
    (h : Continues rounds (f (headKind ks)) ks rest q) :
    Continues rounds (peek >>= f) ks rest q := step .peek h

theorem line {f : Nat → Reader α} (h : ∀ n, Continues rounds (f n) ks rest q) :
    Continues rounds (line >>= f) ks rest q :=
  fun c hc => h c.current.position.line c hc

theorem bind (hp : Continues rounds p ks rest q) (f : α → Reader β) :
    Continues rounds (p >>= f) ks rest fun opened => q opened >>= f := by
  intro c hc
  obtain ⟨opened, d, hd, hrun⟩ := hp c hc
  refine ⟨opened, d, hd, ?_⟩
  show (p >>= f) c = (q opened >>= f) d
  rw [bind_apply, bind_apply, hrun]

theorem andThen {γ : Type} {g : Nat → Reader γ} {h : γ → Reader α}
    (hp : Continues rounds p ks rest fun opened => g opened >>= h)
    (f : α → Reader β) :
    Continues rounds (p >>= f) ks rest fun opened => g opened >>=
      fun c => h c >>= f := by
  simpa only [bind_assoc] using hp.bind f

end Continues

theorem Cursor.Shows.eq_cons {rounds : Nat} {c : Cursor} {k : TokenKind}
    {ks : List TokenKind} (h : c.Shows rounds ks) (hk : c.current.kind = k)
    (hne : k ≠ .eos) :
    ∃ ks', ks = k :: ks' := by
  have hhead := h.current
  cases ks with
  | nil => exact absurd (hk.symm.trans hhead) hne
  | cons k' ks => exact ⟨ks, congrArg (· :: ks) (hhead.symm.trans hk)⟩

theorem Reads.eq_of_ok {rounds : Nat} {α : Type} {p : Reader α}
    {ks rest : List TokenKind} {a b : α} {c d : Cursor}
    (hp : Reads rounds p ks rest True a) (hc : c.Shows rounds ks)
    (h : p c = .ok b d) :
    b = a ∧ d.Shows rounds rest := by
  obtain ⟨d', hrun, hd', -⟩ := (hp c hc).1 trivial
  rw [hrun] at h
  cases h
  exact ⟨rfl, hd'⟩

namespace Reader

variable {rounds levels : Nat} {deeper : Deeper} {ks rest body : List TokenKind}
    {object name : String}
variable {params : List String} {r : Nat}

def closedBody (deeper : Deeper) (params : List String) (opened : Nat) :
    Reader (List String × Block) := do
  let body ← deeper.block
  expectClosing (.keyword .end) (.keyword .function) opened
  return (params, body)

def andOthers (deeper : Deeper) (r : Nat) (s : Stat) : Reader Block := do
  let _ ← consume (.symbol .semicolon)
  return s :: (← stats deeper r)

theorem closedBody_bind {α : Type} {c d : Cursor} {b : Block}
    (h : deeper.block c = .ok b d) (opened : Nat)
    (q : List String × Block → Reader α) :
    (closedBody deeper params opened >>= q) c =
      (expectClosing (.keyword .end) (.keyword .function) opened >>=
          fun _ => q (params, b)) d := by
  simp only [closedBody, bind_assoc, pure_bind]
  rw [bind_apply, h]

theorem closedBody_bind_error {α : Type} {c d : Cursor} {e : ReadError}
    (h : deeper.block c = .error e d) (opened : Nat)
    (q : List String × Block → Reader α) :
    (closedBody deeper params opened >>= q) c = .error e d := by
  simp only [closedBody, bind_assoc, pure_bind]
  rw [bind_apply, h]

def afterMethod (deeper : Deeper) (r : Nat) (object name : String)
    (f : List String × Block) : Reader Block := do
  andOthers deeper r (← madeStat (.function
        (some (.member (.name object) .colon (.name name))) false f.1 f.2))

def assigned (rounds levels : Nat) (object name : String)
    (f : List String × Block) : Reader Stat := do
  let first ← operators (.ofLevels rounds levels) 1 rounds
    (← madeExpr (.function f.1 f.2))
  let others ←
    Reader.afterCommas (Deeper.ofLevels rounds (levels + 1)).expr rounds
  madeStat (.expr (← madeExpr
        (.assign [.member (.name object) .dot (.name name)] (first :: others))))

def afterAssigned (rounds levels r : Nat) (object name : String)
    (f : List String × Block) : Reader Block := do
  andOthers (.ofLevels rounds (levels + 1)) r
    (← assigned rounds levels object name f)

theorem continues_functionBody (hrounds : deeper.rounds = rounds)
    (isMethod : Bool) (opened : Nat) (params : List String) :
    Continues rounds (functionBody deeper isMethod opened)
      (signatureText params ++ ks) ks
      (closedBody deeper (if isMethod then "self" :: params else params)) := by
  have hparams : Continues rounds (do
        let params ←
          if ← check (.symbol .rightParen) then pure []
          else separatedByCommas functionBody.param deeper.rounds
        expect (.symbol .rightParen)
        let body ← deeper.block
        expectClosing (.keyword .end) (.keyword .function) opened
        return (if isMethod then "self" :: params else params, body))
      (nameList params ++ .symbol .rightParen :: ks) ks
      (closedBody deeper (if isMethod then "self" :: params else params)) := by
    have hclosed : Continues rounds _ ks ks
        (closedBody deeper (if isMethod then "self" :: params else params)) :=
      .here opened
    cases params with
    | nil => exact .step (.check rfl) (.step .pure (.step (.expect _) hclosed))
    | cons x params =>
      have hname :
          headKind (nameList (x :: params) ++ .symbol .rightParen :: ks) ≠
            .symbol .rightParen := by
        simp [nameList, separated]
      rw [hrounds]
      exact .step (.check_other hname)
        (.step (.names (fun x _ => .param x) (by simp) (x :: params)
            (List.cons_ne_nil _ _)) (.step (.expect _) hclosed))
  rw [signatureText, List.cons_append, List.append_assoc, List.cons_append,
    List.nil_append]
  refine .step (.expect _) ?_
  cases isMethod with
  | false => exact hparams
  | true => exact .step (.build _) hparams

theorem continues_method (hrounds : deeper.rounds = rounds) (r : Nat) :
    Continues rounds (stats deeper (r + 1)) (methodText object name params body)
      (body ++ [.keyword .end]) fun opened =>
      closedBody deeper ("self" :: params) opened >>=
        afterMethod deeper r object name := by
  have hstat : Continues rounds (stat deeper)
      (methodText object name params body) (body ++ [.keyword .end])
      fun opened => closedBody deeper ("self" :: params) opened >>= fun f =>
        madeStat (.function (some (.member (.name object) .colon (.name name)))
            false f.1 f.2) := by
    refine .line fun _ =>
      .look (.line fun opened => .step .next (.step (.name _) ?_))
    refine .step (.dottedName_done (by simp) _)
      (.step (.consume _) (.step (.name _) (.step (.madeExpr _) ?_)))
    exact (continues_functionBody hrounds true opened params).bind _
  exact .look (hstat.andThen (andOthers deeper r))

theorem continues_function (rounds levels : Nat) (params : List String)
    (ks : List TokenKind) :
    Continues rounds (Deeper.ofLevels rounds (levels + 1)).expr
      (.keyword .function :: (signatureText params ++ ks)) ks fun opened =>
        closedBody (.ofLevels rounds levels) params opened >>= fun f =>
          madeExpr (.function f.1 f.2) >>=
            operators (.ofLevels rounds levels) 1 rounds := by
  have hunary : Continues rounds (unary (.ofLevels rounds levels))
      (.keyword .function :: (signatureText params ++ ks)) ks fun opened =>
        closedBody (.ofLevels rounds levels) params opened >>=
          fun f => madeExpr (.function f.1 f.2) := by
    refine .look (.look (.line fun opened => .step .next ?_))
    exact (continues_functionBody
        (Deeper.ofLevels_rounds rounds levels) false opened params).bind _
  show Continues rounds (operand (.ofLevels rounds levels) 1) _ _ _
  rw [operand, Deeper.ofLevels_rounds]
  exact hunary.andThen _

theorem continues_assignMethod (rounds levels r : Nat) :
    Continues rounds (stats (.ofLevels rounds (levels + 1)) (r + 1))
      (assignMethodText object name params body) (body ++ [.keyword .end])
      fun opened =>
        closedBody (.ofLevels rounds levels) ("self" :: params) opened >>=
          afterAssigned rounds levels r object name := by
  let target : Expr := .member (.name object) .dot (.name name)
  let function : List TokenKind := .keyword .function ::
    (signatureText ("self" :: params) ++ (body ++ [.keyword .end]))
  have hends : EndsChain (.symbol .assign :: function) := rfl
  have htarget : Reads rounds (primary (.ofLevels rounds (levels + 1)))
      (assignMethodText object name params body)
      (.symbol .assign :: function) True target :=
    (((Expr.Readable.name object).chain.dot name).primary hends _).congr
      (iff_of_true (Nat.zero_le _) trivial)
  have hfirst := (continues_function rounds levels ("self" :: params)
    (body ++ [.keyword .end])).andThen fun first => do
    return first ::
      (← Reader.afterCommas (Deeper.ofLevels rounds (levels + 1)).expr rounds)
  have hvalues := hfirst.andThen fun values => do
    madeStat (.expr (← madeExpr (.assign [target] values)))
  have hstat : Continues rounds (stat (.ofLevels rounds (levels + 1)))
      (assignMethodText object name params body) (body ++ [.keyword .end])
      fun opened =>
        closedBody (.ofLevels rounds levels) ("self" :: params) opened >>=
          assigned rounds levels object name := by
    refine .line fun _ =>
      .look (.step htarget (.look (.step (.assignTarget rfl) ?_)))
    refine .step (.afterCommas_none (by simp) _) (.step (.expect _) ?_)
    simp only [Deeper.exprs, separatedByCommas, Deeper.ofLevels_rounds,
      bind_assoc, pure_bind] at hvalues ⊢
    exact hvalues
  exact .look (hstat.andThen (andOthers (.ofLevels rounds (levels + 1)) r))

/-! What follows the body comes to the end of the tokens, with one
statement only. -/

variable {c d : Cursor} {s s' : Stat} {e e' : Expr} {α : Type} {item : Reader α}
    {k : TokenKind}

theorem expectClosing_other {opener : TokenKind} {opened : Nat}
    (h : c.current.kind ≠ k) :
    expectClosing k opener opened c ≠ .ok () d := by
  rw [expectClosing, bind_apply, consume_other h]
  show (line >>= fun n => ite (opened = n) (fail (.expected k))
    (fail (.unclosed k opener opened))) c ≠ _
  show (ite _ _ _ : Reader Unit) c ≠ _
  split <;> exact nofun

theorem eq_of_consume_false (h : consume k c = .ok false d) : d = c := by
  by_cases hk : c.current.kind = k
  · rw [consume, bind_apply, check, bind_apply, peek] at h
    dsimp only at h
    rw [pure_apply, decide_eq_true hk] at h
    obtain ⟨u, c₁, -, h⟩ := bind_eq_ok.mp h
    cases h
  · rw [consume_other hk] at h
    cases h
    rfl

theorem eq_of_afterCommas_nil {r : Nat}
    (h : Reader.afterCommas item r c = .ok [] d) :
    d = c := by
  cases r with
  | zero =>
    cases h
    rfl
  | succ r =>
    obtain ⟨found, c₁, hfound, h⟩ := bind_eq_ok.mp h
    cases found with
    | false =>
      cases h
      exact eq_of_consume_false hfound
    | true =>
      obtain ⟨a, c₂, -, h⟩ := bind_eq_ok.mp h
      obtain ⟨as, c₃, -, h⟩ := bind_eq_ok.mp h
      cases h

theorem yields_operators_binary (limit r : Nat) (op : BinaryOp)
    (left right : Expr) :
    Yields (operators deeper limit r (.binary op left right)) fun e =>
      ∃ op left right, e = .binary op left right := by
  induction r generalizing op left right with
  | zero => exact yields_pure ⟨op, left, right, rfl⟩
  | succ r ih =>
    refine yields_then fun k => ?_
    split
    · split
      · refine yields_then fun _ => yields_then fun more =>
          yields_bind (yields_madeExpr rfl) fun e he => ?_
        rw [← he]
        exact ih _ _ _
      · exact yields_pure ⟨op, left, right, rfl⟩
    · exact yields_pure ⟨op, left, right, rfl⟩

theorem operators_eq_ok {limit r : Nat}
    (h : operators deeper limit r e c = .ok e' d) :
    e' = e ∧ d = c ∨ ∃ op left right, e' = .binary op left right := by
  cases r with
  | zero =>
    cases h
    exact .inl ⟨rfl, rfl⟩
  | succ r =>
    obtain ⟨k, c₁, hk, h⟩ := bind_eq_ok.mp h
    cases hk
    cases hop : BinaryOp.ofToken? c.current.kind with
    | none =>
      rw [hop] at h
      cases h
      exact .inl ⟨rfl, rfl⟩
    | some op =>
      rw [hop] at h
      dsimp only at h
      by_cases hlimit : limit ≤ op.precedence
      · rw [if_pos hlimit] at h
        obtain ⟨u, c₂, -, h⟩ := bind_eq_ok.mp h
        obtain ⟨right, c₃, -, h⟩ := bind_eq_ok.mp h
        obtain ⟨longer, c₄, hmade, h⟩ := bind_eq_ok.mp h
        cases hmade
        exact .inr (yields_operators_binary _ _ _ _ _ h)
      · rw [if_neg hlimit] at h
        cases h
        exact .inl ⟨rfl, rfl⟩

theorem andOthers_eq_single (h : andOthers deeper r s c = .ok [s'] d) :
    s' = s ∧ ∀ {rounds ks}, c.Shows rounds ks →
      ∃ ks', (ks = ks' ∨ ks = .symbol .semicolon :: ks') ∧
        d.Shows rounds ks' := by
  obtain ⟨found, c₁, hfound, h⟩ := bind_eq_ok.mp h
  obtain ⟨ss, c₂, hss, h⟩ := bind_eq_ok.mp h
  cases h
  obtain rfl := eq_of_stats_nil hss
  refine ⟨rfl, fun {rounds ks} hc => ?_⟩
  by_cases hsemicolon : c.current.kind = .symbol .semicolon
  · obtain ⟨ks', rfl⟩ := hc.eq_cons hsemicolon nofun
    exact ⟨ks', .inr rfl, ((Reads.consume _).eq_of_ok hc hfound).2⟩
  · rw [consume_other hsemicolon] at hfound
    cases hfound
    exact ⟨ks, .inl rfl, hc⟩

/-- What follows a body gives one statement of it, before the end of the tokens
and before no other tokens. -/
structure Finishes (rounds : Nat) (p : Block → Reader Block)
    (s : Block → Stat) : Prop where
  done : ∀ body, Reads rounds (p body) [] [] True [s body]
  only : ∀ {body body' c d ks}, c.Shows rounds ks → p body c = .ok [s body'] d →
    body' = body ∧
      ∃ ks', (ks = ks' ∨ ks = .symbol .semicolon :: ks') ∧ d.Shows rounds ks'

theorem reads_andOthers (r : Nat) :
    Reads rounds (andOthers deeper r s) [] [] True [s] :=
  (Reads.consume_other (by simp [headKind])).step
    ((Reads.stats_done rfl r).step .pure)

theorem finishes_method (r : Nat) :
    Finishes rounds (fun body => afterMethod deeper r object name
        ("self" :: params, body)) (Stat.method object name params) where
  done body := (Reads.madeStat _).step (reads_andOthers r)
  only hc h := by
    obtain ⟨s, c₁, hmade, h⟩ := bind_eq_ok.mp h
    obtain ⟨rfl, hc₁⟩ := (Reads.madeStat _).eq_of_ok hc hmade
    obtain ⟨heq, hks⟩ := andOthers_eq_single h
    cases heq
    exact ⟨rfl, hks hc₁⟩

theorem finishes_assignMethod (r : Nat) :
    Finishes rounds (fun body => afterAssigned rounds levels r object name
        ("self" :: params, body)) (Stat.assignMethod object name params) where
  done body := by
    have hassigned : Reads rounds
        (assigned rounds levels object name ("self" :: params, body)) [] [] True
        (.assignMethod object name params body) :=
      (Reads.madeExpr _).step ((Reads.operators_done (.of_none rfl) _).step
          ((Reads.afterCommas_none (by simp [headKind]) _).step
            ((Reads.madeExpr _).step (Reads.madeStat _))))
    exact hassigned.step (reads_andOthers r)
  only {body body' c d ks} hc h := by
    obtain ⟨s, c₄, hassigned, h⟩ := bind_eq_ok.mp h
    obtain ⟨f, c₁, hmade, hassigned⟩ := bind_eq_ok.mp hassigned
    obtain ⟨first, c₂, hoperators, hassigned⟩ := bind_eq_ok.mp hassigned
    obtain ⟨others, c₃, hothers, hassigned⟩ := bind_eq_ok.mp hassigned
    obtain ⟨e, c₅, hwhole, hstat⟩ := bind_eq_ok.mp hassigned
    obtain ⟨heq, hks⟩ := andOthers_eq_single h
    obtain ⟨rfl, hc₁⟩ := (Reads.madeExpr _).eq_of_ok hc hmade
    -- the value is the function itself, so that neither an operator nor a
    -- comma was taken
    obtain ⟨rfl, rfl, rfl⟩ : e =
        .assign [.member (.name object) .dot (.name name)] (first :: others) ∧
        first = .function ("self" :: params) body' ∧ others = [] := by
      cases hwhole
      cases hstat
      cases heq
      exact ⟨rfl, rfl, rfl⟩
    obtain rfl := eq_of_afterCommas_nil hothers
    obtain ⟨hfirst, rfl⟩ | ⟨_, _, _, hbinary⟩ := operators_eq_ok hoperators
    · cases hfirst
      have hc₂ := ((Reads.madeExpr _).eq_of_ok hc₁ hwhole).2
      exact ⟨rfl, hks ((Reads.madeStat _).eq_of_ok hc₂ hstat).2⟩
    · cases hbinary

variable {p : Block → Reader Block} {f : Block → Stat}
    {q : List String × Block → Reader Block} {opened : Nat}
variable {b b' : Block}

theorem Finishes.closed_iff (h : Finishes rounds p f) (hc : c.Shows rounds ks)
    (heos : .eos ∉ ks) (hlast : ks <:+ body ++ [.keyword .end]) :
    (∃ d,
        (expectClosing (.keyword .end) (.keyword .function) opened >>=
          fun _ => p b) c = .ok [f b'] d ∧
        d.current.kind = .eos) ↔
      b' = b ∧ ks = [.keyword .end] := by
  constructor
  · rintro ⟨d, hrun, hend⟩
    obtain ⟨u, c₁, hclosing, hrun⟩ := bind_eq_ok.mp hrun
    have hkind : c.current.kind = .keyword .end := by
      by_contra hother
      exact expectClosing_other hother hclosing
    obtain ⟨ks, rfl⟩ := hc.eq_cons hkind nofun
    obtain ⟨-, hc₁⟩ := (Reads.expectClosing _ _ opened).eq_of_ok hc hclosing
    obtain ⟨rfl, ks', hks, hd⟩ := h.only hc₁ hrun
    have hnil : ks' = [] := by
      cases ks' with
      | nil => rfl
      | cons k ks' =>
        have hk : k = .eos := hd.current.symm.trans hend
        refine absurd ?_ heos
        rcases hks with rfl | rfl <;> simp [hk]
    subst hnil
    rcases hks with rfl | rfl
    · exact ⟨rfl, rfl⟩
    · obtain ⟨before, hbefore⟩ := hlast
      have hsplit : (before ++ [.keyword .end]) ++ [.symbol .semicolon] =
          body ++ [.keyword .end] := by
        simpa using hbefore
      cases (List.append_inj' hsplit rfl).2
  · rintro ⟨rfl, rfl⟩
    obtain ⟨hclosed, -⟩ :=
      Reads.expectClosing (.keyword .end) (.keyword .function) opened c hc
    obtain ⟨c₁, hclosing, hc₁, -⟩ := hclosed trivial
    obtain ⟨d, hrun, hd, -⟩ := (h.done b' c₁ hc₁).1 trivial
    exact ⟨d, by rw [bind_apply, hclosing]; exact hrun, hd.current⟩

end Reader

/-- Cursors before the same tokens, the last ones of some, unless the left run
fails for want of levels. -/
def Pairing.ofShown (whole : List TokenKind) (rounds rounds' : Nat) :
    Pairing where
  Level n c d := ∃ ks, ks <:+ whole ∧ n = ks.length + 1 ∧ c.Shows rounds ks ∧
    d.Shows rounds' ks
  Fails _ _ _ _ := True
  exact := False
  demand := .outcome .tooDeep
  bound := whole.length + 1
  bound_pos := Nat.succ_pos _
  exit_bound := Nat.zero_le _
  pos := fun ⟨_, _, hn, _⟩ => hn ▸ Nat.succ_pos _
  le_bound := fun ⟨_, hsuffix, hn, _⟩ => hn ▸ Nat.succ_le_succ hsuffix.length_le
  kinds := fun ⟨_, _, _, hc, hd⟩ => .inl (hc.current.trans hd.current.symm)
  lines _ := False.elim
  fails _ _ _ _ := trivial
  afterBuild := fun {_ c d node} _ ⟨ks, hsuffix, hn, hc, hd⟩ =>
    ⟨ks, hsuffix, hn, ((Reads.build node).eq_of_ok hc rfl).2,
      ((Reads.build node).eq_of_ok hd rfl).2⟩
  afterNext := fun {_ c d} ⟨ks, hsuffix, hn, hc, hd⟩ hkind => by
    obtain ⟨ks, rfl⟩ := hc.eq_cons rfl (TokenKind.isEos_eq_false_iff.mp hkind)
    obtain ⟨c', hc', hshows, -⟩ := (Reads.next c hc).1 trivial
    obtain ⟨d', hd', hshows', -⟩ := (Reads.next d hd).1 trivial
    rw [hc', hd', hn]
    exact .inr ⟨rfl, ks.length + 1, Nat.le_refl _, ks,
        List.IsSuffix.trans (List.suffix_cons _ ks) hsuffix, rfl, hshows,
        hshows'⟩

namespace Chunk

variable {s u object name : String} {params : List String}
    {ks body : List TokenKind}

theorem shows_start (hs : (Tokens.ofSource s).Spell ks) :
    ∃ c, next (.start (Tokens.ofSource s)) = .ok () c ∧
    c.Shows ((Tokens.ofSource s).list.length + 1) ks := by
  obtain ⟨c, hrun, hc, -⟩ :=
    ((Reads.pure (a := ())).fromStart hs (Nat.le_succ _)).1 trivial
  obtain ⟨u, d, hnext, hd⟩ := bind_eq_ok.mp hrun
  cases hd
  exact ⟨c, hnext, hc⟩

theorem eos_notMem (hs : (Tokens.ofSource s).Spell ks) : .eos ∉ ks := by
  obtain ⟨rfl, -⟩ := hs
  rw [Tokens.kinds, significantKinds_eq_map]
  intro hmem
  obtain ⟨t, ht, hkind⟩ := List.mem_map.mp hmem
  exact TokenKind.isEos_eq_false_iff.mp
    (Tokens.ofSource_noEnd s t (List.mem_filter.mp ht).1) hkind

theorem ofSource_error_of_stats {c d : Cursor} {e : ReadError}
    (hc : next (.start (Tokens.ofSource s)) = .ok () c)
    (h : stats (topReaders s) ((Tokens.ofSource s).list.length + 1) c =
      .error e d) :
    ofSource s = .error e := by
  have hblock :
      (Deeper.ofLevels ((Tokens.ofSource s).list.length + 1) maxLevels).block
          c = .error e d := by
    show (stats (topReaders s) (topReaders s).rounds >>= _) c = _
    rw [topReaders, Deeper.ofLevels_rounds, bind_apply]
    rw [topReaders] at h
    rw [h]
  have hread := read_eq hc
  rw [bind_apply, hblock] at hread
  exact ofSource_error hread

/-- A text expresses one statement with a body if the block that is read from a
cursor on is that body and leaves one token, the `end`. -/
structure HasBodyAt (s : String) (deeper : Deeper) (body : List TokenKind)
    (f : Block → Stat) (c : Cursor) :
    Prop where
  shows : c.Shows ((Tokens.ofSource s).list.length + 1)
    (body ++ [.keyword .end])
  bound : (body ++ [TokenKind.keyword .end]).length ≤
    (Tokens.ofSource s).list.length
  fails : ∀ {e d}, deeper.block c = .error e d → ofSource s = .error e
  expresses : ∀ {b d ks}, deeper.block c = .ok b d →
    d.Shows ((Tokens.ofSource s).list.length + 1) ks →
    ks <:+ body ++ [.keyword .end] →
      ∀ b', (∃ p, ofSource s = .ok p ∧ p.body = [f b']) ↔
        b' = b ∧ ks = [.keyword .end]

theorem exists_hasBodyAt {deeper : Deeper}
    {q : List String × Block → Reader Block} {f : Block → Stat}
    (hs : (Tokens.ofSource s).Spell ks) (hbody : body ++ [.keyword .end] <:+ ks)
    (hcontinues : Continues ((Tokens.ofSource s).list.length + 1)
      (stats (topReaders s) ((Tokens.ofSource s).list.length + 1)) ks (body ++
        [.keyword .end]) fun opened => closedBody deeper params opened >>= q)
    (hfinishes : Finishes ((Tokens.ofSource s).list.length + 1)
      (fun b => q (params, b)) f) :
    ∃ c, HasBodyAt s deeper body f c := by
  obtain ⟨start, hstart, hshows⟩ := shows_start hs
  obtain ⟨opened, c, hc, hrun⟩ := hcontinues start hshows
  have heos : .eos ∉ body ++ [.keyword .end] :=
    fun hmem => eos_notMem hs (hbody.subset hmem)
  refine ⟨c, hc, ?_, fun {e d} hblock => ?_,
    fun {b d rest} hblock hd hrest b' => ?_⟩
  · exact Nat.le_trans hbody.length_le
      (Nat.le_of_succ_le_succ (length_significant_le hs))
  · exact ofSource_error_of_stats hstart
      (hrun.trans (closedBody_bind_error hblock opened q))
  · rw [ofSource_body_iff hstart, hrun.trans (closedBody_bind hblock opened q)]
    exact hfinishes.closed_iff hd (fun hmem => heos (hrest.subset hmem)) hrest

/-- Whatever tokens stand for the body, one text is read as the method if and
only if the other one is read as the assignment, unless the assignment wants for
the level more that it takes. -/
theorem ofSource_method_iff
    (hs : (Tokens.ofSource s).Spell (methodText object name params body))
    (hu : (Tokens.ofSource u).Spell (assignMethodText object name params body))
    (hlevels : ∀ t, ofSource u ≠ .error (.grammatical ⟨.tooDeep, t⟩))
    (b : Block) :
    (∃ p, ofSource s = .ok p ∧ p.body = [.method object name params b]) ↔
      ∃ p, ofSource u = .ok p ∧
        p.body = [.assignMethod object name params b] := by
  obtain ⟨c, hc⟩ := exists_hasBodyAt hs ⟨.keyword .function :: .name object ::
        .symbol .colon :: .name name :: signatureText params, rfl⟩
    (continues_method (Deeper.ofLevels_rounds _ 199) _) (finishes_method _)
  obtain ⟨d, hd⟩ := exists_hasBodyAt hu
    ⟨.name object :: .symbol .dot :: .name name :: .symbol .assign ::
        .keyword .function :: signatureText ("self" :: params),
      rfl⟩ (continues_assignMethod _ 198 _) (finishes_assignMethod _)
  have halike :
      (Deeper.ofLevels ((Tokens.ofSource u).list.length + 1) 198).Alike
        (.ofShown (body ++ [.keyword .end]) ((Tokens.ofSource u).list.length +
            1) ((Tokens.ofSource s).list.length + 1))
        (.ofLevels ((Tokens.ofSource s).list.length + 1) 199) :=
    .moreLevels rfl ⟨Nat.succ_le_succ hd.bound, Nat.succ_le_succ hc.bound⟩
      (by decide)
  have hreply := (halike.block _ _).replies (Nat.le_refl _)
    ⟨_, List.suffix_refl _, rfl, hd.shows, hc.shows⟩ rfl
  cases hblock' :
    (Deeper.ofLevels ((Tokens.ofSource u).list.length + 1) 198).block d with
  | error e d' =>
    have hfails := hd.fails hblock'
    rw [hblock'] at hreply
    rcases hreply with ⟨t, rfl⟩ | hmatch
    · exact absurd hfails (hlevels t)
    · cases hblock :
        (Deeper.ofLevels ((Tokens.ofSource s).list.length + 1) 199).block c with
      | ok b₁ c' =>
        rw [hblock] at hmatch
        exact hmatch.elim
      | error e' c' => simp [hfails, hc.fails hblock]
  | ok b₁ d' =>
    rw [hblock'] at hreply
    obtain ⟨c', hblock, j, -, ks, hsuffix, -, hd', hc'⟩ :=
      hreply.succeeds fun _ => id
    rw [hc.expresses hblock hc' hsuffix, hd.expresses hblock' hd' hsuffix]

end Chunk

end LuaCore
