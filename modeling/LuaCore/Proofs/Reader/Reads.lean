import LuaCore.Reader.Statement

/-! A fact about a reader names the tokens ahead of it and those that it leaves,
and the condition under which the levels suffice. -/

namespace LuaCore

def Token.comment? (t : Token) : Option Comment :=
  match t.kind with
  | .comment text => some ⟨text, t.position⟩
  | _ => none

def significantKinds : List Token → List TokenKind
  | [] => []
  | ⟨.comment _, _⟩ :: ts => significantKinds ts
  | t :: ts => t.kind :: significantKinds ts

namespace Tokens

def kinds (ts : Tokens) : List TokenKind := significantKinds ts.list

def comments (ts : Tokens) : List Comment := ts.list.filterMap Token.comment?

/-- The tokens spell these kinds, among comments, and come to a proper end. -/
def Spell (ts : Tokens) (ks : List TokenKind) : Prop :=
  ts.kinds = ks ∧ ∃ p, ts.ending = .finished p

end Tokens

theorem significantKinds_length_le (ts : List Token) :
    (significantKinds ts).length ≤ ts.length := by
  induction ts using significantKinds.induct with
  | case1 => exact Nat.le_refl 0
  | case2 text p ts ih =>
    rw [significantKinds, List.length_cons]
    exact Nat.le_succ_of_le ih
  | case3 t ts hkind ih =>
    rw [significantKinds.eq_3 t ts hkind, List.length_cons, List.length_cons]
    exact Nat.succ_le_succ ih

def headKind (ks : List TokenKind) : TokenKind := ks.headD .eos

@[simp] theorem headKind_cons (k : TokenKind) (ks : List TokenKind) :
    headKind (k :: ks) = k :=
  rfl

theorem exists_turn {n m : Nat} (h : n < m) :
    ∃ turns, m = turns + 1 ∧ n ≤ turns :=
  ⟨m - 1, by omega, by omega⟩

namespace Cursor

/-- Tokens of these kinds are ahead, the one looked at included, and no more
than `rounds`. -/
structure Shows (rounds : Nat) (c : Cursor) (ks : List TokenKind) : Prop where
  current : c.current.kind = headKind ks
  rest : c.rest.kinds = ks.tail
  ended : ks = [] → c.rest.list = []
  finished : ∃ p, c.rest.ending = .finished p
  bound : ks.length ≤ rounds

def allComments (c : Cursor) : List Comment :=
  c.comments.reverse ++ c.rest.comments

end Cursor

theorem Reader.advance_finished (p : Position) (ts : List Token) (c : Cursor) :
    ∃ d, advance (.finished p) ts c = .ok () d ∧
      d.current.kind = headKind (significantKinds ts) ∧
      d.rest.kinds = (significantKinds ts).tail ∧
      (significantKinds ts = [] → d.rest.list = []) ∧
      d.rest.ending = .finished p ∧
      d.allComments = c.comments.reverse ++ ts.filterMap Token.comment? := by
  induction ts using significantKinds.induct generalizing c with
  | case1 => exact ⟨_, rfl, rfl, rfl, fun _ => rfl, rfl, rfl⟩
  | case2 text q ts ih =>
    obtain ⟨d, hrun, hcurrent, hrest, hended, hending, hcomments⟩ :=
      ih (noteComment c text q)
    refine ⟨d, hrun, hcurrent, hrest, hended, hending, hcomments.trans ?_⟩
    simp [noteComment, Token.comment?]
  | case3 t ts hkind ih =>
    have hcomment : t.comment? = none := by
      obtain ⟨kind, q⟩ := t
      cases kind with
      | comment text => exact absurd rfl (hkind text q)
      | _ => rfl
    refine ⟨{ c with current := t, rest := ⟨ts, .finished p⟩ },
      advance.eq_4 _ c t ts hkind, ?_⟩
    rw [significantKinds.eq_3 t ts hkind, List.filterMap_cons_none hcomment]
    exact ⟨rfl, rfl, fun h => absurd h (List.cons_ne_nil _ _), rfl, rfl⟩

namespace Reader

def closing (body : Block) : Reader Chunk := do
  unless ← check .eos do
    fail (.expected .eos)
  let c : Chunk := ⟨body, (← chunk.comments).reverse⟩
  build (.chunk c)
  return c

theorem chunk_eq (deeper : Deeper) :
    chunk deeper = (do next; deeper.block) >>= closing := by
  rw [bind_assoc]
  rfl

theorem chunk_of_next {start c : Cursor} (h : next start = .ok () c)
    (deeper : Deeper) :
    chunk deeper start = (deeper.block >>= closing) c := by
  rw [chunk_eq, bind_assoc, bind_apply, h]

theorem chunk_of_next_error {start c : Cursor} {e : ReadError}
    (h : next start = .error e c) (deeper : Deeper) :
    chunk deeper start = .error e c := by
  rw [chunk_eq, bind_assoc, bind_apply, h]

end Reader

/-- With tokens of the kinds `ks` ahead the reader returns `a` and leaves the
kinds `rest`, provided that the levels suffice; otherwise that is the error. -/
def Reads (rounds : Nat) {α : Type} (p : Reader α) (ks rest : List TokenKind)
    (fits : Prop) (a : α) : Prop :=
  ∀ c : Cursor, c.Shows rounds ks →
    (fits → ∃ d, p c = .ok a d ∧ d.Shows rounds rest ∧
        d.allComments = c.allComments) ∧
    (¬ fits → ∃ t d, p c = .error (.grammatical ⟨.tooDeep, t⟩) d)

namespace Reads

open Reader

variable {rounds : Nat} {α β : Type} {p : Reader α} {f : α → Reader β} {a : α}
    {b : β}
variable {ks mid rest : List TokenKind} {fits more : Prop}

theorem of_ok (h : ∀ c : Cursor, c.Shows rounds ks →
    ∃ d, p c = .ok a d ∧ d.Shows rounds rest ∧ d.allComments = c.allComments) :
    Reads rounds p ks rest True a :=
  fun c hc => ⟨fun _ => h c hc, fun hfits => absurd trivial hfits⟩

theorem bind (hp : Reads rounds p ks mid fits a)
    (hf : Reads rounds (f a) mid rest more b) :
    Reads rounds (p >>= f) ks rest (fits ∧ more) b := by
  intro c hc
  obtain ⟨hok, herror⟩ := hp c hc
  rw [bind_apply]
  -- The first reader to want for levels ends the whole, whatever stands after
  -- it.
  by_cases hfits : fits
  · obtain ⟨d, hrun, hd, hcomments⟩ := hok hfits
    obtain ⟨hok, herror⟩ := hf d hd
    rw [hrun]
    constructor
    · intro hboth
      obtain ⟨d', hrun', hd', hcomments'⟩ := hok hboth.2
      exact ⟨d', hrun', hd', hcomments'.trans hcomments⟩
    · intro hboth
      exact herror fun hmore => hboth ⟨hfits, hmore⟩
  · obtain ⟨t, d, hrun⟩ := herror hfits
    rw [hrun]
    exact ⟨fun hboth => absurd hboth.1 hfits, fun _ => ⟨t, d, rfl⟩⟩

theorem congr (h : Reads rounds p ks rest fits a) (hiff : fits ↔ more) :
    Reads rounds p ks rest more a :=
  propext hiff ▸ h

theorem step (hp : Reads rounds p ks mid True a)
    (hf : Reads rounds (f a) mid rest more b) :
    Reads rounds (p >>= f) ks rest more b :=
  (hp.bind hf).congr (iff_of_eq (true_and more))

theorem last (hp : Reads rounds p ks mid fits a)
    (hf : Reads rounds (f a) mid rest True b) :
    Reads rounds (p >>= f) ks rest fits b :=
  (hp.bind hf).congr (iff_of_eq (and_true fits))

theorem of_bound (h : ks.length ≤ rounds → Reads rounds p ks rest fits a) :
    Reads rounds p ks rest fits a :=
  fun c hc => h hc.bound c hc

theorem pure : Reads rounds (Pure.pure a) ks ks True a :=
  of_ok fun c hc => ⟨c, rfl, hc, rfl⟩

theorem tooDeep : Reads rounds (fail .tooDeep : Reader α) ks rest False a :=
  fun c _ => ⟨False.elim, fun _ => ⟨c.current, c, rfl⟩⟩

theorem peek : Reads rounds peek ks ks True (headKind ks) :=
  of_ok fun c hc => ⟨c, congrArg (Reply.ok · c) hc.current, hc, rfl⟩

theorem look {f : TokenKind → Reader β}
    (h : Reads rounds (f (headKind ks)) ks rest fits b) :
    Reads rounds (Reader.peek >>= f) ks rest fits b :=
  peek.step h

theorem line {f : Nat → Reader β} (h : ∀ n, Reads rounds (f n) ks rest fits b) :
    Reads rounds (Reader.line >>= f) ks rest fits b :=
  fun c hc => h c.current.position.line c hc

theorem build (node : Node) : Reads rounds (build node) ks ks True () :=
  of_ok fun _ hc =>
    ⟨_, rfl, ⟨hc.current, hc.rest, hc.ended, hc.finished, hc.bound⟩, rfl⟩

theorem next {k : TokenKind} : Reads rounds next (k :: ks) ks True () := by
  refine of_ok fun c hc => ?_
  obtain ⟨p, hp⟩ := hc.finished
  have hkinds : significantKinds c.rest.list = ks := hc.rest
  obtain ⟨d, hrun, hcurrent, hrest, hended, hending, hcomments⟩ :=
    advance_finished p c.rest.list c
  rw [hkinds] at hcurrent hrest hended
  refine ⟨d, ?_,
    ⟨hcurrent, hrest, hended, ⟨p, hending⟩, Nat.le_of_succ_le hc.bound⟩,
    hcomments⟩
  rw [Reader.next, hp]
  exact hrun

theorem check {k : TokenKind} (h : headKind ks = k) :
    Reads rounds (check k) ks ks True true :=
  look (decide_eq_true h ▸ pure)

theorem check_other {k : TokenKind} (h : headKind ks ≠ k) :
    Reads rounds (Reader.check k) ks ks True false :=
  look (decide_eq_false h ▸ pure)

theorem consume (k : TokenKind) :
    Reads rounds (consume k) (k :: ks) ks True true :=
  (check rfl).step (next.step pure)

theorem consume_other {k : TokenKind} (h : headKind ks ≠ k) :
    Reads rounds (Reader.consume k) ks ks True false :=
  (check_other h).step pure

theorem expect (k : TokenKind) : Reads rounds (expect k) (k :: ks) ks True () :=
  (consume k).step pure

theorem expectClosing (k opener : TokenKind) (opened : Nat) :
    Reads rounds (expectClosing k opener opened) (k :: ks) ks True () :=
  (consume k).step pure

theorem name (x : String) : Reads rounds name (.name x :: ks) ks True x :=
  look (next.step ((build (.name x)).step pure))

theorem madeExpr (e : Expr) : Reads rounds (madeExpr e) ks ks True e :=
  (build (.expr e)).step pure

theorem madeStat (s : Stat) : Reads rounds (madeStat s) ks ks True s :=
  (build (.stat s)).step pure

theorem madeField (f : Field) : Reads rounds (madeField f) ks ks True f :=
  (build (.field f)).step pure

theorem fromStart {tokens : Tokens} (h : Reads rounds p ks rest fits a)
    (htokens : tokens.Spell ks) (hrounds : tokens.list.length ≤ rounds) :
    (fits → ∃ d, (do Reader.next; p) (.start tokens) = .ok a d ∧
        d.Shows rounds rest ∧ d.allComments = tokens.comments) ∧
    (¬ fits → ∃ t d, (do Reader.next; p) (.start tokens) =
        .error (.grammatical ⟨.tooDeep, t⟩) d) := by
  obtain ⟨rfl, q, hq⟩ := htokens
  obtain ⟨c, hrun, hcurrent, hrest, hended, hending, hcomments⟩ :=
    advance_finished q tokens.list (.start tokens)
  have hstart : Reader.next (.start tokens) = .ok () c := by
    rw [Reader.next]
    exact hq ▸ hrun
  -- Comments count among the tokens, so the turns suffice all the more
  -- without them.
  have hlength := Nat.le_trans (significantKinds_length_le tokens.list) hrounds
  obtain ⟨hok, herror⟩ := h c ⟨hcurrent, hrest, hended, ⟨q, hending⟩, hlength⟩
  simp only [bind_apply, hstart]
  constructor
  · intro hfits
    obtain ⟨d, hrun, hd, hd'⟩ := hok hfits
    exact ⟨d, hrun, hd, hd'.trans hcomments⟩
  · exact herror

end Reads

end LuaCore
