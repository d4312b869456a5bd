import LuaCore.Proofs.Reader.Loop
import LuaCore.Proofs.Reader.Motion

/-! Two readers agree if from cursors at the same token they return the same
value and come to the same token again, or fail at the same token. -/

namespace LuaCore

/-- The end of a source, and the token that may stand in for it. -/
def TokenKind.isStop : TokenKind → Bool
  | .eos | .symbol .semicolon => true
  | _ => false

theorem TokenKind.isEos_of_isStop {k : TokenKind} (h : k.isStop = false) :
    k.isEos = false := by
  cases k with
  | eos => cases h
  | _ => rfl

def Node.isPart : Node → Bool
  | chunk _ | comment _ => false
  | _ => true

theorem Node.comment?_of_isPart {node : Node} (h : node.isPart = true) :
    node.comment? = none := by
  cases node with
  | comment _ => cases h
  | _ => rfl

namespace Reply

variable {α : Type}

def Stays (At : Nat → Cursor → Prop) (Fails : ReadError → Cursor → Prop)
    (m : α → Nat) : Reply α → Prop
  | .ok a c => ∃ j ≤ m a, At j c
  | .error e c => Fails e c

/-- The same value, with as many tokens left as are allowed for it, or failures
that belong together. -/
def Matches (Level : Nat → Cursor → Cursor → Prop)
    (Fails : ReadError → Cursor → ReadError → Cursor → Prop) (m : α → Nat) :
    Reply α → Reply α → Prop
  | .ok a c, .ok b d => a = b ∧ ∃ j ≤ m a, Level j c d
  | .error e c, .error e' d => Fails e c e' d
  | _, _ => False

end Reply

/-- Where a run can be, with a number of tokens ahead, and how it can fail. -/
structure Course where
  At : Nat → Cursor → Prop
  Fails : ReadError → Cursor → Prop
  bound : Nat
  pos : ∀ {n c}, At n c → 0 < n
  le_bound : ∀ {n c}, At n c → n ≤ bound
  fails : ∀ {n c}, At n c → ∀ fault, Fails (.grammatical ⟨fault, c.current⟩) c
  afterBuild : ∀ {n c} {node : Node}, node.isPart = true → At n c →
    At n { c with built := node :: c.built }
  afterNext : ∀ {n c}, At n c → c.current.kind.isEos = false →
    (Reader.next c).Stays At Fails fun _ => n - 1

namespace Course

def Keeps {α : Type} (S : Course) (m : α → Nat) (r : Reply α) : Prop :=
  r.Stays S.At S.Fails m

def never : Course where
  At _ _ := False
  Fails _ _ := False
  bound := 0
  pos := False.elim
  le_bound := False.elim
  fails h := h.elim
  afterBuild _ := id
  afterNext h := h.elim

def failed : Course where
  At _ _ := False
  Fails _ _ := True
  bound := 0
  pos := False.elim
  le_bound := False.elim
  fails h := h.elim
  afterBuild _ := id
  afterNext h := h.elim

def tooDeep : Course where
  At _ _ := False
  Fails e _ := ∃ t, e = .grammatical ⟨.tooDeep, t⟩
  bound := 0
  pos := False.elim
  le_bound := False.elim
  fails h := h.elim
  afterBuild _ := id
  afterNext h := h.elim

def ended : Course where
  At n c := n = 1 ∧ c.current.kind = .eos
  Fails _ _ := True
  bound := 1
  pos h := by omega
  le_bound h := by omega
  fails _ _ := trivial
  afterBuild _ := id
  afterNext h hkind := absurd h.2 (TokenKind.isEos_eq_false_iff.mp hkind)

variable {S : Course} {β : Type} {m m' : β → Nat} {r : Reply β}

theorem Keeps.mono (h : S.Keeps m r) (hm : ∀ b, m b ≤ m' b) : S.Keeps m' r := by
  cases r with
  | error e c => exact h
  | ok b c =>
    obtain ⟨j, hj, hat⟩ := h
    exact ⟨j, Nat.le_trans hj (hm b), hat⟩

theorem not_keeps_never (h : never.Keeps m r) : False := by
  cases r with
  | error e c => exact h
  | ok b c =>
    obtain ⟨_, _, hat⟩ := h
    exact hat

theorem keeps_ended_of_failed (h : failed.Keeps m r) : ended.Keeps m r := by
  cases r with
  | error e c => trivial
  | ok b c =>
    obtain ⟨_, _, hat⟩ := h
    exact False.elim hat

end Course

/-- What is asked of the right run. -/
inductive Demand
  /-- To end as the left one does, unless that takes the course. -/
  | outcome (exit : Course)
  /-- To succeed where the left one does. -/
  | success
  /-- To succeed where the left one does before it comes to its end. -/
  | progress

namespace Demand

def relaxed : Demand → Demand
  | outcome exit => outcome exit
  | success | progress => progress

def exit : Demand → Course
  | outcome exit => exit
  | success => .failed
  | progress => .ended

def GoesOn : Demand → Prop
  | outcome _ => False
  | success | progress => True

variable {d : Demand} {β : Type} {m : β → Nat} {r : Reply β}

theorem relaxed_ne_success (d : Demand) : d.relaxed ≠ success := by
  cases d <;> simp [relaxed]

theorem goesOn_relaxed (h : d.GoesOn) : d.relaxed.GoesOn := by
  cases d with
  | outcome exit => exact h
  | _ => trivial

theorem keeps_relaxed (h : d.exit.Keeps m r) : d.relaxed.exit.Keeps m r := by
  cases d with
  | success => exact Course.keeps_ended_of_failed h
  | _ => exact h

theorem bound_relaxed {bound : Nat} (hpos : 0 < bound)
    (h : d.exit.bound ≤ bound) :
    d.relaxed.exit.bound ≤ bound := by
  cases d with
  | outcome exit => exact h
  | _ => exact hpos

end Demand

theorem Reader.consume_other {k : TokenKind} {c : Cursor}
    (h : c.current.kind ≠ k) :
    consume k c = .ok false c := by
  simp only [consume, check, bind_apply, peek, pure_apply, decide_eq_false h]
  rfl

/-- When two cursors, with a number of tokens ahead of each, count as standing
at the same token, and which failures belong together. Where it is exact, so do
the lines of the tokens and the faults. -/
structure Pairing where
  Level : Nat → Cursor → Cursor → Prop
  Fails : ReadError → Cursor → ReadError → Cursor → Prop
  exact : Prop
  demand : Demand
  bound : Nat
  bound_pos : 0 < bound
  exit_bound : demand.exit.bound ≤ bound
  pos : ∀ {n c d}, Level n c d → 0 < n
  le_bound : ∀ {n c d}, Level n c d → n ≤ bound
  kinds : ∀ {n c d}, Level n c d → c.current.kind = d.current.kind ∨
    demand.GoesOn ∧ c.current.kind = .eos ∧ d.current.kind = .symbol .semicolon
  lines : ∀ {n c d}, Level n c d → exact →
    c.current.position.line = d.current.position.line
  fails : ∀ {n c d}, Level n c d → ∀ fault fault', (exact → fault = fault') →
    Fails (.grammatical ⟨fault, c.current⟩) c
      (.grammatical ⟨fault', d.current⟩) d
  afterBuild : ∀ {n c d} {node : Node}, node.isPart = true → Level n c d →
    Level n { c with built := node :: c.built }
      { d with built := node :: d.built }
  afterNext : ∀ {n c d}, Level n c d → c.current.kind.isEos = false →
    demand.exit.Keeps (fun _ => n - 1) (Reader.next c) ∨
      (Reader.next c).Matches Level Fails (fun _ => n - 1) (Reader.next d)

namespace Pairing

open Reader

/-- The same cursors, where the end of the left run excuses a right one that may
have more tokens. -/
def relaxed (P : Pairing) : Pairing :=
  { P with
    demand := P.demand.relaxed
    exit_bound := Demand.bound_relaxed P.bound_pos P.exit_bound
    kinds := fun h => (P.kinds h).imp_right fun h =>
      ⟨Demand.goesOn_relaxed h.1, h.2⟩
    afterNext := fun h hkind =>
      (P.afterNext h hkind).imp_left Demand.keeps_relaxed }

def Matches {α : Type} (P : Pairing) (m : α → Nat) (r r' : Reply α) : Prop :=
  r.Matches P.Level P.Fails m r'

def Replies {α : Type} (P : Pairing) (m : α → Nat) (r r' : Reply α) : Prop :=
  P.demand.exit.Keeps m r ∨ P.Matches m r r'

/-- With at most `n` tokens ahead, the first of a kind, the readers reply as is
asked; and the left one keeps to every course. -/
structure At {α : Type} (P : Pairing) (n : Nat) (k : TokenKind) (m : α → Nat)
    (p q : Reader α) : Prop where
  replies : ∀ ⦃j c d⦄, j ≤ n → P.Level j c d → c.current.kind = k →
    P.Replies m (p c) (q d)
  keeps : ∀ S : Course, S.bound ≤ P.bound →
    ∀ ⦃j c⦄, j ≤ n → S.At j c → c.current.kind = k → S.Keeps m (p c)

def Within {α : Type} (P : Pairing) (n : Nat) (m : α → Nat) (p q : Reader α) :
    Prop :=
  ∀ k, P.At n k m p q

def Agrees {α : Type} (P : Pairing) (p q : Reader α) : Prop :=
  ∀ n, P.Within n (fun _ => n) p q

/-- Readers that reply alike and take a token before they return. -/
def Takes {α : Type} (P : Pairing) (p q : Reader α) : Prop :=
  ∀ n, P.Within n (fun _ => n - 1) p q

def TakesItems {α : Type} (P : Pairing) (turn turn' : Reader (Yield α)) :
    Prop :=
  ∀ n, P.Within n (Yield.left n) turn turn'

def TakesMore {α : Type} (P : Pairing) (turn turn' : α → Reader (Option α)) :
    Prop :=
  ∀ a n, P.Within n (fun longer => if longer.isSome then n - 1 else n) (turn a)
    (turn' a)

variable {P : Pairing} {α β : Type} {p q : Reader α} {f g : α → Reader β}
variable {n n' : Nat} {k k' : TokenKind} {l : α → Nat} {m m' : β → Nat}
    {p' q' : Reader β}
variable {S : Course} {r r' : Reply β}

theorem Matches.mono (h : P.Matches m r r') (hm : ∀ b, m b ≤ m' b) :
    P.Matches m' r r' := by
  cases r with
  | error e c =>
    cases r' with
    | error e' d => exact h
    | ok b d => exact h
  | ok b c =>
    cases r' with
    | error e d => exact h
    | ok b' d =>
      obtain ⟨rfl, j, hj, hlevel⟩ := h
      exact ⟨rfl, j, Nat.le_trans hj (hm b), hlevel⟩

theorem Replies.matches (h : P.Replies m r r')
    (hdemand : P.demand = .outcome .never) :
    P.Matches m r r' := by
  refine h.resolve_left fun hexit => ?_
  rw [hdemand] at hexit
  exact Course.not_keeps_never hexit

theorem Replies.succeeds {b : β} {c : Cursor} (h : P.Replies m (.ok b c) r')
    (hexit : ∀ j, ¬ P.demand.exit.At j c) :
    ∃ d, r' = .ok b d ∧ ∃ j ≤ m b, P.Level j c d := by
  rcases h with ⟨j, -, hat⟩ | hmatch
  · exact absurd hat (hexit j)
  · cases r' with
    | error e d => exact False.elim hmatch
    | ok b' d =>
      obtain ⟨rfl, hlevel⟩ := hmatch
      exact ⟨d, rfl, hlevel⟩

theorem Replies.mono (h : P.Replies m r r') (hm : ∀ b, m b ≤ m' b) :
    P.Replies m' r r' :=
  h.imp (·.mono hm) (·.mono hm)

theorem At.mono (h : P.At n k m p' q') (hn : n' ≤ n) (hm : ∀ b, m b ≤ m' b) :
    P.At n' k m' p' q' where
  replies _ _ _ hj hlevel hk := (h.replies (Nat.le_trans hj hn) hlevel hk).mono
    hm
  keeps S hS _ _ hj hat hk := (h.keeps S hS (Nat.le_trans hj hn) hat hk).mono hm

theorem Within.mono (h : P.Within n m p' q') (hn : n' ≤ n)
    (hm : ∀ b, m b ≤ m' b) :
    P.Within n' m' p' q' := fun k => (h k).mono hn hm

theorem Agrees.within (h : P.Agrees p' q') (hm : ∀ b, n ≤ m b) :
    P.Within n m p' q' :=
  (h n).mono (Nat.le_refl n) hm

theorem Takes.agrees (h : P.Takes p' q') : P.Agrees p' q' :=
  fun n => (h n).mono (Nat.le_refl n) fun _ => Nat.sub_le n 1

theorem At.relax (h : P.At n k m p' q') : P.relaxed.At n k m p' q' where
  replies _ _ _ hj hlevel hk := (h.replies hj hlevel hk).imp_left
    Demand.keeps_relaxed
  keeps := h.keeps

theorem Within.relax (h : P.Within n m p' q') : P.relaxed.Within n m p' q' :=
  fun k => (h k).relax

theorem Agrees.relax (h : P.Agrees p' q') : P.relaxed.Agrees p' q' :=
  fun n => (h n).relax

theorem Takes.relax (h : P.Takes p' q') : P.relaxed.Takes p' q' :=
  fun n => (h n).relax

theorem TakesItems.relax {turn turn' : Reader (Yield β)}
    (h : P.TakesItems turn turn') :
    P.relaxed.TakesItems turn turn' := fun n => (h n).relax

theorem within_zero : P.Within 0 m p' q' := fun _ =>
  { replies := fun _ _ _ hj hlevel => absurd (P.pos hlevel) (Nat.not_lt.mpr hj)
    keeps := fun S _ _ _ hj hat => absurd (S.pos hat) (Nat.not_lt.mpr hj) }

theorem within_pure (b : β) (hm : n ≤ m b) : P.Within n m (pure b) (pure b) :=
  fun _ =>
  { replies := fun j _ _ hj hlevel _ =>
      .inr ⟨rfl, j, Nat.le_trans hj hm, hlevel⟩
    keeps := fun _ _ j _ hj hat _ => ⟨j, Nat.le_trans hj hm, hat⟩ }

theorem within_fail {fault fault' : SyntaxFault}
    (h : P.exact → fault = fault') :
    P.Within n m (fail fault) (fail fault') := fun _ =>
  { replies := fun _ _ _ _ hlevel _ => .inr (P.fails hlevel fault fault' h)
    keeps := fun S _ _ _ _ hat _ => S.fails hat fault }

theorem keeps_bind {c : Cursor} (hS : S.bound ≤ P.bound) (h : S.Keeps l (p c))
    (hf : ∀ a, P.Within (l a) m (f a) (g a)) : S.Keeps m ((p >>= f) c) := by
  rw [bind_apply]
  revert h
  cases p c with
  | error e c' => exact id
  | ok a c' => exact fun ⟨_, hj, hat⟩ => (hf a _).keeps S hS hj hat rfl

theorem Matches.bind {c d : Cursor} (h : P.Matches l (p c) (q d))
    (hf : ∀ a, P.Within (l a) m (f a) (g a)) :
    P.Replies m ((p >>= f) c) ((q >>= g) d) := by
  rw [bind_apply, bind_apply]
  revert h
  cases p c with
  | error e c' =>
    cases q d with
    | error e' d' => exact .inr
    | ok b d' => exact False.elim
  | ok a c' =>
    cases q d with
    | error e' d' => exact False.elim
    | ok b d' =>
      rintro ⟨rfl, i, hi, hlevel⟩
      exact (hf a _).replies hi hlevel rfl

theorem at_bind (hp : P.At n k l p q) (hf : ∀ a, P.Within (l a) m (f a) (g a)) :
    P.At n k m (p >>= f) (q >>= g) where
  replies _ _ _ hj hlevel hk :=
    (hp.replies hj hlevel hk).elim
      (fun hexit => .inl (keeps_bind P.exit_bound hexit hf)) (·.bind hf)
  keeps S hS _ _ hj hat hk := keeps_bind hS (hp.keeps S hS hj hat hk) hf

theorem within_bind (hp : P.Within n l p q)
    (hf : ∀ a, P.Within (l a) m (f a) (g a)) :
    P.Within n m (p >>= f) (q >>= g) := fun k => at_bind (hp k) hf

theorem within_after (hp : P.Agrees p q) (hf : ∀ a, P.Within n m (f a) (g a)) :
    P.Within n m (p >>= f) (q >>= g) := within_bind (hp n) hf

theorem within_taking (hp : P.Takes p q)
    (hf : ∀ a, P.Within (n - 1) m (f a) (g a)) :
    P.Within n m (p >>= f) (q >>= g) := within_bind (hp n) hf

theorem at_look {f g : TokenKind → Reader β}
    (hend : P.demand = .success → g (.symbol .semicolon) = g .eos)
    (h : P.At n k m (f k) (g k)) :
    P.At n k m (peek >>= f) (peek >>= g) where
  replies j c d hj hlevel hk := by
    show P.Replies m (f c.current.kind c) (g d.current.kind d)
    rcases P.kinds hlevel with hsame | ⟨hgoes, heos, hsemicolon⟩
    · rw [← hsame, hk]
      exact h.replies hj hlevel hk
    · obtain rfl : k = .eos := hk.symm.trans heos
      rw [heos, hsemicolon]
      cases hP : P.demand with
      | outcome exit =>
        rw [hP] at hgoes
        exact False.elim hgoes
      | success =>
        rw [hend hP]
        exact h.replies hj hlevel heos
      | progress =>
        refine .inl ?_
        rw [hP]
        exact h.keeps .ended P.bound_pos (Nat.le_trans (P.pos hlevel) hj)
          ⟨rfl, heos⟩ heos
  keeps S hS j c hj hat hk := by
    show S.Keeps m (f c.current.kind c)
    rw [hk]
    exact h.keeps S hS hj hat hk

theorem within_look {f g : TokenKind → Reader β}
    (hend : P.demand = .success → g (.symbol .semicolon) = g .eos)
    (h : ∀ k, P.At n k m (f k) (g k)) :
    P.Within n m (peek >>= f) (peek >>= g) := fun k => at_look hend (h k)

theorem at_line {f g : Nat → Reader β}
    (h : ∀ x y, (P.exact → x = y) → P.At n k m (f x) (g y)) :
    P.At n k m (line >>= f) (line >>= g) where
  replies _ _ _ hj hlevel hk := (h _ _ (P.lines hlevel)).replies hj hlevel hk
  keeps S hS _ _ hj hat hk := (h _ _ fun _ => rfl).keeps S hS hj hat hk

theorem within_line {f g : Nat → Reader β}
    (h : ∀ x y, (P.exact → x = y) → P.Within n m (f x) (g y)) :
    P.Within n m (line >>= f) (line >>= g) := fun k => at_line fun x y hlines =>
      h x y hlines k

theorem at_next {f g : Unit → Reader β} (hk : k.isEos = false)
    (h : P.Within (n - 1) m (f ()) (g ())) :
    P.At n k m (next >>= f) (next >>= g) where
  replies j c d hj hlevel hkind := by
    have hf : ∀ u, P.Within (j - 1) m (f u) (g u) :=
      fun _ => h.mono (by omega) fun _ => Nat.le_refl _
    rcases P.afterNext hlevel (hkind ▸ hk) with hexit | hmatch
    · exact .inl (keeps_bind P.exit_bound hexit hf)
    · exact Matches.bind (P := P) hmatch hf
  keeps S hS j c hj hat hkind := by
    have hf : ∀ u, P.Within (j - 1) m (f u) (g u) :=
      fun _ => h.mono (by omega) fun _ => Nat.le_refl _
    exact keeps_bind hS (S.afterNext hat (hkind ▸ hk)) hf

theorem within_build {f g : Unit → Reader β} {node : Node}
    (hnode : node.isPart = true) (h : P.Within n m (f ()) (g ())) :
    P.Within n m (build node >>= f) (build node >>= g) :=
  fun k =>
  { replies := fun _ _ _ hj hlevel hk =>
      (h k).replies hj (P.afterBuild hnode hlevel) hk
    keeps := fun S hS _ _ hj hat hk =>
      (h k).keeps S hS hj (S.afterBuild hnode hat) hk }

theorem at_check {f g : Bool → Reader β}
    (hstop : P.demand = .success → k'.isStop = false)
    (hyes : k = k' → P.At n k m (f true) (g true))
    (hno : P.At n k m (f false) (g false)) :
    P.At n k m (check k' >>= f) (check k' >>= g) := by
  have hcheck : check k' = peek >>= fun k => pure (decide (k = k')) := rfl
  rw [hcheck, bind_assoc, bind_assoc]
  refine at_look (fun hdemand => ?_) ?_
  · have hother : ∀ other : TokenKind, other.isStop = true →
        decide (other = k') = false := by
      refine fun other hother => decide_eq_false fun heq => ?_
      rw [heq, hstop hdemand] at hother
      cases hother
    rw [hother _ rfl, hother _ rfl]
  rw [pure_bind, pure_bind]
  by_cases hk : k = k'
  · rw [decide_eq_true hk]
    exact hyes hk
  · rw [decide_eq_false hk]
    exact hno

theorem within_check {f g : Bool → Reader β} (hstop : k'.isStop = false)
    (hyes : P.At n k' m (f true) (g true))
    (hno : P.Within n m (f false) (g false)) :
    P.Within n m (check k' >>= f) (check k' >>= g) :=
  fun k => at_check (fun _ => hstop) (fun hk => hk ▸ hyes) (hno k)

theorem consumed_of (hk : k'.isEos = false)
    (hstop : P.demand = .success → k'.isStop = false) :
    P.Within n (fun found => if found then n - 1 else n) (consume k')
      (consume k') := by
  intro k
  refine at_check hstop (fun heq => at_next (heq ▸ hk) (within_pure true ?_))
    (within_pure false ?_ k)
  · exact Nat.le_refl _
  · exact Nat.le_refl _

theorem within_consumed (hk : k'.isStop = false) :
    P.Within n (fun found => if found then n - 1 else n) (consume k')
      (consume k') :=
  consumed_of (TokenKind.isEos_of_isStop hk) fun _ => hk

/-- Only one of two runs may skip a semicolon, if it stands in for the end of
the other one. -/
theorem agrees_skipped :
    P.relaxed.Agrees (consume (.symbol .semicolon))
      (consume (.symbol .semicolon)) := by
  intro n
  have hconsumed : P.relaxed.Within n (fun found => if found then n - 1 else n)
      (consume (.symbol .semicolon)) (consume (.symbol .semicolon)) :=
    consumed_of rfl fun hdemand => absurd hdemand P.demand.relaxed_ne_success
  refine hconsumed.mono (Nat.le_refl n) fun found => ?_
  split
  · exact Nat.sub_le n 1
  · exact Nat.le_refl n

theorem within_consume {f g : Bool → Reader β} (hk : k'.isStop = false)
    (hyes : P.Within (n - 1) m (f true) (g true))
    (hno : P.Within n m (f false) (g false)) :
    P.Within n m (consume k' >>= f) (consume k' >>= g) := by
  refine within_bind (within_consumed hk) fun found => ?_
  cases found with
  | true => exact hyes
  | false => exact hno

theorem takes_expect (hk : k'.isStop = false) :
    P.Takes (expect k') (expect k') :=
  fun _ => within_consume hk (within_pure () (Nat.le_refl _))
    (within_fail fun _ => rfl)

theorem takes_expectClosing {opener : TokenKind} {opened opened' : Nat}
    (hk : k'.isStop = false) (hopened : P.exact → opened = opened') :
    P.Takes (expectClosing k' opener opened)
      (expectClosing k' opener opened') := by
  intro n
  refine within_consume hk (within_pure () (Nat.le_refl _))
    (within_line fun x y hlines => ?_)
  have hsame : P.exact → (opened = x ↔ opened' = y) := fun hexact => by
    rw [hopened hexact, hlines hexact]
  split
  · next hx =>
    split
    · exact within_fail fun _ => rfl
    · next hy =>
        exact within_fail fun hexact => absurd ((hsame hexact).mp hx) hy
  · next hx =>
    split
    · next hy =>
        exact within_fail fun hexact => absurd ((hsame hexact).mpr hy) hx
    · exact within_fail fun hexact => by rw [hopened hexact]

theorem within_expect {f g : Unit → Reader β} (hk : k'.isStop = false)
    (h : P.Within n m (f ()) (g ())) :
    P.Within n m (expect k' >>= f) (expect k' >>= g) :=
  within_after (takes_expect hk).agrees fun _ => h

theorem within_expectClosing {opener : TokenKind} {opened opened' : Nat}
    {f g : Unit → Reader β} (hk : k'.isStop = false)
    (hopened : P.exact → opened = opened') (h : P.Within n m (f ()) (g ())) :
    P.Within n m (expectClosing k' opener opened >>= f)
      (expectClosing k' opener opened' >>= g) :=
  within_after (takes_expectClosing hk hopened).agrees fun _ => h

/-- Readers that reply as is asked, the left one with a failure where it comes
to its end before they start. -/
structure Closes (P : Pairing) (n : Nat) (m : β → Nat) (p q : Reader β) :
    Prop where
  within : P.Within n m p q
  fails : 0 < n → ∀ c, c.current.kind = .eos → ∃ e d, p c = .error e d

theorem Takes.fails {p q : Reader α} (h : P.Takes p q) {c : Cursor}
    (hc : c.current.kind = .eos) :
    ∃ e d, p c = .error e d := by
  have hkeeps :=
    (h 1 .eos).keeps .ended P.bound_pos (Nat.le_refl 1) ⟨rfl, hc⟩ hc
  cases hp : p c with
  | error e d => exact ⟨e, d, rfl⟩
  | ok a d =>
    rw [hp] at hkeeps
    obtain ⟨j, hj, rfl, -⟩ := hkeeps
    exact absurd hj (Nat.not_succ_le_self 0)

theorem closes_expectClosing {opener : TokenKind} {opened opened' : Nat}
    {f g : Unit → Reader β} (hk : k'.isStop = false)
    (hopened : P.exact → opened = opened') (h : P.Within n m (f ()) (g ())) :
    P.Closes n m (expectClosing k' opener opened >>= f)
      (expectClosing k' opener opened' >>= g) where
  within := within_expectClosing hk hopened h
  fails _ c hc := by
    have htakes : P.Takes (expectClosing k' opener opened)
        (expectClosing k' opener opened') :=
      takes_expectClosing hk hopened
    obtain ⟨e, d, hfails⟩ := htakes.fails hc
    exact ⟨e, d, by rw [bind_apply, hfails]⟩

/-- What fails where its source ends may begin with readers of which nothing is
asked there. -/
theorem closes_bind (hp : P.relaxed.Within n l p q)
    (hf : ∀ a, P.Closes (l a) m (f a) (g a)) :
    P.Closes n m (p >>= f) (q >>= g) := by
  have hend : ∀ c, Course.ended.Keeps l (p c) →
      ∃ e d, (p >>= f) c = .error e d := by
    intro c hc
    rw [bind_apply]
    revert hc
    cases p c with
    | error e d => exact fun _ => ⟨e, d, rfl⟩
    | ok a d => exact fun ⟨_, hj, rfl, hd⟩ => (hf a).fails hj d hd
  have hexit : ∀ c, P.relaxed.demand.exit.Keeps l (p c) →
      P.demand.exit.Keeps m ((p >>= f) c) := by
    intro c
    show P.demand.relaxed.exit.Keeps l (p c) → _
    have hbound := P.exit_bound
    revert hbound
    cases P.demand with
    | outcome exit =>
      exact fun hbound hkeeps => keeps_bind hbound hkeeps fun a => (hf a).within
    | success | progress =>
      intro _ hkeeps
      obtain ⟨e, d, hfails⟩ := hend c hkeeps
      rw [hfails]
      trivial
  refine ⟨fun k => ⟨fun j c d hj hlevel hk => ?_, fun S hS j c hj hat hk => ?_⟩,
    fun hpos c hc => ?_⟩
  · exact ((hp k).replies hj hlevel hk).elim
      (fun hkeeps => .inl (hexit c hkeeps)) fun hmatch =>
      Matches.bind (P := P) hmatch fun a => (hf a).within
  · exact keeps_bind hS ((hp k).keeps S hS hj hat hk) fun a => (hf a).within
  · exact hend c ((hp .eos).keeps .ended P.bound_pos hpos ⟨rfl, hc⟩ hc)

theorem closes_consume {f g : Bool → Reader β} (hk : k'.isStop = false)
    (hyes : P.Within (n - 1) m (f true) (g true))
    (hno : P.Closes n m (f false) (g false)) :
    P.Closes n m (consume k' >>= f) (consume k' >>= g) where
  within := within_consume hk hyes hno.within
  fails hpos c hc := by
    have hne : c.current.kind ≠ k' := by
      rintro rfl
      rw [hc] at hk
      cases hk
    rw [bind_apply, consume_other hne]
    exact hno.fails hpos c hc

theorem within_enclosed {opener : TokenKind} {opened opened' : Nat}
    (hk : k'.isStop = false) (hopened : P.exact → opened = opened')
    (hp : P.relaxed.Within n l p q) (hf : ∀ a, P.Within (l a) m (f a) (g a)) :
    P.Within n m
      (p >>= fun a => expectClosing k' opener opened >>= fun _ => f a)
      (q >>= fun a => expectClosing k' opener opened' >>= fun _ => g a) :=
  (closes_bind hp fun a => closes_expectClosing hk hopened (hf a)).within

theorem takes_name : P.Takes name name := by
  intro n
  refine within_look (fun _ => rfl) fun k => ?_
  split
  · exact at_next rfl (within_build rfl (within_pure _ (Nat.le_refl _)))
  · exact within_fail (fun _ => rfl) _

theorem agrees_madeExpr (e : Expr) : P.Agrees (madeExpr e) (madeExpr e) :=
  fun n => within_build rfl (within_pure e (Nat.le_refl n))

theorem agrees_madeStat (s : Stat) : P.Agrees (madeStat s) (madeStat s) :=
  fun n => within_build rfl (within_pure s (Nat.le_refl n))

theorem agrees_madeField (f : Field) : P.Agrees (madeField f) (madeField f) :=
  fun n => within_build rfl (within_pure f (Nat.le_refl n))

/-- Loops that agree while the tokens last agree with as many turns as there
can be tokens. -/
theorem agrees_loop {p q : Nat → Reader β} {rounds rounds' : Nat}
    (hrounds : P.bound ≤ rounds ∧ P.bound ≤ rounds')
    (h : ∀ n r r', n ≤ r → n ≤ r' → P.Within n (fun _ => n) (p r) (q r')) :
    P.Agrees (p rounds) (q rounds') := by
  have hwithin : ∀ j ≤ P.bound,
      P.Within j (fun _ => j) (p rounds) (q rounds') := fun j hj =>
    h j rounds rounds' (Nat.le_trans hj hrounds.1) (Nat.le_trans hj hrounds.2)
  exact fun n k =>
    { replies := fun j c d hj hlevel hk =>
        ((hwithin j (P.le_bound hlevel) k).replies
          (Nat.le_refl j) hlevel hk).mono fun _ => hj
      keeps := fun S hS j c hj hat hk =>
        ((hwithin j (Nat.le_trans (S.le_bound hat) hS) k).keeps S hS
          (Nat.le_refl j) hat hk).mono fun _ => hj }

theorem within_items {turn turn' : Reader (Yield β)}
    (h : P.TakesItems turn turn') {r r' : Nat} (hr : n ≤ r) (hr' : n ≤ r') :
    P.Within n (fun _ => n) (items turn r) (items turn' r') := by
  induction n generalizing r r' with
  | zero => exact within_zero
  | succ n ih =>
    obtain ⟨r, rfl, hturn⟩ := exists_turn hr
    obtain ⟨r', rfl, hturn'⟩ := exists_turn hr'
    refine within_bind (h (n + 1)) fun given => ?_
    cases given with
    | more b =>
      exact within_bind (ih hturn hturn') fun bs =>
        within_pure _ (Nat.le_succ n)
    | last b => exact within_pure [b] (Nat.le_succ n)
    | stop => exact within_pure [] (Nat.le_refl (n + 1))

theorem within_lengthen {turn turn' : β → Reader (Option β)}
    (h : P.TakesMore turn turn') (b : β) {r r' : Nat} (hr : n ≤ r)
    (hr' : n ≤ r') :
    P.Within n (fun _ => n) (lengthen turn r b) (lengthen turn' r' b) := by
  induction n generalizing r r' b with
  | zero => exact within_zero
  | succ n ih =>
    obtain ⟨r, rfl, hturn⟩ := exists_turn hr
    obtain ⟨r', rfl, hturn'⟩ := exists_turn hr'
    refine within_bind (h b (n + 1)) fun longer => ?_
    cases longer with
    | some longer =>
      exact (ih longer hturn hturn').mono (Nat.le_refl n) fun _ => Nat.le_succ n
    | none => exact within_pure b (Nat.le_refl (n + 1))

theorem takesItems_commaTurn {item item' : Reader β} (h : P.Agrees item item') :
    P.TakesItems (commaTurn item) (commaTurn item') := by
  intro n
  refine within_consume rfl ?_ (within_pure Yield.stop (Nat.le_refl n))
  exact within_after h fun b => within_pure (Yield.more b) (Nat.le_refl (n - 1))

section

variable {rounds rounds' : Nat} (hrounds : P.bound ≤ rounds ∧ P.bound ≤ rounds')
include hrounds

theorem agrees_items {turn turn' : Reader (Yield β)}
    (h : P.TakesItems turn turn') :
    P.Agrees (items turn rounds) (items turn' rounds') :=
  agrees_loop hrounds fun _ _ _ => within_items h

theorem agrees_lengthen {turn turn' : β → Reader (Option β)}
    (h : P.TakesMore turn turn') (b : β) :
    P.Agrees (lengthen turn rounds b) (lengthen turn' rounds' b) :=
  agrees_loop hrounds fun _ _ _ => within_lengthen h b

theorem agrees_afterCommas {item item' : Reader β} (h : P.Agrees item item') :
    P.Agrees (Reader.afterCommas item rounds)
      (Reader.afterCommas item' rounds') := by
  rw [afterCommas_eq, afterCommas_eq]
  exact agrees_items hrounds (takesItems_commaTurn h)

theorem agrees_separatedByCommas {item item' : Reader β}
    (h : P.Agrees item item') :
    P.Agrees (separatedByCommas item rounds)
      (separatedByCommas item' rounds') := by
  intro n
  refine within_after h fun b => ?_
  refine within_after (agrees_afterCommas hrounds h) fun bs => ?_
  exact within_pure _ (Nat.le_refl n)

end

end Pairing

end LuaCore
