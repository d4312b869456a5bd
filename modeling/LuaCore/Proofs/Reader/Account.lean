import LuaCore.Proofs.Reader.Motion
import LuaCore.Proofs.Tree.Spelling

/-! The tokens that a reader takes and the nodes that it builds are those of the
tree that it returns. -/

namespace LuaCore

theorem TokenKind.isEos_of_isPunctuation {k : TokenKind}
    (h : k.isPunctuation = true) :
    k.isEos = false := by
  cases k with
  | eos => cases h
  | _ => rfl

/-- Part of a source, as pieces of a tree that stand in it and nodes that are
built from it. -/
@[ext]
structure Trace where
  pieces : List Piece
  nodes : List Node

namespace Trace

instance : Append Trace :=
  ⟨fun v w => ⟨v.pieces ++ w.pieces, v.nodes ++ w.nodes⟩⟩

def empty : Trace := ⟨[], []⟩

def token (w : Trace) (k : TokenKind) : Trace := ⟨w.pieces ++ k.pieces, w.nodes⟩

def node (w : Trace) (n : Node) : Trace := ⟨w.pieces, w.nodes ++ [n]⟩

def name (x : String) : Trace := ⟨[.token (.name x)], [.name x]⟩

def join {α : Type} (s : α → Trace) : List α → Trace
  | [] => empty
  | a :: as => s a ++ join s as

variable (v w u : Trace)

@[simp] theorem append_pieces : (v ++ w).pieces = v.pieces ++ w.pieces := rfl
@[simp] theorem append_nodes : (v ++ w).nodes = v.nodes ++ w.nodes := rfl
@[simp] theorem empty_pieces : empty.pieces = [] := rfl
@[simp] theorem empty_nodes : empty.nodes = [] := rfl
@[simp] theorem token_nodes (k : TokenKind) : (w.token k).nodes = w.nodes := rfl
@[simp] theorem node_pieces (n : Node) : (w.node n).pieces = w.pieces := rfl
@[simp] theorem node_nodes (n : Node) : (w.node n).nodes = w.nodes ++ [n] := rfl

@[simp] theorem name_pieces (x : String) :
    (name x).pieces = [.token (.name x)] :=
  rfl
@[simp] theorem name_nodes (x : String) : (name x).nodes = [.name x] := rfl

@[simp] theorem token_pieces (k : TokenKind) :
    (w.token k).pieces =
      w.pieces ++ if k.isPunctuation then [] else [.token k] := rfl

theorem token_of_isPunctuation {k : TokenKind} (hk : k.isPunctuation = true) :
    w.token k = w := by
  ext1 <;> simp [hk]

theorem append_assoc : v ++ w ++ u = v ++ (w ++ u) := by
  ext1 <;> simp

theorem append_empty : w ++ empty = w := by
  ext1 <;> simp

theorem empty_append : empty ++ w = w := rfl

end Trace

def Cursor.Passes (c : Cursor) (v : Trace) (d : Cursor) : Prop :=
  ∃ taken, c.Moves taken v.nodes d ∧ Spells (taken.map (·.kind)) v.pieces

namespace Cursor.Passes

variable {c d e : Cursor} {v w : Trace}

theorem refl (h : c.Proper) : c.Passes .empty c := ⟨[], .refl h, spells_nil⟩

theorem trans (h : c.Passes v d) (h' : d.Passes w e) : c.Passes (v ++ w) e := by
  obtain ⟨taken, hmoves, hspells⟩ := h
  obtain ⟨more, hmoves', hspells'⟩ := h'
  refine ⟨taken ++ more, hmoves.trans hmoves', ?_⟩
  rw [List.map_append]
  exact hspells.append hspells'

theorem proper (h : c.Passes v d) : d.Proper := by
  obtain ⟨taken, hmoves, -⟩ := h
  exact hmoves.proper

end Cursor.Passes

namespace Reader

open Cursor

/-- Where the token looked at is of a kind and `w` is written already, each
value comes with its trace. -/
def WritesAt {α : Type} (k : TokenKind) (w : Trace) (p : Reader α)
    (f : α → Trace) : Prop :=
  ∀ ⦃c a d⦄, c.Proper → c.current.kind = k → p c = .ok a d →
    ∃ v, c.Passes v d ∧ f a = w ++ v

def Writes {α : Type} (w : Trace) (p : Reader α) (f : α → Trace) : Prop :=
  ∀ k, WritesAt k w p f

section Rules

variable {α β : Type} {p : Reader α} {q : Reader β} {g : α → Reader β}
variable {k k' : TokenKind} {w v : Trace} {s : α → Trace} {f : β → Trace}
    {a : α}

theorem writesAt_pure (h : s a = w) : WritesAt k w (pure a) s := by
  intro c b d hc _ hrun
  cases hrun
  exact ⟨.empty, .refl hc, by rw [h, Trace.append_empty]⟩

theorem writes_pure (h : s a = w) : Writes w (pure a) s :=
  fun _ => writesAt_pure h

theorem writes_fail {fault : SyntaxFault} : Writes w (fail fault) s := by
  intro k c a d _ _ hrun
  cases hrun

theorem writesAt_bind (hp : WritesAt k w p s) (hg : ∀ a, Writes (s a) (g a) f) :
    WritesAt k w (p >>= g) f := by
  intro c b e hc hk hrun
  obtain ⟨a, d, hrun, hrun'⟩ := bind_eq_ok.mp hrun
  obtain ⟨v, hpasses, hv⟩ := hp hc hk hrun
  obtain ⟨u, hpasses', hu⟩ := hg a _ hpasses.proper rfl hrun'
  exact ⟨v ++ u, hpasses.trans hpasses', by rw [hu, hv, Trace.append_assoc]⟩

theorem writes_bind (hp : Writes w p s) (hg : ∀ a, Writes (s a) (g a) f) :
    Writes w (p >>= g) f :=
  fun k => writesAt_bind (hp k) hg

theorem writes_bind_of {P : α → Prop} (hp : Writes w p s)
    (hP : ∀ ⦃c a d⦄, p c = .ok a d → P a)
    (hg : ∀ a, P a → Writes (s a) (g a) f) :
    Writes w (p >>= g) f := by
  intro k c b e hc hk hrun
  obtain ⟨a, d, hrun, hrun'⟩ := bind_eq_ok.mp hrun
  obtain ⟨v, hpasses, hv⟩ := hp k hc hk hrun
  obtain ⟨u, hpasses', hu⟩ := hg a (hP hrun) _ hpasses.proper rfl hrun'
  exact ⟨v ++ u, hpasses.trans hpasses', by rw [hu, hv, Trace.append_assoc]⟩

theorem Writes.framed (hp : Writes .empty p s) (w : Trace) :
    Writes w p fun a => w ++ s a := by
  intro k c a d hc hk hrun
  obtain ⟨v, hpasses, hv⟩ := hp k hc hk hrun
  rw [Trace.empty_append] at hv
  exact ⟨v, hpasses, congrArg (w ++ ·) hv⟩

theorem writes_after (hp : Writes .empty p s)
    (hg : ∀ a, Writes (w ++ s a) (g a) f) :
    Writes w (p >>= g) f :=
  writes_bind (hp.framed w) hg

theorem writesAt_look {g : TokenKind → Reader β} (h : WritesAt k w (g k) f) :
    WritesAt k w (peek >>= g) f := by
  intro c b d hc hk hrun
  cases hk
  exact h hc rfl hrun

theorem writes_look {g : TokenKind → Reader β} (h : ∀ k, WritesAt k w (g k) f) :
    Writes w (peek >>= g) f := fun k => writesAt_look (h k)

theorem writesAt_line {g : Nat → Reader β} (h : ∀ n, WritesAt k w (g n) f) :
    WritesAt k w (line >>= g) f := fun c _ _ hc hk hrun =>
      h c.current.position.line hc hk hrun

theorem writes_line {g : Nat → Reader β} (h : ∀ n, Writes w (g n) f) :
    Writes w (line >>= g) f :=
  fun k => writesAt_line fun n => h n k

theorem writesAt_next {g : Unit → Reader β} (hk : k.isEos = false)
    (h : Writes (w.token k) (g ()) f) :
    WritesAt k w (next >>= g) f := by
  refine writesAt_bind (s := fun _ => w.token k) (fun c _ d hc hkind hrun => ?_)
    fun _ => h
  refine ⟨Trace.empty.token k,
    ⟨[c.current], next_moves hc (hkind ▸ hk) hrun, ?_⟩, ?_⟩
  · rw [List.map_singleton, hkind]
    exact spells_token k
  · ext1 <;> simp

theorem writes_build {g : Unit → Reader β} {n : Node} (hn : n.comment? = none)
    (h : Writes (w.node n) (g ()) f) : Writes w (build n >>= g) f := by
  refine writes_bind (s := fun _ => w.node n) (fun k c _ d hc _ hrun => ?_)
    fun _ => h
  cases hrun
  exact ⟨Trace.empty.node n, ⟨[], hc.build hn, spells_nil⟩, by ext1 <;> simp⟩

theorem writesAt_check {g : Bool → Reader β}
    (hyes : k = k' → WritesAt k w (g true) f) (hno : WritesAt k w (g false) f) :
    WritesAt k w (check k' >>= g) f := by
  intro c b d hc hk hrun
  cases hk
  obtain ⟨found, c', hcheck, hrest⟩ := bind_eq_ok.mp hrun
  obtain ⟨rfl, rfl⟩ : decide (c.current.kind = k') = found ∧ c = c' := by
    cases hcheck
    exact ⟨rfl, rfl⟩
  by_cases hfound : c.current.kind = k'
  · rw [decide_eq_true hfound] at hrest
    exact hyes hfound hc rfl hrest
  · rw [decide_eq_false hfound] at hrest
    exact hno hc rfl hrest

theorem writes_check {g : Bool → Reader β} (hyes : WritesAt k' w (g true) f)
    (hno : Writes w (g false) f) : Writes w (check k' >>= g) f :=
  fun k => writesAt_check (fun h => h ▸ hyes) (hno k)

theorem writes_consumed (hk : k'.isEos = false) :
    Writes w (consume k') fun found => if found then w.token k' else w := by
  refine writes_check (writesAt_next hk (writes_pure rfl)) ?_
  exact writes_pure rfl

theorem writes_consume {g : Bool → Reader β} (hk : k'.isEos = false)
    (hyes : Writes (w.token k') (g true) f) (hno : Writes w (g false) f) :
    Writes w (consume k' >>= g) f := by
  refine writes_bind (writes_consumed hk) fun found => ?_
  cases found with
  | true => exact hyes
  | false => exact hno

theorem writes_skip (hk : k'.isPunctuation = true) :
    Writes w (consume k') fun _ => w := by
  have h := writes_consumed (w := w) (TokenKind.isEos_of_isPunctuation hk)
  rw [Trace.token_of_isPunctuation w hk] at h
  simpa only [ite_self] using h

theorem writes_expect {g : Unit → Reader β} (hk : k'.isEos = false)
    (h : Writes (w.token k') (g ()) f) :
    Writes w (expect k' >>= g) f := by
  refine writes_bind (s := fun _ => w.token k') ?_ fun _ => h
  exact writes_consume hk (writes_pure rfl) writes_fail

theorem writes_expectClosing {opener : TokenKind} {opened : Nat}
    {g : Unit → Reader β} (hk : k'.isEos = false)
    (h : Writes (w.token k') (g ()) f) :
    Writes w (expectClosing k' opener opened >>= g) f := by
  refine writes_bind (s := fun _ => w.token k') ?_ fun _ => h
  refine writes_consume hk (writes_pure rfl) (writes_line fun n => ?_)
  split
  · exact writes_fail
  · exact writes_fail

theorem writes_name : Writes .empty name Trace.name := by
  refine writes_look fun k => ?_
  split
  · exact writesAt_next rfl (writes_build rfl (writes_pure rfl))
  · exact writes_fail _

theorem writes_madeExpr {e : Expr} {s : Expr → Trace}
    (h : s e = w.node (.expr e)) :
    Writes w (madeExpr e) s := writes_build rfl (writes_pure h)

theorem writes_madeStat {e : Stat} {s : Stat → Trace}
    (h : s e = w.node (.stat e)) :
    Writes w (madeStat e) s := writes_build rfl (writes_pure h)

theorem writes_madeField {e : Field} {s : Field → Trace}
    (h : s e = w.node (.field e)) :
    Writes w (madeField e) s := writes_build rfl (writes_pure h)

theorem writes_afterCommas (hp : Writes .empty p s) (rounds : Nat) :
    Writes .empty (afterCommas p rounds) (Trace.join s) := by
  induction rounds with
  | zero => exact writes_pure rfl
  | succ rounds ih =>
    refine writes_consume rfl ?_ ?_
    · refine writes_after hp fun a => ?_
      refine writes_after ih fun as => ?_
      exact writes_pure (by ext1 <;> simp [Trace.join, TokenKind.isPunctuation])
    · exact writes_pure rfl

theorem writes_separatedByCommas (hp : Writes .empty p s) (rounds : Nat) :
    Writes .empty (separatedByCommas p rounds) (Trace.join s) := by
  refine writes_after hp fun a => ?_
  refine writes_after (writes_afterCommas hp rounds) fun as => ?_
  exact writes_pure (by ext1 <;> simp [Trace.join])

end Rules

end Reader

end LuaCore
