import LuaCore.Proofs.Reader.Sequence
import LuaCore.Session

namespace LuaCore

open LuaCore.Action

namespace Machine

theorem evalBlock_append (m : Machine) (ss rest : Block) (scope : ScopeId) :
    m.evalBlock (ss ++ rest) scope = (do
      match ← m.evalBlock ss scope with
      | .normal => m.evalBlock rest scope
      | flow => return flow) := by
  induction ss with
  | nil => rfl
  | cons s ss ih =>
    simp only [List.cons_append, evalBlock, bind_assoc]
    congr
    funext flow
    cases flow with
    | normal => exact ih
    | broke => rfl
    | returned v => rfl

theorem block_append_of_normal {host : Host} {limit fuel : Nat}
    {ss rest : Block} {scope : ScopeId} {σ τ : Store}
    (h : (ofFuel host limit fuel).block ss scope σ = .done .normal τ) :
    (ofFuel host limit fuel).block (ss ++ rest) scope σ =
      (ofFuel host limit fuel).block rest scope τ := by
  cases fuel with
  | zero => cases h
  | succ n =>
    have hfirst : (ofFuel host limit n).evalBlock ss scope σ =
        .done .normal τ := h
    show (ofFuel host limit n).evalBlock (ss ++ rest) scope σ =
      (ofFuel host limit n).evalBlock rest scope τ
    rw [evalBlock_append, bind_apply, hfirst]

end Machine

namespace Session

variable {s : Session} {fuel : Nat} {a b c : Chunk}

def EndsNormally (fuel : Nat) (c : Chunk) (s : Session) : Prop :=
  ∃ σ, (Machine.ofFuel s.host s.limit fuel).block c.body Scopes.rootId s.store =
    .done .normal σ

instance (fuel : Nat) (c : Chunk) (s : Session) :
    Decidable (s.EndsNormally fuel c) :=
  match h : (Machine.ofFuel s.host s.limit fuel).block c.body Scopes.rootId
      s.store with
  | .done .normal σ => isTrue ⟨σ, h⟩
  | .done .broke _ | .done (.returned _) _ | .fail _ _ | .outOfFuel =>
    isFalse fun ⟨σ, hσ⟩ => by simp [h] at hσ

theorem interpret_append (h : s.EndsNormally fuel a)
    (hc : c.body = a.body ++ b.body) :
    (s.interpret fuel c).1 = ((s.interpret fuel a).2.interpret fuel b).1 ∧
      ((s.interpret fuel c).1 ≠ .unfinished →
        (s.interpret fuel c).2 =
          ((s.interpret fuel a).2.interpret fuel b).2) := by
  obtain ⟨σ, hσ⟩ := h
  have hfirst : s.interpret fuel a = (.value .nil, { s with store := σ }) := by
    rw [Session.interpret, topLevel, bind_apply, hσ]
    rfl
  have hwhole : topLevel (.ofFuel s.host s.limit fuel) c.body s.store =
      topLevel (.ofFuel s.host s.limit fuel) b.body σ := by
    rw [topLevel, bind_apply, hc, Machine.block_append_of_normal hσ]
    rfl
  rw [hfirst]
  have hhost : ({ s with store := σ } : Session).host = s.host := rfl
  simp only [Session.interpret, hwhole, hhost]
  cases topLevel (.ofFuel s.host s.limit fuel) b.body σ with
  | done v τ => exact ⟨rfl, fun _ => rfl⟩
  | fail e τ => exact ⟨rfl, fun _ => rfl⟩
  | outOfFuel => exact ⟨rfl, fun h => absurd rfl h⟩

/-- Where neither a `return` nor a semicolon comes last in a text, another text
can follow it after a semicolon on a line of its own. The two texts together
express the statements of the one followed by those of the other, and from any
session in which the first text ends normally they run as the first one and then
the second one do. -/
theorem run_in_pieces {first second : String}
    (ha : Chunk.ofSource first = .ok a) (hb : Chunk.ofSource second = .ok b)
    (hbody : a.body ≠ []) (hreturn : a.body.getLast?.any Stat.isReturn = false)
    (hlast : (Tokens.ofSource first).kinds.getLast? ≠
      some (.symbol .semicolon)) :
    let whole := first ++ "\n;\n" ++ second
    ∃ c, Chunk.ofSource whole = .ok c ∧ c.body = a.body ++ b.body ∧
      ∀ (s : Session) (fuel : Nat), s.EndsNormally fuel a →
        let pieces := (s.run fuel first).2.run fuel second
        (s.run fuel whole).1 = pieces.1 ∧
          ((s.run fuel whole).1 ≠ .unfinished →
            (s.run fuel whole).2 = pieces.2) := by
  intro whole
  obtain ⟨c, hc, hstats⟩ := Chunk.ofSource_joined ha hb hbody hreturn hlast
  refine ⟨c, hc, hstats, fun s fuel hends => ?_⟩
  simp only [whole, run, ha, hb, hc]
  exact interpret_append hends hstats

/-- The first text binds a name and ends with a comment; the second one
uses the name. -/
theorem run_in_pieces_bound :
    let first := "local x = 'a'; print(x) -- x"
    let second := "print(x) return x"
    let s := Session.start 200 none
    ∃ a b, Chunk.ofSource first = .ok a ∧ Chunk.ofSource second = .ok b ∧
      a.body ≠ [] ∧
      a.body.getLast?.any Stat.isReturn = false ∧
      (Tokens.ofSource first).kinds.getLast? ≠ some (.symbol .semicolon) ∧
        s.EndsNormally 9 a ∧
      (s.run 9 (first ++ "\n;\n" ++ second)).1 =
        ((s.run 9 first).2.run 9 second).1 := by
  intro first second s
  have hany : (Chunk.ofSource first).toOption.any (fun a =>
      decide (a.body ≠ [] ∧ a.body.getLast?.any Stat.isReturn = false ∧
          s.EndsNormally 9 a)) = true := by
    decide +kernel
  obtain ⟨a, ha, hfirst⟩ := Chunk.exists_of_any hany
  obtain ⟨b, hb⟩ : ∃ b, Chunk.ofSource second = .ok b :=
    Chunk.exists_of_isOk (by decide +kernel)
  obtain ⟨hbody, hreturn, hends⟩ := of_decide_eq_true hfirst
  have hlast : (Tokens.ofSource first).kinds.getLast? ≠
      some (.symbol .semicolon) := by decide +kernel
  obtain ⟨c, -, -, hrun⟩ := run_in_pieces ha hb hbody hreturn hlast
  exact ⟨a, b, ha, hb, hbody, hreturn, hlast, hends, (hrun s 9 hends).1⟩

/-- A comment after a semicolon is the last token, and yet no further semicolon
may follow. -/
theorem ofSource_semicolon_comment :
    let first := "f(); -- g"
    let second := "g()"
    (∃ a, Chunk.ofSource first = .ok a ∧ a.body ≠ [] ∧
      a.body.getLast?.any Stat.isReturn = false) ∧
      (∃ b, Chunk.ofSource second = .ok b) ∧
      (Tokens.ofSource first).list.getLast?.map (·.kind) ≠
        some (.symbol .semicolon) ∧
      ∀ c, Chunk.ofSource (first ++ "\n;\n" ++ second) ≠ .ok c := by
  intro first second
  have hany : (Chunk.ofSource first).toOption.any (fun a =>
      decide (a.body ≠ [] ∧ a.body.getLast?.any Stat.isReturn = false)) =
        true := by decide +kernel
  obtain ⟨a, ha, hfirst⟩ := Chunk.exists_of_any hany
  have hfails : (Chunk.ofSource (first ++ "\n;\n" ++ second)).isOk = false := by
    decide +kernel
  refine ⟨⟨a, ha, of_decide_eq_true hfirst⟩,
    Chunk.exists_of_isOk (by decide +kernel), by decide +kernel, ?_⟩
  intro c hc
  rw [hc] at hfails
  cases hfails

end Session

end LuaCore
