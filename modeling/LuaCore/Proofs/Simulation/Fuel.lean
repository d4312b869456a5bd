import LuaCore.Proofs.Simulation.Construct

namespace LuaCore

open LuaCore.Action LuaCore.Simulation

def sameness : Simulation where
  World := Unit
  le _ _ := True
  le_refl _ := trivial
  le_trans _ _ := trivial
  rel _ σ τ := τ = σ
  good _ _ := True
  good_le _ _ := trivial
  sees _ i j := j = i
  sees_le _ h := h
  owns _ i j := j = i
  owns_le _ h := h
  sees_of_owns h := h
  blocks := False

namespace sameness

theorem follows_self {α : Type} {w : sameness.World} (m : Action α)
    {Q : sameness.World → α → α → Prop} (h : ∀ a, Q w a a) :
    sameness.Follows w m m Q := by
  rintro _ σ rfl
  cases hm : m σ with
  | done a τ => exact ⟨w, trivial, rfl, h a⟩
  | fail e τ => exact ⟨rfl, w, trivial, rfl⟩
  | outOfFuel => trivial

theorem likeClosure_refl {w : sameness.World} (c : Closure) :
    sameness.LikeClosure w c c :=
  ⟨rfl, .refl _, rfl⟩

theorem upheld (host : Host) : sameness.Upheld host where
  depth_eq h := by rw [show _ = _ from h]
  setDepth _ h := by rw [show _ = _ from h]; rfl
  plain _ := trivial
  lookup x hs := by
    cases hs
    exact follows_self _ fun v => ⟨rfl, trivial⟩
  assign x hs _ := by
    cases hs
    exact follows_self _ fun _ => trivial
  openScope names hs _ := by
    cases hs
    exact follows_self _ fun i => rfl
  define names hs _ := by
    cases hs
    exact follows_self _ fun _ => trivial
  makeClosure name hc := by
    cases hc.eq not_false hc.2.2
    exact follows_self _ fun v => ⟨rfl, trivial⟩
  closure? _ := by
    refine follows_self _ fun c => ?_
    cases c with
    | none => exact .none
    | some c => exact .some (likeClosure_refl c)
  makeTable _ := follows_self _ fun v => ⟨rfl, trivial⟩
  index k _ := follows_self _ fun v => ⟨rfl, trivial⟩
  setIndex _ _ _ := follows_self _ fun _ => trivial
  advance _ := follows_self _ fun row => ⟨rfl, fun _ _ _ _ => trivial⟩
  native id _ := follows_self _ fun v => ⟨rfl, trivial⟩
  enter h := h.elim
  enterLeft h := h.elim

end sameness

theorem Session.interpret_of_le {s : Session} {c : Chunk} {n k : Nat}
    (hle : n ≤ k) (hends : (s.interpret n c).1 ≠ .unfinished) :
    s.interpret k c = s.interpret n c := by
  obtain ⟨hanswer, _, τ, _, hrel, hn, hk⟩ := Simulation.interpret (w := ())
    (sameness.upheld s.host) hle (fun h => h.elim) (.refl c.body) rfl rfl hends
  cases hrel
  exact Prod.ext hanswer (hk.trans hn.symm)

end LuaCore
