import LuaCore.Proofs.Evaluation.Construct
import LuaCore.Proofs.Value.Host

namespace LuaCore

open LuaCore.Action LuaCore.Contract LuaCore.Policy

def Native.NeverOverflows (f : Native) : Prop :=
  ∀ args h n, (f args h).1 ≠ .error (.stackOverflow n)

/-- Runs under `limit` of which others under the limit `small` are the
beginnings. If the functions of the host only print, so does every run. -/
def limited (small limit : Nat) (host : Host) : Policy where
  inv _ := True
  step σ τ := (∀ id, (host id).OnlyPrints) →
    σ.heap.output.text.toList <+: τ.heap.output.text.toList
  error e := ∀ n, e = .stackOverflow n → n = limit
  refl _ _ := List.prefix_refl _
  trans h h' hhost := (h hhost).trans (h' hhost)
  valid _ _ := True
  own _ _ := True
  stops e := e = .stackOverflow small
  valid_step _ _ := trivial

namespace limited

variable {small limit : Nat} {host : Host}

theorem admits (wellFormed : Bool) :
    (limited small limit host).Admits wellFormed :=
  Or.inr ⟨nofun, nofun⟩

theorem upheld (hhost : ∀ id, (host id).NeverOverflows) :
    (limited small limit host).Upheld host limit where
  ordinary := by
    rintro e he n rfl
    cases he
  overflow := by
    rintro n ⟨⟩
    rfl
  openScope _ _ _ := ⟨fun _ => ⟨trivial, fun _ => List.prefix_refl _⟩,
    fun _ => ⟨trivial, fun _ => trivial⟩⟩
  define _ _ _ _ _ := ⟨trivial, fun _ => List.prefix_refl _⟩
  assign _ _ _ := ⟨trivial, fun _ => List.prefix_refl _⟩
  makeClosure _ _ _ := ⟨trivial, fun _ => List.prefix_refl _⟩
  closure _ _ := ⟨trivial, admits _⟩
  heap houtput _ := ⟨trivial, fun _ => houtput ▸ List.prefix_refl _⟩
  native id args σ _ := ⟨trivial, fun hprints => hprints id args σ.heap⟩
  nativeError he := by
    rintro n rfl
    exact (hhost _ _ _ n he).elim

theorem nests : (limited small limit host).Nests where
  nestsIn _ := ⟨id, fun _ _ hstep => ⟨trivial, hstep⟩, id, id, id⟩
  valid_enter := id

theorem topLevel (hhost : ∀ id, (host id).NeverOverflows) (hle : small ≤ limit)
    (fuel : Nat) (body : Block) (σ : Store) :
    (limited small limit host).Agree
      (Session.topLevel (.ofFuel host small fuel) body)
      (Session.topLevel (.ofFuel host limit fuel) body) σ :=
  (parts_ofFuel (upheld hhost) nests hle (Or.inr rfl) fuel).topLevel
    (upheld hhost) (admits _) trivial fun _ _ => trivial

end limited

namespace Session

variable {s : Session}

theorem host_neverOverflows (hs : ∀ f ∈ s.natives, f.NeverOverflows)
    (id : Nat) :
    (s.host id).NeverOverflows := by
  rcases s.host_eq_or_mem id with hidle | hmem
  · rw [hidle]
    exact nofun
  · exact hs _ hmem

theorem host_onlyPrints (hs : ∀ f ∈ s.natives, f.OnlyPrints) (id : Nat) :
    (s.host id).OnlyPrints := by
  rcases s.host_eq_or_mem id with hidle | hmem
  · rw [hidle]
    exact fun _ _ => List.prefix_refl _
  · exact hs _ hmem

def interpretWithin (limit fuel : Nat) (c : Chunk) (s : Session) :
    Answer × Session :=
  interpret fuel c { s with limit := limit }

def printed (s : Session) : List Char := s.store.heap.output.text.toList

theorem topLevel_of_failed {limit fuel : Nat} {c : Chunk} {e : RuntimeError}
    (h : (s.interpretWithin limit fuel c).1 = .failed e) :
    topLevel (.ofFuel s.host limit fuel) c.body s.store =
      .fail e (s.interpretWithin limit fuel c).2.store := by
  simp only [interpretWithin, interpret] at h ⊢
  have hhost : ({ s with limit := limit } : Session).host = s.host := rfl
  rw [hhost] at h ⊢
  cases hend : topLevel (.ofFuel s.host limit fuel) c.body s.store with
  | done v τ => simp [hend] at h
  | fail e' τ =>
    rw [hend] at h
    cases h
    rfl
  | outOfFuel => simp [hend] at h

theorem interpretWithin_of_fail {limit fuel : Nat} {c : Chunk}
    {e : RuntimeError} {τ : Store}
    (h : topLevel (.ofFuel s.host limit fuel) c.body s.store = .fail e τ) :
    (s.interpretWithin limit fuel c).1 = .failed e ∧
      (s.interpretWithin limit fuel c).2.store = τ := by
  have hhost : ({ s with limit := limit } : Session).host = s.host := rfl
  simp [interpretWithin, interpret, hhost, h]

theorem interpretWithin_congr {limit limit' fuel : Nat} {c : Chunk}
    (h : topLevel (.ofFuel s.host limit fuel) c.body s.store =
      topLevel (.ofFuel s.host limit' fuel) c.body s.store) :
    (s.interpretWithin limit fuel c).1 = (s.interpretWithin limit' fuel c).1 ∧
      (s.interpretWithin limit fuel c).2.store =
        (s.interpretWithin limit' fuel c).2.store := by
  have hhost : ∀ n, ({ s with limit := n } : Session).host = s.host :=
    fun _ => rfl
  simp only [interpretWithin, interpret, hhost, h]
  cases topLevel (.ofFuel s.host limit' fuel) c.body s.store <;>
    exact ⟨rfl, rfl⟩

/-- The limit on nested calls makes no difference until it is hit. A program
that ends without hitting it ends in the same way, with the same store, under
every larger limit. One that hits it hits every smaller limit too, and there
prints a part of what it prints here. -/
theorem interpret_limit_unobservable (hs : ∀ f ∈ s.natives, f.NeverOverflows)
    (limit fuel : Nat) (c : Chunk) :
    let run := fun limit => s.interpretWithin limit fuel c
    ((run limit).1 ≠ .unfinished →
      (∀ n, (run limit).1 ≠ .failed (.stackOverflow n)) →
      ∀ large, limit ≤ large → (run large).1 = (run limit).1 ∧
          (run large).2.printed = (run limit).2.printed ∧
          (run large).2.store = (run limit).2.store) ∧
    ∀ n, (run limit).1 = .failed (.stackOverflow n) →
      n = limit ∧ ∀ small, small ≤ limit →
        (run small).1 = .failed (.stackOverflow small) ∧
          ((∀ f ∈ s.natives, f.OnlyPrints) →
            (run small).2.printed <+: (run limit).2.printed) := by
  intro run
  have hhost := host_neverOverflows hs
  have overflow_limit :
      ∀ limit n τ, topLevel (.ofFuel s.host limit fuel) c.body s.store =
          .fail (.stackOverflow n) τ →
        n = limit := by
    intro limit n τ hfail
    have hallows :=
      (limited.topLevel hhost (Nat.le_refl limit) fuel c.body s.store trivial).1
    rw [hfail] at hallows
    exact hallows.2.2 n rfl
  constructor
  · intro _ hlimit large hle
    rcases (limited.topLevel hhost hle fuel c.body s.store trivial).2
      with hsame | hearly
    · have hcongr := interpretWithin_congr hsame
      exact ⟨hcongr.1.symm, by rw [printed, printed, hcongr.2], hcongr.2.symm⟩
    · obtain ⟨e, τ, hfail, rfl, -⟩ := hearly
      exact absurd (interpretWithin_of_fail hfail).1 (hlimit limit)
  · intro n hn
    have hfail := topLevel_of_failed hn
    obtain rfl := overflow_limit _ _ _ hfail
    refine ⟨rfl, fun small hle => ?_⟩
    rcases (limited.topLevel hhost hle fuel c.body s.store trivial).2
      with hsame | hearly
    · -- both runs failed alike, so the limits are the same
      obtain rfl := overflow_limit _ _ _ (hsame.trans hfail)
      exact ⟨hn, fun _ => List.prefix_refl _⟩
    · obtain ⟨e, τ, hsmall, rfl, hstep⟩ := hearly.leads (by rw [hfail]; rfl)
      obtain ⟨hanswer, hstore⟩ := interpretWithin_of_fail hsmall
      refine ⟨hanswer, fun hprints => ?_⟩
      rw [printed, printed, hstore]
      exact hstep (host_onlyPrints hprints)

/-- A function that prints and then calls itself: under a limit of one call it
prints once, under two twice. -/
theorem interpret_limit_unobservable_recursion :
    let s := start 200 none
    let c : Chunk := ⟨[.function (some (.name "f")) true []
          [.expr (.call (.name "print") [.string "a"]),
            .expr (.call (.name "f") [])], .expr (.call (.name "f") [])], []⟩
    (∀ f ∈ s.natives, f.NeverOverflows) ∧
      (s.interpretWithin 2 9 c).1 = .failed (.stackOverflow 2) ∧
      (s.interpretWithin 1 9 c).1 = .failed (.stackOverflow 1) ∧
      (s.interpretWithin 1 9 c).2.printed <+:
        (s.interpretWithin 2 9 c).2.printed := by
  intro s c
  have hnatives : ∀ f ∈ s.natives, f.NeverOverflows := by
    intro f hf args h n he
    obtain ⟨name, hname⟩ := mem_natives_start hf
    exact absurd (Native.builtin_error hname he) nofun
  have hprints : ∀ f ∈ s.natives, f.OnlyPrints := by
    intro f hf
    obtain ⟨name, hname⟩ := mem_natives_start hf
    exact Native.builtin_onlyPrints hname
  have htwo : (s.interpretWithin 2 9 c).1 = .failed (.stackOverflow 2) := by rfl
  have hone :=
    ((interpret_limit_unobservable hnatives 2 9 c).2 2 htwo).2 1 (by decide)
  exact ⟨hnatives, htwo, hone.1, hone.2 hprints⟩

end Session

end LuaCore
