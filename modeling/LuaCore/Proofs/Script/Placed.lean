import LuaCore.Proofs.Script.Lowered
import LuaCore.Proofs.Script.Named

namespace LuaCore

open List (Forall₂)
open Lowering

/-- No source can name what a script has of itself. -/
theorem IsIdentifier.isOwnName_eq_false {x : String} (h : IsIdentifier x) :
    isOwnName x = false := by
  obtain ⟨first, rest, hx, hfirst, -⟩ := h.spelled
  have hdollar : first ≠ '$' := by
    rintro rfl
    exact absurd hfirst (by decide)
  simp [isOwnName, hx, hdollar]

/-- The statements of a region after what opens it. -/
inductive Fills : List Stat → List Script.Stat → Prop
  | done {rest : List Script.Stat} (h : LeadsOut rest) : Fills [] rest
  | next {s : Stat} {ss : List Stat} {stats rest : List Script.Stat}
      (hs : s.Becomes stats) (hss : Fills ss rest) :
      Fills (s :: ss) (stats ++ rest)

theorem lowerStats_fills {declared : List String}
    {last : Lowering (List Script.Stat)} {ss : List Stat}
    {ss' : List Script.Stat} (hlast : last.EndsBlock)
    (h : (lowerStats declared last ss).Gives ss') :
    Fills (placed declared ss) ss' := by
  induction ss generalizing declared ss' with
  | nil =>
    cases statsLowerTo h with
    | nil h => exact .done (leadsOut_of_endsBlock hlast h)
  | cons s ss ih =>
    cases statsLowerTo h with
    | @cons _ _ l rest hl hrest =>
      have hgoes := s.lower_goes hl
      unfold LoweredStat.Goes at hgoes
      rw [placed]
      split at hgoes
      · next hagain =>
        obtain ⟨values, hreopened, -⟩ := hgoes.reopened
        rw [if_pos hagain, LoweredStat.followedBy, hreopened]
        exact .done (hgoes.leadsOut _)
      · next hnew =>
        rw [hgoes.declared] at hrest
        rw [if_neg hnew, LoweredStat.followedBy, hgoes.reopened]
        exact .next hgoes.becomes (ih hrest)

section Everywhere

variable {t : Stretch} {r : Script.Region} {Q : Script.Stat → Prop}
    {R : Stat → Prop}

theorem Fills.forall_iff {ss : List Stat} {stats : List Script.Stat}
    (h : Fills ss stats) (hquiet : ∀ st : Script.Stat, st.isQuiet = true → Q st)
    (hconst : ∀ x value, Q (.const x value))
    (hplaced : ∀ s ∈ ss, ∀ stats, s.Becomes stats →
      ((∀ st ∈ stats, Q st) ↔ R s)) :
    (∀ st ∈ stats, Q st) ↔ ∀ s ∈ ss, R s := by
  induction h with
  | @done rest h =>
    refine iff_of_true (fun st hst => ?_) (List.forall_mem_nil _)
    rcases h.quiet st hst with hst | ⟨x, value, rfl⟩
    · exact hquiet st hst
    · exact hconst x value
  | next hs _ ih =>
    rw [List.forall_mem_append, List.forall_mem_cons]
    exact and_congr (hplaced _ List.mem_cons_self _ hs)
      (ih fun s hs => hplaced s (List.mem_cons_of_mem _ hs))

/-- What opens a region aside, a property of all its statements is one of those
placed in its stretch. -/
theorem Stretch.Lowers.forall_body_iff (h : t.Lowers r)
    (hquiet : ∀ st : Script.Stat, st.isQuiet = true → Q st)
    (hconst : ∀ x value, Q (.const x value))
    (hfirst : ∀ values : List Script.Expr, (∀ v ∈ values, v.isDeferred = true) →
      Q (.lets t.head values))
    (hplaced : ∀ s ∈ t.placed, ∀ stats, s.Becomes stats →
      ((∀ st ∈ stats, Q st) ↔ R s)) :
    (∀ st ∈ r.body, Q st) ↔ ∀ s ∈ t.placed, R s := by
  cases h with
  | @function params body body' h =>
    rw [Stretch.placed, List.append_nil] at hplaced ⊢
    exact (lowerStats_fills endsBlock_nil h).forall_iff hquiet hconst hplaced
  | block hhidden hlast h =>
    exact (lowerStats_fills hlast h).forall_iff hquiet hconst hplaced
  | reopened hvalues hlast h =>
    rw [List.forall_mem_cons, and_iff_right (hfirst _ hvalues)]
    exact (lowerStats_fills hlast h).forall_iff hquiet hconst hplaced
  | @loopHead names body body' =>
    have hbody : Stat.Becomes (.do body) [.block body'] := .quiet rfl rfl
    exact (Fills.next hbody (.done leadsOut_nil)).forall_iff hquiet hconst
      hplaced

theorem forall_iff_of_forall₂ {α β : Type} {rel : α → β → Prop} {as : List α}
    {bs : List β} {p : α → Prop} {q : β → Prop} (h : Forall₂ rel as bs)
    (hiff : ∀ a ∈ as, ∀ b, rel a b → (q b ↔ p a)) :
    (∀ b ∈ bs, q b) ↔ ∀ a ∈ as, p a := by
  induction h with
  | nil => simp
  | cons hab _ ih =>
    rw [List.forall_mem_cons, List.forall_mem_cons]
    exact and_congr (hiff _ List.mem_cons_self _ hab)
      (ih fun a ha => hiff a (List.mem_cons_of_mem _ ha))

end Everywhere

theorem mem_of_mem_placed {declared : List String} {ss : List Stat} {s : Stat}
    (h : s ∈ placed declared ss) : s ∈ ss := by
  induction ss generalizing declared with
  | nil => exact h
  | cons s' ss ih =>
    rw [placed] at h
    split at h
    · cases h
    · rcases List.mem_cons.mp h with rfl | h
      · exact List.mem_cons_self
      · exact List.mem_cons_of_mem _ (ih h)

structure Stat.Sound (s : Stat) : Prop where
  pieces : Identified s.pieces
  wellFormed : s.wellFormed = true

theorem Stat.sound_of_mem {ss : List Stat} {s : Stat} (hs : s ∈ ss)
    (hpieces : Identified (blockPieces ss)) (hss : blockWellFormed ss = true) :
    s.Sound := by
  induction ss with
  | nil => cases hs
  | cons s' ss ih =>
    rw [blockPieces, identified_append] at hpieces
    simp only [blockWellFormed, Bool.and_eq_true] at hss
    rcases List.mem_cons.mp hs with rfl | hs
    · exact ⟨hpieces.1, hss.1.1⟩
    · exact ih hs hpieces.2 hss.2

theorem Stretch.Sound.sound_of_mem_placed {t : Stretch} (h : t.Sound) {s : Stat}
    (hs : s ∈ t.placed) :
    s.Sound :=
  Stat.sound_of_mem (mem_of_mem_placed hs) h.body h.wellFormed

end LuaCore
