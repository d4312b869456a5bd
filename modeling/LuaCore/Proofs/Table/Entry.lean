import LuaCore.Table

namespace LuaCore

theorem Table.mem_put {t : Table} {k : Key} {key value : Value}
    {e : Value × Value} (h : e ∈ (t.put k key value).entries) :
    (e.1 = key ∨ ∃ e' ∈ t.entries, e.1 = e'.1) ∧
      (e.2 = value ∨ ∃ e' ∈ t.entries, e.2 = e'.2) := by
  have old : ∀ {e}, e ∈ t.entries → (e.1 = key ∨ ∃ e' ∈ t.entries, e.1 = e'.1) ∧
      (e.2 = value ∨ ∃ e' ∈ t.entries, e.2 = e'.2) :=
    fun he => ⟨.inr ⟨_, he, rfl⟩, .inr ⟨_, he, rfl⟩⟩
  unfold put at h
  split at h
  · next i hi =>
    simp only [remove, Array.eraseIdxIfInBounds] at h
    split at h
    · exact old (Array.mem_of_mem_eraseIdx h)
    · exact old h
  · next i value hi _ =>
    obtain ⟨j, hj, rfl⟩ := Array.mem_iff_getElem.mp h
    simp only [replace, Array.size_modify] at hj
    have hmem : t.entries[j] ∈ t.entries := Array.getElem_mem hj
    simp only [replace, Array.getElem_modify]
    split
    · exact ⟨.inr ⟨_, hmem, rfl⟩, .inl rfl⟩
    · exact old hmem
  · exact old h
  · rcases Array.mem_push.mp h with h | rfl
    · exact old h
    · exact ⟨.inl rfl, .inl rfl⟩

theorem Table.get_eq_nil_or_mem (t : Table) (key : Value) :
    t.get key = .nil ∨ ∃ e ∈ t.entries, t.get key = e.2 := by
  unfold get find
  split
  · split
    · next i _ =>
      cases he : t.entries[i]? with
      | none => exact .inl rfl
      | some e => exact .inr ⟨e, Array.mem_of_getElem? he, rfl⟩
    · exact .inl rfl
  · exact .inl rfl

end LuaCore
