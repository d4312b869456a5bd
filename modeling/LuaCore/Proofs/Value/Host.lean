import LuaCore.Session

namespace LuaCore

def RuntimeError.isOfBuiltins : RuntimeError → Bool
  | badArgument .. | output _ => true
  | _ => false

namespace Native

def OnlyPrints (f : Native) : Prop :=
  ∀ args h, h.output.text.toList <+: (f args h).2.output.text.toList

variable {f : Native} {args : List Value} {h : Heap} {e : RuntimeError}

theorem eq_of_mem_builtins {name : String} (hf : (name, f) ∈ builtins) :
    f = print ∨ f = pairs ∨ f = ipairs := by
  simp only [builtins, List.mem_cons, Prod.mk.injEq, List.not_mem_nil, or_false]
    at hf
  exact hf.imp And.right (Or.imp And.right And.right)

theorem tableArgument_isOfBuiltins {function : String}
    (he : tableArgument function args = .error e) :
    e.isOfBuiltins = true := by
  unfold tableArgument at he
  split at he <;> cases he <;> rfl

theorem builtin_error {name : String} (hf : (name, f) ∈ builtins)
    (he : (f args h).1 = .error e) :
    e.isOfBuiltins = true := by
  rcases eq_of_mem_builtins hf with rfl | rfl | rfl
  · unfold print Heap.printLine at he
    split at he <;> cases he
    rfl
  · unfold pairs at he
    split at he
    · cases he
    · next heq =>
      cases he
      exact tableArgument_isOfBuiltins heq
  · unfold ipairs at he
    split at he
    · cases he
    · next heq =>
      cases he
      exact tableArgument_isOfBuiltins heq

theorem builtin_onlyPrints {name : String} (hf : (name, f) ∈ builtins) :
    f.OnlyPrints := by
  intro args h
  rcases eq_of_mem_builtins hf with rfl | rfl | rfl
  · unfold print Heap.printLine
    split
    · simp
    · exact List.prefix_refl _
  · unfold pairs
    split <;> exact List.prefix_refl _
  · unfold ipairs
    split <;> exact List.prefix_refl _

end Native

namespace Session

variable {s : Session}

theorem mem_natives_start {limit : Nat} {failure : Option String} {f : Native}
    (hf : f ∈ (start limit failure).natives) :
    ∃ name, (name, f) ∈ Native.builtins := by
  have hf : f = .print ∨ f = .pairs ∨ f = .ipairs := by
    simpa [start, Native.builtins, register] using hf
  rcases hf with rfl | rfl | rfl
  · exact ⟨"print", by simp [Native.builtins]⟩
  · exact ⟨"pairs", by simp [Native.builtins]⟩
  · exact ⟨"ipairs", by simp [Native.builtins]⟩

theorem host_eq_or_mem (id : Nat) :
    s.host id = .idle ∨ s.host id ∈ s.natives := by
  unfold host
  rw [Array.getD_eq_getD_getElem?]
  cases hf : s.natives[id]? with
  | none => exact Or.inl rfl
  | some f => exact Or.inr (Array.mem_of_getElem? hf)

end Session

end LuaCore
