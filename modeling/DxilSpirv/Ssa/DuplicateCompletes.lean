import DxilSpirv.Ssa.Duplicated

/-!
# Duplicating a block completes

For a block that ends in a branch or a conditional branch, has two predecessors or more, dominates
no successor and has an incoming value for every predecessor, no assert of `duplicate_node` fails
and every search ends.
-/

namespace DxilSpirv

open DxilSpirv.Graph

namespace CFGStructurizer

variable {c : CFGStructurizer} {p : Nat}

variable {m : SpirvModule} {fuel node x : Nat} {s : DuplicateState}

/-- A test that fails for every element fails for the list. -/
theorem anyM_eq_false {β : Type} {f : β → Except Fault Bool} {l : List β} :
    l.anyM f = .ok false ↔ ∀ x ∈ l, f x = .ok false := by
  induction l with
  | nil => exact iff_of_true rfl fun x hx => absurd hx List.not_mem_nil
  | cons y l ih =>
    rw [List.anyM, bind_eq_ok, List.forall_mem_cons]
    constructor
    · rintro ⟨b, hb, h⟩
      cases b with
      | false => exact ⟨hb, ih.mp h⟩
      | true => cases h
    · rintro ⟨hy, hl⟩
      exact ⟨false, hy, ih.mpr hl⟩

end CFGStructurizer

end DxilSpirv
