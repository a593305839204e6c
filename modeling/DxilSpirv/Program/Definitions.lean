import Mathlib.Data.List.GetD
import Mathlib.Data.List.Induction
import Mathlib.Tactic.Common

/-!
# Lists of definitions

Every element of a list defines a value from the values of the elements before it. Two lists define
the same values when each element of the one means, over the values of the other, what the other has
in its place.
-/

namespace DxilSpirv.Program

variable {Op V : Type} [Inhabited V] (eval : (Nat → V) → Op → V)

/-- The values of a list of definitions, in their order. -/
def definedValues (ops : List Op) : List V :=
  ops.foldl (fun values op => values ++ [eval (fun i => values.getD i default) op]) []

/-- The value of the definition at an index. -/
def valueAt (ops : List Op) (i : Nat) : V := (definedValues eval ops).getD i default

/-- The definition does not depend on values from `n` on. -/
def ReadsBelow (n : Nat) (op : Op) : Prop :=
  ∀ ρ σ : Nat → V, (∀ i < n, ρ i = σ i) → eval ρ op = eval σ op

/-- Every definition depends on those before it only. -/
def Ordered (ops : List Op) : Prop := ∀ i op, ops[i]? = some op → ReadsBelow eval i op

variable {eval} {ops ops' : List Op} {op : Op} {i n : Nat}

theorem definedValues_concat : definedValues eval (ops ++ [op]) =
    definedValues eval ops ++ [eval (valueAt eval ops) op] := by
  rw [definedValues, List.foldl_append]
  rfl

@[simp] theorem length_definedValues : (definedValues eval ops).length = ops.length := by
  induction ops using List.reverseRecOn with
  | nil => rfl
  | append_singleton ops op ih => rw [definedValues_concat, List.length_append, ih]; simp

theorem valueAt_of_le (h : ops.length ≤ i) : valueAt eval ops i = default :=
  List.getD_eq_default _ _ (by rwa [length_definedValues])

/-- A later definition changes no value. -/
theorem valueAt_concat_of_lt (h : i < ops.length) :
    valueAt eval (ops ++ [op]) i = valueAt eval ops i := by
  rw [valueAt, definedValues_concat, List.getD_append _ _ _ _ (by rwa [length_definedValues])]
  rfl

theorem valueAt_concat_length :
    valueAt eval (ops ++ [op]) ops.length = eval (valueAt eval ops) op := by
  rw [valueAt, definedValues_concat]
  conv_lhs => rw [← @length_definedValues _ _ _ eval ops]
  simp

/-- The values satisfy their definitions. -/
theorem valueAt_eq (hops : Ordered eval ops) (hi : ops[i]? = some op) :
    valueAt eval ops i = eval (valueAt eval ops) op := by
  induction ops using List.reverseRecOn with
  | nil => simp at hi
  | append_singleton ops last ih =>
    have hbefore : Ordered eval ops := fun j op hj =>
      hops j op (by rwa [List.getElem?_append_left (List.getElem?_eq_some_iff.mp hj).1])
    have hagree : ∀ j < ops.length, valueAt eval (ops ++ [last]) j = valueAt eval ops j :=
      fun j hj => valueAt_concat_of_lt hj
    have hlt : i < ops.length + 1 := by simpa using (List.getElem?_eq_some_iff.mp hi).1
    have hreads := hops i op hi
    rcases Nat.lt_succ_iff_lt_or_eq.mp hlt with h | rfl
    · rw [List.getElem?_append_left h] at hi
      rw [hagree i h, ih hbefore hi]
      exact hreads _ _ fun j hj => (hagree j (by omega)).symm
    · rw [List.getElem?_append_right (Nat.le_refl _)] at hi
      obtain rfl : last = op := by simpa using hi
      rw [valueAt_concat_length]
      exact hreads _ _ fun j hj => (hagree j hj).symm

/-- Two lists agree below `n` when there every definition of the second means the same over the
values of the first. -/
theorem valueAt_congr (hops : Ordered eval ops) (hops' : Ordered eval ops')
    (hlength : ops'.length = ops.length)
    (h : ∀ i < n, ∀ op op', ops[i]? = some op → ops'[i]? = some op' →
      eval (valueAt eval ops) op' = eval (valueAt eval ops) op) :
    ∀ i < n, valueAt eval ops' i = valueAt eval ops i := by
  intro i
  induction i using Nat.strongRecOn with
  | ind i ih =>
    intro hi
    rcases Nat.lt_or_ge i ops.length with hlt | hge
    · obtain ⟨op, hop⟩ : ∃ op, ops[i]? = some op := ⟨_, List.getElem?_eq_getElem hlt⟩
      obtain ⟨op', hop'⟩ : ∃ op', ops'[i]? = some op' :=
        ⟨_, List.getElem?_eq_getElem (by omega)⟩
      calc valueAt eval ops' i = eval (valueAt eval ops') op' := valueAt_eq hops' hop'
        _ = eval (valueAt eval ops) op' :=
          hops' i op' hop' _ _ fun j hj => ih j hj (by omega)
        _ = eval (valueAt eval ops) op := h i hi op op' hop hop'
        _ = valueAt eval ops i := (valueAt_eq hops hop).symm
    · rw [valueAt_of_le hge, valueAt_of_le (by omega)]

end DxilSpirv.Program
