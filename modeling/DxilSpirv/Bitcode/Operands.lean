import DxilSpirv.Bitcode.Module

/-!
# What lookups find

Whether a parser goes wrong depends on the operands it finds and on their types, not on the proxies
that are made for them.
-/

namespace DxilSpirv.Bitcode

open DxilSpirv.Program Stoppable

namespace Context

variable (c : Context)

/-- The type of the value that `get_value` finds. -/
def valueOperand (op : Nat) (t : Option TypePtr) (force : Bool := false) : Option TypePtr :=
  (c.getValue op t force).1.bind Value.getType

/-- The type of the value that `get_value` finds for the next operand. -/
def nextOperand (ops : List Nat) (index : Nat) (t : Option TypePtr) : Option TypePtr :=
  ops[index]?.bind fun op => c.valueOperand op t

/-- The type of the value that `get_value_and_type` finds, which may be missing, and the index after
it. -/
def typedOperand (ops : List Nat) (index : Nat) : Option (Option TypePtr × Nat) :=
  (c.getValueAndType ops index).1.first.map fun v =>
    (v.getType, (c.getValueAndType ops index).1.index)

/-- A value that is looked up has a type. -/
theorem getAbsolute_cases (op : Nat) (t : Option TypePtr) :
    (c.getAbsolute op t).1 = none ∨
      ∃ v p, (c.getAbsolute op t).1 = some v ∧ v.getType = some p := by
  unfold getAbsolute
  split
  · split
    · exact .inl rfl
    · exact .inr ⟨_, _, rfl, rfl⟩
  · split
    · exact .inr ⟨_, _, rfl, rfl⟩
    · exact .inl rfl

/-- A look-up makes references only, and finds a value exactly when there is an operand, of its
type. -/
theorem getValue_cases (op : Nat) (t : Option TypePtr) (force : Bool) :
    ∃ c₁, ProxiesOnly c c₁ ∧
      ((c.getValue op t force = (none, c₁) ∧ c.valueOperand op t force = none) ∨
        ∃ v p, c.getValue op t force = (some v, c₁) ∧ v.getType = some p ∧
          c.valueOperand op t force = some p) := by
  have habs : (c.getValue op t force).1 = none ∨
      ∃ v p, (c.getValue op t force).1 = some v ∧ v.getType = some p := by
    unfold getValue
    split <;> exact c.getAbsolute_cases _ t
  refine ⟨_, .getValue c op t force, ?_⟩
  rcases habs with h | ⟨v, p, h, hp⟩
  · exact .inl ⟨Prod.ext h rfl, by rw [valueOperand, h]; rfl⟩
  · exact .inr ⟨v, p, Prod.ext h rfl, hp, by rw [valueOperand, h]; exact hp⟩

/-- The next operand is found with its type, or it is not there and the index stays in the
record. -/
theorem getNextValue_cases (ops : List Nat) (index : Nat) (t : Option TypePtr) :
    ∃ c₁, ProxiesOnly c c₁ ∧
      ((∃ k, c.getNextValue ops index t = ((none, k), c₁) ∧ c.nextOperand ops index t = none ∧
          (index ≤ ops.length → k ≤ ops.length)) ∨
        ∃ v p, c.getNextValue ops index t = ((some v, index + 1), c₁) ∧ v.getType = some p ∧
          c.nextOperand ops index t = some p ∧ index < ops.length) := by
  unfold getNextValue nextOperand
  cases hop : ops[index]? with
  | none =>
    exact ⟨c, .refl c, .inl ⟨index, rfl, rfl, id⟩⟩
  | some op =>
    have hlt : index < ops.length := (List.getElem?_eq_some_iff.mp hop).1
    obtain ⟨c₁, hp, ⟨h, hv⟩ | ⟨v, p, h, hvp, hv⟩⟩ := c.getValue_cases op t false
    · refine ⟨c₁, hp, .inl ⟨index + 1, ?_, hv, fun _ => hlt⟩⟩
      simp only [h]
    · refine ⟨c₁, hp, .inr ⟨v, p, ?_, hvp, hv, hlt⟩⟩
      simp only [h]

/-- An operand is found with its type, or nothing is. -/
theorem getValueAndType_cases (ops : List Nat) (index : Nat) :
    ∃ c₁, ProxiesOnly c c₁ ∧
      ((∃ j, c.getValueAndType ops index = ({ index := j }, c₁) ∧ c.typedOperand ops index = none) ∨
        ∃ v t j, c.getValueAndType ops index = (⟨some v, t, j⟩, c₁) ∧ v.getType = t ∧
          c.typedOperand ops index = some (t, j) ∧ index < j ∧ j ≤ ops.length) := by
  refine ⟨_, .getValueAndType c ops index, ?_⟩
  unfold typedOperand
  generalize hr : c.getValueAndType ops index = r
  unfold getValueAndType at hr
  cases hop : ops[index]? with
  | none =>
    simp only [hop] at hr
    subst hr
    exact .inl ⟨_, rfl, rfl⟩
  | some op =>
    have hlt : index < ops.length := (List.getElem?_eq_some_iff.mp hop).1
    simp only [hop] at hr
    split at hr
    · subst hr
      exact .inr ⟨_, _, _, rfl, rfl, rfl, Nat.lt_succ_self _, hlt⟩
    · split at hr
      · subst hr
        exact .inl ⟨_, rfl, rfl⟩
      · rename_i t ht
        have hlt' : index + 1 < ops.length := (List.getElem?_eq_some_iff.mp ht).1
        subst hr
        exact .inr ⟨_, _, _, rfl, rfl, rfl, by omega, hlt'⟩

end Context

namespace ProxiesOnly

variable {c c' : Context} (h : ProxiesOnly c c')

include h

theorem getType (i : Nat) : c'.getType i = c.getType i := by
  rw [Context.getType, h.types, Context.getType]

theorem object (p : ValuePtr) : c'.object p = c.object p := by
  rw [Context.object, h.objects, Context.object]

theorem matchedType (t : Option TypePtr) : c'.matchedType t = c.matchedType t := by
  rw [Context.matchedType, h.heap, Context.matchedType]

/-- What is found does not depend on the proxies. -/
theorem valueOperand (op : Nat) (t : Option TypePtr) (force : Bool) :
    c'.valueOperand op t force = c.valueOperand op t force := by
  have habs : ∀ op, (c'.getAbsolute op t).1.bind Value.getType =
      (c.getAbsolute op t).1.bind Value.getType := by
    intro op
    unfold Context.getAbsolute
    rw [h.values, h.matchedType]
    split
    · split <;> rfl
    · split <;> rfl
  rw [Context.valueOperand, Context.valueOperand, Context.getValue, Context.getValue,
    h.useRelativeId, h.values]
  split <;> exact habs _

theorem nextOperand (ops : List Nat) (index : Nat) (t : Option TypePtr) :
    c'.nextOperand ops index t = c.nextOperand ops index t := by
  rw [Context.nextOperand, Context.nextOperand]
  congr 1
  funext op
  exact h.valueOperand op t false

theorem typedOperand (ops : List Nat) (index : Nat) :
    c'.typedOperand ops index = c.typedOperand ops index := by
  rw [Context.typedOperand, Context.typedOperand, Context.getValueAndType,
    Context.getValueAndType, h.values, h.useRelativeId]
  split
  · rfl
  · dsimp only
    split
    · rfl
    · split
      · rfl
      · rw [h.getType]
        rfl

end ProxiesOnly

end DxilSpirv.Bitcode
