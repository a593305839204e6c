import Mathlib.Data.BitVec

/-!
# Access chains

Types of a block with explicit offsets, and the member that a chain of indices selects in them. A
struct is indexed by a constant, an array by any word; an index past the end selects nothing.
-/

namespace DxilSpirv.Spirv

/-- A type with an explicit layout. -/
inductive BlockType where
  | uint
  | vector (components : Nat)
  | array (element : BlockType) (length stride : Nat)
  | struct (members : List (Nat × BlockType))

/-- An index of a chain: whether it is a constant, and its value. -/
structure ChainIndex where
  isConstant : Bool
  value : BitVec 32
  deriving DecidableEq

namespace BlockType

/-- The byte that a chain of indices leads to, and the type that is there. -/
def access : BlockType → List ChainIndex → Option (Nat × BlockType)
  | t, [] => some (0, t)
  | struct members, i :: rest =>
    if i.isConstant then
      match members[i.value.toNat]? with
      | none => none
      | some member => (member.2.access rest).map fun r => (member.1 + r.1, r.2)
    else none
  | array element length stride, i :: rest =>
    if i.value.toNat < length then
      (element.access rest).map fun r => (i.value.toNat * stride + r.1, r.2)
    else none
  | vector components, i :: rest =>
    if i.value.toNat < components then
      (uint.access rest).map fun r => (i.value.toNat * 4 + r.1, r.2)
    else none
  | uint, _ :: _ => none
termination_by _ l => l.length

variable {members : List (Nat × BlockType)} {i : ChainIndex} {rest : List ChainIndex}

@[simp] theorem access_nil (t : BlockType) : t.access [] = some (0, t) := by
  cases t <;> simp [access]

/-- A constant selects a member of a struct. -/
theorem access_struct {value : BitVec 32} {member : Nat × BlockType}
    (h : members[value.toNat]? = some member) :
    (struct members).access (⟨true, value⟩ :: rest) =
      (member.2.access rest).map fun r => (member.1 + r.1, r.2) := by
  simp [access, h]

/-- A struct is not indexed dynamically. -/
theorem access_struct_dynamic {value : BitVec 32} :
    (struct members).access (⟨false, value⟩ :: rest) = none := by
  simp [access]

/-- An index below its length selects an element of an array. -/
theorem access_array {element : BlockType} {length stride : Nat} (h : i.value.toNat < length) :
    (array element length stride).access (i :: rest) =
      (element.access rest).map fun r => (i.value.toNat * stride + r.1, r.2) := by
  simp [access, h]

end BlockType

end DxilSpirv.Spirv
