import Mathlib.Algebra.Order.Ring.Nat
import Mathlib.Data.List.GetD

/-!
# Types of a bitcode module

Types are made once and compared by address. The model keeps all types of a context in one list,
where the address of a type is its index; a type that is asked for again has the address it has
already.
-/

namespace DxilSpirv.Bitcode

/-- A block or a record as the bit stream reader leaves it. `blob` stands for what the storage holds
from where the pointer points to on: `blobLength` bytes, or fewer where the storage ends before. -/
inductive BlockOrRecord where
  | mk (isBlock : Bool) (id : Nat) (children : List BlockOrRecord) (ops : List Nat)
      (blob : Option (List UInt8)) (blobLength : Nat)

namespace BlockOrRecord

def isBlock : BlockOrRecord → Bool
  | mk b _ _ _ _ _ => b

def id : BlockOrRecord → Nat
  | mk _ i _ _ _ _ => i

def children : BlockOrRecord → List BlockOrRecord
  | mk _ _ c _ _ _ => c

def ops : BlockOrRecord → List Nat
  | mk _ _ _ o _ _ => o

/-- `BlockOrRecord::getString`: the operands as bytes. -/
def getString (entry : BlockOrRecord) (startOffset : Nat := 0) : List Nat :=
  (entry.ops.drop startOffset).map (· % 2 ^ 8)

/-- A record without a blob. -/
abbrev record (id : Nat) (ops : List Nat) : BlockOrRecord := mk false id [] ops none 0

/-- A block. -/
abbrev block (id : Nat) (children : List BlockOrRecord) : BlockOrRecord :=
  mk true id children [] none 0

end BlockOrRecord

/-- The address of a type. -/
abbrev TypePtr := Nat

/-- A type. Members of structs and parameters of functions may be missing. -/
inductive IRType where
  | void | half | float | double | label | opaqueType | metadata
  | integer (width : Nat)
  | pointer (pointee : TypePtr) (addressSpace : Nat)
  | array (element : TypePtr) (elements : Nat)
  | vector (size : Nat) (element : TypePtr)
  | struct (members : List (Option TypePtr)) (name : List Nat)
  | function (returnType : TypePtr) (params : List (Option TypePtr))
  deriving DecidableEq, Repr

namespace IRType

def isFloatingPointTy : IRType → Bool
  | half | float | double => true
  | _ => false

def isPointer : IRType → Bool
  | pointer .. => true
  | _ => false

def isVector : IRType → Bool
  | vector .. => true
  | _ => false

end IRType

/-- All types of a context. -/
structure TypeHeap where
  types : List IRType := []
  deriving Repr

namespace TypeHeap

variable (h : TypeHeap) (t : IRType)

/-- The type at an address. -/
def lookup (p : TypePtr) : IRType := h.types.getD p .void

/-- Make a type. -/
def construct : TypeHeap × TypePtr := (⟨h.types ++ [t]⟩, h.types.length)

/-- The cached type with these contents, which is made when there is none. -/
def get : TypeHeap × TypePtr :=
  if t ∈ h.types then (h, h.types.idxOf t) else h.construct t

theorem lookup_construct_of_lt {p : TypePtr} (hp : p < h.types.length) :
    (h.construct t).1.lookup p = h.lookup p :=
  List.getD_append _ _ _ _ hp

/-- Addresses that are in use keep their contents. -/
theorem lookup_get_of_lt {p : TypePtr} (hp : p < h.types.length) :
    (h.get t).1.lookup p = h.lookup p := by
  unfold get
  split
  · rfl
  · exact h.lookup_construct_of_lt t hp

end TypeHeap

end DxilSpirv.Bitcode
