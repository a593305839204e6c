import DxilSpirv.Buffer.Split

/-!
# Emitting a buffer index

The vector size of an access and the index that is emitted for it. An emitted index is the tree of
its SPIR-V operations; a failed assertion is `none`. Instrumentation that checks an index without
changing it is left out.
-/

namespace DxilSpirv.Buffer

open DxilSpirv.Spirv

/-- The scalar type of an access, by its width. -/
inductive DataType
  | bits16 | bits32 | bits64
  deriving DecidableEq

structure Options where
  native16bitOperations : Bool
  scalarBlockLayout : Bool
  supportsPerComponentRobustness : Bool
  ssboAlignment : Word
  ssboWraps32bitBeforeRobustness : Bool
  /-- Instrumentation of the `ExpectAssume` type is enabled. -/
  expectAssume : Bool

/-- A vector has up to `MaxLongVectorComponents` components. -/
structure VectorSize where
  components : Nat
  pos : 0 < components
  le : components ≤ 1024
  deriving DecidableEq

/-- A scalar access. -/
def VectorSize.scalar : VectorSize := ⟨1, by decide, by decide⟩

/-- `AccessTracking::MaxVecSize`. -/
def maxVecSize : Nat := 32

/-- `raw_buffer_data_type_to_addr_shift_log2`: 16-bit accesses are 32-bit ones without native
support. -/
def rawBufferDataTypeToAddrShiftLog2 (o : Options) : DataType → Nat
  | .bits16 => if o.native16bitOperations then 1 else 2
  | .bits64 => 3
  | .bits32 => 2

theorem addrShiftLog2_le (o : Options) (t : DataType) :
    rawBufferDataTypeToAddrShiftLog2 o t ≤ 3 := by
  cases t with
  | bits16 =>
    rw [rawBufferDataTypeToAddrShiftLog2]
    split <;> decide
  | bits32 => exact Nat.le_succ 2
  | bits64 => exact Nat.le_refl 3

/-- The element of an access: a vector of scalars. -/
def element (o : Options) (t : DataType) (n : VectorSize) : Element where
  addrShiftLog2 := rawBufferDataTypeToAddrShiftLog2 o t
  vecsize := n.components
  vecsize_pos := n.pos
  size_lt := by
    have power := Nat.pow_le_pow_right (show 0 < 2 by decide) (addrShiftLog2_le o t)
    have := n.le
    calc
      _ ≤ 2 ^ 3 * 1024 := Nat.mul_le_mul power this
      _ < _ := by decide

/-- Whether the number of components is no power of two: `(vecsize & (vecsize - 1)) != 0`. -/
def VectorSize.npot (n : VectorSize) : Bool := n.components &&& (n.components - 1) != 0

/-- `raw_access_byte_address_can_vectorize`. -/
def rawAccessByteAddressCanVectorize (o : Options) (t : DataType) (byteOffset : Value)
    (n : VectorSize) :
    Bool :=
  if (!o.scalarBlockLayout || !o.supportsPerComponentRobustness) && n.npot then false
  else if n.components > 4 && !o.supportsPerComponentRobustness then false
  else if o.ssboAlignment.toNat > 16 && n.npot then false
  -- the wrapping is no simple mask here
  else if n.npot && !o.ssboWraps32bitBeforeRobustness then false
  else (extractRawBufferAccessSplit byteOffset 1 (element o t n)).isSome

/-- The largest power of two that divides the element: `element_size & -int(element_size)`. -/
def Element.alignment (e : Element) : Nat := e.size &&& (2 ^ 32 - e.size)

/-- `raw_access_structured_can_vectorize`. -/
def rawAccessStructuredCanVectorize (o : Options) (t : DataType) (index : Value) (stride : Word)
    (byteOffset : Value) (n : VectorSize) : Bool :=
  if !o.scalarBlockLayout && n.npot then false
  else
    let e := element o t n
    -- an offset buffer has to divide by the element
    if stride &&& (o.ssboAlignment - 1) != 0 && e.size > e.alignment then false
    else (extractRawBufferAccessSplit index stride e).isSome &&
      (extractRawBufferAccessSplit byteOffset 1 e).isSome

/-- `raw_access_byte_address_vectorize`. -/
def rawAccessByteAddressVectorize (o : Options) (t : DataType) (byteOffset : Value)
    (n : VectorSize) : VectorSize :=
  if n.components > maxVecSize || n.components = 1 then .scalar
  else if rawAccessByteAddressCanVectorize o t byteOffset n then n
  else .scalar

/-- `raw_access_structured_vectorize`. -/
def rawAccessStructuredVectorize (o : Options) (t : DataType) (index : Value) (stride : Word)
    (byteOffset : Value) (n : VectorSize) : VectorSize :=
  if n.components > maxVecSize || n.components = 1 then .scalar
  else if rawAccessStructuredCanVectorize o t index stride byteOffset n then n
  else .scalar

/-- An index that is emitted: its SPIR-V operations over values and constants. -/
inductive Emitted
  | value (v : Value)
  | makeUintConstant (c : Word)
  | iMul (a b : Emitted)
  | iAdd (a b : Emitted)
  | iSub (a b : Emitted)
  | shiftRightLogical (base : Emitted) (shift : Nat)
  /-- A call of the helper `ByteAddressMask`: `index & (UINT32_MAX / stride)`. -/
  | byteAddressMask (index : Emitted) (stride : Nat)

/-- The value of an emitted index. -/
def Emitted.eval (env : Nat → Word) : Emitted → Word
  | value v => v.eval env
  | makeUintConstant c => c
  | iMul a b => a.eval env * b.eval env
  | iAdd a b => a.eval env + b.eval env
  | iSub a b => a.eval env - b.eval env
  | shiftRightLogical base shift => base.eval env >>> shift
  | byteAddressMask index stride => index.eval env &&& BitVec.ofNat 32 ((2 ^ 32 - 1) / stride)

/-- `build_index_divider_fallback`. -/
def buildIndexDividerFallback (offset : Value) (addrShiftLog2 : Nat) : Emitted :=
  .shiftRightLogical (.value offset) addrShiftLog2

/-- The dynamic index times the scale. -/
def scaledIndex (d : Value) (scale : Nat) : Emitted :=
  if scale ≠ 1 then .iMul (.value d) (.makeUintConstant scale) else .value d

/-- `build_index_divider`. -/
def buildIndexDivider (offset : Value) (e : Element) (byteAddressWrap : Bool) : Option Emitted :=
  match extractRawBufferAccessSplit offset 1 e with
  | some s =>
      match s.dynamicIndex with
      | none => some (.makeUintConstant (s.bias : Word))
      | some d =>
          let scaled := scaledIndex d s.scale
          let biased :=
            if s.bias = 0 then scaled
            else if s.bias > 0 then .iAdd scaled (.makeUintConstant (s.bias : Word))
            else .iSub scaled (.makeUintConstant ((-s.bias : Int) : Word))
          if byteAddressWrap then
            if e.vecsize &&& (e.vecsize - 1) = 0
              then some (.byteAddressMask biased e.size) else none
          else some biased
  | none =>
      if e.vecsize = 1 then some (buildIndexDividerFallback offset e.addrShiftLog2) else none

/-- One offset is added to those before it; an absent one is skipped. -/
def accumulateOffset (accumulated id : Option Emitted) : Option Emitted :=
  match accumulated, id with
  | accumulated, none => accumulated
  | none, some i => some i
  | some a, some i => some (.iAdd a i)

/-- `build_accumulate_offsets`. -/
def buildAccumulateOffsets (ids : List (Option Emitted)) : Emitted :=
  (ids.foldl accumulateOffset none).getD (.makeUintConstant 0)

/-- `build_structured_index`. -/
def buildStructuredIndex (index : Value) (stride : Word) (byteOffset : Value) (e : Element) :
    Option Emitted :=
  match extractRawBufferAccessSplit index stride e, extractRawBufferAccessSplit byteOffset 1 e with
  | some strideSplit, some byteSplit =>
      let bias := strideSplit.bias + byteSplit.bias
      some (buildAccumulateOffsets
        [strideSplit.dynamicIndex.map fun d => scaledIndex d strideSplit.scale,
          byteSplit.dynamicIndex.map fun d =>
            if byteSplit.scale ≠ 1 then .iMul (.makeUintConstant byteSplit.scale) (.value d)
              else .value d,
          if bias = 0 then none else some (.makeUintConstant (bias : Word))])
  | _, _ =>
      if e.vecsize = 1 then
        let scaled :=
          if stride.toNat ≠ 2 ^ e.addrShiftLog2 then
            .iMul (.value index)
              (.makeUintConstant (BitVec.ofNat 32 (stride.toNat / 2 ^ e.addrShiftLog2)))
          else .value index
        (buildIndexDivider byteOffset e false).map fun divided =>
          buildAccumulateOffsets [some scaled, some divided]
      else none

/-- The kinds of buffer resources. -/
inductive ResourceKind
  | rawBuffer | structuredBuffer | typedBuffer
  deriving DecidableEq

/-- The storage classes of a buffer: an SSBO, a texel buffer and a physical pointer. -/
inductive StorageClass
  | storageBuffer | uniformConstant | physicalStorageBuffer
  deriving DecidableEq

/-- What an access reads of its resource. -/
structure ResourceMeta where
  kind : ResourceKind
  stride : Word
  storage : StorageClass
  aliased : Bool
  /-- The declaration of the variable: bits of a component, and components of an element. -/
  componentBits : Nat
  rawComponentVecsize : Nat

/-- Whether the index of a raw buffer is wrapped explicitly. -/
def requiresExplicitWrap (o : Options) (m : ResourceMeta) : Bool :=
  !o.ssboWraps32bitBeforeRobustness || m.storage = .uniformConstant || o.expectAssume

/-- The first part of `build_buffer_access`: the index in elements and the vector size. -/
def buildElementIndex (o : Options) (m : ResourceMeta) (t : DataType) (index byteOffset : Value)
    (n : VectorSize) : Option (Emitted × VectorSize) :=
  match m.kind with
  | .rawBuffer =>
      let rawVecsize := rawAccessByteAddressVectorize o t index n
      (buildIndexDivider index (element o t rawVecsize) (requiresExplicitWrap o m)).map
        (·, rawVecsize)
  | .structuredBuffer =>
      let rawVecsize := rawAccessStructuredVectorize o t index m.stride byteOffset n
      (buildStructuredIndex index m.stride byteOffset (element o t rawVecsize)).map (·, rawVecsize)
  | .typedBuffer => some (.value index, .scalar)

end DxilSpirv.Buffer
