import DxilSpirv.Buffer.StructuredIndex

/-!
# Raw accesses through a physical pointer

A vectorized access through a physical pointer indexes an array whose stride is kept in eight bits,
while the index counts vectors of at most `MaxVecSize` components, or scalars. The access chain
addresses the bytes of the pointer arithmetic exactly where these agree, nothing is lost, and the
bytes do not wrap.
-/

namespace DxilSpirv.Buffer

open DxilSpirv.Spirv

variable {env : Nat → Word}

/-- `get_type_scalar_alignment`: 16-bit scalars take 32 bits without native support. -/
def getTypeScalarAlignment (o : Options) : DataType → Nat
  | .bits16 => if o.native16bitOperations then 2 else 4
  | .bits32 => 4
  | .bits64 => 8

/-- The pointer that an access is made through; the stride is a `uint8_t`. -/
structure PhysicalPointerMeta where
  nonwritable : Bool
  nonreadable : Bool
  coherent : Bool
  rov : Bool
  stride : BitVec 8
  size : Word

/-- The `ArrayStride` of the pointer's block, which is an array for a stride that is not zero. -/
def PhysicalPointerMeta.arrayStride (m : PhysicalPointerMeta) : Option Nat :=
  if m.stride.toNat > 0 then some m.stride.toNat else none

/-- A block type that was made, under its base type, with the decoration it has. -/
structure PhysicalPointerEntry where
  baseTypeId : Nat
  pointerMeta : PhysicalPointerMeta
  arrayStride : Option Nat
  decorated : arrayStride = pointerMeta.arrayStride

/-- Whether a block type can be used again. -/
def PhysicalPointerEntry.serves (entry : PhysicalPointerEntry) (baseTypeId : Nat)
    (m : PhysicalPointerMeta) :
    Bool :=
  entry.pointerMeta.coherent == m.coherent && entry.pointerMeta.nonreadable == m.nonreadable &&
    entry.pointerMeta.nonwritable == m.nonwritable && entry.pointerMeta.size == m.size &&
    entry.pointerMeta.stride == m.stride && entry.baseTypeId == baseTypeId

/-- `get_physical_pointer_block_type`. -/
def getPhysicalPointerBlockType (entries : List PhysicalPointerEntry) (baseTypeId : Nat)
    (m : PhysicalPointerMeta) : PhysicalPointerEntry × List PhysicalPointerEntry :=
  match entries.find? fun entry => entry.serves baseTypeId m with
  | some entry => (entry, entries)
  | none =>
      let entry : PhysicalPointerEntry := ⟨baseTypeId, m, m.arrayStride, rfl⟩
      (entry, entries ++ [entry])

/-- A block type has the stride that was asked for, new or not. -/
theorem getPhysicalPointerBlockType_arrayStride (entries : List PhysicalPointerEntry)
    (baseTypeId : Nat) (m : PhysicalPointerMeta) :
    (getPhysicalPointerBlockType entries baseTypeId m).1.arrayStride = m.arrayStride := by
  rw [getPhysicalPointerBlockType]
  cases found : entries.find? fun entry => entry.serves baseTypeId m with
  | none => rfl
  | some entry =>
    have serves := List.find?_some found
    rw [PhysicalPointerEntry.serves] at serves
    have same : entry.pointerMeta.stride = m.stride := by
      simp only [Bool.and_eq_true, beq_iff_eq] at serves
      exact serves.1.2
    dsimp only
    rw [entry.decorated, PhysicalPointerMeta.arrayStride, PhysicalPointerMeta.arrayStride, same]

/-- A root descriptor: a structured buffer for a stride that is not zero, and a raw one else. -/
def physicalResource (stride : Word) : ResourceMeta where
  kind := if stride ≠ 0 then .structuredBuffer else .rawBuffer
  stride := stride
  storage := .physicalStorageBuffer
  aliased := false
  componentBits := 0
  rawComponentVecsize := 0

/-- `build_vectorized_physical_load_store_access`. -/
def buildVectorizedPhysicalLoadStoreAccess (o : Options) (t : DataType) (stride : Word)
    (index byteOffset : Value) (n : VectorSize) : Option Emitted :=
  let canVectorize :=
    if stride ≠ 0 then rawAccessStructuredCanVectorize o t index stride byteOffset n
    else rawAccessByteAddressCanVectorize o t index n
  if canVectorize
    then (buildElementIndex o (physicalResource stride) t index byteOffset n).map Prod.fst
  else none

/-- The stride given to the pointer of a vectorized access: `vecsize * scalar_alignment` in eight
bits. -/
def pointerStride (o : Options) (t : DataType) (n : VectorSize) : BitVec 8 :=
  BitVec.ofNat 8 (n.components * getTypeScalarAlignment o t)

/-- `build_physical_pointer_address_for_raw_load_store`: the byte offset that is added to the
pointer. -/
def physicalByteOffset (env : Nat → Word) (stride : Word) (index byteOffset : Value) : Word :=
  if stride ≠ 0 then byteAddress env index stride byteOffset else index.eval env

/-- The vector size in which the index counts. -/
def countedSize (n : VectorSize) : VectorSize := if n.components ≤ maxVecSize then n else .scalar

/-- The index in elements of a split operand. -/
def Value.elements (env : Nat → Word) (index : Value) (stride : Word) (e : Element) : Word :=
  match index.asConstant with
  | some c => (constantSplit c stride e).eval env
  | none => (index.split stride e).eval env

/-- The element index of an access: of a structured buffer the sum over its operands, and of a raw
one masked where a dynamic offset has to wrap. -/
def elementIndex (o : Options) (env : Nat → Word) (stride : Word) (index byteOffset : Value)
    (e : Element) :
    Word :=
  if stride ≠ 0 then index.elements env stride e + byteOffset.elements env 1 e
  else if requiresExplicitWrap o (physicalResource stride) && index.asConstant.isNone then
    index.elements env 1 e &&& BitVec.ofNat 32 ((2 ^ 32 - 1) / e.size)
  else index.elements env 1 e

/-- What the element index loses of the bytes. -/
def lostBytes (env : Nat → Word) (stride : Word) (index byteOffset : Value) (e : Element) : Word :=
  if stride ≠ 0 then index.lost env stride e + byteOffset.lost env 1 e else index.lost env 1 e

/-- Where an access chain has the bytes of the pointer arithmetic: the stride fits its field up to a
rest that is not zero, and for all values of the leaves the bytes stay below `2 ^ 32`, and what the
elements lose makes up for the difference between the element and the stride. -/
structure PhysicalExact (o : Options) (t : DataType) (stride : Word) (index byteOffset : Value)
    (n : VectorSize) : Prop where
  stride_ne : (pointerStride o t n).toNat ≠ 0
  inside : ∀ env, index.ShiftsInRange env → byteOffset.ShiftsInRange env →
    (elementIndex o env stride index byteOffset (element o t (countedSize n))).toNat *
      (pointerStride o t n).toNat < 2 ^ 32
  kept : ∀ env, index.ShiftsInRange env → byteOffset.ShiftsInRange env →
    lostBytes env stride index byteOffset (element o t (countedSize n)) +
      elementIndex o env stride index byteOffset (element o t (countedSize n)) *
        (((element o t (countedSize n)).size : Word) - ((pointerStride o t n).toNat : Word)) = 0

/-- What the matcher splits stands for the elements of the operand. -/
theorem extract_elements {index : Value} (range : index.ShiftsInRange env) {stride : Word}
    {e : Element} {s : RawBufferAccessSplit}
    (hs : extractRawBufferAccessSplit index stride e = some s) :
    s.eval env = index.elements env stride e ∧
      (s.dynamicIndex.isSome = index.asConstant.isNone) := by
  rw [Value.elements]
  cases hc : index.asConstant with
  | none =>
    obtain ⟨-, rfl⟩ := (extract_eq_some_iff range hc stride e s).mp hs
    exact ⟨rfl, rfl⟩
  | some c =>
    cases Value.asConstant_eq_some.mp hc
    obtain ⟨-, rfl⟩ := (extract_constantInt c stride e s).mp hs
    exact ⟨rfl, rfl⟩

/-- What splits into vectors splits into their scalars. -/
theorem splittable_scalar {o : Options} {t : DataType} {n : VectorSize} {index : Value}
    {stride : Word} (h : index.Splittable stride (element o t n)) :
    index.Splittable stride (element o t .scalar) := by
  have divides : (element o t .scalar).size ∣ (element o t n).size :=
    Nat.mul_dvd_mul_left _ (one_dvd n.components)
  rw [Value.Splittable] at h ⊢
  cases hc : index.asConstant with
  | none =>
    rw [hc] at h
    exact ⟨divides.trans h.scale_dvd,
      (Int.natCast_dvd_natCast.mpr divides).trans h.bias_dvd, h.apart⟩
  | some c => exact Or.inl rfl

/-- A vector that is split is split in the size that is counted. -/
theorem extract_counted {o : Options} {t : DataType} {n : VectorSize} {index : Value}
    {stride : Word} (range : index.ShiftsInRange env)
    (h : (extractRawBufferAccessSplit index stride (element o t n)).isSome) :
    ∃ s, extractRawBufferAccessSplit index stride (element o t (countedSize n)) = some s := by
  rw [← Option.isSome_iff_exists, countedSize]
  split_ifs
  · exact h
  · rw [extract_isSome_iff range] at h ⊢
    exact splittable_scalar h

/-- The vector size of a physical access that can be vectorized. -/
theorem scalar_or_counted {n : VectorSize} {can : Bool} (h : can = true) :
    (if n.components > maxVecSize || n.components = 1 then VectorSize.scalar
      else if can then n else .scalar) = countedSize n := by
  rw [countedSize, h, if_pos rfl]
  by_cases large : n.components > maxVecSize
  · rw [if_pos (by simp [large]), if_neg (by omega)]
  · rw [if_pos (show n.components ≤ maxVecSize by omega)]
    split_ifs with one
    · have single : n.components = 1 := by simpa [large] using one
      cases n
      cases single
      rfl
    · rfl

/-- A wrapped index counts elements whose size is a power of two. -/
theorem buildIndexDivider_wrapped_size {offset : Value} {e : Element} {s : RawBufferAccessSplit}
    (hs : extractRawBufferAccessSplit offset 1 e = some s) (dynamic : s.dynamicIndex.isSome)
    {i : Emitted} (h : buildIndexDivider offset e true = some i) : ∃ k ≤ 32, e.size = 2 ^ k := by
  have power : e.vecsize &&& (e.vecsize - 1) = 0 := by
    rw [buildIndexDivider, hs] at h
    dsimp only at h
    cases hd : s.dynamicIndex with
    | none =>
      rw [hd] at dynamic
      cases dynamic
    | some d =>
      rw [hd] at h
      dsimp only at h
      rw [if_pos rfl] at h
      by_contra no
      rw [if_neg no] at h
      cases h
  exact Element.size_eq_two_pow power

/-- The emitted index is the element index, and stands for the bytes that are not lost. -/
theorem physicalAccess_eval {o : Options} {t : DataType} {stride : Word} {index byteOffset : Value}
    {n : VectorSize} {i : Emitted}
    (h : buildVectorizedPhysicalLoadStoreAccess o t stride index byteOffset n = some i)
    (rangeIndex : index.ShiftsInRange env) (rangeOffset : byteOffset.ShiftsInRange env) :
    i.eval env = elementIndex o env stride index byteOffset (element o t (countedSize n)) ∧
      ((element o t (countedSize n)).size : Word) *
        elementIndex o env stride index byteOffset (element o t (countedSize n)) =
      physicalByteOffset env stride index byteOffset -
        lostBytes env stride index byteOffset (element o t (countedSize n)) := by
  rw [buildVectorizedPhysicalLoadStoreAccess] at h
  by_cases structured : stride ≠ 0
  · simp only [if_pos structured] at h
    split_ifs at h with can
    have chosen : rawAccessStructuredVectorize o t index stride byteOffset n = countedSize n :=
      scalar_or_counted can
    obtain ⟨splitIndex, splitOffset⟩ :
      (extractRawBufferAccessSplit index stride (element o t n)).isSome ∧
        (extractRawBufferAccessSplit byteOffset 1 (element o t n)).isSome := by
      rw [rawAccessStructuredCanVectorize] at can
      dsimp only at can
      split_ifs at can
      exact Bool.and_eq_true_iff.mp can
    obtain ⟨s, hs⟩ := extract_counted rangeIndex splitIndex
    obtain ⟨b, hb⟩ := extract_counted rangeOffset splitOffset
    obtain ⟨j, hj, sum⟩ := buildStructuredIndex_split env hs hb
    have kind : (physicalResource stride).kind = .structuredBuffer := if_pos structured
    have itsStride : (physicalResource stride).stride = stride := rfl
    rw [buildElementIndex, kind] at h
    simp only [itsStride, chosen, hj, Option.map_some, Option.some.injEq] at h
    subst h
    have index_bytes := extract_eval rangeIndex hs
    have offset_bytes := extract_eval rangeOffset hb
    rw [(extract_elements rangeIndex hs).1] at sum index_bytes
    rw [(extract_elements rangeOffset hb).1] at sum offset_bytes
    rw [elementIndex, physicalByteOffset, lostBytes, if_pos structured, if_pos structured,
      if_pos structured, byteAddress]
    exact ⟨sum, by linear_combination index_bytes + offset_bytes⟩
  · simp only [if_neg structured] at h
    split_ifs at h with can
    have chosen : rawAccessByteAddressVectorize o t index n = countedSize n := scalar_or_counted can
    have split : (extractRawBufferAccessSplit index 1 (element o t n)).isSome := by
      rw [rawAccessByteAddressCanVectorize] at can
      split_ifs at can
      exact can
    obtain ⟨s, hs⟩ := extract_counted rangeIndex split
    have kind : (physicalResource stride).kind = .rawBuffer := if_neg structured
    rw [buildElementIndex, kind] at h
    simp only [chosen, Option.map_map] at h
    obtain ⟨j, hj, rfl⟩ := Option.map_eq_some_iff.mp h
    have value := buildIndexDivider_split env hs hj
    have bytes := extract_eval rangeIndex hs
    obtain ⟨elements, dynamic⟩ := extract_elements rangeIndex hs
    rw [elements, dynamic] at value
    rw [elements, one_mul] at bytes
    rw [elementIndex, physicalByteOffset, lostBytes, if_neg structured, if_neg structured,
      if_neg structured]
    refine ⟨value, ?_⟩
    split_ifs with wraps
    · obtain ⟨wrap, notConstant⟩ := Bool.and_eq_true_iff.mp wraps
      rw [wrap] at hj
      obtain ⟨k, hk, size⟩ := buildIndexDivider_wrapped_size hs (by rw [dynamic, notConstant]) hj
      have masked := and_elements_mul (index.elements env 1 (element o t (countedSize n))) hk
      rw [← size] at masked
      linear_combination masked + bytes
    · exact bytes

/-- Adding offsets to a pointer is injective in 32-bit byte offsets. -/
theorem pointer_add_eq_iff (base : BitVec 64) (i a : Word) {st : Nat} (small : st < 256) :
    base + i.setWidth 64 * (st : BitVec 64) = base + a.setWidth 64 ↔
      i.toNat * st < 2 ^ 32 ∧ i * (st : Word) = a := by
  have bound : i.toNat * st < 2 ^ 64 := by
    have := i.isLt
    calc
      _ ≤ 2 ^ 32 * 256 := Nat.mul_le_mul (Nat.le_of_lt this) (Nat.le_of_lt small)
      _ < _ := by decide
  have product : (i.setWidth 64 * (st : BitVec 64)).toNat = i.toNat * st := by
    rw [BitVec.toNat_mul, BitVec.toNat_setWidth_of_le (by decide), BitVec.natCast_eq_ofNat,
      BitVec.toNat_ofNat, Nat.mod_eq_of_lt (show st < 2 ^ 64 by omega), Nat.mod_eq_of_lt bound]
  have low : (i * (st : Word)).toNat = i.toNat * st % 2 ^ 32 := by
    rw [BitVec.toNat_mul, BitVec.natCast_eq_ofNat, BitVec.toNat_ofNat,
      Nat.mod_eq_of_lt (show st < 2 ^ 32 by omega)]
  rw [add_right_inj, ← BitVec.toNat_inj, product, BitVec.toNat_setWidth_of_le (by decide),
    ← BitVec.toNat_inj, low]
  have := a.isLt
  constructor
  · intro h
    exact ⟨by omega, by rw [h, Nat.mod_eq_of_lt this]⟩
  · rintro ⟨inside, h⟩
    rw [Nat.mod_eq_of_lt inside] at h
    exact h

/-- **Physical pointer accesses.** Where an access is vectorized, its access chain addresses the
bytes of the pointer arithmetic for every pointer and all values of the leaves exactly under the
condition. -/
theorem physicalAccess_addresses_iff (o : Options) (t : DataType) (stride : Word)
    (index byteOffset : Value) (n : VectorSize) (i : Emitted)
    (h : buildVectorizedPhysicalLoadStoreAccess o t stride index byteOffset n = some i)
    (entries : List PhysicalPointerEntry) (baseTypeId : Nat) (m : PhysicalPointerMeta)
    (hm : m.stride = pointerStride o t n) :
    (∃ arrayStride, (getPhysicalPointerBlockType entries baseTypeId m).1.arrayStride =
      some arrayStride ∧
      ∀ (base : BitVec 64) (env : Nat → Word), index.ShiftsInRange env →
        byteOffset.ShiftsInRange env → base + (i.eval env).setWidth 64 * (arrayStride : BitVec 64) =
          base + (physicalByteOffset env stride index byteOffset).setWidth 64) ↔
      PhysicalExact o t stride index byteOffset n := by
  rw [getPhysicalPointerBlockType_arrayStride, PhysicalPointerMeta.arrayStride, hm]
  have small : (pointerStride o t n).toNat < 256 := (pointerStride o t n).isLt
  have access (base : BitVec 64) (env : Nat → Word) (rangeIndex : index.ShiftsInRange env)
      (rangeOffset : byteOffset.ShiftsInRange env) :
      base + (i.eval env).setWidth 64 * ((pointerStride o t n).toNat : BitVec 64) =
          base + (physicalByteOffset env stride index byteOffset).setWidth 64 ↔
        (elementIndex o env stride index byteOffset (element o t (countedSize n))).toNat *
          (pointerStride o t n).toNat < 2 ^ 32 ∧
        lostBytes env stride index byteOffset (element o t (countedSize n)) +
          elementIndex o env stride index byteOffset (element o t (countedSize n)) *
            (((element o t (countedSize n)).size : Word) - ((pointerStride o t n).toNat : Word)) =
                0 := by
    obtain ⟨value, bytes⟩ := physicalAccess_eval h rangeIndex rangeOffset
    rw [pointer_add_eq_iff base _ _ small, value]
    refine and_congr_right fun _ => ⟨fun eq => ?_, fun zero => ?_⟩
    · linear_combination bytes - eq
    · linear_combination bytes - zero
  constructor
  · rintro ⟨arrayStride, made, addresses⟩
    split_ifs at made with pos
    cases made
    exact ⟨Nat.ne_of_gt pos,
      fun env rangeIndex rangeOffset => ((access 0 env rangeIndex rangeOffset).mp
        (addresses 0 env rangeIndex rangeOffset)).1,
      fun env rangeIndex rangeOffset => ((access 0 env rangeIndex rangeOffset).mp
        (addresses 0 env rangeIndex rangeOffset)).2⟩
  · intro exact_
    refine ⟨(pointerStride o t n).toNat, if_pos (Nat.pos_of_ne_zero exact_.stride_ne), ?_⟩
    intro base env rangeIndex rangeOffset
    exact (access base env rangeIndex rangeOffset).mpr
      ⟨exact_.inside env rangeIndex rangeOffset, exact_.kept env rangeIndex rangeOffset⟩

/-- A pointer of a stride. -/
def plainPointer (stride : BitVec 8) : PhysicalPointerMeta where
  nonwritable := false
  nonreadable := false
  coherent := false
  rov := false
  stride := stride
  size := 0

/-- Four floats at each index of a structured buffer. -/
theorem physicalAccess_float4 :
    (∃ arrayStride, (getPhysicalPointerBlockType [] 0 (plainPointer 16)).1.arrayStride =
      some arrayStride ∧ ∀ (base : BitVec 64) (env : Nat → Word), (Value.leaf 0).ShiftsInRange env →
        (Value.constantInt 0).ShiftsInRange env →
        base + ((Emitted.value (.leaf 0)).eval env).setWidth 64 * (arrayStride : BitVec 64) =
          base + (physicalByteOffset env 16 (.leaf 0) (.constantInt 0)).setWidth 64) ↔
      PhysicalExact scalarLayout .bits32 16 (.leaf 0) (.constantInt 0) ⟨4, by decide, by decide⟩ :=
  physicalAccess_addresses_iff scalarLayout .bits32 16 (.leaf 0) (.constantInt 0)
    ⟨4, by decide, by decide⟩ (.value (.leaf 0)) rfl [] 0 (plainPointer 16) rfl

/-- The stride of 64 floats does not fit its field, and no array is declared. -/
theorem physicalAccess_float64_has_no_stride :
    ¬ ∀ (o : Options) (t : DataType) (stride : Word) (index byteOffset : Value) (n :
      VectorSize) (i : Emitted),
      buildVectorizedPhysicalLoadStoreAccess o t stride index byteOffset n = some i →
      ∀ (entries : List PhysicalPointerEntry) (baseTypeId : Nat) (m : PhysicalPointerMeta),
        m.stride = pointerStride o t n →
        ∃ arrayStride, (getPhysicalPointerBlockType entries baseTypeId m).1.arrayStride =
          some arrayStride ∧
          ∀ (base : BitVec 64) (env : Nat → Word), index.ShiftsInRange env →
            byteOffset.ShiftsInRange env →
            base + (i.eval env).setWidth 64 * (arrayStride : BitVec 64) =
              base + (physicalByteOffset env stride index byteOffset).setWidth 64 := by
  intro h
  obtain ⟨arrayStride, made, -⟩ := h scalarLayout .bits32 256 (.leaf 0) (.constantInt 0)
    ⟨64, by decide, by decide⟩ (.iMul (.value (.leaf 0)) (.makeUintConstant 64)) rfl [] 0
      (plainPointer 0) rfl
  cases made

end DxilSpirv.Buffer
