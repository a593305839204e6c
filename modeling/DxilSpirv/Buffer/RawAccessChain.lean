import DxilSpirv.Buffer.ByteAddress

/-!
# The alignment of raw access chains

`emit_raw_access_chain` promises an alignment for each access: the scalar times the largest vector
size that the offset splits for. The base of a raw view has 16 bytes of alignment, and the base of a
structured view the largest power of two in its stride, up to 16.
-/

namespace DxilSpirv.Buffer

open DxilSpirv.Spirv

/-! ## The chain that is emitted -/

variable {env : Nat → Word}

/-- The element type of an access. -/
inductive ElementType
  | half | float | double
  | int16 | int32 | int64
  deriving DecidableEq

/-- The width of a type, as far as the addresses depend on it. -/
def ElementType.dataType : ElementType → DataType
  | half => .bits16
  | int16 => .bits16
  | float => .bits32
  | int32 => .bits32
  | double => .bits64
  | int64 => .bits64

/-- `IntegerTyID`. -/
def ElementType.isInteger : ElementType → Bool
  | half => false
  | float => false
  | double => false
  | int16 => true
  | int32 => true
  | int64 => true

structure ChainOptions extends Options where
  rawAccessChainWraps32bitBeforeRobustness : Bool
  minPrecisionPreferNative16bit : Bool

/-- `type_needs_storage_16bit_cast`. -/
def typeNeedsStorage16bitCast (o : ChainOptions) (t : ElementType) : Bool :=
  !o.native16bitOperations && (o.minPrecisionPreferNative16bit || t.isInteger) &&
    t.dataType = .bits16

/-- `get_type_id`: the bits of a scalar. -/
def scalarTypeWidth (o : ChainOptions) : ElementType → Nat
  | .half => if o.native16bitOperations || o.minPrecisionPreferNative16bit then 16 else 32
  | .float => 32
  | .double => 64
  | .int16 => 16
  | .int32 => 32
  | .int64 => 64

/-- `scalar_size`: the bytes of a component in the buffer. -/
def scalarSize (o : ChainOptions) (t : ElementType) : Nat :=
  (if typeNeedsStorage16bitCast o t then 32 else scalarTypeWidth o t) / 8

/-- The vector sizes of which alignments are made, up to eight components. -/
def VectorSize.twoPow (m : Nat) : VectorSize :=
  ⟨2 ^ min m 3, Nat.two_pow_pos _,
    (Nat.pow_le_pow_right (by decide) (Nat.min_le_right m 3)).trans (by decide)⟩

/-- An access chain: the operands of `OpRawAccessChainNV`, and the alignment of the access through
it. -/
structure RawAccessChain where
  stride : Word
  elementIndex : Emitted
  offset : Emitted
  perElement : Bool
  alignment : Nat

/-- The vector size that a raw access is aligned to. -/
def rawAlignment (o : Options) (t : DataType) (byteOffset : Value) : VectorSize :=
  if rawAccessByteAddressCanVectorize o t byteOffset (.twoPow 2) then .twoPow 2
  else if rawAccessByteAddressCanVectorize o t byteOffset (.twoPow 1) then .twoPow 1
  else .twoPow 0

/-- The vector size that a structured access is aligned to. Each is tried up to a size of the
scalar. -/
def structuredAlignment (o : Options) (t : DataType) (scalarSize : Nat) (index : Value)
    (stride : Word) (byteOffset : Value) : VectorSize :=
  (([(.twoPow 3, 2), (.twoPow 2, 4), (.twoPow 1, 8), (.twoPow 0, 16)] :
    List (VectorSize × Nat)).find? fun candidate => scalarSize ≤ candidate.2 &&
      stride &&& BitVec.ofNat 32 (scalarSize * candidate.1.components - 1) = 0 &&
      rawAccessStructuredCanVectorize o t index stride byteOffset candidate.1).elim
        (.twoPow 0) Prod.fst

/-- `emit_raw_access_chain`, of a raw buffer without a stride and of a structured buffer with
one. -/
def emitRawAccessChain (o : ChainOptions) (stride : Option Word) (t : ElementType)
    (index byteOffset : Value) (n : VectorSize) : Option RawAccessChain :=
  match stride with
  | none =>
      let a := rawAlignment o.toOptions t.dataType index
      let bytes := a.components * scalarSize o t
      if a.components ≠ 1 ∧ bytes ≤ 16 ∧ n.components ≤ a.components then
        let requiresWrap := !o.rawAccessChainWraps32bitBeforeRobustness || o.expectAssume
        (buildIndexDivider index (element o.toOptions t.dataType a) requiresWrap).map
            fun elementId =>
          ⟨BitVec.ofNat 32 bytes, elementId, .makeUintConstant 0, true, bytes⟩
      else some ⟨0, .makeUintConstant 0, .value index, false, bytes⟩
  | some stride =>
      let a := structuredAlignment o.toOptions t.dataType (scalarSize o t) index stride byteOffset
      some ⟨stride, .value index, .value byteOffset, true, a.components * scalarSize o t⟩

/-- The byte address of a chain; the offset to the base wraps in 32 bits, or does not. -/
def RawAccessChain.address (wraps : Bool) (env : Nat → Word) (chain : RawAccessChain) (base : Nat) :
    Nat :=
  base + if wraps then (chain.stride * chain.elementIndex.eval env + chain.offset.eval env).toNat
    else chain.stride.toNat * (chain.elementIndex.eval env).toNat + (chain.offset.eval env).toNat

/-- The alignment of the base: of a raw view, and of a structured view. -/
def baseAlignment (stride : Option Word) : Nat :=
  stride.elim 16 fun stride => Nat.gcd stride.toNat 16

/-! ## Divisibility -/

variable {k : Nat} {x y : Word}

/-- A mask of the low bits tests a multiple. -/
theorem and_mask_eq_zero_iff (hk : k ≤ 32) :
    x &&& BitVec.ofNat 32 (2 ^ k - 1) = 0 ↔ 2 ^ k ∣ x.toNat := by
  have small : 2 ^ k - 1 < 2 ^ 32 :=
    (Nat.sub_lt (Nat.two_pow_pos k) Nat.one_pos).trans_le (Nat.pow_le_pow_right (by decide) hk)
  rw [← BitVec.toNat_inj, BitVec.toNat_and, BitVec.toNat_ofNat, Nat.mod_eq_of_lt small,
    Nat.and_two_pow_sub_one_eq_mod, Nat.dvd_iff_mod_eq_zero]
  rfl

/-- A word is a multiple of a power of two in its ring just when its value is. -/
theorem two_pow_dvd_iff (hk : k ≤ 32) : ((2 ^ k : Nat) : Word) ∣ x ↔ 2 ^ k ∣ x.toNat := by
  have modulus : 2 ^ k ∣ 2 ^ 32 := pow_dvd_pow 2 hk
  constructor
  · rintro ⟨y, rfl⟩
    rw [BitVec.toNat_mul, BitVec.natCast_eq_ofNat, BitVec.toNat_ofNat, Nat.dvd_mod_iff modulus]
    exact Dvd.dvd.mul_right ((Nat.dvd_mod_iff modulus).mpr (Nat.dvd_refl _)) _
  · rintro ⟨m, hm⟩
    refine ⟨((m : Nat) : Word), ?_⟩
    rw [← Nat.cast_mul, ← hm, BitVec.natCast_eq_ofNat, BitVec.ofNat_toNat, BitVec.setWidth_eq]

/-- The common bits with a multiple are a multiple. -/
theorem two_pow_dvd_and (hk : k ≤ 32) (h : ((2 ^ k : Nat) : Word) ∣ y) :
    ((2 ^ k : Nat) : Word) ∣ x &&& y := by
  rw [two_pow_dvd_iff hk] at h ⊢
  rw [BitVec.toNat_and, Nat.dvd_iff_mod_eq_zero, Nat.and_mod_two_pow, Nat.mod_eq_zero_of_dvd h,
    Nat.and_zero]

/-- An expression that splits is a multiple of its element, also where the split misses bits of
it. -/
theorem Value.Splits.dvd_eval {offset : Value} (range : offset.ShiftsInRange env) {e : Element}
    (size : e.size = 2 ^ k) (hk : k ≤ 32) (splits : offset.Splits 1 e) :
    ((2 ^ k : Nat) : Word) ∣ offset.eval env := by
  have scale : ((2 ^ k : Nat) : Word) ∣ offset.unbiased.eval env := by
    rw [offset.unbiased.eval_scaled range.unbiased, ← size]
    have divides := splits.scale_dvd
    rw [show (1 : Word).toNat = 1 from rfl, mul_one] at divides
    exact Dvd.dvd.mul_right (Nat.cast_dvd_cast divides) _
  have bias : ((2 ^ k : Nat) : Word) ∣ ((offset.bias : Int) : Word) := by
    have divides := splits.bias_dvd
    rw [show (1 : Word).toNat = 1 from rfl, Nat.cast_one, mul_one, size] at divides
    rw [← Int.cast_natCast (R := Word)]
    exact Int.cast_dvd_cast _ _ divides
  have missed : ((2 ^ k : Nat) : Word) ∣ offset.missed env := by
    rw [Value.unbiased] at scale
    rw [Value.bias] at bias
    rw [Value.missed]
    cases hb : offset.biased with
    | none => exact dvd_zero _
    | some b =>
      rw [hb] at scale bias
      dsimp only [Option.map_some, Option.getD_some] at scale bias ⊢
      have constant : ((2 ^ k : Nat) : Word) ∣ b.constant := by
        split_ifs at bias
        · rw [Int.cast_neg, intCast_toInt] at bias
          exact (dvd_neg).mp bias
        · rwa [intCast_toInt] at bias
      cases b.op with
      | or => exact (dvd_neg).mpr (two_pow_dvd_and hk constant)
      | xor => exact (dvd_neg).mpr (Dvd.dvd.mul_left (two_pow_dvd_and hk constant) _)
      | sub =>
        dsimp only
        split_ifs
        · exact Dvd.dvd.mul_left (dvd_sub constant scale) _
        · exact dvd_zero _
      | add => exact dvd_zero _
      | shl => exact dvd_zero _
      | mul => exact dvd_zero _
  rw [offset.eval_eq env]
  exact dvd_add (dvd_add scale bias) missed

/-- An offset that is split for a vector is a multiple of the vector. -/
theorem dvd_of_extract {offset : Value} (range : offset.ShiftsInRange env) {e : Element}
    (size : e.size = 2 ^ k) (hk : k ≤ 32) (vector : e.vecsize ≠ 1)
    (split : (extractRawBufferAccessSplit offset 1 e).isSome) :
    2 ^ k ∣ (offset.eval env).toNat := by
  rw [extract_isSome_iff range, Value.Splittable] at split
  rw [← two_pow_dvd_iff hk]
  cases hc : offset.asConstant with
  | some c =>
    rw [hc] at split
    cases Value.asConstant_eq_some.mp hc
    have divides := split.resolve_left vector
    rw [show (1 : Word).toNat = 1 from rfl, Nat.cast_one, mul_one, size] at divides
    rw [Value.eval, ← intCast_toInt c, ← Int.cast_natCast (R := Word)]
    exact Int.cast_dvd_cast _ _ divides
  | none =>
    rw [hc] at split
    exact Value.Splits.dvd_eval range size hk split

/-! ## The alignment -/

variable {o : ChainOptions} {t : ElementType}

/-- The component in the buffer is the scalar of the access. -/
theorem scalarSize_eq (o : ChainOptions) (t : ElementType) :
    scalarSize o t = 2 ^ rawBufferDataTypeToAddrShiftLog2 o.toOptions t.dataType := by
  unfold scalarSize typeNeedsStorage16bitCast scalarTypeWidth rawBufferDataTypeToAddrShiftLog2
  cases o.native16bitOperations <;> cases o.minPrecisionPreferNative16bit <;> cases t <;> rfl

/-- The bytes of a vector of `2 ^ m` components. -/
theorem vector_size {a : VectorSize} {m : Nat} (ha : a.components = 2 ^ m) :
    a.components * scalarSize o t =
        2 ^ (m + rawBufferDataTypeToAddrShiftLog2 o.toOptions t.dataType) ∧
      (element o.toOptions t.dataType a).size =
        2 ^ (m + rawBufferDataTypeToAddrShiftLog2 o.toOptions t.dataType) := by
  have size : (element o.toOptions t.dataType a).size =
      2 ^ rawBufferDataTypeToAddrShiftLog2 o.toOptions t.dataType * a.components := rfl
  exact ⟨by rw [ha, scalarSize_eq, pow_add], by rw [size, ha, pow_add, mul_comm]⟩

/-- Where the promised alignment holds: the scalar is aligned to its own size, and a raw access is
none of 64 bits that splits for four components. -/
def NaturallyAligned (o : ChainOptions) (stride : Option Word) (t : ElementType)
    (index byteOffset : Value) (env : Nat → Word) : Prop :=
  match stride with
  | none => scalarSize o t ∣ (index.eval env).toNat ∧
      ¬ (t.dataType = .bits64 ∧
        rawAccessByteAddressCanVectorize o.toOptions t.dataType index (.twoPow 2) = true)
  | some stride => scalarSize o t ∣ stride.toNat ∧ scalarSize o t ∣ (byteOffset.eval env).toNat

/-- An alignment divides the address for every base just when it divides the base alignment and the
offset to the base. -/
theorem alignment_dvd_address_iff {wraps : Bool} {chain : RawAccessChain} {base : Nat} :
    (∀ address, base ∣ address → chain.alignment ∣ chain.address wraps env address) ↔
      chain.alignment ∣ base ∧ chain.alignment ∣ chain.address wraps env 0 := by
  have shift (a : Nat) : chain.address wraps env a = a + chain.address wraps env 0 := by
    rw [RawAccessChain.address, RawAccessChain.address, Nat.zero_add]
  constructor
  · intro h
    have zero := h 0 (Nat.dvd_zero base)
    have first := h base (Nat.dvd_refl base)
    rw [shift] at first
    exact ⟨(Nat.dvd_add_iff_left zero).mpr first, zero⟩
  · rintro ⟨first, zero⟩ a ha
    rw [shift]
    exact Nat.dvd_add (first.trans ha) zero

/-- Wrapping in 32 bits does not matter to an alignment. -/
theorem two_pow_dvd_address_iff {k : Nat} (hk : k ≤ 32) {wraps : Bool} {chain : RawAccessChain} :
    2 ^ k ∣ chain.address wraps env 0 ↔
      2 ^ k ∣ chain.stride.toNat * (chain.elementIndex.eval env).toNat +
        (chain.offset.eval env).toNat := by
  have modulus : 2 ^ k ∣ 2 ^ 32 := pow_dvd_pow 2 hk
  rw [RawAccessChain.address, Nat.zero_add]
  cases wraps with
  | false => rfl
  | true =>
    rw [if_pos rfl, BitVec.toNat_add, BitVec.toNat_mul, Nat.mod_add_mod, Nat.dvd_mod_iff modulus]

theorem addrShiftLog2_eq_three_iff (o : Options) (t : DataType) :
    rawBufferDataTypeToAddrShiftLog2 o t = 3 ↔ t = .bits64 := by
  cases t with
  | bits16 =>
    rw [rawBufferDataTypeToAddrShiftLog2]
    split <;> simp
  | bits32 => simp [rawBufferDataTypeToAddrShiftLog2]
  | bits64 => simp [rawBufferDataTypeToAddrShiftLog2]

/-- A byte offset that is vectorized is a multiple of the vector. -/
theorem dvd_of_byteAddressCanVectorize {index : Value} (range : index.ShiftsInRange env)
    {a : VectorSize} {m : Nat} (ha : a.components = 2 ^ m) (hm : m ≠ 0) (small : m ≤ 3)
    (can : rawAccessByteAddressCanVectorize o.toOptions t.dataType index a = true) :
    2 ^ (m + rawBufferDataTypeToAddrShiftLog2 o.toOptions t.dataType) ∣ (index.eval env).toNat := by
  have shift := addrShiftLog2_le o.toOptions t.dataType
  rw [rawAccessByteAddressCanVectorize] at can
  split_ifs at can
  refine dvd_of_extract range (vector_size ha).2 (by omega) ?_ can
  change a.components ≠ 1
  rw [ha]
  exact Nat.ne_of_gt (Nat.one_lt_two_pow hm)

/-- What a raw access is aligned to: 16 bytes at most, unless four components of 64 bits are
split. -/
theorem rawAlignment_spec (o : Options) (t : DataType) (index : Value) :
    ∃ m ≤ 2, (rawAlignment o t index).components = 2 ^ m ∧
      (m + rawBufferDataTypeToAddrShiftLog2 o t ≤ 4 ↔
        ¬ (t = .bits64 ∧ rawAccessByteAddressCanVectorize o t index (.twoPow 2) = true)) ∧
      (m ≠ 0 → rawAccessByteAddressCanVectorize o t index (rawAlignment o t index) = true) := by
  have shift := addrShiftLog2_le o t
  rw [← addrShiftLog2_eq_three_iff o]
  unfold rawAlignment
  by_cases four : rawAccessByteAddressCanVectorize o t index (.twoPow 2) = true
  · rw [if_pos four]
    refine ⟨2, Nat.le_refl 2, rfl, ?_, fun _ => four⟩
    rw [and_iff_left four]
    omega
  · rw [if_neg four]
    by_cases two : rawAccessByteAddressCanVectorize o t index (.twoPow 1) = true
    · rw [if_pos two]
      refine ⟨1, by decide, rfl, ?_, fun _ => two⟩
      exact ⟨fun _ h => four h.2, fun _ => by omega⟩
    · rw [if_neg two]
      refine ⟨0, by decide, rfl, ?_, fun hm => absurd rfl hm⟩
      exact ⟨fun _ h => four h.2, fun _ => by omega⟩

/-- A split for a power of two has a divider. -/
theorem buildIndexDivider_of_split {offset : Value} {e : Element}
    (split : (extractRawBufferAccessSplit offset 1 e).isSome)
    (power : e.vecsize &&& (e.vecsize - 1) = 0) (wrap : Bool) :
    ∃ i, buildIndexDivider offset e wrap = some i := by
  obtain ⟨s, hs⟩ := Option.isSome_iff_exists.mp split
  cases hd : s.dynamicIndex with
  | none =>
    rw [buildIndexDivider, hs]
    simp only [hd]
    exact ⟨_, rfl⟩
  | some d => exact (buildIndexDivider_isSome_iff hs (by rw [hd]; rfl) wrap).mpr fun _ => power

/-- What a structured access is aligned to divides the stride and the byte offset. -/
theorem structuredAlignment_spec (o : ChainOptions) (t : ElementType) (index : Value)
    (stride : Word) {byteOffset : Value} (range : byteOffset.ShiftsInRange env) :
    ∃ m, (structuredAlignment o.toOptions t.dataType (scalarSize o t) index stride
      byteOffset).components = 2 ^ m ∧
      (m ≠ 0 → m + rawBufferDataTypeToAddrShiftLog2 o.toOptions t.dataType ≤ 4 ∧
        2 ^ (m + rawBufferDataTypeToAddrShiftLog2 o.toOptions t.dataType) ∣ stride.toNat ∧
        2 ^ (m + rawBufferDataTypeToAddrShiftLog2 o.toOptions t.dataType) ∣
          (byteOffset.eval env).toNat) := by
  have accepted {a : VectorSize} {m : Nat} (limit : Nat) (ha : a.components = 2 ^ m)
    (hlimit : m + limit ≤ 4) (h : (decide (scalarSize o t ≤ 2 ^ limit) &&
        decide (stride &&& BitVec.ofNat 32 (scalarSize o t * a.components - 1) = 0) &&
        rawAccessStructuredCanVectorize o.toOptions t.dataType index stride byteOffset a) = true)
          (hm : m ≠ 0) :
      m + rawBufferDataTypeToAddrShiftLog2 o.toOptions t.dataType ≤ 4 ∧
        2 ^ (m + rawBufferDataTypeToAddrShiftLog2 o.toOptions t.dataType) ∣ stride.toNat ∧
        2 ^ (m + rawBufferDataTypeToAddrShiftLog2 o.toOptions t.dataType) ∣
            (byteOffset.eval env).toNat := by
    simp only [Bool.and_eq_true, decide_eq_true_eq] at h
    obtain ⟨⟨fits, masked⟩, can⟩ := h
    rw [scalarSize_eq] at fits
    have shift : rawBufferDataTypeToAddrShiftLog2 o.toOptions t.dataType ≤ limit :=
      (Nat.pow_le_pow_iff_right (by decide)).mp fits
    rw [mul_comm, (vector_size ha).1, and_mask_eq_zero_iff (by omega)] at masked
    refine ⟨by omega, masked, ?_⟩
    rw [rawAccessStructuredCanVectorize] at can
    dsimp only at can
    split_ifs at can
    refine dvd_of_extract range (vector_size ha).2 (by omega) ?_ (Bool.and_eq_true_iff.mp can).2
    change a.components ≠ 1
    rw [ha]
    exact Nat.ne_of_gt (Nat.one_lt_two_pow hm)
  unfold structuredAlignment
  cases found : List.find? _ _ with
  | none => exact ⟨0, rfl, fun hm => absurd rfl hm⟩
  | some candidate =>
    have holds := List.find?_some found
    have mem := List.mem_of_find?_eq_some found
    simp only [List.mem_cons, List.not_mem_nil, or_false] at mem
    rcases mem with rfl | rfl | rfl | rfl
    · exact ⟨3, rfl, accepted 1 rfl (by decide) holds⟩
    · exact ⟨2, rfl, accepted 2 rfl (by decide) holds⟩
    · exact ⟨1, rfl, accepted 3 rfl (by decide) holds⟩
    · exact ⟨0, rfl, fun hm => absurd rfl hm⟩

/-- The chain of a raw access. -/
theorem rawChain_iff (o : ChainOptions) (t : ElementType) {index : Value} (byteOffset : Value)
    (n : VectorSize) (wraps : Bool) (range : index.ShiftsInRange env) :
    ∃ chain, emitRawAccessChain o none t index byteOffset n = some chain ∧
      ((∀ address, 16 ∣ address → chain.alignment ∣ chain.address wraps env address) ↔
        NaturallyAligned o none t index byteOffset env) := by
  obtain ⟨m, small, ha, capped, can⟩ := rawAlignment_spec o.toOptions t.dataType index
  have shift := addrShiftLog2_le o.toOptions t.dataType
  obtain ⟨bytes, size⟩ := vector_size (o := o) (t := t) ha
  have vector (hm : m ≠ 0) := dvd_of_byteAddressCanVectorize range ha hm (by omega) (can hm)
  have scalar : 2 ^ rawBufferDataTypeToAddrShiftLog2 o.toOptions t.dataType ∣
      2 ^ (m + rawBufferDataTypeToAddrShiftLog2 o.toOptions t.dataType) :=
    pow_dvd_pow 2 (Nat.le_add_left _ _)
  have sixteen : 2 ^ (m + rawBufferDataTypeToAddrShiftLog2 o.toOptions t.dataType) ∣ 2 ^ 4 ↔
      m + rawBufferDataTypeToAddrShiftLog2 o.toOptions t.dataType ≤ 4 :=
    Nat.pow_dvd_pow_iff_le_right (by decide)
  -- the two chains differ in the bytes that are addressed only
  have aligned {chain : RawAccessChain}
      (alignment : chain.alignment =
        2 ^ (m + rawBufferDataTypeToAddrShiftLog2 o.toOptions t.dataType))
      (addressed : 2 ^ (m + rawBufferDataTypeToAddrShiftLog2 o.toOptions t.dataType) ∣
        chain.address wraps env 0 ↔
        2 ^ rawBufferDataTypeToAddrShiftLog2 o.toOptions t.dataType ∣ (index.eval env).toNat) :
      (∀ address, 16 ∣ address → chain.alignment ∣ chain.address wraps env address) ↔
        NaturallyAligned o none t index byteOffset env := by
    rw [alignment_dvd_address_iff, alignment, show 16 = 2 ^ 4 from rfl, sixteen, addressed, capped,
      NaturallyAligned, scalarSize_eq]
    exact and_comm
  simp only [emitRawAccessChain, bytes]
  split_ifs with perElement
  · have hm : m ≠ 0 := by
      rintro rfl
      exact perElement.1 ha
    have split := can hm
    rw [rawAccessByteAddressCanVectorize] at split
    split_ifs at split
    have power : (rawAlignment o.toOptions t.dataType index).components &&&
        ((rawAlignment o.toOptions t.dataType index).components - 1) = 0 := by
      rw [ha, Nat.and_sub_one_eq_zero_iff_isPowerOfTwo (Nat.ne_of_gt (Nat.two_pow_pos m))]
      exact ⟨m, rfl⟩
    obtain ⟨i, hi⟩ := buildIndexDivider_of_split split power
      (!o.rawAccessChainWraps32bitBeforeRobustness || o.expectAssume)
    rw [hi]
    refine ⟨_, rfl, aligned rfl ?_⟩
    rw [two_pow_dvd_address_iff (by omega)]
    dsimp only [Emitted.eval]
    have stride :
      (BitVec.ofNat 32 (2 ^ (m + rawBufferDataTypeToAddrShiftLog2 o.toOptions t.dataType))).toNat =
        2 ^ (m + rawBufferDataTypeToAddrShiftLog2 o.toOptions t.dataType) := by
      rw [BitVec.toNat_ofNat, Nat.mod_eq_of_lt (Nat.pow_lt_pow_right (by decide) (by omega))]
    rw [stride]
    exact ⟨fun _ => scalar.trans (vector hm),
      fun _ => Nat.dvd_add (Nat.dvd_mul_right _ _) (Nat.dvd_zero _)⟩
  · refine ⟨_, rfl, aligned rfl ?_⟩
    rw [two_pow_dvd_address_iff (by omega)]
    dsimp only [Emitted.eval]
    rw [show (0 : Word).toNat = 0 from rfl, Nat.zero_mul, Nat.zero_add]
    refine ⟨scalar.trans, fun h => ?_⟩
    by_cases hm : m = 0
    · rwa [hm, Nat.zero_add]
    · exact vector hm

/-- The chain of a structured access. -/
theorem structuredChain_iff (o : ChainOptions) (t : ElementType) (index : Value)
    {byteOffset : Value} (stride : Word) (n : VectorSize) (wraps : Bool)
    (range : byteOffset.ShiftsInRange env) :
    ∃ chain, emitRawAccessChain o (some stride) t index byteOffset n = some chain ∧
      ((∀ address, Nat.gcd stride.toNat 16 ∣ address →
        chain.alignment ∣ chain.address wraps env address) ↔
        NaturallyAligned o (some stride) t index byteOffset env) := by
  obtain ⟨m, ha, vector⟩ := structuredAlignment_spec o t index stride range
  have shift := addrShiftLog2_le o.toOptions t.dataType
  have small : m + rawBufferDataTypeToAddrShiftLog2 o.toOptions t.dataType ≤ 4 := by
    by_cases hm : m = 0
    · omega
    · exact (vector hm).1
  obtain ⟨bytes, -⟩ := vector_size (o := o) (t := t) ha
  refine ⟨_, rfl, ?_⟩
  rw [alignment_dvd_address_iff]
  dsimp only
  have sixteen : 2 ^ (m + rawBufferDataTypeToAddrShiftLog2 o.toOptions t.dataType) ∣ 16 :=
    pow_dvd_pow 2 (n := 4) small
  rw [bytes, two_pow_dvd_address_iff (by omega), NaturallyAligned, scalarSize_eq, Nat.dvd_gcd_iff,
    and_iff_left sixteen]
  by_cases hm : m = 0
  · subst hm
    rw [Nat.zero_add]
    exact and_congr_right fun h => (Nat.dvd_add_iff_right (Dvd.dvd.mul_right h _)).symm
  · have scalar : 2 ^ rawBufferDataTypeToAddrShiftLog2 o.toOptions t.dataType ∣
        2 ^ (m + rawBufferDataTypeToAddrShiftLog2 o.toOptions t.dataType) :=
      pow_dvd_pow 2 (Nat.le_add_left _ _)
    obtain ⟨-, dvd_stride, dvd_offset⟩ := vector hm
    exact ⟨fun _ => ⟨scalar.trans dvd_stride, scalar.trans dvd_offset⟩,
      fun _ => ⟨dvd_stride, Nat.dvd_add (Dvd.dvd.mul_right dvd_stride _) dvd_offset⟩⟩

/-- **Raw access chains.** A chain is always emitted, and for every base of the guaranteed alignment
its alignment divides the address exactly where the access is naturally aligned, and is no raw
access of 64 bits that splits for four components. -/
theorem rawAccessChain_aligned_iff (o : ChainOptions) (stride : Option Word) (t : ElementType)
    (index byteOffset : Value) (n : VectorSize) (wraps : Bool) (env : Nat → Word)
    (rangeIndex : index.ShiftsInRange env) (rangeOffset : byteOffset.ShiftsInRange env) :
    ∃ chain, emitRawAccessChain o stride t index byteOffset n = some chain ∧
      ((∀ address, baseAlignment stride ∣ address →
        chain.alignment ∣ chain.address wraps env address) ↔
        NaturallyAligned o stride t index byteOffset env) := by
  cases stride with
  | none => exact rawChain_iff o t byteOffset n wraps rangeIndex
  | some stride => exact structuredChain_iff o t index stride n wraps rangeOffset

/-- An implementation with raw access chains that wrap. -/
def rawChains : ChainOptions where
  toOptions := scalarLayout
  rawAccessChainWraps32bitBeforeRobustness := true
  minPrecisionPreferNative16bit := false

/-- Two doubles of a structured buffer with a stride of 24 bytes, at the third one. -/
theorem doubles_aligned :
    ∃ chain, emitRawAccessChain rawChains (some 24) .double (.leaf 0) (.constantInt 16)
      (.twoPow 1) = some chain ∧ ((∀ address, baseAlignment (some 24) ∣ address →
        chain.alignment ∣ chain.address true (fun _ => 5) address) ↔
      NaturallyAligned rawChains (some 24) .double (.leaf 0) (.constantInt 16) fun _ => 5) :=
  rawAccessChain_aligned_iff rawChains (some 24) .double (.leaf 0) (.constantInt 16)
    (.twoPow 1) true (fun _ => 5) trivial trivial

/-- Four doubles at the byte offset `32 * i` are promised 32 bytes, and the base has 16. -/
theorem doubles_overaligned :
    (emitRawAccessChain rawChains none .double (.binaryOperator .mul (.leaf 0) (.constantInt 32))
      (.constantInt 0) (.twoPow 2)).map RawAccessChain.alignment = some 32 ∧
    ¬ ∀ (o : ChainOptions) (stride : Option Word) (t : ElementType) (index byteOffset :
      Value) (n : VectorSize)
      (wraps : Bool) (env : Nat → Word), index.ShiftsInRange env → byteOffset.ShiftsInRange env →
      ∃ chain, emitRawAccessChain o stride t index byteOffset n = some chain ∧
        ∀ address, baseAlignment stride ∣ address →
          chain.alignment ∣ chain.address wraps env address := by
  have emitted :
    (emitRawAccessChain rawChains none .double (.binaryOperator .mul (.leaf 0) (.constantInt 32))
      (.constantInt 0) (.twoPow 2)).map RawAccessChain.alignment = some 32 := by
    decide
  refine ⟨emitted, fun h => ?_⟩
  obtain ⟨chain, hchain, aligned⟩ := h rawChains none .double
    (.binaryOperator .mul (.leaf 0) (.constantInt 32)) (.constantInt 0) (.twoPow 2) true
      (fun _ => 0)
    ⟨trivial, trivial, by simp⟩ trivial
  have value : emitRawAccessChain rawChains none .double
      (.binaryOperator .mul (.leaf 0) (.constantInt 32)) (.constantInt 0) (.twoPow 2) =
        some ⟨0, .makeUintConstant 0, .value (.binaryOperator .mul (.leaf 0) (.constantInt 32)),
          false, 32⟩ := rfl
  cases value.symm.trans hchain
  have divides := aligned 16 (by decide)
  revert divides
  decide

end DxilSpirv.Buffer
