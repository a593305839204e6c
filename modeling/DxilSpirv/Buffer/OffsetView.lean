import DxilSpirv.Buffer.Lowering
import Mathlib.Data.Nat.Bitwise
import Mathlib.Data.Nat.Prime.Basic

/-!
# Views through an offset buffer

Where a binding is less aligned than the implementation asks for, the byte offset and length of the
view are loaded and applied to the index of each access. Only the first element of an access is
compared with the length, so the accesses of a view are confined to it exactly where each touches
one element, the offset is a multiple of it, and the index that is fabricated out of bounds is past
the buffer.
-/

namespace DxilSpirv.Buffer

/-- The loop `while (ssbo_element_size > 1)` that counts the shift. -/
def shiftAmount (ssboElementSize : Nat) : Nat :=
  if h : ssboElementSize > 1 then shiftAmount (ssboElementSize / 2) + 1 else 0
termination_by ssboElementSize
decreasing_by exact Nat.div_lt_self (by omega) (by decide)

theorem shiftAmount_two_pow (k : Nat) : shiftAmount (2 ^ k) = k := by
  induction k with
  | zero =>
    rw [shiftAmount]
    rfl
  | succ k ih =>
    have large : 2 ^ (k + 1) > 1 := Nat.one_lt_two_pow (Nat.succ_ne_zero k)
    have half : 2 ^ (k + 1) / 2 = 2 ^ k := by rw [Nat.pow_succ, Nat.mul_div_cancel _ (by decide)]
    rw [shiftAmount, dif_pos large, half, ih]

/-- `build_load_buffer_offset`: the loaded offset and length, shifted once for an unaliased untyped
buffer. -/
def buildLoadBufferOffset (m : ResourceMeta) (loaded : Word × Word) : Word × Word :=
  let untypedBuffer := m.storage ≠ .uniformConstant ∧ m.kind ≠ .typedBuffer
  if untypedBuffer ∧ ¬ m.aliased then
    let shamt := shiftAmount (m.rawComponentVecsize * m.componentBits / 8)
    (loaded.1 >>> shamt, loaded.2 >>> shamt)
  else loaded

/-- The index that trips the bounds check of the buffer. -/
def oobIndex (kind : ResourceKind) (addrShiftLog2 : Nat) (rawVecsize vecsize : VectorSize) : Word :=
  if kind = .typedBuffer then 0xffffffff
  else if rawVecsize.components ≠ 1 then
    (0xffffffff : Word) >>> (addrShiftLog2 + Nat.log2 rawVecsize.components)
  else
    -- room for the elements after the first
    let safeRegion := max 3 (vecsize.components - 1)
    BitVec.ofNat 32 ((2 ^ 32 - 1) / 2 ^ addrShiftLog2 - safeRegion)

/-- The last part of `build_buffer_access`: the offset is added to an index below the length, and
any other index is replaced. The vector size is asserted to be a power of two. -/
def applyIndexOffset (m : ResourceMeta) (addrShiftLog2 : Nat) (rawVecsize vecsize : VectorSize)
    (indexOffset : Word × Word) (index : Word) : Option Word :=
  if rawVecsize.npot then none
  else
    let shamt := addrShiftLog2 + Nat.log2 rawVecsize.components
    let indexOffset :=
      if m.aliased then (indexOffset.1 >>> shamt, indexOffset.2 >>> shamt) else indexOffset
    some (if index.toNat < indexOffset.2.toNat then index + indexOffset.1
      else oobIndex m.kind addrShiftLog2 rawVecsize vecsize)

/-- The elements that an access touches: one vector, or each component. -/
def touchedElements (rawVecsize vecsize : VectorSize) : Nat :=
  if rawVecsize.components ≠ 1 then 1 else vecsize.components

/-- A view of a buffer, as the offset buffer has it. The range of a descriptor is a 32-bit
number. -/
structure View where
  offset : Word
  length : Word
  size : Nat
  inside : offset.toNat + length.toNat ≤ size
  size_lt : size < 2 ^ 32

/-- What an access of a view has to do: inside the view it has the bytes at the offset, no element
is in the buffer but outside the view, and each element beyond the view is at or above the
out-of-bounds index. -/
structure Confined (v : View) (elementSize count : Nat) (oob index final : Word) : Prop where
  inside : (index.toNat + count) * elementSize ≤ v.length.toNat →
    final.toNat * elementSize = v.offset.toNat + index.toNat * elementSize
  confined : ∀ i < count, ((final + BitVec.ofNat 32 i).toNat + 1) * elementSize ≤ v.size →
    v.offset.toNat ≤ (final + BitVec.ofNat 32 i).toNat * elementSize ∧
      ((final + BitVec.ofNat 32 i).toNat + 1) * elementSize ≤ v.offset.toNat + v.length.toNat
  beyond : ∀ i < count, v.length.toNat < (index.toNat + i + 1) * elementSize →
    oob.toNat ≤ (final + BitVec.ofNat 32 i).toNat

/-- Where the accesses of a view are confined: the elements of a fabricated index are past the
buffer, or in the view, and unless the view is shorter than an element, the offset is a multiple of
the element and a single element is touched, or the view ends at the out-of-bounds index and at the
end of the buffer. -/
structure ViewExact (v : View) (elementSize count oob : Nat) : Prop where
  fabricated : ∀ i < count, (oob + i + 1) * elementSize ≤ v.size →
    v.offset.toNat ≤ (oob + i) * elementSize ∧
      (oob + i + 1) * elementSize ≤ v.offset.toNat + v.length.toNat
  aligned : elementSize ≤ v.length.toNat → elementSize ∣ v.offset.toNat
  single : elementSize ≤ v.length.toNat → count = 1 ∨
    oob ≤ v.offset.toNat / elementSize + v.length.toNat / elementSize ∧
      v.size < v.offset.toNat + (v.length.toNat / elementSize + 1) * elementSize

/-- The final index of an access, in elements of a size. -/
def finalIndex (v : View) (elementSize : Nat) (oob index : Word) : Word :=
  if index.toNat < v.length.toNat / elementSize then
    index + BitVec.ofNat 32 (v.offset.toNat / elementSize)
  else oob

variable {v : View} {e count : Nat} {oob : Word}

/-- Inside the view the index is moved by the whole elements of the offset, without wrapping. -/
theorem finalIndex_of_lt (v : View) (oob : Word) (large : 2 ≤ e) {index : Word}
    (h : index.toNat < v.length.toNat / e) {i : Nat} (hi : i ≤ 2 ^ 30) :
    (finalIndex v e oob index + BitVec.ofNat 32 i).toNat =
      index.toNat + v.offset.toNat / e + i := by
  have inside := v.inside
  have size := v.size_lt
  have offset : v.offset.toNat / e ≤ v.offset.toNat / 2 := Nat.div_le_div_left large (by decide)
  have length : v.length.toNat / e ≤ v.length.toNat / 2 := Nat.div_le_div_left large (by decide)
  rw [finalIndex, if_pos h, BitVec.toNat_add, BitVec.toNat_add, BitVec.toNat_ofNat,
    BitVec.toNat_ofNat]
  generalize v.offset.toNat / e = off at offset ⊢
  generalize v.length.toNat / e = len at length h
  omega

/-- Outside it is the out-of-bounds index. -/
theorem finalIndex_of_le (v : View) (oob : Word) {index : Word}
    (h : v.length.toNat / e ≤ index.toNat) {i : Nat} (room : oob.toNat + i < 2 ^ 32) :
    (finalIndex v e oob index + BitVec.ofNat 32 i).toNat = oob.toNat + i := by
  rw [finalIndex, if_neg (by omega), BitVec.toNat_add, BitVec.toNat_ofNat]
  omega

/-- Where the condition holds, the access at each index is confined. -/
theorem confined_of_viewExact (large : 2 ≤ e) (few : count ≤ 2 ^ 30) (pos : 0 < count)
    (room : oob.toNat + count ≤ 2 ^ 32) (h : ViewExact v e count oob.toNat) (index : Word) :
    Confined v e count oob index (finalIndex v e oob index) := by
  have e_pos : 0 < e := by omega
  have whole := Nat.div_mul_le_self v.length.toNat e
  have next : v.length.toNat < (v.length.toNat / e + 1) * e := by
    rw [← Nat.div_lt_iff_lt_mul e_pos]
    exact Nat.lt_succ_self _
  rcases Nat.lt_or_ge index.toNat (v.length.toNat / e) with below | above
  · -- the first element is in the view, and the offset is a multiple of the element
    have fits : e ≤ v.length.toNat := by
      by_contra no
      rw [Nat.div_eq_of_lt (by omega)] at below
      omega
    have offset := Nat.div_mul_cancel (h.aligned fits)
    have final (i : Nat) (hi : i < count) := finalIndex_of_lt v oob large below (i := i) (by omega)
    have bytes (i : Nat) : (index.toNat + v.offset.toNat / e + i) * e =
        v.offset.toNat + (index.toNat + i) * e := by
      rw [← offset, Nat.add_mul, Nat.add_mul, Nat.add_mul, Nat.mul_div_cancel _ e_pos]
      omega
    have beyondView (i : Nat) (hi : i < count) (out : v.length.toNat / e ≤ index.toNat + i) :
        oob.toNat ≤ v.offset.toNat / e + v.length.toNat / e ∧
          v.size < v.offset.toNat + (v.length.toNat / e + 1) * e :=
      (h.single fits).resolve_left (by omega)
    refine ⟨fun _ => ?_, fun i hi inBuffer => ?_, fun i hi out => ?_⟩
    · have first := final 0 pos
      rw [BitVec.add_zero, Nat.add_zero] at first
      have start := bytes 0
      rw [first]
      simpa using start
    · have lower := bytes i
      have upper := bytes (i + 1)
      rw [← Nat.add_assoc, ← Nat.add_assoc] at upper
      rw [final i hi] at inBuffer ⊢
      have inView : index.toNat + i < v.length.toNat / e := by
        by_contra out
        have ends := (beyondView i hi (by omega)).2
        have := Nat.mul_le_mul_right e (show v.length.toNat / e + 1 ≤ index.toNat + i + 1 by omega)
        omega
      have := Nat.mul_le_mul_right e (show index.toNat + i + 1 ≤ v.length.toNat / e by omega)
      exact ⟨by omega, by omega⟩
    · rw [final i hi]
      have out' : v.length.toNat / e ≤ index.toNat + i := by
        by_contra no
        have := Nat.mul_le_mul_right e (show index.toNat + i + 1 ≤ v.length.toNat / e by omega)
        omega
      have := (beyondView i hi out').1
      omega
  · have final (i : Nat) (hi : i < count) := finalIndex_of_le v oob above (i := i) (by omega)
    refine ⟨fun inView => ?_, fun i hi inBuffer => ?_, fun i hi _ => ?_⟩
    · have := (Nat.le_div_iff_mul_le e_pos).mpr inView
      omega
    · rw [final i hi] at inBuffer ⊢
      exact h.fabricated i hi inBuffer
    · rw [final i hi]
      omega

/-- Where the access at each index is confined, the condition holds. -/
theorem viewExact_of_confined (large : 2 ≤ e) (few : count ≤ 2 ^ 30) (pos : 0 < count)
    (room : oob.toNat + count ≤ 2 ^ 32)
    (h : ∀ index, Confined v e count oob index (finalIndex v e oob index)) :
    ViewExact v e count oob.toNat := by
  have e_pos : 0 < e := by omega
  have next : v.length.toNat < (v.length.toNat / e + 1) * e := by
    rw [← Nat.div_lt_iff_lt_mul e_pos]
    exact Nat.lt_succ_self _
  have wordOf {x : Nat} (hx : x ≤ v.length.toNat) : (BitVec.ofNat 32 x).toNat = x := by
    rw [BitVec.toNat_ofNat, Nat.mod_eq_of_lt (by have := v.length.isLt; omega)]
  have short : v.length.toNat / e ≤ v.length.toNat := Nat.div_le_self _ _
  have aligned (fits : e ≤ v.length.toNat) : e ∣ v.offset.toNat := by
    -- the element at the first index starts below the view otherwise
    have some_ : 0 < v.length.toNat / e := Nat.div_pos fits e_pos
    have zero : (0 : Word).toNat < v.length.toNat / e := by simpa using some_
    have first := finalIndex_of_lt v oob large zero (i := 0) (by decide)
    have confined := (h 0).confined 0 pos
    rw [first] at confined
    have down := Nat.div_mul_le_self v.offset.toNat e
    have inside := v.inside
    have start := (confined (by
      simp only [BitVec.ofNat_eq_ofNat, BitVec.toNat_ofNat, Nat.zero_mod, Nat.zero_add,
        Nat.add_zero, Nat.add_mul, Nat.one_mul]
      omega)).1
    simp only [BitVec.ofNat_eq_ofNat, BitVec.toNat_ofNat, Nat.zero_mod, Nat.zero_add, Nat.add_zero]
      at start
    exact ⟨v.offset.toNat / e, by rw [Nat.mul_comm]; omega⟩
  refine ⟨fun i hi inBuffer => ?_, aligned, fun fits => ?_⟩
  · -- an index past the view is replaced
    have past : v.length.toNat / e ≤ (BitVec.ofNat 32 (v.length.toNat / e)).toNat := by
      rw [wordOf short]
    have final := finalIndex_of_le v oob past (i := i) (by omega)
    have confined := (h (BitVec.ofNat 32 (v.length.toNat / e))).confined i hi
    rw [final] at confined
    exact confined inBuffer
  · -- the second element at the last index is beyond the view
    refine or_iff_not_imp_left.mpr fun many => ?_
    have some_ : 0 < v.length.toNat / e := Nat.div_pos fits e_pos
    have last := wordOf (show v.length.toNat / e - 1 ≤ v.length.toNat by omega)
    have below : (BitVec.ofNat 32 (v.length.toNat / e - 1)).toNat < v.length.toNat / e := by
      rw [last]; omega
    have second := finalIndex_of_lt v oob large below (i := 1) (by decide)
    have access := h (BitVec.ofNat 32 (v.length.toNat / e - 1))
    have beyond := access.beyond 1 (by omega)
    have confined := access.confined 1 (by omega)
    rw [second, last] at beyond confined
    have index : v.length.toNat / e - 1 + 1 = v.length.toNat / e := by omega
    have place : v.length.toNat / e - 1 + v.offset.toNat / e + 1 =
      v.offset.toNat / e + v.length.toNat / e := by omega
    rw [index, place] at beyond
    rw [place] at confined
    refine ⟨beyond next, ?_⟩
    by_contra no
    have offset := Nat.div_mul_cancel (aligned fits)
    have bytes : (v.offset.toNat / e + v.length.toNat / e + 1) * e =
        v.offset.toNat + (v.length.toNat / e + 1) * e := by
      rw [Nat.add_assoc, Nat.add_mul, offset]
    have := (confined (by omega)).2
    omega

/-- The alignment that a view has to have: 16 bytes for a raw buffer, and for a structured one the
largest power of two that divides the stride. -/
def viewAlignment (m : ResourceMeta) : Word :=
  if m.kind = .rawBuffer then 16 else m.stride &&& -m.stride

/-- `get_ssbo_offset_buffer_id`: an offset buffer is used where the view can be less aligned than an
SSBO. -/
def useOffsets (o : Options) (m : ResourceMeta) : Prop :=
  m.kind ≠ .typedBuffer ∧ viewAlignment m &&& (o.ssboAlignment - 1) ≠ 0

/-- An element is its alignment and the bits above its lowest one. -/
theorem Element.alignment_add (e : Element) : e.alignment + (e.size &&& (e.size - 1)) = e.size := by
  have bound : e.size < 2 ^ 31 := e.size_lt
  have pos := e.size_pos
  have parts := Spirv.and_add_and_not (BitVec.ofNat 32 e.size) (BitVec.ofNat 32 (e.size - 1))
  have low : (BitVec.ofNat 32 e.size &&& BitVec.ofNat 32 (e.size - 1)).toNat =
      e.size &&& (e.size - 1) := by
    rw [BitVec.toNat_and, BitVec.toNat_ofNat, BitVec.toNat_ofNat, Nat.mod_eq_of_lt (by omega),
      Nat.mod_eq_of_lt (by omega)]
  have high : (BitVec.ofNat 32 e.size &&& ~~~ BitVec.ofNat 32 (e.size - 1)).toNat =
      e.alignment := by
    rw [BitVec.toNat_and, BitVec.toNat_not, BitVec.toNat_ofNat, BitVec.toNat_ofNat,
      Nat.mod_eq_of_lt (by omega), Nat.mod_eq_of_lt (by omega), Element.alignment]
    congr 1
    omega
  have sum := congrArg BitVec.toNat parts
  have lowSmall : e.size &&& (e.size - 1) ≤ e.size := Nat.and_le_left
  have highSmall : e.alignment ≤ e.size := Nat.and_le_left
  rw [BitVec.toNat_add, low, high, BitVec.toNat_ofNat,
    Nat.mod_eq_of_lt (show e.size < 2 ^ 32 by omega),
    Nat.mod_eq_of_lt (by omega)] at sum
  omega

/-- The components of an element that is its own alignment are a power of two. -/
theorem npot_eq_false {o : Options} {t : DataType} {n : VectorSize}
    (h : (element o t n).size ≤ (element o t n).alignment) : n.npot = false := by
  have sum := (element o t n).alignment_add
  have power : (element o t n).size &&& ((element o t n).size - 1) = 0 := by omega
  obtain ⟨k, hk⟩ :=
    (Nat.and_sub_one_eq_zero_iff_isPowerOfTwo (Nat.ne_of_gt (element o t n).size_pos)).mp power
  have divides : n.components ∣ 2 ^ k := ⟨2 ^ rawBufferDataTypeToAddrShiftLog2 o t, by
    rw [← hk, Nat.mul_comm]
    rfl⟩
  obtain ⟨r, -, hr⟩ := (Nat.dvd_prime_pow Nat.prime_two).mp divides
  have := (Nat.and_sub_one_eq_zero_iff_isPowerOfTwo (Nat.ne_of_gt n.pos)).mpr ⟨r, hr⟩
  simpa [VectorSize.npot] using this

/-- Where an offset buffer is used, the vector size is a power of two. -/
theorem vectorize_power {o : Options} {m : ResourceMeta} {t : DataType} {index byteOffset : Value}
    {n raw : VectorSize} (real : o.ssboAlignment ≠ 0) (used : useOffsets o m)
    (chosen : (buildElementIndex o m t index byteOffset n).map Prod.snd = some raw) :
    raw.npot = false := by
  have scalar : VectorSize.scalar.npot = false := rfl
  rw [buildElementIndex] at chosen
  cases kind : m.kind with
  | typedBuffer => exact absurd kind used.1
  | rawBuffer =>
    rw [kind] at chosen
    simp only [Option.map_map, Option.map_eq_some_iff, Function.comp] at chosen
    obtain ⟨-, -, rfl⟩ := chosen
    have large : o.ssboAlignment.toNat > 16 := by
      by_contra no
      have needed := used.2
      rw [viewAlignment, if_pos kind] at needed
      apply needed
      have pos : 0 < o.ssboAlignment.toNat := Nat.pos_of_ne_zero fun zero =>
        real (BitVec.eq_of_toNat_eq zero)
      have small : (o.ssboAlignment - 1).toNat < 2 ^ 4 := by
        rw [BitVec.toNat_sub_of_le (by rw [BitVec.le_def]; exact pos)]
        have one : (1 : Word).toNat = 1 := rfl
        omega
      apply BitVec.eq_of_toNat_eq
      rw [BitVec.toNat_and]
      change 2 ^ 4 &&& (o.ssboAlignment - 1).toNat = 0
      rw [Nat.two_pow_and, Nat.testBit_lt_two_pow small]
      rfl
    rw [rawAccessByteAddressVectorize]
    split_ifs with one can
    · exact scalar
    · by_contra npot
      rw [Bool.not_eq_false] at npot
      rw [rawAccessByteAddressCanVectorize] at can
      simp [npot, large] at can
    · exact scalar
  | structuredBuffer =>
    rw [kind] at chosen
    simp only [Option.map_map, Option.map_eq_some_iff, Function.comp] at chosen
    obtain ⟨-, -, rfl⟩ := chosen
    have unaligned : (m.stride &&& (o.ssboAlignment - 1) != 0) = true := by
      have needed := used.2
      rw [viewAlignment, if_neg (by rw [kind]; decide)] at needed
      rw [bne_iff_ne]
      intro zero
      apply needed
      rw [BitVec.and_assoc, BitVec.and_comm (-m.stride), ← BitVec.and_assoc, zero]
      exact BitVec.zero_and
    rw [rawAccessStructuredVectorize]
    split_ifs with one can
    · exact scalar
    · apply npot_eq_false (o := o) (t := t)
      by_contra no
      rw [rawAccessStructuredCanVectorize] at can
      dsimp only at can
      have oversized : decide ((element o t n).size > (element o t n).alignment) = true := by
        rw [decide_eq_true_iff]
        omega
      rw [unaligned, oversized] at can
      simp at can
    · exact scalar

/-- The loaded offset and length, in elements, by the time that they are applied. -/
theorem applyIndexOffset_eq {o : Options} {m : ResourceMeta} {t : DataType} {n raw : VectorSize}
    (untyped : m.storage ≠ .uniformConstant ∧ m.kind ≠ .typedBuffer) (power : raw.npot = false)
    (declared : m.aliased = false →
      m.rawComponentVecsize * m.componentBits / 8 = (element o t raw).size)
    (v : View) (index : Word) :
    applyIndexOffset m (rawBufferDataTypeToAddrShiftLog2 o t) raw n
        (buildLoadBufferOffset m (v.offset, v.length)) index =
      some (finalIndex v (element o t raw).size
        (oobIndex m.kind (rawBufferDataTypeToAddrShiftLog2 o t) raw n) index) := by
  obtain ⟨r, hr⟩ := (Nat.and_sub_one_eq_zero_iff_isPowerOfTwo (Nat.ne_of_gt raw.pos)).mp
    (by simpa [VectorSize.npot] using power)
  have size : (element o t raw).size = 2 ^ (rawBufferDataTypeToAddrShiftLog2 o t + r) := by
    rw [Nat.pow_add, ← hr]
    rfl
  have log : Nat.log2 raw.components = r := by rw [hr, Nat.log2_two_pow]
  have shifted (x : Word) : x >>> (rawBufferDataTypeToAddrShiftLog2 o t + r) =
      BitVec.ofNat 32 (x.toNat / (element o t raw).size) := by
    apply BitVec.eq_of_toNat_eq
    have := x.isLt
    rw [BitVec.toNat_ushiftRight, Nat.shiftRight_eq_div_pow, size, BitVec.toNat_ofNat,
      Nat.mod_eq_of_lt ((Nat.div_le_self _ _).trans_lt this)]
  have shiftedNat (x : Word) : (x >>> (rawBufferDataTypeToAddrShiftLog2 o t + r)).toNat =
      x.toNat / (element o t raw).size := by
    rw [BitVec.toNat_ushiftRight, Nat.shiftRight_eq_div_pow, size]
  have loaded : (if m.aliased then
      ((buildLoadBufferOffset m (v.offset, v.length)).1 >>>
        (rawBufferDataTypeToAddrShiftLog2 o t + r),
        (buildLoadBufferOffset m (v.offset, v.length)).2 >>>
          (rawBufferDataTypeToAddrShiftLog2 o t + r))
      else buildLoadBufferOffset m (v.offset, v.length)) =
      (v.offset >>> (rawBufferDataTypeToAddrShiftLog2 o t + r),
        v.length >>> (rawBufferDataTypeToAddrShiftLog2 o t + r)) := by
    rw [buildLoadBufferOffset]
    cases aliased : m.aliased with
    | true => simp
    | false =>
      have amount : shiftAmount (m.rawComponentVecsize * m.componentBits / 8) =
          rawBufferDataTypeToAddrShiftLog2 o t + r := by
        rw [declared aliased, size, shiftAmount_two_pow]
      simp [untyped, amount]
  rw [applyIndexOffset, if_neg (by simp [power]), log]
  dsimp only
  rw [loaded, finalIndex, shiftedNat, shifted]

/-- The out-of-bounds index leaves room for the elements of an access. -/
theorem oobIndex_room (o : Options) (t : DataType) (n raw : VectorSize) {kind : ResourceKind}
    (untyped : kind ≠ .typedBuffer) :
    (oobIndex kind (rawBufferDataTypeToAddrShiftLog2 o t) raw n).toNat + touchedElements raw n ≤
      2 ^ 32 := by
  rw [oobIndex, if_neg untyped, touchedElements]
  split_ifs with vector
  · exact BitVec.isLt _
  · have small := Nat.mod_le
      ((2 ^ 32 - 1) / 2 ^ rawBufferDataTypeToAddrShiftLog2 o t - max 3 (n.components - 1)) (2 ^ 32)
    have quotient := Nat.div_le_self (2 ^ 32 - 1) (2 ^ rawBufferDataTypeToAddrShiftLog2 o t)
    have large : 2 ^ 10 ≤ (2 ^ 32 - 1) / 2 ^ rawBufferDataTypeToAddrShiftLog2 o t := by
      have power := Nat.pow_le_pow_right (show 0 < 2 by decide) (addrShiftLog2_le o t)
      calc
        2 ^ 10 ≤ (2 ^ 32 - 1) / 2 ^ 3 := by decide
        _ ≤ _ := Nat.div_le_div_left power (Nat.two_pow_pos _)
    have := n.le
    have := n.pos
    rw [BitVec.toNat_ofNat]
    omega

/-- **Offset views.** Where an offset buffer is used, its offset is always applied, and the accesses
of a view are confined at every index exactly where the condition holds for the element that was
chosen. -/
theorem offsetAccess_confined_iff (o : Options) (m : ResourceMeta) (t : DataType)
    (index byteOffset : Value)
    (n raw : VectorSize) (real : o.ssboAlignment ≠ 0) (used : useOffsets o m)
    (untyped : m.storage ≠ .uniformConstant)
    (chosen : (buildElementIndex o m t index byteOffset n).map Prod.snd = some raw)
    (declared : m.aliased = false →
      m.rawComponentVecsize * m.componentBits / 8 = (element o t raw).size)
    (v : View) :
    (∀ i : Word, ∃ final, applyIndexOffset m (rawBufferDataTypeToAddrShiftLog2 o t) raw n
        (buildLoadBufferOffset m (v.offset, v.length)) i = some final ∧
      Confined v (element o t raw).size (touchedElements raw n)
        (oobIndex m.kind (rawBufferDataTypeToAddrShiftLog2 o t) raw n) i final) ↔
      ViewExact v (element o t raw).size (touchedElements raw n)
        (oobIndex m.kind (rawBufferDataTypeToAddrShiftLog2 o t) raw n).toNat := by
  have applied := applyIndexOffset_eq (n := n) ⟨untyped, used.1⟩
    (vectorize_power real used chosen) declared v
  have room := oobIndex_room o t n raw used.1
  have large : 2 ≤ (element o t raw).size := by
    have scalar : 2 ^ 1 ≤ 2 ^ rawBufferDataTypeToAddrShiftLog2 o t := by
      apply Nat.pow_le_pow_right (by decide)
      cases t with
      | bits16 =>
        rw [rawBufferDataTypeToAddrShiftLog2]
        split <;> decide
      | bits32 => exact Nat.le_add_left 1 1
      | bits64 => exact Nat.le_add_left 1 2
    exact scalar.trans (Nat.le_mul_of_pos_right _ raw.pos)
  have few : touchedElements raw n ≤ 2 ^ 30 := by
    rw [touchedElements]
    split_ifs
    · decide
    · exact n.le.trans (by decide)
  have pos : 0 < touchedElements raw n := by
    rw [touchedElements]
    split_ifs
    · decide
    · exact n.pos
  constructor
  · intro h
    refine viewExact_of_confined large few pos room fun i => ?_
    obtain ⟨final, hfinal, confined⟩ := h i
    rw [applied i] at hfinal
    cases hfinal
    exact confined
  · intro h i
    exact ⟨_, applied i, confined_of_viewExact large few pos room h i⟩

/-- The alignment that a view has: 16 bytes for a raw buffer, and for a structured one the largest
power of two that divides the stride, up to 16. -/
def View.Aligned (v : View) (m : ResourceMeta) : Prop :=
  if m.kind = .rawBuffer then 16 ∣ v.offset.toNat else Nat.gcd 16 m.stride.toNat ∣ v.offset.toNat

/-- Options of an implementation whose SSBOs are aligned to 64 bytes. -/
def coarseAlignment : Options where
  native16bitOperations := true
  scalarBlockLayout := true
  supportsPerComponentRobustness := true
  ssboAlignment := 64
  ssboWraps32bitBeforeRobustness := true
  expectAssume := false

/-- A raw buffer with several declarations. -/
def rawAliased : ResourceMeta where
  kind := .rawBuffer
  stride := 0
  storage := .storageBuffer
  aliased := true
  componentBits := 32
  rawComponentVecsize := 1

/-- A view of four bytes in a buffer of 64. -/
def fourBytes : View := ⟨16, 4, 64, by decide, by decide⟩

/-- A single float at each index of the view. -/
theorem offsetAccess_float :
    (∀ i : Word, ∃ final,
      applyIndexOffset rawAliased (rawBufferDataTypeToAddrShiftLog2 coarseAlignment .bits32)
        .scalar .scalar (buildLoadBufferOffset rawAliased (fourBytes.offset, fourBytes.length)) i =
          some final ∧
      Confined fourBytes (element coarseAlignment .bits32 .scalar).size
        (touchedElements .scalar .scalar)
        (oobIndex rawAliased.kind (rawBufferDataTypeToAddrShiftLog2 coarseAlignment .bits32)
          .scalar .scalar)
        i final) ↔
      ViewExact fourBytes (element coarseAlignment .bits32 .scalar).size
        (touchedElements .scalar .scalar)
        (oobIndex rawAliased.kind (rawBufferDataTypeToAddrShiftLog2 coarseAlignment .bits32) .scalar
          .scalar).toNat :=
  offsetAccess_confined_iff coarseAlignment rawAliased .bits32 (.leaf 0)
    (.constantInt 0) .scalar .scalar
    (by decide) ⟨by decide, by decide⟩ (by decide) rfl (by intro no; cases no) fourBytes

/-- Four floats at index 0 of the view are written past its end. -/
theorem offsetAccess_not_confined :
    ¬ ∀ (o : Options) (m : ResourceMeta) (t : DataType) (index byteOffset : Value) (n raw :
      VectorSize), o.ssboAlignment ≠ 0 → useOffsets o m → m.storage ≠ .uniformConstant →
      (buildElementIndex o m t index byteOffset n).map Prod.snd = some raw →
      (m.aliased = false → m.rawComponentVecsize * m.componentBits / 8 = (element o t raw).size) →
      ∀ v : View, v.Aligned m → ∀ i : Word, ∃ final,
        applyIndexOffset m (rawBufferDataTypeToAddrShiftLog2 o t) raw n
          (buildLoadBufferOffset m (v.offset, v.length)) i = some final ∧
        Confined v (element o t raw).size (touchedElements raw n)
          (oobIndex m.kind (rawBufferDataTypeToAddrShiftLog2 o t) raw n) i final := by
  intro h
  obtain ⟨final, hfinal, confined⟩ := h coarseAlignment rawAliased .bits32 (.leaf 0)
    (.constantInt 0)
    ⟨4, by decide, by decide⟩ .scalar (by decide) ⟨by decide, by decide⟩ (by decide) rfl
      (by intro no; cases no)
    fourBytes ⟨1, rfl⟩ 0
  have moved : final = 4 := by
    rw [show applyIndexOffset rawAliased _ .scalar _ _ 0 = some 4 from rfl] at hfinal
    exact (Option.some.inj hfinal).symm
  subst moved
  have second := (confined.confined 1 (by decide) (by decide)).2
  revert second
  decide

end DxilSpirv.Buffer
