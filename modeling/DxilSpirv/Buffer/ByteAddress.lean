import DxilSpirv.Buffer.PhysicalPointer

/-!
# The index of a byte address access

`build_index_divider` turns a byte offset into an index of elements. The index has the bytes of the
offset where the split misses nothing of it; a negative constant is divided with its sign, and is
not wrapped.
-/

namespace DxilSpirv.Buffer

open DxilSpirv.Spirv

variable {env : Nat → Word}

/-- A scalar has two bytes at least. -/
theorem one_le_addrShiftLog2 (o : Options) (t : DataType) :
    1 ≤ rawBufferDataTypeToAddrShiftLog2 o t := by
  cases t with
  | bits16 =>
    rw [rawBufferDataTypeToAddrShiftLog2]
    split <;> decide
  | bits32 => exact Nat.le_succ 1
  | bits64 => exact Nat.le_of_ble_eq_true rfl

theorem two_le_size (o : Options) (t : DataType) (n : VectorSize) : 2 ≤ (element o t n).size := by
  have scalar : 2 ^ 1 ≤ 2 ^ rawBufferDataTypeToAddrShiftLog2 o t :=
    Nat.pow_le_pow_right (by decide) (one_le_addrShiftLog2 o t)
  exact Nat.le_trans scalar (Nat.le_mul_of_pos_right _ n.pos)

/-- The vector size that is chosen is one, or splits the offset. -/
theorem byteAddressVectorize_splits (o : Options) (t : DataType) (offset : Value) (n : VectorSize) :
    (rawAccessByteAddressVectorize o t offset n).components = 1 ∨
      (extractRawBufferAccessSplit offset 1
        (element o t (rawAccessByteAddressVectorize o t offset n))).isSome := by
  generalize hm : rawAccessByteAddressVectorize o t offset n = m
  rw [rawAccessByteAddressVectorize] at hm
  split_ifs at hm with scalar can
  · exact Or.inl (by rw [← hm]; rfl)
  · subst hm
    rw [rawAccessByteAddressCanVectorize] at can
    split_ifs at can
    exact Or.inr can
  · exact Or.inl (by rw [← hm]; rfl)

/-- An index has the bytes of an offset, and where it wraps it is the offset shifted down. -/
structure IndexesOffset (offset : Word) (e : Element) (wrap : Bool) (i : Word) : Prop where
  bytes : i * (e.size : Word) = offset
  below : wrap = true → i.toNat < 2 ^ 32 / e.size
  quotient : wrap = true → i.toNat = offset.toNat / e.size

/-- Where the index is exact: a constant is not negative if it has to wrap, and a split misses
nothing and is masked only for a power of two. -/
def Value.DividesExactly (env : Nat → Word) (offset : Value) (e : Element) (wrap : Bool) : Prop :=
  match offset.asConstant with
  | some c => wrap = true → 0 ≤ c.toInt
  | none => offset.Splits 1 e →
      offset.missed env = 0 ∧ (wrap = true → e.vecsize &&& (e.vecsize - 1) = 0)

/-- An index whose bytes do not wrap is the offset shifted down. -/
theorem indexesOffset_of_below {offset i : Word} {e : Element}
    (bytes : i * (e.size : Word) = offset) (below : i.toNat < 2 ^ 32 / e.size) (wrap : Bool) :
    IndexesOffset offset e wrap i := by
  have pos := e.size_pos
  have small : e.size < 2 ^ 32 := Nat.lt_trans e.size_lt (by decide)
  have next : (i.toNat + 1) * e.size ≤ 2 ^ 32 := (Nat.le_div_iff_mul_le pos).mp below
  have product : offset.toNat = i.toNat * e.size := by
    rw [← bytes, BitVec.toNat_mul, BitVec.natCast_eq_ofNat, BitVec.toNat_ofNat,
      Nat.mod_eq_of_lt small, Nat.mod_eq_of_lt (by rw [Nat.add_mul] at next; omega)]
  exact ⟨bytes, fun _ => below, fun _ => by rw [product, Nat.mul_div_cancel _ pos]⟩

/-- A multiple of the scalar is a multiple as a signed number. -/
theorem size_dvd_toInt {e : Element} (scalar : e.vecsize = 1) {c : Word}
    (aligned : e.size ∣ c.toNat) :
    (e.size : Int) ∣ c.toInt := by
  have modulus : (e.size : Int) ∣ ((2 ^ 32 : Nat) : Int) := Element.size_dvd scalar
  have natural : (e.size : Int) ∣ (c.toNat : Int) := Int.natCast_dvd_natCast.mpr aligned
  rw [BitVec.toInt_eq_toNat_cond]
  split
  · exact natural
  · exact Int.dvd_sub natural modulus

/-- The index of a constant. -/
theorem constant_indexesOffset_iff {c : Word} {e : Element} (size : 2 ≤ e.size)
    (divides : (e.size : Int) ∣ c.toInt) (wrap : Bool) :
    IndexesOffset c e wrap ((c.toInt / e.size : Int) : Word) ↔ (wrap = true → 0 ≤ c.toInt) := by
  have pos := e.size_pos
  have bytes : ((c.toInt / e.size : Int) : Word) * (e.size : Word) = c := by
    rw [← Int.cast_natCast (R := Word), ← Int.cast_mul, Int.ediv_mul_cancel divides, intCast_toInt]
  have quotient := Int.ediv_mul_cancel divides
  have low := BitVec.le_two_mul_toInt (x := c)
  have high := BitVec.two_mul_toInt_lt (x := c)
  have value : ((((c.toInt / e.size : Int) : Word).toNat : Nat) : Int) =
      c.toInt / e.size % 2 ^ 32 := by
    change ((BitVec.ofInt 32 (c.toInt / e.size)).toNat : Int) = _
    rw [BitVec.toNat_ofInt, Int.toNat_of_nonneg (Int.emod_nonneg _ (by positivity))]
    rfl
  constructor
  · intro h wraps
    have below := h.below wraps
    have half : 2 ^ 32 / e.size ≤ 2 ^ 32 / 2 := Nat.div_le_div_left size (by decide)
    by_contra negative
    -- a negative index is above every index that does not wrap
    have index : c.toInt / e.size < 0 := by
      by_contra nonneg
      have := Int.mul_nonneg (Int.not_lt.mp nonneg) (Int.natCast_nonneg e.size)
      omega
    have least : c.toInt / e.size * e.size ≤ c.toInt / e.size * 2 := by nlinarith
    omega
  · intro h
    cases wrap with
    | false => exact ⟨bytes, (by simp), (by simp)⟩
    | true =>
      have nonneg := h rfl
      have index : 0 ≤ c.toInt / e.size := Int.ediv_nonneg nonneg (Int.natCast_nonneg _)
      have least : c.toInt / e.size * 2 ≤ c.toInt / e.size * e.size := by nlinarith
      refine indexesOffset_of_below bytes ((Nat.le_div_iff_mul_le pos).mpr ?_) true
      have same : ((((c.toInt / e.size : Int) : Word).toNat : Nat) : Int) = c.toInt / e.size := by
        rw [value, Int.emod_eq_of_lt index (by omega)]
      have bound := e.size_lt
      rw [← Element.size] at bound
      zify
      rw [Int.add_mul, same, quotient, one_mul]
      omega

/-- A divider is emitted, unless a mask for no power of two is asked for. -/
theorem buildIndexDivider_isSome_iff {offset : Value} {e : Element} {s : RawBufferAccessSplit}
    (hs : extractRawBufferAccessSplit offset 1 e = some s) (dynamic : s.dynamicIndex.isSome)
    (wrap : Bool) :
    (∃ i, buildIndexDivider offset e wrap = some i) ↔
      (wrap = true → e.vecsize &&& (e.vecsize - 1) = 0) := by
  obtain ⟨d, hd⟩ := Option.isSome_iff_exists.mp dynamic
  rw [buildIndexDivider, hs]
  simp only [hd]
  cases wrap with
  | false => exact ⟨fun _ => (by simp), fun _ => ⟨_, rfl⟩⟩
  | true =>
    rw [if_pos rfl]
    by_cases power : e.vecsize &&& (e.vecsize - 1) = 0
    · rw [if_pos power]
      exact ⟨fun _ _ => power, fun _ => ⟨_, rfl⟩⟩
    · rw [if_neg power]
      exact ⟨(by simp), fun h => absurd (h rfl) power⟩

/-- The index of an expression that splits. -/
theorem split_indexesOffset_iff {offset : Value} (range : offset.ShiftsInRange env) {e : Element}
    (notConstant : offset.asConstant = none) (splits : offset.Splits 1 e) (wrap : Bool) :
    (∃ i, buildIndexDivider offset e wrap = some i ∧
      IndexesOffset (offset.eval env) e wrap (i.eval env)) ↔
      offset.missed env = 0 ∧ (wrap = true → e.vecsize &&& (e.vecsize - 1) = 0) := by
  have hs := (extract_eq_some_iff range notConstant 1 e _).mpr ⟨splits, rfl⟩
  have emitted := buildIndexDivider_isSome_iff hs rfl wrap
  have bytes := extract_eval range hs
  rw [Value.lost, notConstant, one_mul] at bytes
  dsimp only at bytes
  rw [one_mul] at bytes
  have masked {i : Emitted} (hi : buildIndexDivider offset e wrap = some i) :
      i.eval env * (e.size : Word) = offset.eval env - offset.missed env ∧
        (wrap = true → (i.eval env).toNat < 2 ^ 32 / e.size) := by
    have value := buildIndexDivider_split env hs hi
    cases wrap with
    | false =>
      rw [Bool.false_and, if_neg Bool.false_ne_true] at value
      exact ⟨by rw [value]; linear_combination bytes, (by simp)⟩
    | true =>
      obtain ⟨k, hk, size⟩ := Element.size_eq_two_pow (emitted.mp ⟨i, hi⟩ rfl)
      change i.eval env = _ &&& _ at value
      rw [size] at value bytes ⊢
      refine ⟨?_, fun _ => ?_⟩
      · rw [value, and_elements_mul _ hk]
        linear_combination bytes
      · rw [value, toNat_and_elements _ hk, Nat.pow_div hk (by decide)]
        exact Nat.mod_lt _ (Nat.two_pow_pos _)
  constructor
  · rintro ⟨i, hi, h⟩
    have exact_ := (masked hi).1.symm.trans h.bytes
    exact ⟨sub_eq_self.mp exact_, emitted.mp ⟨i, hi⟩⟩
  · rintro ⟨missed, power⟩
    obtain ⟨i, hi⟩ := emitted.mpr power
    obtain ⟨product, below⟩ := masked hi
    rw [missed, sub_zero] at product
    refine ⟨i, hi, ?_⟩
    cases wrap with
    | false => exact ⟨product, (by simp), (by simp)⟩
    | true => exact indexesOffset_of_below product (below rfl) true

/-- The fallback shifts an aligned offset down. -/
theorem fallback_indexesOffset {offset : Value} {e : Element} (scalar : e.vecsize = 1)
    (aligned : e.size ∣ (offset.eval env).toNat) (wrap : Bool) :
    IndexesOffset (offset.eval env) e wrap
      ((buildIndexDividerFallback offset e.addrShiftLog2).eval env) := by
  have size : e.size = 2 ^ e.addrShiftLog2 := by rw [Element.size, scalar, mul_one]
  have bytes := @fallback_eval env offset e scalar
  rw [Nat.mod_eq_zero_of_dvd aligned, Nat.cast_zero, sub_zero, mul_comm] at bytes
  refine indexesOffset_of_below bytes ?_ wrap
  change (offset.eval env >>> e.addrShiftLog2).toNat < _
  rw [BitVec.toNat_ushiftRight, Nat.shiftRight_eq_div_pow, ← size]
  have modulus : e.size ∣ 2 ^ 32 := by exact_mod_cast Element.size_dvd scalar
  exact Nat.div_lt_div_of_lt_of_dvd modulus (offset.eval env).isLt

/-- **Byte address indices.** For the chosen vector size an index is emitted with the bytes of an
aligned offset, and shifted down where it wraps, exactly where the division is exact. -/
theorem byteAddressIndex_iff (o : Options) (t : DataType) (offset : Value) (n : VectorSize)
    (wrap : Bool) (env : Nat → Word) (range : offset.ShiftsInRange env)
    (aligned : 2 ^ rawBufferDataTypeToAddrShiftLog2 o t ∣ (offset.eval env).toNat) :
    (∃ i, buildIndexDivider offset (element o t (rawAccessByteAddressVectorize o t offset n)) wrap =
      some i ∧
      IndexesOffset (offset.eval env)
        (element o t (rawAccessByteAddressVectorize o t offset n)) wrap
        (i.eval env)) ↔
      offset.DividesExactly env
        (element o t (rawAccessByteAddressVectorize o t offset n)) wrap := by
  have chosen := byteAddressVectorize_splits o t offset n
  generalize rawAccessByteAddressVectorize o t offset n = m at chosen ⊢
  have scalarSize (single : m.components = 1) :
      (element o t m).size = 2 ^ rawBufferDataTypeToAddrShiftLog2 o t := by
    change _ * m.components = _
    rw [single, mul_one]
    rfl
  have accepts := extract_isSome_iff range 1 (element o t m)
  rw [Value.Splittable] at accepts
  rw [Value.DividesExactly]
  cases hc : offset.asConstant with
  | some c =>
    rw [hc] at accepts
    cases Value.asConstant_eq_some.mp hc
    have divides : ((element o t m).size : Int) ∣ c.toInt := by
      rcases chosen with single | split
      · exact size_dvd_toInt single (scalarSize single ▸ aligned)
      · rcases accepts.mp split with single | divides
        · exact size_dvd_toInt single (scalarSize single ▸ aligned)
        · simpa using divides
    have emitted : buildIndexDivider (.constantInt c) (element o t m) wrap =
        some (.makeUintConstant ((c.toInt / (element o t m).size : Int) : Word)) := by
      have hs := (extract_constantInt c 1 (element o t m) _).mpr
        ⟨Or.inr (by simpa using divides), rfl⟩
      rw [buildIndexDivider, hs]
      simp only [constantSplit]
      rw [show c.toInt * (1 : Word).toNat = c.toInt by simp, Int.tdiv_eq_ediv_of_dvd divides]
    dsimp only
    rw [← constant_indexesOffset_iff (two_le_size o t m) divides wrap, emitted]
    refine ⟨?_, fun h => ⟨_, rfl, h⟩⟩
    rintro ⟨i, hi, h⟩
    cases hi
    exact h
  | none =>
    rw [hc] at accepts
    dsimp only at accepts ⊢
    by_cases splits : offset.Splits 1 (element o t m)
    · rw [split_indexesOffset_iff range hc splits wrap]
      exact ⟨fun h _ => h, fun h => h splits⟩
    · have single := chosen.resolve_right fun split => splits (accepts.mp split)
      have fails : extractRawBufferAccessSplit offset 1 (element o t m) = none := by
        rw [← Option.not_isSome_iff_eq_none]
        exact fun split => splits (accepts.mp split)
      have emitted : buildIndexDivider offset (element o t m) wrap =
          some (buildIndexDividerFallback offset (element o t m).addrShiftLog2) := by
        rw [buildIndexDivider, fails]
        exact if_pos single
      refine ⟨fun _ yes => absurd yes splits, fun _ => ⟨_, emitted, ?_⟩⟩
      exact fallback_indexesOffset single (scalarSize single ▸ aligned) wrap

/-- Four words at `16 * i + 16` are masked for any `i`. -/
theorem byteAddressIndex_masked :
    ∃ i, buildIndexDivider
      (.binaryOperator .add (.binaryOperator .mul (.leaf 0) (.constantInt 16)) (.constantInt 16))
        (element scalarLayout .bits32 (rawAccessByteAddressVectorize scalarLayout .bits32
          (.binaryOperator .add (.binaryOperator .mul (.leaf 0) (.constantInt 16))
            (.constantInt 16))
          ⟨4, by decide, by decide⟩)) true = some i ∧
      IndexesOffset (16 * 0xfffffff + 16)
        (element scalarLayout .bits32 (rawAccessByteAddressVectorize scalarLayout .bits32
          (.binaryOperator .add (.binaryOperator .mul (.leaf 0) (.constantInt 16))
            (.constantInt 16))
          ⟨4, by decide, by decide⟩)) true (i.eval fun _ => 0xfffffff) :=
  (byteAddressIndex_iff scalarLayout .bits32
    (.binaryOperator .add (.binaryOperator .mul (.leaf 0) (.constantInt 16)) (.constantInt 16))
    ⟨4, by decide, by decide⟩ true (fun _ => 0xfffffff)
      ⟨⟨trivial, trivial, by simp⟩, trivial, by simp⟩
    (by decide)).mpr fun _ => ⟨rfl, fun _ => by decide⟩

/-- The constant offset `0xfffffffc` is divided as `-4`, and the index is not masked. -/
theorem constant_not_wrapped :
    buildIndexDivider (.constantInt 0xfffffffc)
        (element scalarLayout .bits32 (rawAccessByteAddressVectorize scalarLayout .bits32
          (.constantInt 0xfffffffc) .scalar)) true = some (.makeUintConstant 0xffffffff) ∧
    ¬ ∀ (o : Options) (t : DataType) (offset : Value) (n : VectorSize) (wrap : Bool)
        (env : Nat → Word),
      offset.ShiftsInRange env →
        2 ^ rawBufferDataTypeToAddrShiftLog2 o t ∣ (offset.eval env).toNat →
      ∃ i, buildIndexDivider offset
        (element o t (rawAccessByteAddressVectorize o t offset n)) wrap = some i ∧
        IndexesOffset (offset.eval env)
          (element o t (rawAccessByteAddressVectorize o t offset n)) wrap
          (i.eval env) := by
  have emitted : buildIndexDivider (.constantInt 0xfffffffc)
      (element scalarLayout .bits32 (rawAccessByteAddressVectorize scalarLayout .bits32
        (.constantInt 0xfffffffc) .scalar)) true = some (.makeUintConstant 0xffffffff) := rfl
  refine ⟨emitted, fun h => ?_⟩
  obtain ⟨i, hi, indexes⟩ := h scalarLayout .bits32 (.constantInt 0xfffffffc) .scalar true
    (fun _ => 0) trivial (by decide)
  cases emitted.symm.trans hi
  have below := indexes.below rfl
  revert below
  decide

end DxilSpirv.Buffer
