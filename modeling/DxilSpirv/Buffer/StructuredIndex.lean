import DxilSpirv.Buffer.Lowering

/-!
# The index of a structured buffer access

`build_structured_index` adds up what the stride and the byte offset give in units of the element.
What it loses of the byte address is collected for each operand, and the index addresses the bytes
of the access exactly where the losses cancel.
-/

namespace DxilSpirv.Buffer

open DxilSpirv.Spirv

variable {env : Nat → Word}

/-- Whether the matcher splits an index: a constant that is scalar or a multiple of the element, or
an expression whose scale and bias are multiples. -/
def Value.Splittable (index : Value) (stride : Word) (e : Element) : Prop :=
  match index.asConstant with
  | some c => e.vecsize = 1 ∨ (e.size : Int) ∣ c.toInt * stride.toNat
  | none => index.Splits stride e

/-- What the split of an index loses of its bytes: the rest of a constant's division, or what is
missed. -/
def Value.lost (env : Nat → Word) (index : Value) (stride : Word) (e : Element) : Word :=
  match index.asConstant with
  | some c => (((c.toInt * stride.toNat).tmod e.size : Int) : Word)
  | none => stride * index.missed env

/-- The matcher splits where it can. -/
theorem extract_isSome_iff {index : Value} (range : index.ShiftsInRange env) (stride : Word)
    (e : Element) :
    (extractRawBufferAccessSplit index stride e).isSome ↔ index.Splittable stride e := by
  rw [Option.isSome_iff_exists, Value.Splittable]
  cases hc : index.asConstant with
  | none =>
    dsimp only
    constructor
    · rintro ⟨s, hs⟩
      exact ((extract_eq_some_iff range hc stride e s).mp hs).1
    · exact fun h => ⟨_, (extract_eq_some_iff range hc stride e _).mpr ⟨h, rfl⟩⟩
  | some c =>
    cases Value.asConstant_eq_some.mp hc
    constructor
    · rintro ⟨s, hs⟩
      exact ((extract_constantInt c stride e s).mp hs).1
    · exact fun h => ⟨_, (extract_constantInt c stride e _).mpr ⟨h, rfl⟩⟩

/-- A split stands for the bytes of the index less what is lost. -/
theorem extract_eval {index : Value} (range : index.ShiftsInRange env) {stride : Word} {e : Element}
    {s : RawBufferAccessSplit} (hs : extractRawBufferAccessSplit index stride e = some s) :
    (e.size : Word) * s.eval env = stride * index.eval env - index.lost env stride e := by
  rw [Value.lost]
  cases hc : index.asConstant with
  | none =>
    obtain ⟨splits, rfl⟩ := (extract_eq_some_iff range hc stride e s).mp hs
    rw [splits.eval_split range, index.eval_eq env]
    ring
  | some c =>
    cases Value.asConstant_eq_some.mp hc
    obtain ⟨-, rfl⟩ := (extract_constantInt c stride e s).mp hs
    rw [constantSplit_eval, Value.eval, constant_offset, Int.cast_sub]

/-- Adding up offsets sums those that are present. -/
theorem buildAccumulateOffsets_eval (ids : List (Option Emitted)) :
    (buildAccumulateOffsets ids).eval env =
      (ids.map fun id => id.elim 0 (Emitted.eval env)).sum := by
  have steps : ∀ (ids : List (Option Emitted)) (accumulated : Option Emitted),
      ((ids.foldl accumulateOffset accumulated).getD (.makeUintConstant 0)).eval env =
      accumulated.elim 0 (Emitted.eval env) +
          (ids.map fun id => id.elim 0 (Emitted.eval env)).sum := by
    intro ids
    induction ids with
    | nil =>
      intro accumulated
      cases accumulated with
      | none => simp [Emitted.eval]
      | some a => simp
    | cons id ids ih =>
      intro accumulated
      rw [List.foldl_cons, ih]
      cases id with
      | none => cases accumulated <;> simp [accumulateOffset]
      | some i =>
        cases accumulated with
        | none => simp [accumulateOffset]
        | some a => simp [accumulateOffset, Emitted.eval, add_assoc]
  rw [buildAccumulateOffsets, steps]
  simp

theorem scaledIndex_eval (d : Value) (scale : Nat) :
    (scaledIndex d scale).eval env = (scale : Word) * d.eval env := by
  rw [scaledIndex]
  split_ifs with h
  · rw [Emitted.eval, Emitted.eval, Emitted.eval, mul_comm]
  · have one : scale = 1 := not_not.mp h
    rw [one, Nat.cast_one, one_mul]
    rfl

/-- The quotient of the truncated offset. -/
theorem fallback_eval (offset : Value) (e : Element) (scalar : e.vecsize = 1) :
    (e.size : Word) * (buildIndexDividerFallback offset e.addrShiftLog2).eval env =
      offset.eval env - ((offset.eval env).toNat % e.size : Nat) := by
  have size : e.size = 2 ^ e.addrShiftLog2 := by rw [Element.size, scalar, mul_one]
  have shifted : (offset.eval env) >>> e.addrShiftLog2 =
      (((offset.eval env).toNat / e.size : Nat) : Word) := by
    apply BitVec.eq_of_toNat_eq
    have small := (offset.eval env).isLt
    rw [BitVec.toNat_ushiftRight, Nat.shiftRight_eq_div_pow, BitVec.natCast_eq_ofNat,
      BitVec.toNat_ofNat, size, Nat.mod_eq_of_lt ((Nat.div_le_self _ _).trans_lt small)]
  have quotient : ((e.size * ((offset.eval env).toNat / e.size) + (offset.eval env).toNat %
    e.size : Nat) : Word) = offset.eval env := by
    rw [Nat.div_add_mod, BitVec.natCast_eq_ofNat, BitVec.ofNat_toNat, BitVec.setWidth_eq]
  rw [buildIndexDividerFallback, Emitted.eval, Emitted.eval, shifted]
  push_cast at quotient
  linear_combination quotient

/-- The divider of a split offset is its split, masked where a dynamic index has to wrap. -/
theorem buildIndexDivider_split (env : Nat → Word) {offset : Value} {e : Element} {wrap : Bool}
    {s : RawBufferAccessSplit} (hs : extractRawBufferAccessSplit offset 1 e = some s) {i : Emitted}
    (h : buildIndexDivider offset e wrap = some i) :
    i.eval env = if wrap && s.dynamicIndex.isSome
      then s.eval env &&& BitVec.ofNat 32 ((2 ^ 32 - 1) / e.size) else s.eval env := by
  rw [buildIndexDivider, hs] at h
  dsimp only at h
  cases hd : s.dynamicIndex with
  | none =>
    rw [hd] at h
    cases h
    simp [RawBufferAccessSplit.eval, hd, Emitted.eval]
  | some d =>
    rw [hd] at h
    dsimp only at h
    generalize hbiased : (if s.bias = 0 then scaledIndex d s.scale
      else if s.bias > 0 then Emitted.iAdd (scaledIndex d s.scale)
        (.makeUintConstant (s.bias : Word))
      else .iSub (scaledIndex d s.scale) (.makeUintConstant ((-s.bias : Int) : Word))) = biased at h
    have value : biased.eval env = s.eval env := by
      rw [← hbiased, RawBufferAccessSplit.eval, hd]
      split_ifs with zero positive
      · rw [scaledIndex_eval, zero, Int.cast_zero, add_zero]
        rfl
      · rw [Emitted.eval, scaledIndex_eval]
        rfl
      · rw [Emitted.eval, scaledIndex_eval, Emitted.eval, Int.cast_neg, sub_neg_eq_add]
        rfl
    cases wrap with
    | false =>
      cases h
      simpa using value
    | true =>
      rw [if_pos rfl] at h
      split_ifs at h
      cases h
      simp [Emitted.eval, value]

/-- The divider without wrapping stands for the offset in elements, less what is lost. -/
theorem buildIndexDivider_eval {offset : Value} (range : offset.ShiftsInRange env) {e : Element}
    {i : Emitted} (h : buildIndexDivider offset e false = some i) :
    (offset.Splittable 1 e → (e.size : Word) * i.eval env = offset.eval env - offset.lost env 1 e) ∧
    (¬ offset.Splittable 1 e →
      (e.size : Word) * i.eval env =
        offset.eval env - ((offset.eval env).toNat % e.size : Nat)) := by
  have some_iff := extract_isSome_iff range 1 e
  cases hs : extractRawBufferAccessSplit offset 1 e with
  | none =>
    rw [hs] at some_iff
    refine ⟨fun splittable => ?_, fun _ => ?_⟩
    · cases some_iff.mpr splittable
    · rw [buildIndexDivider, hs] at h
      dsimp only at h
      split_ifs at h with scalar
      cases h
      exact fallback_eval offset e scalar
  | some s =>
    rw [hs] at some_iff
    refine ⟨fun _ => ?_, fun no => absurd (some_iff.mp rfl) no⟩
    have bytes := extract_eval range hs
    rw [one_mul] at bytes
    rw [← bytes, buildIndexDivider_split env hs h]
    rfl

/-- The dynamic part of a split, where there is one. -/
theorem dynamicOffset_eval (s : RawBufferAccessSplit) :
    (s.dynamicIndex.map fun d => scaledIndex d s.scale).elim 0 (Emitted.eval env) +
      ((s.bias : Int) : Word) = s.eval env := by
  rw [RawBufferAccessSplit.eval]
  cases s.dynamicIndex with
  | none => simp
  | some d => simp [scaledIndex_eval]

/-- With both operands split, the index has both splits. -/
theorem buildStructuredIndex_split (env : Nat → Word) {index byteOffset : Value} {stride : Word}
    {e : Element} {s b : RawBufferAccessSplit}
    (hs : extractRawBufferAccessSplit index stride e = some s)
    (hb : extractRawBufferAccessSplit byteOffset 1 e = some b) :
    ∃ i, buildStructuredIndex index stride byteOffset e = some i ∧
      i.eval env = s.eval env + b.eval env := by
  refine ⟨_, by rw [buildStructuredIndex, hs, hb], ?_⟩
  have swapped : (b.dynamicIndex.map fun d =>
      if b.scale ≠ 1 then Emitted.iMul (.makeUintConstant b.scale) (.value d) else .value d).elim 0
        (Emitted.eval env) = (b.dynamicIndex.map fun d => scaledIndex d b.scale).elim 0
            (Emitted.eval env) := by
    cases b.dynamicIndex with
    | none => rfl
    | some d =>
      rw [Option.map_some, Option.map_some, Option.elim, Option.elim, scaledIndex]
      split_ifs
      · rw [Emitted.eval, Emitted.eval, mul_comm]
        rfl
      · rfl
  have constant : (if s.bias + b.bias = 0 then none
      else some (Emitted.makeUintConstant ((s.bias + b.bias : Int) : Word))).elim 0
        (Emitted.eval env) = ((s.bias : Int) : Word) + ((b.bias : Int) : Word) := by
    rw [← Int.cast_add]
    split_ifs with zero
    · rw [zero, Int.cast_zero]
      rfl
    · rfl
  rw [buildAccumulateOffsets_eval, ← dynamicOffset_eval s, ← dynamicOffset_eval b]
  simp only [List.map_cons, List.map_nil, List.sum_cons, List.sum_nil, add_zero]
  rw [swapped, constant]
  ring

/-- The conservative way, for a scalar: the stride in whole elements, and the divided byte
offset. -/
theorem buildStructuredIndex_conservative (env : Nat → Word) {index byteOffset : Value}
    {stride : Word} {e : Element} (scalar : e.vecsize = 1)
    (fails : extractRawBufferAccessSplit index stride e = none ∨
      extractRawBufferAccessSplit byteOffset 1 e = none) :
    ∃ i divided, buildStructuredIndex index stride byteOffset e = some i ∧
      buildIndexDivider byteOffset e false = some divided ∧
      i.eval env = index.eval env * ((stride.toNat / e.size : Nat) : Word) + divided.eval env := by
  have size : 2 ^ e.addrShiftLog2 = e.size := by rw [Element.size, scalar, mul_one]
  obtain ⟨divided, hd⟩ : ∃ divided, buildIndexDivider byteOffset e false = some divided := by
    rw [buildIndexDivider]
    cases extractRawBufferAccessSplit byteOffset 1 e with
    | none =>
      simp only [if_pos scalar]
      exact ⟨_, rfl⟩
    | some s =>
      dsimp only
      cases s.dynamicIndex with
      | none => exact ⟨_, rfl⟩
      | some d => exact ⟨_, rfl⟩
  have emitted : buildStructuredIndex index stride byteOffset e = some (buildAccumulateOffsets
      [some (if stride.toNat ≠ 2 ^ e.addrShiftLog2 then
          .iMul (.value index)
            (.makeUintConstant (BitVec.ofNat 32 (stride.toNat / 2 ^ e.addrShiftLog2)))
        else .value index), some divided]) := by
    rw [buildStructuredIndex]
    rcases fails with none | none
    · rw [none]
      simp only [if_pos scalar, hd, Option.map_some]
    · rw [none]
      cases extractRawBufferAccessSplit index stride e <;>
        simp only [if_pos scalar, hd, Option.map_some]
  refine ⟨_, divided, emitted, hd, ?_⟩
  rw [buildAccumulateOffsets_eval]
  simp only [List.map_cons, List.map_nil, List.sum_cons, List.sum_nil, add_zero, Option.elim, size]
  split_ifs with whole
  · rw [Emitted.eval, Emitted.eval, Emitted.eval, BitVec.natCast_eq_ofNat]
  · have one : stride.toNat / e.size = 1 := by
      rw [not_not.mp whole]
      exact Nat.div_self e.size_pos
    rw [one, Nat.cast_one, mul_one]
    rfl

/-- What the emitted index loses of the byte address: with both operands split, what each loses, and
otherwise the rest of the stride for each index and what the byte offset loses. -/
structure StructuredExact (env : Nat → Word) (index : Value) (stride : Word) (byteOffset : Value)
    (e : Element) :
    Prop where
  split : index.Splittable stride e → byteOffset.Splittable 1 e →
    index.lost env stride e + byteOffset.lost env 1 e = 0
  conservative : ¬ index.Splittable stride e → byteOffset.Splittable 1 e →
    index.eval env * ((stride.toNat % e.size : Nat) : Word) + byteOffset.lost env 1 e = 0
  shifted : ¬ byteOffset.Splittable 1 e →
    index.eval env * ((stride.toNat % e.size : Nat) : Word) +
      (((byteOffset.eval env).toNat % e.size : Nat) : Word) = 0

/-- The byte address of a structured access. -/
def byteAddress (env : Nat → Word) (index : Value) (stride : Word) (byteOffset : Value) : Word :=
  index.eval env * stride + byteOffset.eval env

/-- The vector size that is chosen keeps the conservative way scalar. -/
theorem vectorize_splits (o : Options) (t : DataType) (index : Value) (stride : Word)
    (byteOffset : Value) (n : VectorSize) {m : VectorSize}
    (hm : rawAccessStructuredVectorize o t index stride byteOffset n = m) :
    (element o t m).vecsize = 1 ∨
      (extractRawBufferAccessSplit index stride (element o t m)).isSome ∧
      (extractRawBufferAccessSplit byteOffset 1 (element o t m)).isSome := by
  rw [rawAccessStructuredVectorize] at hm
  split_ifs at hm with scalar can
  · exact Or.inl (by rw [← hm]; rfl)
  · subst hm
    refine Or.inr ?_
    rw [rawAccessStructuredCanVectorize] at can
    dsimp only at can
    split_ifs at can
    exact Bool.and_eq_true_iff.mp can
  · exact Or.inl (by rw [← hm]; rfl)

/-- What an emitted index addresses, for either way of emitting it. -/
theorem buildStructuredIndex_addresses_iff {index byteOffset : Value} {stride : Word} {e : Element}
    (rangeIndex : index.ShiftsInRange env) (rangeOffset : byteOffset.ShiftsInRange env)
    {i : Emitted} (hi : buildStructuredIndex index stride byteOffset e = some i)
    (chosen : e.vecsize = 1 ∨ (extractRawBufferAccessSplit index stride e).isSome ∧
      (extractRawBufferAccessSplit byteOffset 1 e).isSome) :
    i.eval env * (e.size : Word) = byteAddress env index stride byteOffset ↔
      StructuredExact env index stride byteOffset e := by
  have split_index := extract_isSome_iff rangeIndex stride e
  have split_offset := extract_isSome_iff rangeOffset 1 e
  by_cases both : (extractRawBufferAccessSplit index stride e).isSome ∧
      (extractRawBufferAccessSplit byteOffset 1 e).isSome
  · obtain ⟨s, hs⟩ := Option.isSome_iff_exists.mp both.1
    obtain ⟨b, hb⟩ := Option.isSome_iff_exists.mp both.2
    obtain ⟨j, hj, sum⟩ := buildStructuredIndex_split env hs hb
    cases hi.symm.trans hj
    have index_bytes := extract_eval rangeIndex hs
    have offset_bytes := extract_eval rangeOffset hb
    have value : i.eval env * (e.size : Word) = byteAddress env index stride byteOffset -
        (index.lost env stride e + byteOffset.lost env 1 e) := by
      rw [sum, byteAddress]
      linear_combination index_bytes + offset_bytes
    rw [value, sub_eq_self]
    exact ⟨fun h => ⟨fun _ _ => h, fun no => absurd (split_index.mp both.1) no,
      fun no => absurd (split_offset.mp both.2) no⟩,
      fun h => h.split (split_index.mp both.1) (split_offset.mp both.2)⟩
  · have scalar := chosen.resolve_right both
    have fails : extractRawBufferAccessSplit index stride e = none ∨
        extractRawBufferAccessSplit byteOffset 1 e = none := by
      by_contra no
      push Not at no
      exact both ⟨Option.isSome_iff_ne_none.mpr no.1, Option.isSome_iff_ne_none.mpr no.2⟩
    obtain ⟨j, divided, hj, hd, sum⟩ := buildStructuredIndex_conservative env scalar fails
    cases hi.symm.trans hj
    obtain ⟨split_eval, shifted_eval⟩ := buildIndexDivider_eval rangeOffset hd
    have stride_parts : (e.size : Word) * ((stride.toNat / e.size : Nat) : Word) +
        ((stride.toNat % e.size : Nat) : Word) = stride := by
      rw [← Nat.cast_mul, ← Nat.cast_add, Nat.div_add_mod, BitVec.natCast_eq_ofNat,
        BitVec.ofNat_toNat, BitVec.setWidth_eq]
    by_cases splittable : byteOffset.Splittable 1 e
    · have unsplit : ¬ index.Splittable stride e := fun yes =>
        both ⟨split_index.mpr yes, split_offset.mpr splittable⟩
      have value : i.eval env * (e.size : Word) = byteAddress env index stride byteOffset -
          (index.eval env * ((stride.toNat % e.size : Nat) : Word) + byteOffset.lost env 1 e) := by
        rw [sum, byteAddress]
        linear_combination split_eval splittable + index.eval env * stride_parts
      rw [value, sub_eq_self]
      exact ⟨fun h => ⟨fun yes => absurd yes unsplit, fun _ _ => h, fun no => absurd splittable no⟩,
        fun h => h.conservative unsplit splittable⟩
    · have value : i.eval env * (e.size : Word) = byteAddress env index stride byteOffset -
          (index.eval env * ((stride.toNat % e.size : Nat) : Word) +
            (((byteOffset.eval env).toNat % e.size : Nat) : Word)) := by
        rw [sum, byteAddress]
        linear_combination shifted_eval splittable + index.eval env * stride_parts
      rw [value, sub_eq_self]
      exact ⟨fun h => ⟨fun _ yes => absurd yes splittable, fun _ yes => absurd yes splittable,
        fun _ => h⟩, fun h => h.shifted splittable⟩

/-- Some index is emitted, without a failed assertion. -/
theorem buildStructuredIndex_isSome {index byteOffset : Value} {stride : Word} {e : Element}
    (chosen : e.vecsize = 1 ∨ (extractRawBufferAccessSplit index stride e).isSome ∧
      (extractRawBufferAccessSplit byteOffset 1 e).isSome) :
    ∃ i, buildStructuredIndex index stride byteOffset e = some i := by
  by_cases both : (extractRawBufferAccessSplit index stride e).isSome ∧
      (extractRawBufferAccessSplit byteOffset 1 e).isSome
  · obtain ⟨s, hs⟩ := Option.isSome_iff_exists.mp both.1
    obtain ⟨b, hb⟩ := Option.isSome_iff_exists.mp both.2
    obtain ⟨i, hi, -⟩ := buildStructuredIndex_split (fun _ => 0) hs hb
    exact ⟨i, hi⟩
  · have fails : extractRawBufferAccessSplit index stride e = none ∨
        extractRawBufferAccessSplit byteOffset 1 e = none := by
      by_contra no
      push Not at no
      exact both ⟨Option.isSome_iff_ne_none.mpr no.1, Option.isSome_iff_ne_none.mpr no.2⟩
    obtain ⟨i, -, hi, -⟩ := buildStructuredIndex_conservative (fun _ => 0)
      (chosen.resolve_right both) fails
    exact ⟨i, hi⟩

/-- **Structured buffer index.** For the chosen vector size an index is always emitted, so the
conservative way is scalar, and it addresses the bytes of each access on a scalar boundary exactly
where the losses of the operands cancel. -/
theorem structuredIndex_addresses_iff (o : Options) (t : DataType) (index : Value) (stride : Word)
    (byteOffset : Value) (n : VectorSize) :
    ∃ i, buildStructuredIndex index stride byteOffset
        (element o t (rawAccessStructuredVectorize o t index stride byteOffset n)) = some i ∧
      ((∀ env, index.ShiftsInRange env → byteOffset.ShiftsInRange env →
        2 ^ rawBufferDataTypeToAddrShiftLog2 o t ∣ (byteAddress env index stride byteOffset).toNat →
        i.eval env *
          ((element o t (rawAccessStructuredVectorize o t index stride byteOffset n)).size : Word) =
          byteAddress env index stride byteOffset) ↔
      ∀ env, index.ShiftsInRange env → byteOffset.ShiftsInRange env →
        2 ^ rawBufferDataTypeToAddrShiftLog2 o t ∣ (byteAddress env index stride byteOffset).toNat →
        StructuredExact env index stride byteOffset
          (element o t (rawAccessStructuredVectorize o t index stride byteOffset n))) := by
  have chosen := vectorize_splits o t index stride byteOffset n rfl
  obtain ⟨i, hi⟩ := buildStructuredIndex_isSome chosen
  refine ⟨i, hi, ?_⟩
  constructor
  · intro h env rangeIndex rangeOffset aligned
    exact (buildStructuredIndex_addresses_iff rangeIndex rangeOffset hi chosen).mp
      (h env rangeIndex rangeOffset aligned)
  · intro h env rangeIndex rangeOffset aligned
    exact (buildStructuredIndex_addresses_iff rangeIndex rangeOffset hi chosen).mpr
      (h env rangeIndex rangeOffset aligned)

/-- Options of an implementation with scalar layout and 16-byte alignment. -/
def scalarLayout : Options where
  native16bitOperations := true
  scalarBlockLayout := true
  supportsPerComponentRobustness := true
  ssboAlignment := 16
  ssboWraps32bitBeforeRobustness := true
  expectAssume := false

/-- The index of four floats at `7 - i`, with a stride of 16 bytes, is emitted as `i - 7`. -/
theorem structured_subtraction_not_addressed :
    ¬ ∀ (o : Options) (t : DataType) (index : Value) (stride : Word) (byteOffset : Value) (n :
      VectorSize), ∃ i, buildStructuredIndex index stride byteOffset
          (element o t (rawAccessStructuredVectorize o t index stride byteOffset n)) = some i ∧
        ∀ env, index.ShiftsInRange env → byteOffset.ShiftsInRange env →
          2 ^ rawBufferDataTypeToAddrShiftLog2 o t ∣
            (byteAddress env index stride byteOffset).toNat →
          i.eval env *
            ((element o t (rawAccessStructuredVectorize o t index stride byteOffset n)).size :
              Word) = byteAddress env index stride byteOffset := by
  intro h
  obtain ⟨i, hi, addresses⟩ := h scalarLayout .bits32
    (.binaryOperator .sub (.constantInt 7) (.leaf 0)) 16
    (.constantInt 0) ⟨4, by decide, by decide⟩
  have emitted : i = .iAdd (.value (.leaf 0)) (.makeUintConstant (-7)) := by
    rw [show buildStructuredIndex _ _ _ _ =
      some (.iAdd (.value (.leaf 0)) (.makeUintConstant (-7))) from rfl]
      at hi
    exact (Option.some.inj hi).symm
  subst emitted
  have wrong := addresses (fun _ => 0) ⟨trivial, trivial, by simp⟩ trivial (by decide)
  revert wrong
  decide

end DxilSpirv.Buffer
