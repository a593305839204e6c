import DxilSpirv.Buffer.Index

/-!
# What the split of a buffer index addresses

A split stands for the same bytes as the index it was made from, except where a disjunction shares
bits with its constant, where something is subtracted from a constant, and where a scalar is at a
negative constant off its boundary.
-/

namespace DxilSpirv.Buffer

open DxilSpirv.Spirv

variable {env : Nat → Word}

/-- The index in elements that a split stands for. -/
def RawBufferAccessSplit.eval (env : Nat → Word) (s : RawBufferAccessSplit) : Word :=
  ((s.scale : Nat) : Word) * (s.dynamicIndex.elim 0 (Value.eval env)) + ((s.bias : Int) : Word)

/-- A split addresses the bytes of the index: `element_size * (scale * dynamic_index + bias)` is
`stride * index`, rounded down to an element where a scalar is at a constant index. -/
def RawBufferAccessSplit.Addresses (env : Nat → Word) (index : Value) (stride : Word) (e : Element)
    (s : RawBufferAccessSplit) : Prop :=
  (e.size : Word) * s.eval env =
    if index.asConstant.isSome ∧ e.vecsize = 1 then roundDown e.size (stride * index.eval env)
    else stride * index.eval env

/-- Where the split of an index is exact: a scalar at a negative constant is on an element boundary,
as the division truncates, and where the index splits, the stride makes what is missed vanish. -/
structure Value.SplitsExactly (index : Value) (stride : Word) (e : Element) : Prop where
  constant : ∀ c, index = .constantInt c → e.vecsize = 1 →
    0 ≤ c.toInt ∨ (e.size : Int) ∣ c.toInt * stride.toNat
  missed : index.asConstant = none → index.Splits stride e →
    ∀ env, index.ShiftsInRange env → stride * index.missed env = 0

theorem Element.size_pos (e : Element) : 0 < e.size :=
  Nat.mul_pos (Nat.two_pow_pos _) e.vecsize_pos

/-- A power of two of scalars has a power of two of bytes. -/
theorem Element.size_eq_two_pow {e : Element} (power : e.vecsize &&& (e.vecsize - 1) = 0) :
    ∃ k ≤ 32, e.size = 2 ^ k := by
  obtain ⟨k, hk⟩ := (Nat.and_sub_one_eq_zero_iff_isPowerOfTwo (Nat.ne_of_gt e.vecsize_pos)).mp power
  have size : e.size = 2 ^ (e.addrShiftLog2 + k) := by rw [Element.size, hk, pow_add]
  have bound := e.size_lt
  rw [← Element.size, size] at bound
  have small := (Nat.pow_lt_pow_iff_right (by decide)).mp bound
  exact ⟨e.addrShiftLog2 + k, by omega, size⟩

/-- A split stands for the unbiased value and the bias. -/
theorem Value.Splits.eval_split {index : Value} (range : index.ShiftsInRange env) {stride : Word}
    {e : Element} (splits : index.Splits stride e) :
    (e.size : Word) * (index.split stride e).eval env =
      stride * (index.unbiased.eval env + ((index.bias : Int) : Word)) := by
  have scale : (e.size : Word) * ((index.unbiased.scaled.1 * stride.toNat / e.size : Nat) : Word) =
      ((index.unbiased.scaled.1 : Nat) : Word) * stride := by
    rw [← Nat.cast_mul, Nat.mul_div_cancel' splits.scale_dvd, Nat.cast_mul,
      BitVec.natCast_eq_ofNat (x := stride.toNat), BitVec.ofNat_toNat, BitVec.setWidth_eq]
  have bias : (e.size : Word) * (((index.bias * stride.toNat).tdiv e.size : Int) : Word) =
      ((index.bias : Int) : Word) * stride := by
    rw [← Int.cast_natCast (R := Word), ← Int.cast_mul, Int.mul_tdiv_cancel' splits.bias_dvd,
      Int.cast_mul, intCast_toNat]
  rw [RawBufferAccessSplit.eval, Value.split, index.unbiased.eval_scaled range.unbiased]
  dsimp only [Option.elim]
  linear_combination index.unbiased.scaled.2.eval env * scale + bias

/-- The split of an index that is not a constant is exact where nothing is missed. -/
theorem Value.Splits.addresses_iff {index : Value} (range : index.ShiftsInRange env)
    (notConstant : index.asConstant = none) {stride : Word} {e : Element}
    (splits : index.Splits stride e) :
    (index.split stride e).Addresses env index stride e ↔ stride * index.missed env = 0 := by
  rw [RawBufferAccessSplit.Addresses, if_neg (by simp [notConstant]), splits.eval_split range,
    index.eval_eq env]
  constructor
  · intro h
    linear_combination -h
  · intro h
    linear_combination -h

/-- The split of a scalar at a constant. -/
def constantSplit (c stride : Word) (e : Element) : RawBufferAccessSplit where
  scale := 0
  bias := (c.toInt * stride.toNat).tdiv e.size
  dynamicIndex := none

theorem extract_constantInt (c stride : Word) (e : Element) (s : RawBufferAccessSplit) :
    extractRawBufferAccessSplit (.constantInt c) stride e = some s ↔
      (e.vecsize = 1 ∨ (e.size : Int) ∣ c.toInt * stride.toNat) ∧ s = constantSplit c stride e := by
  rw [extractRawBufferAccessSplit, Value.asConstant_constantInt]
  dsimp only
  rw [Int.dvd_iff_tmod_eq_zero]
  split_ifs with h
  · rw [Option.some.injEq]
    exact ⟨fun hs => ⟨h, hs.symm⟩, fun hs => hs.2.symm⟩
  · constructor
    · intro hs
      cases hs
    · exact fun hs => absurd hs.1 h

/-- The constant's byte offset is the cast of the product. -/
theorem constant_offset (c stride : Word) :
    stride * c = ((c.toInt * stride.toNat : Int) : Word) := by
  rw [Int.cast_mul, intCast_toInt, intCast_toNat, mul_comm]

theorem constantSplit_eval (c stride : Word) (e : Element) :
    (e.size : Word) * (constantSplit c stride e).eval env =
      ((c.toInt * stride.toNat - (c.toInt * stride.toNat).tmod e.size : Int) : Word) := by
  have product := Int.mul_tdiv_add_tmod (c.toInt * stride.toNat) e.size
  rw [RawBufferAccessSplit.eval, constantSplit, Nat.cast_zero, zero_mul, zero_add,
    ← Int.cast_natCast (R := Word), ← Int.cast_mul]
  congr 1
  dsimp only
  omega

/-- A scalar's size divides the modulus. -/
theorem Element.size_dvd {e : Element} (h : e.vecsize = 1) : (e.size : Int) ∣ 2 ^ 32 := by
  have bound := e.size_lt
  rw [h, mul_one] at bound
  have small : e.addrShiftLog2 < 31 := (Nat.pow_lt_pow_iff_right (by decide)).mp bound
  have size : (e.size : Int) = 2 ^ e.addrShiftLog2 := by
    rw [Element.size, h, mul_one]
    push_cast
    rfl
  rw [size]
  exact pow_dvd_pow 2 (by omega)

/-- A scalar at a constant is rounded down where the constant is not negative or is on a
boundary. -/
theorem constantSplit_addresses_iff {c stride : Word} {e : Element} (scalar : e.vecsize = 1) :
    (constantSplit c stride e).Addresses env (.constantInt c) stride e ↔
      0 ≤ c.toInt ∨ (e.size : Int) ∣ c.toInt * stride.toNat := by
  have pos : (0 : Int) < e.size := by exact_mod_cast e.size_pos
  have bound : (e.size : Int) < 2 ^ 31 := by exact_mod_cast e.size_lt
  rw [RawBufferAccessSplit.Addresses, if_pos ⟨by simp, scalar⟩, Value.eval,
    constant_offset c stride,
    roundDown_intCast _ (Element.size_dvd scalar), constantSplit_eval, intCast_eq_iff,
    Int.tmod_eq_emod]
  by_cases h : 0 ≤ c.toInt * stride.toNat ∨ (e.size : Int) ∣ c.toInt * stride.toNat
  · rw [if_pos h]
    have same : 0 ≤ c.toInt ∨ (e.size : Int) ∣ c.toInt * stride.toNat := by
      rcases h with nonneg | divides
      · by_cases zero : stride.toNat = 0
        · exact Or.inr (by simp [zero])
        · refine Or.inl (nonneg_of_mul_nonneg_left nonneg ?_)
          have : (0 : Int) < stride.toNat := by exact_mod_cast Nat.pos_of_ne_zero zero
          exact this
      · exact Or.inr divides
    simp [same]
  · rw [if_neg h]
    constructor
    · rintro ⟨k, hk⟩
      exfalso
      have : (e.size : Int).natAbs = e.size := rfl
      rw [this] at hk
      omega
    · rintro (nonneg | divides)
      · exact absurd (Or.inl (by positivity)) h
      · exact absurd (Or.inr divides) h

/-- **Buffer index splits.** Whatever the matcher returns addresses the bytes of the index for all
values of the leaves exactly where the split is exact: no bits are shared by a disjunction, no
constant is subtracted from, and no negative constant is off a boundary. -/
theorem extract_addresses_iff (index : Value) (stride : Word) (e : Element) :
    (∀ s, extractRawBufferAccessSplit index stride e = some s →
      ∀ env, index.ShiftsInRange env → s.Addresses env index stride e) ↔
      index.SplitsExactly stride e := by
  cases hc : index.asConstant with
  | none =>
    constructor
    · intro h
      refine ⟨?_, ?_⟩
      · rintro c rfl
        cases hc
      · intro _ splits env range
        have some := (extract_eq_some_iff range hc stride e _).mpr ⟨splits, rfl⟩
        exact (splits.addresses_iff range hc).mp (h _ some env range)
    · intro h s hs env range
      obtain ⟨splits, rfl⟩ := (extract_eq_some_iff range hc stride e s).mp hs
      exact (splits.addresses_iff range hc).mpr (h.missed hc splits env range)
  | some c =>
    cases Value.asConstant_eq_some.mp hc
    constructor
    · intro h
      refine ⟨?_, ?_⟩
      · intro d hd scalar
        cases hd
        have some := (extract_constantInt c stride e _).mpr ⟨Or.inl scalar, rfl⟩
        exact (constantSplit_addresses_iff scalar).mp (h _ some (fun _ => 0) trivial)
      · intro no
        cases no
    · intro h s hs env _
      obtain ⟨accepted, rfl⟩ := (extract_constantInt c stride e s).mp hs
      by_cases scalar : e.vecsize = 1
      · exact (constantSplit_addresses_iff scalar).mpr (h.constant c rfl scalar)
      · have divides := accepted.resolve_left scalar
        rw [RawBufferAccessSplit.Addresses, if_neg (by simp [scalar]), Value.eval,
          constant_offset c stride, constantSplit_eval, Int.tmod_eq_zero_of_dvd divides, sub_zero]

/-- A vector of four floats. -/
def vec4 : Element := ⟨2, 4, by decide, by decide⟩

/-- The index `7 - i` is split as `i - 7`. -/
theorem subtraction_not_addressed :
    ¬ ∀ (index : Value) (stride : Word) (e : Element) (s : RawBufferAccessSplit),
      extractRawBufferAccessSplit index stride e = some s →
        ∀ env, index.ShiftsInRange env → s.Addresses env index stride e := by
  intro h
  have split : extractRawBufferAccessSplit
    (.binaryOperator .sub (.constantInt 7) (.leaf 0)) 16 vec4 =
      some ⟨1, -7, some (.leaf 0)⟩ := by decide
  have addresses := h _ _ _ _ split (fun _ => 0) ⟨trivial, trivial, by simp⟩
  revert addresses
  unfold RawBufferAccessSplit.Addresses
  decide

end DxilSpirv.Buffer
