import DxilSpirv.Spirv.Words

/-!
# Splitting a buffer index

`extract_raw_buffer_access_split` reads an index as `scale * dynamic_index + bias` in units of the
accessed element. The index is a tree of 32-bit operations over constants and opaque leaves; a
binary operation of another kind is a leaf here, since the matcher stops at it.
-/

namespace DxilSpirv.Buffer

open DxilSpirv.Spirv

/-- A 32-bit word. -/
abbrev Word := BitVec 32

/-- The binary operations that the matcher looks into. -/
inductive BinaryOps
  | add | sub | or | xor | shl | mul
  deriving DecidableEq

/-- A 32-bit index expression. -/
inductive Value
  | constantInt (c : Word)
  | leaf (i : Nat)
  | binaryOperator (op : BinaryOps) (lhs rhs : Value)
  deriving DecidableEq

/-- What a binary operation computes. -/
def BinaryOps.eval (a b : Word) : BinaryOps → Word
  | .add => a + b
  | .sub => a - b
  | .or => a ||| b
  | .xor => a ^^^ b
  | .shl => a <<< b.toNat
  | .mul => a * b

namespace Value

/-- The value of an expression under values of its leaves. -/
def eval (env : Nat → Word) : Value → Word
  | constantInt c => c
  | leaf i => env i
  | binaryOperator op lhs rhs => op.eval (lhs.eval env) (rhs.eval env)

/-- Every shift amount is below 32. -/
def ShiftsInRange (env : Nat → Word) : Value → Prop
  | constantInt _ => True
  | leaf _ => True
  | binaryOperator op lhs rhs =>
      lhs.ShiftsInRange env ∧ rhs.ShiftsInRange env ∧ (op = .shl → (rhs.eval env).toNat < 32)

/-- `dyn_cast<ConstantInt>`. -/
def asConstant : Value → Option Word
  | constantInt c => some c
  | leaf _ => none
  | binaryOperator _ _ _ => none

end Value

/-- The size of an access: a scalar of `1 << addr_shift_log2` bytes, `vecsize` of them. -/
structure Element where
  addrShiftLog2 : Nat
  vecsize : Nat
  vecsize_pos : 0 < vecsize
  /-- `int(element_size)` does not overflow. -/
  size_lt : 2 ^ addrShiftLog2 * vecsize < 2 ^ 31

/-- `element_size`. -/
def Element.size (e : Element) : Nat := 2 ^ e.addrShiftLog2 * e.vecsize

/-- An index in units of the element: `scale * dynamic_index + bias`. -/
structure RawBufferAccessSplit where
  scale : Nat
  bias : Int
  dynamicIndex : Option Value
  deriving DecidableEq

/-- What the matching loop has found so far. -/
structure Matched where
  scale : Option Word
  scaleLog2 : Bool
  bias : Option Word
  biasIsAdd : Bool
  biasNegate : Bool

/-- Nothing found yet. -/
def Matched.initial : Matched := ⟨none, false, none, false, false⟩

/-- Whether an operation is read as adding a bias. -/
def BinaryOps.isBias : BinaryOps → Bool
  | .add => true
  | .sub => true
  | .or => true
  | .xor => true
  | .shl => false
  | .mul => false

/-- A bias is taken: whether it is read as added, and negated. -/
def Matched.takeBias (m : Matched) (op : BinaryOps) (c : Word) : Matched :=
  { m with bias := some c, biasIsAdd := op = .add || op = .sub, biasNegate := op = .sub }

/-- The matching loop: at most one bias, then at most one scale, which ends it. -/
def matchIndex (m : Matched) : Value → Matched × Value
  | .constantInt c => (m, .constantInt c)
  | .leaf i => (m, .leaf i)
  | .binaryOperator op lhs rhs =>
      if m.scale.isSome then
        (m, .binaryOperator op lhs rhs)
      else if m.bias.isNone && op.isBias then
        match lhs.asConstant, rhs.asConstant with
        | some c, _ => matchIndex (m.takeBias op c) rhs
        | none, some c => matchIndex (m.takeBias op c) lhs
        | none, none => (m, .binaryOperator op lhs rhs)
      else if op = .shl then
        match rhs.asConstant with
        | some c => matchIndex { m with scale := some c, scaleLog2 := true } lhs
        | none => (m, .binaryOperator op lhs rhs)
      else if op = .mul then
        match lhs.asConstant, rhs.asConstant with
        | some c, _ => matchIndex { m with scale := some c, scaleLog2 := false } rhs
        | none, some c => matchIndex { m with scale := some c, scaleLog2 := false } lhs
        | none, none => (m, .binaryOperator op lhs rhs)
      else (m, .binaryOperator op lhs rhs)

/-- `scale_factor` before the stride, an unsigned 64-bit number. -/
def Matched.scaleFactor (m : Matched) : Nat :=
  match m.scale with
  | none => 1
  | some c => if m.scaleLog2 then 2 ^ c.toNat % 2 ^ 64 else c.toNat

/-- `bias_factor` before the stride, a signed 64-bit number. -/
def Matched.biasFactor (m : Matched) : Int :=
  match m.bias with
  | none => 0
  | some c => if m.biasNegate then -c.toInt else c.toInt

/-- `extract_raw_buffer_access_split`. The signed 64-bit products are of factors of 33 bits and do
not overflow. -/
def extractRawBufferAccessSplit (index : Value) (stride : Word) (e : Element) :
    Option RawBufferAccessSplit :=
  match index.asConstant with
  | some c =>
      let constantOffset := c.toInt * stride.toNat
      -- A scalar takes the constant as it is, rounded by the division.
      if e.vecsize = 1 ∨ constantOffset.tmod e.size = 0 then
        some { scale := 0, bias := constantOffset.tdiv e.size, dynamicIndex := none }
      else none
  | none =>
      let (m, rest) := matchIndex .initial index
      if m.scale = none ∧ m.bias = none then
        if stride.toNat % e.size = 0 then
          some { scale := stride.toNat / e.size, bias := 0, dynamicIndex := some rest }
        else none
      -- Without common bits an or is read as an addition.
      else if !m.biasIsAdd && m.scaleFactor &&& (m.biasFactor % 2 ^ 64).toNat != 0 then none
      else
        let scaleFactor := m.scaleFactor * stride.toNat % 2 ^ 64
        let biasFactor := m.biasFactor * stride.toNat
        if scaleFactor % e.size = 0 ∧ biasFactor.tmod e.size = 0 then
          some { scale := scaleFactor / e.size, bias :=
            biasFactor.tdiv e.size, dynamicIndex := some rest }
        else none

/-- A biasing operation with a constant operand, which is the left one where both are constants. -/
structure Biased where
  op : BinaryOps
  constant : Word
  operand : Value
  onLeft : Bool

namespace Value

/-- The outermost biasing operation with a constant. -/
def biased : Value → Option Biased
  | constantInt _ => none
  | leaf _ => none
  | binaryOperator op lhs rhs =>
      if op.isBias then
        match lhs.asConstant, rhs.asConstant with
        | some c, _ => some ⟨op, c, rhs, true⟩
        | none, some c => some ⟨op, c, lhs, false⟩
        | none, none => none
      else none

/-- The constant factor of an outermost multiplication or shift, and the rest. -/
def scaled : Value → Nat × Value
  | constantInt c => (1, constantInt c)
  | leaf i => (1, leaf i)
  | binaryOperator .shl lhs rhs =>
      match rhs.asConstant with
      | some c => (2 ^ c.toNat, lhs)
      | none => (1, binaryOperator .shl lhs rhs)
  | binaryOperator .mul lhs rhs =>
      match lhs.asConstant, rhs.asConstant with
      | some c, _ => (c.toNat, rhs)
      | none, some c => (c.toNat, lhs)
      | none, none => (1, binaryOperator .mul lhs rhs)
  | binaryOperator op lhs rhs => (1, binaryOperator op lhs rhs)

/-- The expression under the bias. -/
def unbiased (index : Value) : Value := (index.biased.map Biased.operand).getD index

/-- The signed constant that the split adds. -/
def bias (index : Value) : Int :=
  match index.biased with
  | none => 0
  | some b => if b.op = .sub then -b.constant.toInt else b.constant.toInt

/-- What the value has over the sum of the unbiased value and the bias: a disjunction lacks the
common bits, and a subtraction from a constant has the other sign. -/
def missed (env : Nat → Word) (index : Value) : Word :=
  match index.biased with
  | none => 0
  | some b =>
      let x := b.operand.eval env
      match b.op with
      | .or => -(x &&& b.constant)
      | .xor => -(2 * (x &&& b.constant))
      | .sub => if b.onLeft then 2 * (b.constant - x) else 0
      | .add => 0
      | .shl => 0
      | .mul => 0

/-- Whether the scale and the bias are multiples of the element, and share no bit where a
disjunction is read as an addition. -/
structure Splits (index : Value) (stride : Word) (e : Element) : Prop where
  scale_dvd : e.size ∣ index.unbiased.scaled.1 * stride.toNat
  bias_dvd : (e.size : Int) ∣ index.bias * stride.toNat
  apart : ∀ b ∈ index.biased, b.op = .or ∨ b.op = .xor →
    index.unbiased.scaled.1 &&& b.constant.toNat = 0

end Value

variable {env : Nat → Word}

theorem Value.asConstant_eq_some {v : Value} {c : Word} :
    v.asConstant = some c ↔ v = .constantInt c := by
  cases v with
  | constantInt d => simp [asConstant]
  | leaf i => simp [asConstant]
  | binaryOperator op lhs rhs => simp [asConstant]

@[simp] theorem Value.asConstant_constantInt (c : Word) : (constantInt c).asConstant = some c := rfl

/-- A scale ends the loop. -/
theorem matchIndex_of_scale {m : Matched} (h : m.scale.isSome) (v : Value) :
    matchIndex m v = (m, v) := by
  cases v with
  | constantInt c => rfl
  | leaf i => rfl
  | binaryOperator op lhs rhs => rw [matchIndex, if_pos h]

/-- What the loop finds from an expression in which it takes no bias. -/
structure ScaleFound (m : Matched) (scaled : Nat × Value) (r : Matched × Value) : Prop where
  rest : r.2 = scaled.2
  bias : r.1.bias = m.bias
  biasIsAdd : r.1.biasIsAdd = m.biasIsAdd
  biasNegate : r.1.biasNegate = m.biasNegate
  scaleFactor : r.1.scaleFactor = scaled.1

/-- After a bias, or where there is none to take, the loop takes the scale. -/
theorem matchIndex_scaled {v : Value} (range : v.ShiftsInRange env) {m : Matched}
    (scale : m.scale = none) (bias : m.bias.isSome ∨ v.biased = none) :
    ScaleFound m v.scaled (matchIndex m v) := by
  have unscaled : m.scaleFactor = 1 := by rw [Matched.scaleFactor, scale]
  cases v with
  | constantInt c => exact ⟨rfl, rfl, rfl, rfl, unscaled⟩
  | leaf i => exact ⟨rfl, rfl, rfl, rfl, unscaled⟩
  | binaryOperator op lhs rhs =>
    obtain ⟨-, -, amount⟩ := range
    have shift {c : Word} (hc : rhs.asConstant = some c) (hop : op = .shl) :
        2 ^ c.toNat % 2 ^ 64 = 2 ^ c.toNat := by
      rw [Value.asConstant_eq_some.mp hc] at amount
      have small : c.toNat < 32 := amount hop
      exact Nat.mod_eq_of_lt (Nat.pow_lt_pow_right (by decide) (by omega))
    have hs : ¬ m.scale.isSome = true := by simp [scale]
    by_cases hop : op.isBias
    · -- no bias is taken, so the loop ends here
      have stays : matchIndex m (.binaryOperator op lhs rhs) = (m, .binaryOperator op lhs rhs) := by
        rw [matchIndex, if_neg hs]
        cases op with
        | shl => cases hop
        | mul => cases hop
        | _ =>
          cases hb : m.bias with
          | some c => simp
          | none =>
            have none := bias.resolve_left (by simp [hb])
            rcases hl : lhs.asConstant with _ | a <;> rcases hr : rhs.asConstant with _ | b <;>
              simp_all [Value.biased]
      have one : (Value.binaryOperator op lhs rhs).scaled = (1, .binaryOperator op lhs rhs) := by
        cases op with
        | shl => cases hop
        | mul => cases hop
        | _ => rfl
      rw [stays]
      exact ⟨by rw [one], rfl, rfl, rfl, by rw [one, unscaled]⟩
    · have no : (m.bias.isNone && op.isBias) = false := by simp [hop]
      rw [matchIndex, if_neg hs, no, if_neg Bool.false_ne_true]
      cases op with
      | shl =>
        rw [if_pos rfl, Value.scaled]
        cases hr : rhs.asConstant with
        | none => exact ⟨rfl, rfl, rfl, rfl, unscaled⟩
        | some c =>
          dsimp only
          rw [matchIndex_of_scale rfl]
          exact ⟨rfl, rfl, rfl, rfl, shift hr rfl⟩
      | mul =>
        rw [if_neg (by decide), if_pos rfl, Value.scaled]
        cases hl : lhs.asConstant with
        | some c =>
          dsimp only
          rw [matchIndex_of_scale rfl]
          exact ⟨rfl, rfl, rfl, rfl, rfl⟩
        | none =>
          cases hr : rhs.asConstant with
          | none => exact ⟨rfl, rfl, rfl, rfl, unscaled⟩
          | some c =>
            dsimp only
            rw [matchIndex_of_scale rfl]
            exact ⟨rfl, rfl, rfl, rfl, rfl⟩
      | _ => exact absurd rfl hop

/-- The factor is a 32-bit number. -/
theorem Value.scaled_lt {v : Value} (range : v.ShiftsInRange env) : v.scaled.1 < 2 ^ 32 := by
  cases v with
  | constantInt c => exact Nat.one_lt_two_pow (by decide)
  | leaf i => exact Nat.one_lt_two_pow (by decide)
  | binaryOperator op lhs rhs =>
    obtain ⟨-, -, amount⟩ := range
    cases op with
    | shl =>
      rw [scaled]
      cases hr : rhs.asConstant with
      | none => exact Nat.one_lt_two_pow (by decide)
      | some c =>
        rw [asConstant_eq_some.mp hr] at amount
        exact Nat.pow_lt_pow_right (by decide) (amount rfl)
    | mul =>
      rw [scaled]
      cases hl : lhs.asConstant with
      | some c => exact c.isLt
      | none =>
        cases hr : rhs.asConstant with
        | none => exact Nat.one_lt_two_pow (by decide)
        | some c => exact c.isLt
    | _ => exact Nat.one_lt_two_pow (by decide)

/-- The value is the factor times the value of the rest. -/
theorem Value.eval_scaled {v : Value} (range : v.ShiftsInRange env) :
    v.eval env = ((v.scaled.1 : Nat) : Word) * v.scaled.2.eval env := by
  have one (u : Value) : u.eval env = ((1 : Nat) : Word) * u.eval env := by
    rw [Nat.cast_one, one_mul]
  cases v with
  | constantInt c => exact one _
  | leaf i => exact one _
  | binaryOperator op lhs rhs =>
    cases op with
    | shl =>
      rw [scaled]
      cases hr : rhs.asConstant with
      | none => exact one _
      | some c =>
        rw [asConstant_eq_some.mp hr]
        change lhs.eval env <<< c.toNat = _
        rw [BitVec.shiftLeft_eq_mul_twoPow, mul_comm]
        congr 1
        rw [BitVec.natCast_eq_ofNat]
        apply BitVec.eq_of_toNat_eq
        rw [BitVec.toNat_twoPow, BitVec.toNat_ofNat]
    | mul =>
      rw [scaled]
      cases hl : lhs.asConstant with
      | some c =>
        rw [asConstant_eq_some.mp hl]
        change c * rhs.eval env = _
        simp
      | none =>
        cases hr : rhs.asConstant with
        | none => exact one _
        | some c =>
          rw [asConstant_eq_some.mp hr]
          change lhs.eval env * c = _
          simp [mul_comm]
    | _ => exact one _

/-- What the loop has found below a biasing operation. -/
def Biased.matched (b : Biased) : Matched := Matched.initial.takeBias b.op b.constant

/-- The loop takes the outermost biasing operation, and then the scale of what is under it. -/
theorem matchIndex_initial {index : Value} (range : index.ShiftsInRange env) :
    ScaleFound ((index.biased.map Biased.matched).getD .initial) index.unbiased.scaled
      (matchIndex .initial index) := by
  cases hb : index.biased with
  | none =>
    rw [Value.unbiased, hb]
    exact matchIndex_scaled range rfl (Or.inr hb)
  | some b =>
    rw [Value.unbiased, hb]
    cases index with
    | constantInt c => cases hb
    | leaf i => cases hb
    | binaryOperator op lhs rhs =>
      rw [Value.biased] at hb
      have hop : op.isBias := by
        by_contra no
        rw [if_neg no] at hb
        cases hb
      obtain ⟨left, right, -⟩ := range
      rw [if_pos hop] at hb
      have takes : (Matched.initial.bias.isNone && op.isBias) = true := by rw [hop]; rfl
      have unscaled : ¬ Matched.initial.scale.isSome = true := Bool.false_ne_true
      rw [matchIndex, if_neg unscaled, if_pos takes]
      cases hl : lhs.asConstant with
      | some c =>
        rw [hl] at hb
        cases hb
        exact matchIndex_scaled right rfl (Or.inl rfl)
      | none =>
        rw [hl] at hb
        cases hr : rhs.asConstant with
        | none =>
          rw [hr] at hb
          cases hb
        | some c =>
          rw [hr] at hb
          cases hb
          exact matchIndex_scaled left rfl (Or.inl rfl)

/-- Extending the sign does not matter to a mask of 32 bits. -/
theorem and_signExtended {k : Nat} (hk : k < 2 ^ 32) (c : Word) :
    k &&& (c.toInt % 2 ^ 64).toNat = k &&& c.toNat := by
  have extended : (c.toInt % 2 ^ 64).toNat = (c.signExtend 64).toNat := by
    rw [BitVec.signExtend, BitVec.toNat_ofInt]
    rfl
  rw [extended]
  apply Nat.eq_of_testBit_eq
  intro i
  rw [Nat.testBit_and, Nat.testBit_and]
  by_cases hi : i < 32
  · rw [BitVec.testBit_toNat, BitVec.testBit_toNat, BitVec.getLsbD_signExtend]
    simp [hi, show i < 64 by omega]
  · have none : k.testBit i = false :=
      Nat.testBit_lt_two_pow (hk.trans_le (Nat.pow_le_pow_right (by decide) (by omega)))
    rw [none, Bool.false_and, Bool.false_and]

/-- The split of an index that is not a constant. -/
def Value.split (index : Value) (stride : Word) (e : Element) : RawBufferAccessSplit where
  scale := index.unbiased.scaled.1 * stride.toNat / e.size
  bias := (index.bias * stride.toNat).tdiv e.size
  dynamicIndex := some index.unbiased.scaled.2

theorem Value.ShiftsInRange.unbiased {index : Value} (range : index.ShiftsInRange env) :
    index.unbiased.ShiftsInRange env := by
  rw [Value.unbiased]
  cases index with
  | constantInt c => exact range
  | leaf i => exact range
  | binaryOperator op lhs rhs =>
    obtain ⟨left, right, -⟩ := id range
    rw [Value.biased]
    by_cases hop : op.isBias
    · rw [if_pos hop]
      cases hl : lhs.asConstant with
      | some c => exact right
      | none =>
        cases hr : rhs.asConstant with
        | none => exact range
        | some c => exact left
    · rw [if_neg hop]
      exact range

/-- The bias constant is the one that the loop has found. -/
theorem biasFactor_eq {index : Value} {r : Matched × Value} {k : Nat × Value}
    (found : ScaleFound ((index.biased.map Biased.matched).getD .initial) k r) :
    r.1.biasFactor = index.bias := by
  rw [Matched.biasFactor, Value.bias, found.bias, found.biasNegate]
  cases index.biased with
  | none => rfl
  | some b => simp [Biased.matched, Matched.takeBias]

/-- The check of the common bits passes exactly where a disjunction has none. -/
theorem apart_iff {index : Value} (range : index.ShiftsInRange env) {r : Matched × Value}
    (found : ScaleFound ((index.biased.map Biased.matched).getD .initial) index.unbiased.scaled r) :
    (!r.1.biasIsAdd && r.1.scaleFactor &&& (r.1.biasFactor % 2 ^ 64).toNat != 0) = false ↔
      ∀ b ∈ index.biased, b.op = .or ∨ b.op = .xor →
        index.unbiased.scaled.1 &&& b.constant.toNat = 0 := by
  have small := Value.scaled_lt range.unbiased
  rw [biasFactor_eq found, found.biasIsAdd, found.scaleFactor]
  cases hb : index.biased with
  | none => simp [Value.bias, hb]
  | some b =>
    have op_isBias : b.op.isBias := by
      cases index with
      | constantInt c => cases hb
      | leaf i => cases hb
      | binaryOperator op lhs rhs =>
        rw [Value.biased] at hb
        split at hb
        · split at hb
          · cases hb; assumption
          · cases hb; assumption
          · cases hb
        · cases hb
    have plain (h : b.op ≠ .sub) : index.bias = b.constant.toInt := by simp [Value.bias, hb, h]
    cases hop : b.op with
    | add => simp [Biased.matched, Matched.takeBias, hop]
    | sub => simp [Biased.matched, Matched.takeBias, hop]
    | or =>
      rw [plain (by simp [hop]), and_signExtended small]
      simp [Biased.matched, Matched.takeBias, hop]
    | xor =>
      rw [plain (by simp [hop]), and_signExtended small]
      simp [Biased.matched, Matched.takeBias, hop]
    | shl => rw [hop] at op_isBias; cases op_isBias
    | mul => rw [hop] at op_isBias; cases op_isBias

/-- What the matcher returns for an index that is not a constant. -/
theorem extract_eq_some_iff {index : Value} (range : index.ShiftsInRange env)
    (notConstant : index.asConstant = none) (stride : Word) (e : Element)
    (s : RawBufferAccessSplit) :
    extractRawBufferAccessSplit index stride e = some s ↔
      index.Splits stride e ∧ s = index.split stride e := by
  have found := matchIndex_initial range
  have small := Value.scaled_lt range.unbiased
  have passes := apart_iff range found
  have constant := biasFactor_eq found
  have fits : index.unbiased.scaled.1 * stride.toNat % 2 ^ 64 =
      index.unbiased.scaled.1 * stride.toNat := by
    have := stride.isLt
    exact Nat.mod_eq_of_lt (by nlinarith)
  rw [extractRawBufferAccessSplit, notConstant]
  dsimp only
  rw [found.rest]
  split_ifs with nothing divides shares divides
  · -- nothing to split: the scale is one and the bias zero
    have one : index.unbiased.scaled.1 = 1 := by
      rw [← found.scaleFactor, Matched.scaleFactor, nothing.1]
    have zero : index.bias = 0 := by
      rw [← constant, Matched.biasFactor, nothing.2]
    have unbiased : index.biased = none := by
      have := nothing.2
      rw [found.bias] at this
      cases hb : index.biased with
      | none => rfl
      | some b =>
        rw [hb] at this
        cases this
    have splits : index.Splits stride e :=
      ⟨by rw [one, one_mul]; exact Nat.dvd_of_mod_eq_zero divides, by simp [zero],
        by simp [unbiased]⟩
    rw [Value.split, one, zero, one_mul, zero_mul, Int.zero_tdiv, Option.some.injEq]
    exact ⟨fun h => ⟨splits, h.symm⟩, fun h => h.2.symm⟩
  · have one : index.unbiased.scaled.1 = 1 := by
      rw [← found.scaleFactor, Matched.scaleFactor, nothing.1]
    constructor
    · intro h
      cases h
    · rintro ⟨splits, -⟩
      have := splits.scale_dvd
      rw [one, one_mul] at this
      exact absurd (Nat.mod_eq_zero_of_dvd this) divides
  · constructor
    · intro h
      cases h
    · rintro ⟨splits, -⟩
      rw [passes.mpr splits.apart] at shares
      cases shares
  · rw [found.scaleFactor, constant, fits] at divides ⊢
    have splits : index.Splits stride e :=
      ⟨Nat.dvd_of_mod_eq_zero divides.1, Int.dvd_of_tmod_eq_zero divides.2,
        passes.mp (Bool.eq_false_iff.mpr shares)⟩
    rw [Option.some.injEq]
    exact ⟨fun h => ⟨splits, h.symm⟩, fun h => h.2.symm⟩
  · rw [found.scaleFactor, constant, fits] at divides
    constructor
    · intro h
      cases h
    · rintro ⟨splits, -⟩
      exact absurd ⟨Nat.mod_eq_zero_of_dvd splits.scale_dvd,
        Int.tmod_eq_zero_of_dvd splits.bias_dvd⟩ divides

/-- The value is the unbiased value, the bias and what the split misses. -/
theorem Value.eval_eq (index : Value) (env : Nat → Word) :
    index.eval env = index.unbiased.eval env + ((index.bias : Int) : Word) + index.missed env := by
  cases hb : index.biased with
  | none => simp [unbiased, bias, missed, hb]
  | some b =>
    have cast := intCast_toInt b.constant
    simp only [unbiased, bias, missed, hb, Option.map_some, Option.getD_some]
    cases index with
    | constantInt c => cases hb
    | leaf i => cases hb
    | binaryOperator op lhs rhs =>
      rw [biased] at hb
      split_ifs at hb with hop
      change op.eval (lhs.eval env) (rhs.eval env) = _
      cases hl : lhs.asConstant with
      | some c =>
        rw [hl] at hb
        cases hb
        rw [asConstant_eq_some.mp hl]
        dsimp only at cast ⊢
        cases op with
        | add => simp [BinaryOps.eval, eval, cast, add_comm]
        | sub =>
          simp only [BinaryOps.eval, eval, if_pos, Int.cast_neg, cast]
          ring
        | or =>
          simp only [BinaryOps.eval, eval, reduceCtorEq, if_false, cast]
          rw [or_eq_add_sub_and, BitVec.and_comm]
          ring
        | xor =>
          simp only [BinaryOps.eval, eval, reduceCtorEq, if_false, cast]
          rw [xor_eq_add_sub_two_and, BitVec.and_comm]
          ring
        | shl => cases hop
        | mul => cases hop
      | none =>
        rw [hl] at hb
        cases hr : rhs.asConstant with
        | none =>
          rw [hr] at hb
          cases hb
        | some c =>
          rw [hr] at hb
          cases hb
          rw [asConstant_eq_some.mp hr]
          dsimp only at cast ⊢
          cases op with
          | add => simp [BinaryOps.eval, eval, cast]
          | sub =>
            simp only [BinaryOps.eval, eval, if_true, Bool.false_eq_true, if_false,
              Int.cast_neg, cast]
            ring
          | or =>
            simp only [BinaryOps.eval, eval, reduceCtorEq, if_false, cast]
            rw [or_eq_add_sub_and]
            ring
          | xor =>
            simp only [BinaryOps.eval, eval, reduceCtorEq, if_false, cast]
            rw [xor_eq_add_sub_two_and]
            ring
          | shl => cases hop
          | mul => cases hop

end DxilSpirv.Buffer
