import DxilSpirv.Spirv.Scalar
import Mathlib.Data.Nat.Basic
import Mathlib.Algebra.Ring.Nat

/-!
# The low bits of a result

A value of `n` bits lives in a word of `w` bits whose upper bits are anything. For each operation:
what its low bits are, given the low bits of its operands or their extensions.
-/

namespace DxilSpirv.Spirv

variable {w : Nat} (u : Undefined w)

/-- `OpShiftRightLogical`, undefined from the width on. -/
def shiftRightLogical (base shift : BitVec w) : BitVec w :=
  if shift.toNat < w then base >>> shift.toNat else u.shift base shift

/-- `OpShiftRightArithmetic`, undefined from the width on. -/
def shiftRightArithmetic (base shift : BitVec w) : BitVec w :=
  if shift.toNat < w then base.sshiftRight shift.toNat else u.shift base shift

/-- `OpSDiv`, undefined for a zero divisor and where the quotient does not fit. -/
def sDiv (a b : BitVec w) : BitVec w :=
  if b = 0 ∨ a = BitVec.intMin w ∧ b = -1 then u.quotient a else a.sdiv b

/-- `OpSRem`, undefined where `OpSDiv` is. -/
def sRem (a b : BitVec w) : BitVec w :=
  if b = 0 ∨ a = BitVec.intMin w ∧ b = -1 then u.remainder a else a.srem b

/-- `OpBitFieldSExtract` and `OpBitFieldUExtract`, undefined where the field leaves the word. -/
def bitFieldExtract (isSigned : Bool) (base : BitVec w) (offset count : Nat) : BitVec w :=
  if offset + count ≤ w then
    let field := (base >>> offset).setWidth count
    if isSigned then field.signExtend w else field.setWidth w
  else u.bitField base (BitVec.ofNat w offset) (BitVec.ofNat w count)

variable {n : Nat}

/-- The word that the low bits of another extend to. -/
def extend (isSigned : Bool) (n : Nat) (x : BitVec w) : BitVec w :=
  if isSigned then (x.setWidth n).signExtend w else (x.setWidth n).setWidth w

/-- The extraction of the low bits extends them. -/
theorem bitFieldExtract_low (u : Undefined w) (isSigned : Bool) (x : BitVec w) (h : n ≤ w) :
    bitFieldExtract u isSigned x 0 n = extend isSigned n x := by
  rw [bitFieldExtract, if_pos (by omega), BitVec.ushiftRight_zero]
  rfl

/-- In a word of its own width a value is extended already. -/
theorem extend_self (isSigned : Bool) (x : BitVec w) : extend isSigned w x = x := by
  cases isSigned with
  | true => rw [extend, if_pos rfl, BitVec.setWidth_eq, BitVec.signExtend_eq]
  | false => rw [extend, if_neg Bool.false_ne_true, BitVec.setWidth_eq, BitVec.setWidth_eq]

/-- The low part of a sign extension is a sign extension. -/
theorem setWidth_signExtend {m v : Nat} (x : BitVec n) (h : m ≤ v) :
    (x.signExtend v).setWidth m = x.signExtend m := by
  apply BitVec.eq_of_getLsbD_eq
  intro i hi
  have hiv : i < v := by omega
  rw [BitVec.getLsbD_setWidth, BitVec.getLsbD_signExtend, BitVec.getLsbD_signExtend]
  simp [hi, hiv]

/-- The low part of a zero extension is the low part. -/
theorem setWidth_setWidth_self {m v : Nat} (x : BitVec n) (h : m ≤ v) :
    (x.setWidth v).setWidth m = x.setWidth m := BitVec.setWidth_setWidth_of_le x h

/-- Extending does not change the low bits. -/
theorem setWidth_extend (isSigned : Bool) (x : BitVec w) (h : n ≤ w) :
    (extend isSigned n x).setWidth n = x.setWidth n := by
  cases isSigned with
  | true => rw [extend, if_pos rfl, setWidth_signExtend _ h, BitVec.signExtend_eq]
  | false =>
    rw [extend, if_neg Bool.false_ne_true, setWidth_setWidth_self _ h, BitVec.setWidth_eq]

/-- A zero extension has the value of the low bits. -/
theorem toNat_extend (x : BitVec w) (h : n ≤ w) :
    (extend false n x).toNat = (x.setWidth n).toNat := by
  rw [extend, if_neg Bool.false_ne_true, BitVec.toNat_setWidth_of_le h]

/-- A sign extension has the signed value of the low bits. -/
theorem toInt_extend (x : BitVec w) (h : n ≤ w) :
    (extend true n x).toInt = (x.setWidth n).toInt := by
  rw [extend, if_pos rfl, BitVec.toInt_signExtend_of_le h]

/-- A subtraction of low bits is the low part of the subtraction. -/
theorem setWidth_sub (x y : BitVec w) (h : n ≤ w) :
    (x - y).setWidth n = x.setWidth n - y.setWidth n := by
  rw [BitVec.sub_eq_add_neg, BitVec.setWidth_add x (-y) h, BitVec.setWidth_neg_of_le h,
    ← BitVec.sub_eq_add_neg]

/-- Integers that two words of different widths stand for give the same low bits. -/
theorem toInt_setWidth_of_le (x : BitVec w) (h : n ≤ w) :
    (x.setWidth n).toInt = x.toInt.bmod (2 ^ n) := by
  have hdvd : ((2 ^ n : Nat) : Int) ∣ ((2 ^ w : Nat) : Int) :=
    Int.natCast_dvd_natCast.mpr (Nat.pow_dvd_pow 2 h)
  rw [BitVec.toInt_setWidth, BitVec.toInt_eq_toNat_bmod, Int.bmod_bmod_of_dvd]
  exact_mod_cast hdvd

variable {x y : BitVec w}

/-- A shift to the right is right on the extended word. -/
theorem shiftRightLogical_low (h : n ≤ w) (hy : (y.setWidth n).toNat < n) :
    (shiftRightLogical u (extend false n x) (extend false n y)).setWidth n =
      x.setWidth n >>> (y.setWidth n).toNat := by
  rw [shiftRightLogical, toNat_extend y h, if_pos (by omega)]
  apply BitVec.eq_of_toNat_eq
  rw [BitVec.toNat_setWidth, BitVec.toNat_ushiftRight, BitVec.toNat_ushiftRight, toNat_extend x h]
  apply Nat.mod_eq_of_lt
  rw [Nat.shiftRight_eq_div_pow]
  exact Nat.lt_of_le_of_lt (Nat.div_le_self ..) (x.setWidth n).isLt

/-- An amount below the width is not negative, so that extending it with its sign is harmless. -/
theorem toNat_extend_amount (h : n ≤ w) (hn : 2 ≤ n) (hy : (y.setWidth n).toNat < n) :
    (extend true n y).toNat = (y.setWidth n).toNat := by
  have hpow : n ≤ 2 ^ (n - 1) := by
    have hlt : n - 1 < 2 ^ (n - 1) := Nat.lt_two_pow_self
    omega
  have hmsb : (y.setWidth n).msb = false := by
    rw [BitVec.msb_eq_decide, decide_eq_false_iff_not]
    omega
  rw [extend, if_pos rfl, BitVec.signExtend_eq_setWidth_of_msb_false hmsb,
    BitVec.toNat_setWidth_of_le h]

/-- An arithmetic shift of extended low bits shifts the low bits. -/
theorem shiftRightArithmetic_low (h : n ≤ w) (hn : 2 ≤ n) (hy : (y.setWidth n).toNat < n) :
    (shiftRightArithmetic u (extend true n x) (extend true n y)).setWidth n =
      (x.setWidth n).sshiftRight (y.setWidth n).toNat := by
  rw [shiftRightArithmetic, toNat_extend_amount h hn hy, if_pos (by omega)]
  apply BitVec.eq_of_toInt_eq
  rw [toInt_setWidth_of_le _ h, BitVec.toInt_sshiftRight, BitVec.toInt_sshiftRight,
    toInt_extend x h, ← BitVec.toInt_sshiftRight, BitVec.toInt_bmod_cancel]

/-- A shift to the left needs the amount to be extended. -/
theorem shiftLeftLogical_low (h : n ≤ w) (hy : y.toNat = (y.setWidth n).toNat)
    (hamount : (y.setWidth n).toNat < n) :
    (shiftLeftLogical u x y).setWidth n = x.setWidth n <<< (y.setWidth n).toNat := by
  rw [shiftLeftLogical, if_pos (by omega), BitVec.setWidth_shiftLeft_of_le h, hy]

/-- A divisor of zero or minus one is recognised in the extended word. -/
theorem extend_eq_iff (h : n ≤ w) :
    (extend true n y = 0 ↔ y.setWidth n = 0) ∧
      (0 < n → (extend true n y = -1 ↔ y.setWidth n = -1)) := by
  constructor
  · rw [← BitVec.toInt_inj, ← BitVec.toInt_inj, toInt_extend y h]
    simp
  · intro hn
    rw [← BitVec.toInt_inj, ← BitVec.toInt_inj, toInt_extend y h]
    have hone : ∀ {v : Nat}, 0 < v → (-1 : BitVec v).toInt = -1 := by
      intro v hv
      have hcast : (-1 : BitVec v) = -1#v := rfl
      rw [hcast, BitVec.neg_one_eq_allOnes, BitVec.toInt_allOnes, if_pos hv]
    rw [hone hn, hone (by omega)]

/-- Where the quotient of two values fits, that of their extensions does. -/
theorem extend_fits (h : n ≤ w) (hn : 0 < n) (hne : y.setWidth n ≠ 0)
    (hfits : ¬ (x.setWidth n = BitVec.intMin n ∧ y.setWidth n = -1)) :
    ¬ (extend true n y = 0 ∨ extend true n x = BitVec.intMin w ∧ extend true n y = -1) := by
  rintro (hzero | ⟨hmin, hone⟩)
  · exact hne ((extend_eq_iff h).1.mp hzero)
  · apply hfits
    refine ⟨?_, ((extend_eq_iff h).2 hn).mp hone⟩
    have hx : (x.setWidth n).toInt = (BitVec.intMin w).toInt := by rw [← toInt_extend x h, hmin]
    rw [BitVec.toInt_intMin_of_pos (by omega)] at hx
    have hle := BitVec.le_toInt (x.setWidth n)
    have hpow : (2 : Int) ^ (n - 1) ≤ 2 ^ (w - 1) := by
      exact_mod_cast Nat.pow_le_pow_right (by omega : 0 < 2) (by omega : n - 1 ≤ w - 1)
    apply BitVec.eq_of_toInt_eq
    rw [BitVec.toInt_intMin_of_pos hn]
    omega

/-- A signed division of extended low bits divides the low bits. -/
theorem sDiv_low (h : n ≤ w) (hn : 0 < n) (hne : y.setWidth n ≠ 0)
    (hfits : ¬ (x.setWidth n = BitVec.intMin n ∧ y.setWidth n = -1)) :
    (sDiv u (extend true n x) (extend true n y)).setWidth n =
      (x.setWidth n).sdiv (y.setWidth n) := by
  rw [sDiv, if_neg (extend_fits h hn hne hfits)]
  apply BitVec.eq_of_toInt_eq
  have hdvd : ((2 ^ n : Nat) : Int) ∣ ((2 ^ w : Nat) : Int) :=
    Int.natCast_dvd_natCast.mpr (Nat.pow_dvd_pow 2 h)
  rw [toInt_setWidth_of_le _ h, BitVec.toInt_sdiv, BitVec.toInt_sdiv, toInt_extend x h,
    toInt_extend y h, Int.bmod_bmod_of_dvd]
  exact_mod_cast hdvd

/-- A signed remainder of extended low bits is that of the low bits. -/
theorem sRem_low (h : n ≤ w) (hn : 0 < n) (hne : y.setWidth n ≠ 0)
    (hfits : ¬ (x.setWidth n = BitVec.intMin n ∧ y.setWidth n = -1)) :
    (sRem u (extend true n x) (extend true n y)).setWidth n =
      (x.setWidth n).srem (y.setWidth n) := by
  rw [sRem, if_neg (extend_fits h hn hne hfits)]
  apply BitVec.eq_of_toInt_eq
  rw [toInt_setWidth_of_le _ h, BitVec.toInt_srem, toInt_extend x h, toInt_extend y h,
    ← BitVec.toInt_srem, BitVec.toInt_bmod_cancel]

/-- Comparisons are right on the extended words. -/
theorem extend_inj (isSigned : Bool) (h : n ≤ w) :
    extend isSigned n x = extend isSigned n y ↔ x.setWidth n = y.setWidth n := by
  constructor
  · intro heq
    rw [← setWidth_extend isSigned x h, heq, setWidth_extend isSigned y h]
  · intro heq
    rw [extend, extend, heq]

/-- Zero extension keeps the unsigned order. -/
theorem extend_ult (h : n ≤ w) :
    (extend false n x).ult (extend false n y) = (x.setWidth n).ult (y.setWidth n) := by
  rw [BitVec.ult, BitVec.ult, toNat_extend x h, toNat_extend y h]

/-- Zero extension keeps the unsigned order, equality included. -/
theorem extend_ule (h : n ≤ w) :
    (extend false n x).ule (extend false n y) = (x.setWidth n).ule (y.setWidth n) := by
  rw [BitVec.ule, BitVec.ule, toNat_extend x h, toNat_extend y h]

/-- Sign extension keeps the signed order. -/
theorem extend_slt (h : n ≤ w) :
    (extend true n x).slt (extend true n y) = (x.setWidth n).slt (y.setWidth n) := by
  rw [BitVec.slt, BitVec.slt, toInt_extend x h, toInt_extend y h]

/-- Sign extension keeps the signed order, equality included. -/
theorem extend_sle (h : n ≤ w) :
    (extend true n x).sle (extend true n y) = (x.setWidth n).sle (y.setWidth n) := by
  rw [BitVec.sle, BitVec.sle, toInt_extend x h, toInt_extend y h]

end DxilSpirv.Spirv
