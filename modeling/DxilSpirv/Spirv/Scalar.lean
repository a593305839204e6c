import Mathlib.Data.Nat.Size
import Mathlib.Tactic.Common
import Mathlib.Algebra.Ring.Nat

/-!
# Integer instructions of the target language

Words of a fixed width with the meaning the instructions have on them. Where an instruction has
no defined result the parameter `Undefined` says what it happens to produce, so that a result
proved for every `Undefined` never rests on one.
-/

namespace DxilSpirv.Spirv

/-- What the instructions produce where their result is not defined. -/
structure Undefined (w : Nat) where
  shift : BitVec w → BitVec w → BitVec w
  bitField : BitVec w → BitVec w → BitVec w → BitVec w
  quotient : BitVec w → BitVec w
  remainder : BitVec w → BitVec w

variable {w : Nat} (u : Undefined w)

/-- `OpShiftLeftLogical`, undefined from the width on. -/
def shiftLeftLogical (base shift : BitVec w) : BitVec w :=
  if shift.toNat < w then base <<< shift.toNat else u.shift base shift

/-- `OpBitFieldUExtract`, undefined where the field leaves the word. -/
def bitFieldUExtract (base offset count : BitVec w) : BitVec w :=
  if offset.toNat + count.toNat ≤ w then
    (base >>> offset.toNat) &&& BitVec.ofNat w (2 ^ count.toNat - 1)
  else u.bitField base offset count

/-- `OpUDiv`, undefined for a zero divisor. -/
def uDiv (a b : BitVec w) : BitVec w := if b = 0 then u.quotient a else a / b

/-- `OpUMod`, undefined for a zero divisor. -/
def uMod (a b : BitVec w) : BitVec w := if b = 0 then u.remainder a else a % b

/-- `FindUMsb`: the index of the highest set bit, or all ones when there is none. -/
def findUMsb (a : BitVec w) : BitVec w :=
  if a = 0 then BitVec.allOnes w else BitVec.ofNat w a.toNat.log2

/-- `OpULessThan`. -/
def uLessThan (a b : BitVec w) : Bool := a.ult b

/-- `OpULessThanEqual`. -/
def uLessThanEqual (a b : BitVec w) : Bool := a.ule b

/-- `OpSLessThan`. -/
def sLessThan (a b : BitVec w) : Bool := a.slt b

variable {u} {a b c : BitVec w}

@[simp] theorem uLessThan_iff : uLessThan a b = true ↔ a.toNat < b.toNat := by
  simp [uLessThan, BitVec.ult]

@[simp] theorem uLessThanEqual_iff : uLessThanEqual a b = true ↔ a.toNat ≤ b.toNat := by
  simp [uLessThanEqual, BitVec.ule]

/-- A word is negative when its upper half is reached. -/
theorem sLessThan_zero_iff : sLessThan a 0 = true ↔ 2 ^ (w - 1) ≤ a.toNat := by
  rw [sLessThan, BitVec.ofNat_eq_ofNat, BitVec.slt_zero_eq_msb, BitVec.msb_eq_decide,
    decide_eq_true_iff]

/-- A shift that neither is too wide nor loses bits multiplies. -/
theorem toNat_shiftLeftLogical (hb : b.toNat < w) (h : a.toNat * 2 ^ b.toNat < 2 ^ w) :
    (shiftLeftLogical u a b).toNat = a.toNat * 2 ^ b.toNat := by
  rw [shiftLeftLogical, if_pos hb, BitVec.toNat_shiftLeft, Nat.shiftLeft_eq, Nat.mod_eq_of_lt h]

/-- A field inside the word is a quotient reduced to the field's size. -/
theorem toNat_bitFieldUExtract (h : b.toNat + c.toNat ≤ w) :
    (bitFieldUExtract u a b c).toNat = a.toNat / 2 ^ b.toNat % 2 ^ c.toNat := by
  have hc : 2 ^ c.toNat - 1 < 2 ^ w := by
    have hle : 2 ^ c.toNat ≤ 2 ^ w := Nat.pow_le_pow_right (by decide) (by omega)
    have hpos : 0 < 2 ^ c.toNat := Nat.two_pow_pos _
    omega
  rw [bitFieldUExtract, if_pos h, BitVec.toNat_and, BitVec.toNat_ushiftRight, BitVec.toNat_ofNat,
    Nat.mod_eq_of_lt hc, Nat.and_two_pow_sub_one_eq_mod, Nat.shiftRight_eq_div_pow]

theorem toNat_uDiv (hb : 0 < b.toNat) : (uDiv u a b).toNat = a.toNat / b.toNat := by
  have hne : b ≠ 0 := by
    intro h
    simp [h] at hb
  rw [uDiv, if_neg hne, BitVec.toNat_udiv]

theorem toNat_uMod (hb : 0 < b.toNat) : (uMod u a b).toNat = a.toNat % b.toNat := by
  have hne : b ≠ 0 := by
    intro h
    simp [h] at hb
  rw [uMod, if_neg hne, BitVec.toNat_umod]

/-- One more than the highest set bit is the number of bits of the word. -/
theorem toNat_findUMsb_add_one (hw : 1 < w) : (findUMsb a + 1).toNat = a.toNat.size := by
  have hpow : w < 2 ^ w := Nat.lt_two_pow_self
  by_cases ha : a = 0
  · subst ha
    have hall : BitVec.allOnes w + 1#w = 0#w := by
      apply BitVec.eq_of_toNat_eq
      have h1 : 1 % 2 ^ w = 1 := Nat.mod_eq_of_lt (by omega)
      rw [BitVec.toNat_add, BitVec.toNat_allOnes, BitVec.toNat_ofNat, BitVec.toNat_ofNat, h1,
        Nat.sub_add_cancel (by omega), Nat.mod_self, Nat.zero_mod]
    simp [findUMsb, hall]
  · have hne : a.toNat ≠ 0 := fun h => ha (BitVec.eq_of_toNat_eq (by simpa using h))
    have hlog : a.toNat.log2 < w := (Nat.log2_lt hne).mpr a.isLt
    have hsize : a.toNat.size = a.toNat.log2 + 1 := by
      apply Nat.le_antisymm
      · exact Nat.size_le.mpr Nat.lt_log2_self
      · exact Nat.lt_size.mpr (Nat.log2_self_le hne)
    rw [findUMsb, if_neg ha, BitVec.toNat_add, BitVec.toNat_ofNat, BitVec.ofNat_eq_ofNat,
      BitVec.toNat_ofNat, hsize]
    rw [Nat.mod_eq_of_lt (show a.toNat.log2 < 2 ^ w by omega),
      Nat.mod_eq_of_lt (show 1 < 2 ^ w by omega), Nat.mod_eq_of_lt (by omega)]

end DxilSpirv.Spirv
