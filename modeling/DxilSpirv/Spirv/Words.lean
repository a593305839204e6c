import Mathlib.Data.BitVec
import Mathlib.Tactic.Ring
import Mathlib.Tactic.Positivity
import Mathlib.Tactic.Linarith
import Mathlib.Tactic.LinearCombination

/-!
# Words as a ring

Bit operations of a word as sums of its ring: a disjunction is a sum less the bits that both
operands have, an exclusive disjunction is a sum less these bits twice. Integers cast to words, and
a word rounded down to a multiple.
-/

namespace DxilSpirv.Spirv

variable {w : Nat} (x y : BitVec w)

/-- A word splits into the bits that another has and the bits that it lacks. -/
theorem and_add_and_not : (x &&& y) + (x &&& ~~~y) = x := by
  have apart : (x &&& y) &&& (x &&& ~~~y) = 0#w := by
    ext i hi
    simp
    grind
  rw [BitVec.add_eq_or_of_and_eq_zero _ _ apart]
  ext i hi
  simp
  grind

/-- A disjunction is the sum less the common bits. -/
theorem or_eq_add_sub_and : x ||| y = x + y - (x &&& y) := by
  have apart : x &&& (y &&& ~~~x) = 0#w := by
    ext i hi
    simp
    grind
  have whole : x ||| y = x + (y &&& ~~~x) := by
    rw [BitVec.add_eq_or_of_and_eq_zero _ _ apart]
    ext i hi
    simp
    grind
  have parts := and_add_and_not y x
  rw [BitVec.and_comm y x] at parts
  rw [whole]
  linear_combination parts

/-- An exclusive disjunction is the sum less twice the common bits. -/
theorem xor_eq_add_sub_two_and : x ^^^ y = x + y - 2 * (x &&& y) := by
  have apart : (x ^^^ y) &&& (x &&& y) = 0#w := by
    ext i hi
    simp
    grind
  have whole : (x ^^^ y) + (x &&& y) = x ||| y := by
    rw [BitVec.add_eq_or_of_and_eq_zero _ _ apart]
    ext i hi
    simp
    grind
  rw [or_eq_add_sub_and] at whole
  linear_combination whole

/-- A word is the cast of its signed value. -/
theorem intCast_toInt (x : BitVec w) : ((x.toInt : Int) : BitVec w) = x :=
  BitVec.ofInt_toInt

/-- A word is the cast of its unsigned value. -/
theorem intCast_toNat (x : BitVec w) : ((x.toNat : Int) : BitVec w) = x := by
  apply BitVec.eq_of_toNat_eq
  change (BitVec.ofInt w (x.toNat : Int)).toNat = x.toNat
  rw [BitVec.toNat_ofInt]
  have small : ((x.toNat : Int) % ((2 ^ w : Nat) : Int)).toNat = x.toNat % 2 ^ w := by
    rw [← Int.natCast_emod, Int.toNat_natCast]
  rw [small, Nat.mod_eq_of_lt x.isLt]

/-- A cast integer vanishes exactly when the modulus divides it. -/
theorem intCast_eq_zero_iff (z : Int) : ((z : Int) : BitVec w) = 0 ↔ (2 ^ w : Int) ∣ z := by
  rw [← BitVec.toNat_inj]
  change (BitVec.ofInt w z).toNat = _ ↔ _
  rw [BitVec.toNat_ofInt]
  have pos : (0 : Int) < 2 ^ w := Int.pow_pos (by decide)
  constructor
  · intro h
    have nonneg := Int.emod_nonneg z (ne_of_gt pos)
    have zero : z % (2 ^ w : Int) = 0 := by
      simp at h
      omega
    exact Int.dvd_of_emod_eq_zero zero
  · intro h
    simp [Int.emod_eq_zero_of_dvd h]

/-- Casts agree exactly when the modulus divides their difference. -/
theorem intCast_eq_iff (a b : Int) : ((a : Int) : BitVec w) = b ↔ (2 ^ w : Int) ∣ a - b := by
  rw [← intCast_eq_zero_iff, Int.cast_sub, sub_eq_zero]

/-- The largest multiple of `n` that is not above a word. -/
def roundDown (n : Nat) (x : BitVec w) : BitVec w := BitVec.ofNat w (x.toNat / n * n)

/-- A word that is the cast of `z` is rounded down as `z` is, to a multiple that divides the
modulus. -/
theorem roundDown_intCast {n : Nat} (z : Int) (hn : (n : Int) ∣ 2 ^ w) :
    roundDown n ((z : Int) : BitVec w) = ((z - z % n : Int) : BitVec w) := by
  have small : (((z : Int) : BitVec w).toNat : Int) = z % 2 ^ w := by
    change ((BitVec.ofInt w z).toNat : Int) = _
    rw [BitVec.toNat_ofInt, Int.toNat_of_nonneg (Int.emod_nonneg _ (by positivity))]
    push_cast
    rfl
  have rest : ((z % 2 ^ w) % n : Int) = z % n := Int.emod_emod_of_dvd z hn
  have quotient : (((((z : Int) : BitVec w).toNat / n * n : Nat)) : Int) = z % 2 ^ w - z % n := by
    push_cast
    rw [small, ← rest]
    have := Int.mul_ediv_add_emod (z % 2 ^ w) n
    linarith
  rw [roundDown, ← BitVec.natCast_eq_ofNat, ← Int.cast_natCast (R := BitVec w), quotient,
    intCast_eq_iff]
  have := Int.mul_ediv_add_emod z (2 ^ w)
  exact ⟨-(z / 2 ^ w), by linarith⟩

/-- Masking with the number of elements of `2 ^ k` bytes keeps the low bits. -/
theorem toNat_and_elements (x : BitVec w) {k : Nat} (hk : k ≤ w) :
    (x &&& BitVec.ofNat w ((2 ^ w - 1) / 2 ^ k)).toNat = x.toNat % 2 ^ (w - k) := by
  have split : 2 ^ w = 2 ^ (w - k) * 2 ^ k := by rw [← Nat.pow_add, Nat.sub_add_cancel hk]
  have pos : 0 < 2 ^ k := Nat.two_pow_pos k
  have elements : (2 ^ w - 1) / 2 ^ k = 2 ^ (w - k) - 1 := by
    have outer : 0 < 2 ^ (w - k) := Nat.two_pow_pos _
    rw [split, Nat.div_eq_iff pos]
    have product : (2 ^ (w - k) - 1) * 2 ^ k = 2 ^ (w - k) * 2 ^ k - 2 ^ k := by
      rw [Nat.sub_mul, one_mul]
    have large : 2 ^ k ≤ 2 ^ (w - k) * 2 ^ k := Nat.le_mul_of_pos_left _ outer
    omega
  have small : 2 ^ (w - k) - 1 < 2 ^ w :=
    (Nat.sub_lt (Nat.two_pow_pos _) Nat.one_pos).trans_le
      (Nat.pow_le_pow_right (by decide) (Nat.sub_le _ _))
  rw [BitVec.toNat_and, BitVec.toNat_ofNat, elements, Nat.mod_eq_of_lt small,
    Nat.and_two_pow_sub_one_eq_mod]

/-- The masked elements have the same bytes, and their bytes do not wrap. -/
theorem and_elements_mul (x : BitVec w) {k : Nat} (hk : k ≤ w) :
    (x &&& BitVec.ofNat w ((2 ^ w - 1) / 2 ^ k)) * ((2 ^ k : Nat) : BitVec w) =
      x * ((2 ^ k : Nat) : BitVec w) := by
  have split : 2 ^ w = 2 ^ (w - k) * 2 ^ k := by rw [← Nat.pow_add, Nat.sub_add_cancel hk]
  apply BitVec.eq_of_toNat_eq
  rw [BitVec.toNat_mul, BitVec.toNat_mul, toNat_and_elements x hk, BitVec.natCast_eq_ofNat,
    BitVec.toNat_ofNat]
  conv_lhs => rw [← Nat.mul_mod_mod, Nat.mod_mod, Nat.mul_mod_mod]
  conv_rhs => rw [← Nat.mul_mod_mod, Nat.mod_mod, Nat.mul_mod_mod]
  rw [split, Nat.mul_mod_mul_right, Nat.mul_mod_mul_right, Nat.mod_mod]

end DxilSpirv.Spirv
