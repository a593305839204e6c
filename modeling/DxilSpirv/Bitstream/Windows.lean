import Mathlib.Data.Nat.Bitwise
import Mathlib.Data.Nat.Digits.Defs

/-!
# Windows of a number

A stream of bits is the number whose binary digits they are, lowest first. Reading a field of the
stream is taking a window of that number, and fields that follow one another are one window.
-/

namespace DxilSpirv.Bitstream

variable {N p n a b k : Nat}

/-- The `n` bits of a number from position `p` on. -/
def window (N p n : Nat) : Nat := N / 2 ^ p % 2 ^ n

/-- A window of `n` bits is below `2 ^ n`. -/
theorem window_lt (N p n : Nat) : window N p n < 2 ^ n := Nat.mod_lt _ (Nat.two_pow_pos n)

@[simp] theorem window_zero (N p : Nat) : window N p 0 = 0 := Nat.mod_one _

/-- A window is its low bits and then its high bits. -/
theorem window_add (N p a b : Nat) :
    window N p (a + b) = window N p a + 2 ^ a * window N (p + a) b := by
  unfold window
  rw [pow_add, Nat.mod_mul, Nat.div_div_eq_div_mul, ← pow_add]

/-- The low bits of a window. -/
theorem window_mod (N p n k : Nat) : window N p n % 2 ^ k = window N p (min n k) := by
  unfold window
  rcases Nat.le_total n k with h | h
  · rw [Nat.min_eq_left h, Nat.mod_mod_of_dvd' (pow_dvd_pow 2 h)]
  · rw [Nat.min_eq_right h, Nat.mod_mod_of_dvd _ (pow_dvd_pow 2 h)]

/-- A mask shortens a window. -/
theorem window_and (N p n k : Nat) : window N p n &&& (2 ^ k - 1) = window N p (min n k) := by
  rw [Nat.and_two_pow_sub_one_eq_mod, window_mod]

/-- The high bits of a window. -/
theorem window_shiftRight (N p n k : Nat) : window N p n >>> k = window N (p + k) (n - k) := by
  rw [Nat.shiftRight_eq_div_pow]
  rcases Nat.le_total k n with h | h
  · obtain ⟨m, rfl⟩ := Nat.exists_eq_add_of_le h
    rw [window_add, Nat.add_mul_div_left _ _ (Nat.two_pow_pos k), Nat.div_eq_of_lt (window_lt ..),
      Nat.zero_add, Nat.add_sub_cancel_left]
  · rw [Nat.div_eq_of_lt ((window_lt N p n).trans_le (Nat.pow_le_pow_right (by decide) h)),
      Nat.sub_eq_zero_of_le h, window_zero]

/-- A window of a window. -/
theorem window_window (N p n q k : Nat) :
    window (window N p n) q k = window N (p + q) (min (n - q) k) := by
  rw [← window_mod, ← window_shiftRight, Nat.shiftRight_eq_div_pow]
  rfl

/-- The bits of one window above those of the window before it. -/
theorem window_or_shiftLeft (N p a b : Nat) :
    window N p a ||| window N (p + a) b <<< a = window N p (a + b) := by
  rw [Nat.or_comm, ← Nat.shiftLeft_add_eq_or_of_lt (window_lt N p a), window_add, Nat.shiftLeft_eq,
    Nat.mul_comm, Nat.add_comm]

/-- The number of a list of bits, lowest first. -/
def ofBits (bits : List Bool) : Nat := Nat.ofDigits 2 (bits.map Bool.toNat)

/-- The low `w` bits of a number. -/
def lowBits : Nat → Nat → List Bool
  | 0, _ => []
  | w + 1, n => n.bodd :: lowBits w (n / 2)

variable {x y : List Bool} {w : Nat}

@[simp] theorem ofBits_nil : ofBits [] = 0 := rfl

/-- The first bit is the lowest. -/
theorem ofBits_cons (b : Bool) (x : List Bool) : ofBits (b :: x) = b.toNat + 2 * ofBits x := by
  rw [ofBits, List.map_cons, Nat.ofDigits_cons]
  rfl

/-- The second list of bits stands above the first. -/
theorem ofBits_append (x y : List Bool) : ofBits (x ++ y) = ofBits x + 2 ^ x.length * ofBits y := by
  rw [ofBits, List.map_append, Nat.ofDigits_append, List.length_map]
  rfl

/-- A list of bits is below the power of its length. -/
theorem ofBits_lt (x : List Bool) : ofBits x < 2 ^ x.length := by
  induction x with
  | nil => decide
  | cons b x ih =>
    rw [ofBits_cons, List.length_cons, pow_succ]
    have := Bool.toNat_le b
    omega

@[simp] theorem length_lowBits (w n : Nat) : (lowBits w n).length = w := by
  induction w generalizing n with
  | zero => rfl
  | succ w ih => rw [lowBits, List.length_cons, ih]

/-- The low bits of a number are the number modulo the power. -/
theorem ofBits_lowBits (w n : Nat) : ofBits (lowBits w n) = n % 2 ^ w := by
  induction w generalizing n with
  | zero => rw [pow_zero, Nat.mod_one]; rfl
  | succ w ih =>
    rw [lowBits, ofBits_cons, ih, pow_succ', Nat.mod_mul]
    congr 1
    have := Nat.mod_two_of_bodd n
    cases h : n.bodd <;> simp_all

/-- The number of a list of bytes, lowest first. -/
def ofBytes (data : List UInt8) : Nat := Nat.ofDigits (2 ^ 8) (data.map UInt8.toNat)

/-- The first byte is the lowest. -/
theorem ofBytes_cons (b : UInt8) (data : List UInt8) :
    ofBytes (b :: data) = b.toNat + 2 ^ 8 * ofBytes data := by
  rw [ofBytes, List.map_cons, Nat.ofDigits_cons]
  rfl

/-- A byte is a window of eight bits. -/
theorem window_ofBytes {data : List UInt8} {i : Nat} {b : UInt8} (h : data[i]? = some b) :
    window (ofBytes data) (8 * i) 8 = b.toNat := by
  induction data generalizing i with
  | nil => cases h
  | cons c data ih =>
    have hc : c.toNat < 2 ^ 8 := c.toNat_lt
    rw [ofBytes_cons]
    unfold window at ih ⊢
    cases i with
    | zero =>
      obtain rfl : c = b := by simpa using h
      rw [Nat.mul_zero, pow_zero, Nat.div_one, Nat.add_mul_mod_self_left, Nat.mod_eq_of_lt hc]
    | succ i =>
      have hstep : (c.toNat + 2 ^ 8 * ofBytes data) / 2 ^ 8 = ofBytes data := by
        rw [Nat.add_mul_div_left _ _ (Nat.two_pow_pos 8), Nat.div_eq_of_lt hc, Nat.zero_add]
      rw [Nat.mul_succ, Nat.add_comm (8 * i), pow_add, ← Nat.div_div_eq_div_mul, hstep]
      exact ih (by simpa using h)

end DxilSpirv.Bitstream
