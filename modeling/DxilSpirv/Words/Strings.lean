import Mathlib.Data.List.Basic
import Mathlib.Algebra.Ring.Nat
import Mathlib.Data.UInt

/-!
# Strings in words

Four bytes to a word, the first one lowest. A string ends with the first byte that is zero, and the
words go on after the word of that byte.
-/

namespace DxilSpirv.Words

/-- The number that bytes make, the first one lowest. -/
def ofBytes : List UInt8 → Nat
  | [] => 0
  | b :: bs => b.toNat + 256 * ofBytes bs

/-- The `n` lowest bytes of a number. -/
def toBytes : Nat → Nat → List UInt8
  | 0, _ => []
  | n + 1, w => UInt8.ofNat w :: toBytes n (w / 256)

@[simp] theorem toBytes_ofBytes (bs : List UInt8) : toBytes bs.length (ofBytes bs) = bs := by
  induction bs with
  | nil => rfl
  | cons b bs ih =>
    have hb : b.toNat < 256 := UInt8.toNat_lt b
    rw [List.length_cons, ofBytes, toBytes, Nat.add_mul_div_left _ _ (by decide : 0 < 256),
      Nat.div_eq_of_lt hb, Nat.zero_add, ih]
    congr 1
    apply UInt8.toNat_inj.mp
    rw [UInt8.toNat_ofNat', Nat.add_mul_mod_self_left, Nat.mod_eq_of_lt hb]

/-- A string and the words after it. -/
def readString : List Nat → Option (List UInt8 × List Nat)
  | [] => none
  | w :: ws =>
    if 0 ∈ toBytes 4 w then some ((toBytes 4 w).takeWhile (· ≠ 0), ws)
    else (readString ws).map (Prod.map (toBytes 4 w ++ ·) id)

/-- A word of a string that goes on. -/
theorem readString_cons {bs : List UInt8} (hlen : bs.length = 4) (hbs : 0 ∉ bs) (ws : List Nat) :
    readString (ofBytes bs :: ws) = (readString ws).map (Prod.map (bs ++ ·) id) := by
  rw [readString, ← hlen, toBytes_ofBytes, if_neg hbs]

/-- The last word of a string. -/
theorem readString_last {s : List UInt8} (hs : 0 ∉ s) {k : Nat} (hlen : s.length + (k + 1) = 4)
    (ws : List Nat) :
    readString (ofBytes (s ++ List.replicate (k + 1) 0) :: ws) = some (s, ws) := by
  have hall : (s ++ List.replicate (k + 1) 0).length = 4 := by
    rw [List.length_append, List.length_replicate, hlen]
  rw [readString, ← hall, toBytes_ofBytes,
    if_pos (List.mem_append_right _ (List.mem_replicate.mpr ⟨k.succ_ne_zero, rfl⟩)),
    List.takeWhile_append_of_pos fun b hb => decide_eq_true (ne_of_mem_of_not_mem hb hs)]
  rw [List.replicate_succ, List.takeWhile_cons_of_neg (by simp), List.append_nil]

end DxilSpirv.Words
