import DxilSpirv.Spirv.Scalar

/-!
# Searching for a bit

The searches of the target language go through 32 bits from one of the ends and return an index, or
all ones when there is none. Searches over longer words are put together from those over their
parts.
-/

namespace DxilSpirv.Spirv

/-- The first index below `n` at which a bit is set. -/
def firstIndex (bit : Nat → Bool) (n : Nat) : Option Nat := (List.range n).find? bit

/-- An index as a word, all ones where there is none. -/
def indexWord (i : Option Nat) : BitVec 32 := i.elim (BitVec.allOnes 32) (BitVec.ofNat 32)

/-- `FindILsb`: the index of the lowest set bit. -/
def findILsb (a : BitVec 32) : BitVec 32 := indexWord (firstIndex a.getLsbD 32)

/-- `FindSMsb`: the index of the highest bit that is not the sign. -/
def findSMsb (a : BitVec 32) : BitVec 32 :=
  indexWord ((firstIndex (fun i => a.getMsbD i != a.msb) 32).map (31 - ·))

/-- `UMin`. -/
def uMin (a b : BitVec 32) : BitVec 32 := if a.ult b then a else b

/-- `SMax`. -/
def sMax (a b : BitVec 32) : BitVec 32 := if a.slt b then b else a

section Search

variable {bit bit' : Nat → Bool} {m n i : Nat}

theorem firstIndex_eq_some_iff :
    firstIndex bit n = some i ↔ bit i = true ∧ i < n ∧ ∀ j < i, bit j = false := by
  rw [firstIndex, List.find?_range_eq_some]
  simp

theorem firstIndex_eq_none_iff : firstIndex bit n = none ↔ ∀ j < n, bit j = false := by
  simp [firstIndex]

theorem lt_of_firstIndex (h : firstIndex bit n = some i) : i < n :=
  (firstIndex_eq_some_iff.mp h).2.1

theorem firstIndex_congr (h : ∀ j < n, bit j = bit' j) : firstIndex bit n = firstIndex bit' n := by
  cases hfound : firstIndex bit' n with
  | none =>
    rw [firstIndex_eq_none_iff] at hfound ⊢
    exact fun j hj => by rw [h j hj, hfound j hj]
  | some i =>
    rw [firstIndex_eq_some_iff] at hfound ⊢
    obtain ⟨hbit, hlt, hbefore⟩ := hfound
    exact ⟨by rw [h i hlt, hbit], hlt, fun j hj => by rw [h j (by omega), hbefore j hj]⟩

/-- A search goes through the first part, then through the second. -/
theorem firstIndex_add : firstIndex bit (m + n) =
    (firstIndex bit m).or ((firstIndex (fun j => bit (m + j)) n).map (m + ·)) := by
  rw [firstIndex, List.range_add, List.find?_append, List.find?_map]
  rfl

/-- `FindUMsb` goes through the bits from the top. -/
theorem findUMsb_eq (a : BitVec 32) :
    findUMsb a = indexWord ((firstIndex a.getMsbD 32).map (31 - ·)) := by
  unfold findUMsb
  by_cases ha : a = 0
  · rw [if_pos ha, firstIndex_eq_none_iff.mpr (fun j _ => by simp [ha])]
    rfl
  have hne : a.toNat ≠ 0 := fun h => ha (BitVec.eq_of_toNat_eq (by simpa using h))
  have hlog : a.toNat.log2 < 32 := (Nat.log2_lt hne).mpr a.isLt
  have hfound : firstIndex a.getMsbD 32 = some (31 - a.toNat.log2) := by
    refine firstIndex_eq_some_iff.mpr ⟨?_, by omega, fun j hj => ?_⟩
    · rw [BitVec.getMsbD_eq_getLsbD]
      have hindex : 32 - 1 - (31 - a.toNat.log2) = a.toNat.log2 := by omega
      rw [hindex, ← BitVec.testBit_toNat, Nat.testBit_log2 hne, decide_eq_true (by omega)]
      rfl
    · rw [BitVec.getMsbD_eq_getLsbD, ← BitVec.testBit_toNat, Nat.testBit_lt_two_pow, Bool.and_false]
      exact (Nat.log2_lt hne).mp (by omega)
  rw [if_neg ha, hfound, Option.map_some]
  have hback : 31 - (31 - a.toNat.log2) = a.toNat.log2 := by omega
  rw [hback]
  rfl

end Search

variable {i j : Option Nat} {k : Nat}

theorem toNat_indexWord (hk : k < 64) : (indexWord (some k)).toNat = k :=
  (BitVec.toNat_ofNat k 32).trans (Nat.mod_eq_of_lt (by omega))

theorem toInt_indexWord (hk : k < 64) : (indexWord (some k)).toInt = k := by
  rw [BitVec.toInt_eq_toNat_of_lt (by rw [toNat_indexWord hk]; omega), toNat_indexWord hk]

/-- An index in the upper half of a word is that in the half, moved up by 32. -/
theorem indexWord_or_32 (hi : ∀ k ∈ i, k < 32) :
    indexWord i ||| 32 = indexWord (i.map (32 + ·)) := by
  cases i with
  | none => decide
  | some k =>
    have hk : k < 32 := hi k rfl
    have hall : ∀ k < 32, indexWord (some k) ||| 32 = indexWord (some (32 + k)) := by decide
    exact hall k hk

/-- The lower of two indices, of which the first is in the lower half. -/
theorem uMin_indexWord (hi : ∀ k ∈ i, k < 32) (hj : ∀ k ∈ j, 32 ≤ k ∧ k < 64) :
    uMin (indexWord i) (indexWord j) = indexWord (i.or j) := by
  unfold uMin
  cases i with
  | none =>
    have hnot : ¬ (BitVec.allOnes 32).ult (indexWord j) = true := by
      have := (indexWord j).isLt
      simp only [BitVec.ult, BitVec.toNat_allOnes, decide_eq_true_eq]
      omega
    exact if_neg hnot
  | some k =>
    have hk := hi k rfl
    refine if_pos ?_
    rw [BitVec.ult, decide_eq_true_eq, toNat_indexWord (by omega)]
    cases j with
    | none => exact Nat.lt_trans hk (by decide)
    | some l =>
      have hl := hj l rfl
      rw [toNat_indexWord (by omega)]
      omega

/-- The higher of two indices, of which the first is in the lower half. -/
theorem sMax_indexWord (hi : ∀ k ∈ i, k < 32) (hj : ∀ k ∈ j, 32 ≤ k ∧ k < 64) :
    sMax (indexWord i) (indexWord j) = indexWord (j.or i) := by
  have hnone : (indexWord none).toInt = -1 := by decide
  unfold sMax
  cases j with
  | none =>
    refine if_neg ?_
    rw [BitVec.slt_iff_toInt_lt, hnone]
    cases i with
    | none => decide
    | some k =>
      have hk := hi k rfl
      rw [toInt_indexWord (by omega)]
      omega
  | some l =>
    have hl := hj l rfl
    refine if_pos ?_
    rw [BitVec.slt_iff_toInt_lt, toInt_indexWord hl.2]
    cases i with
    | none =>
      rw [hnone]
      omega
    | some k =>
      have hk := hi k rfl
      rw [toInt_indexWord (by omega)]
      omega

end DxilSpirv.Spirv
