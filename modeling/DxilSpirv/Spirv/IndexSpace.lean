import DxilSpirv.Spirv.Scalar
import Mathlib.Data.List.Nodup
import Mathlib.Data.Nat.ModEq

/-!
# Index spaces and the loops over them

A structured loop with one PHI, the loop over a range in equal strides, and the digits of an index
whose places have sizes of their own. Loops that start at every residue of the stride share the
range out among them.
-/

namespace DxilSpirv.Spirv

/-- A structured loop over one PHI: the header tests, the body runs, the continue block steps. -/
def forLoop {α β : Type} (test : α → Bool) (body : α → β) (step : α → α) :
    Nat → α → Option (List β)
  | 0, _ => none
  | fuel + 1, i =>
    if test i then (forLoop test body step fuel (step i)).map (body i :: ·) else some []

variable {β : Type} {w : Nat} {bound stride : BitVec w}

/-- The indices that a loop in strides of `stride` visits from `i` on. -/
structure Visited (bound stride i : BitVec w) (is : List (BitVec w)) : Prop where
  increasing : is.Pairwise fun a b => a.toNat < b.toNat
  mem_iff : ∀ a, a ∈ is ↔
    i.toNat ≤ a.toNat ∧ a.toNat < bound.toNat ∧ a.toNat % stride.toNat = i.toNat % stride.toNat

/-- The body runs on the visited indices in order, and the loop ends. -/
theorem forLoop_visited (body : BitVec w → β) (hpos : 0 < stride.toNat)
    (hroom : stride.toNat + bound.toNat ≤ 2 ^ w) (i : BitVec w) :
    ∃ is, Visited bound stride i is ∧ ∀ fuel > bound.toNat - i.toNat,
      forLoop (uLessThan · bound) body (· + stride) fuel i = some (is.map body) := by
  induction hn : bound.toNat - i.toNat using Nat.strong_induction_on generalizing i with
  | _ n ih =>
  subst hn
  by_cases hi : i.toNat < bound.toNat
  · have hnext : (i + stride).toNat = i.toNat + stride.toNat := by
      rw [BitVec.toNat_add, Nat.mod_eq_of_lt (by omega)]
    obtain ⟨is, hv, hrun⟩ := ih _ (by omega) (i + stride) rfl
    have hmod : (i + stride).toNat % stride.toNat = i.toNat % stride.toNat := by
      rw [hnext, Nat.add_mod_right]
    refine ⟨i :: is, ⟨?_, ?_⟩, ?_⟩
    · apply List.pairwise_cons.mpr
      constructor
      · intro a ha
        have hle := ((hv.mem_iff a).mp ha).1
        omega
      · exact hv.increasing
    · intro a
      rw [List.mem_cons, hv.mem_iff, hmod, hnext]
      constructor
      · rintro (rfl | ⟨hle, hlt, hm⟩)
        · exact ⟨Nat.le_refl _, hi, rfl⟩
        · exact ⟨by omega, hlt, hm⟩
      · rintro ⟨hle, hlt, hm⟩
        by_cases ha : a.toNat = i.toNat
        · exact Or.inl (BitVec.eq_of_toNat_eq ha)
        -- Two indices of one residue are a whole stride apart.
        · have hdvd : stride.toNat ∣ a.toNat - i.toNat := (Nat.modEq_iff_dvd' hle).mp hm.symm
          have hstride := Nat.le_of_dvd (by omega) hdvd
          exact Or.inr ⟨by omega, hlt, hm⟩
    · intro fuel hfuel
      obtain ⟨fuel, rfl⟩ : ∃ n, fuel = n + 1 := ⟨fuel - 1, by omega⟩
      rw [forLoop, if_pos (uLessThan_iff.mpr hi), hrun fuel (by omega), Option.map_some,
        List.map_cons]
  · refine ⟨[], ⟨List.Pairwise.nil, ?_⟩, ?_⟩
    · intro a
      constructor
      · intro ha
        cases ha
      · intro h
        omega
    · intro fuel hfuel
      obtain ⟨fuel, rfl⟩ : ∃ n, fuel = n + 1 := ⟨fuel - 1, by omega⟩
      rw [forLoop, if_neg fun h => hi (uLessThan_iff.mp h), List.map_nil]

variable {runs : Nat → List (BitVec w)}

/-- Loops from every residue of the stride visit every index below the bound. -/
theorem mem_flatMap_visited (hw : stride.toNat < 2 ^ w)
    (hv : ∀ z < stride.toNat, Visited bound stride (BitVec.ofNat w z) (runs z)) (a : BitVec w) :
    a ∈ (List.range stride.toNat).flatMap runs ↔ a.toNat < bound.toNat ∧ 0 < stride.toNat := by
  have hz : ∀ z < stride.toNat, (BitVec.ofNat w z).toNat = z := by
    intro z h
    rw [BitVec.toNat_ofNat, Nat.mod_eq_of_lt (by omega)]
  rw [List.mem_flatMap]
  constructor
  · rintro ⟨z, hmem, ha⟩
    have hlt := List.mem_range.mp hmem
    exact ⟨(((hv z hlt).mem_iff a).mp ha).2.1, by omega⟩
  · rintro ⟨ha, hpos⟩
    have hlt : a.toNat % stride.toNat < stride.toNat := Nat.mod_lt _ hpos
    refine ⟨_, List.mem_range.mpr hlt, ((hv _ hlt).mem_iff a).mpr ⟨?_, ha, ?_⟩⟩
    · rw [hz _ hlt]
      exact Nat.mod_le _ _
    · rw [hz _ hlt, Nat.mod_mod]

/-- No index is visited twice, by one loop or by two. -/
theorem nodup_flatMap_visited (hw : stride.toNat < 2 ^ w)
    (hv : ∀ z < stride.toNat, Visited bound stride (BitVec.ofNat w z) (runs z)) :
    ((List.range stride.toNat).flatMap runs).Nodup := by
  rw [List.nodup_flatMap]
  constructor
  · intro z hmem
    apply (hv z (List.mem_range.mp hmem)).increasing.imp
    rintro a _ hlt rfl
    omega
  · apply (List.pairwise_lt_range (n := stride.toNat)).imp_of_mem
    intro y z hy hz hlt
    have hy := List.mem_range.mp hy
    have hz := List.mem_range.mp hz
    apply List.disjoint_left.mpr
    intro a hay haz
    have h1 := (((hv y hy).mem_iff a).mp hay).2.2
    have h2 := (((hv z hz).mem_iff a).mp haz).2.2
    rw [h1, BitVec.toNat_ofNat, BitVec.toNat_ofNat, Nat.mod_eq_of_lt (show y < 2 ^ w by omega),
      Nat.mod_eq_of_lt (show z < 2 ^ w by omega), Nat.mod_eq_of_lt hy, Nat.mod_eq_of_lt hz] at h2
    omega

variable {r s x y z n : Nat}

/-- The index with digits `x`, `y` and `z`, where the two lower places have `r` and `s` values. -/
def rank (r s x y z : Nat) : Nat := x + r * (y + s * z)

/-- The digits of an index are its successive remainders. -/
theorem eq_rank_iff (hx : x < r) (hy : y < s) :
    n = rank r s x y z ↔ n % r = x ∧ n / r % s = y ∧ n / r / s = z := by
  constructor
  · rintro rfl
    have hr : rank r s x y z / r = y + s * z := by
      rw [rank, Nat.add_mul_div_left _ _ (by omega), Nat.div_eq_of_lt hx, Nat.zero_add]
    refine ⟨?_, ?_, ?_⟩
    · rw [rank, Nat.add_mul_mod_self_left, Nat.mod_eq_of_lt hx]
    · rw [hr, Nat.add_mul_mod_self_left, Nat.mod_eq_of_lt hy]
    · rw [hr, Nat.add_mul_div_left _ _ (by omega), Nat.div_eq_of_lt hy, Nat.zero_add]
  · rintro ⟨rfl, rfl, rfl⟩
    rw [rank, Nat.mod_add_div, Nat.mod_add_div]

/-- The indices with `z` below `n` fill the range of `r * s * n` indices. -/
theorem rank_lt (hx : x < r) (hy : y < s) (hz : z < n) : rank r s x y z < r * s * n := by
  have h1 : y + s * z < s * n := by
    calc y + s * z < s + s * z := by omega
      _ = s * (z + 1) := by rw [Nat.mul_add_one, Nat.add_comm]
      _ ≤ s * n := Nat.mul_le_mul_left s hz
  calc rank r s x y z < r + r * (y + s * z) := by unfold rank; omega
    _ = r * (y + s * z + 1) := by rw [Nat.mul_add_one, Nat.add_comm]
    _ ≤ r * (s * n) := Nat.mul_le_mul_left r h1
    _ = r * s * n := (Nat.mul_assoc r s n).symm

end DxilSpirv.Spirv
