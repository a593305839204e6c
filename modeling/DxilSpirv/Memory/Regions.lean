import Mathlib.Data.List.Pairwise
import Mathlib.Tactic.SplitIfs

/-!
# Regions of memory

Ranges of addresses that do not overlap, and what may be assumed of a source of new ones.
-/

namespace DxilSpirv.Memory

/-- The addresses from `base` on. -/
structure Region where
  base : Nat
  size : Nat
  deriving DecidableEq, Repr

namespace Region

variable {r s t : Region}

/-- Two regions have no address in common. -/
def Apart (r s : Region) : Prop := r.base + r.size ≤ s.base ∨ s.base + s.size ≤ r.base

/-- A region lies in another one. -/
def Within (r s : Region) : Prop := s.base ≤ r.base ∧ r.base + r.size ≤ s.base + s.size

/-- Regions that exist have no address in common. -/
def Separate (r s : Region) : Prop := r.base ≠ 0 → s.base ≠ 0 → r.Apart s

instance : DecidableRel Apart := fun _ _ => inferInstanceAs (Decidable (_ ∨ _))

instance : DecidableRel Within := fun _ _ => inferInstanceAs (Decidable (_ ∧ _))

theorem Apart.symm (h : r.Apart s) : s.Apart r := Or.symm h

theorem Separate.symm (h : r.Separate s) : s.Separate r := fun hs hr => (h hr hs).symm

/-- Parts of regions are apart when the regions are. -/
theorem Apart.within_left (h : s.Apart t) (hr : r.Within s) : r.Apart t := by
  unfold Apart Within at *
  omega

theorem Within.trans (h : r.Within s) (h' : s.Within t) : r.Within t :=
  ⟨Nat.le_trans h'.1 h.1, Nat.le_trans h.2 h'.2⟩

end Region

/-- A symmetric relation between all elements of a list holds at any two places. -/
theorem rel_of_pairwise {α : Type} {R : α → α → Prop} {l : List α} {i j : Nat} {a b : α}
    (h : l.Pairwise R) (hsymm : ∀ a b, R a b → R b a) (hi : l[i]? = some a) (hj : l[j]? = some b)
    (hij : i ≠ j) : R a b := by
  obtain ⟨hi', rfl⟩ := List.getElem?_eq_some_iff.mp hi
  obtain ⟨hj', rfl⟩ := List.getElem?_eq_some_iff.mp hj
  rcases Nat.lt_or_gt_of_ne hij with hlt | hlt
  · exact List.pairwise_iff_getElem.mp h i j hi' hj' hlt
  · exact hsymm _ _ (List.pairwise_iff_getElem.mp h j i hj' hi' hlt)

/-- `malloc`: what it answers may depend on how often it was called, on what is allocated and on the
size. An answer other than null is aligned, and apart from what is allocated. -/
structure Malloc where
  answer : Nat → List Region → Nat → Nat
  aligned : ∀ calls live size, 16 ∣ answer calls live size
  apart : ∀ calls live size, answer calls live size ≠ 0 →
    ∀ r ∈ live, Region.Apart ⟨answer calls live size, size⟩ r

/-- The end of the last region. -/
def topOf (live : List Region) : Nat := live.foldr (fun r top => max (r.base + r.size) top) 0

theorem le_topOf {live : List Region} {r : Region} (h : r ∈ live) :
    r.base + r.size ≤ topOf live := by
  induction live with
  | nil => cases h
  | cons t live ih =>
    rcases List.mem_cons.mp h with rfl | h
    · exact Nat.le_max_left ..
    · exact Nat.le_trans (ih h) (Nat.le_max_right ..)

/-- A `malloc` that answers above all that is allocated, and null at some calls. -/
def Malloc.above (null : Nat → Bool) : Malloc where
  answer calls live _ := if null calls then 0 else (topOf live + 31) / 16 * 16
  aligned calls live size := by
    split_ifs
    · exact Nat.dvd_zero 16
    · exact Nat.dvd_mul_left ..
  apart calls live size h r hr := by
    have htop := le_topOf hr
    unfold Region.Apart
    split_ifs at h ⊢
    · exact absurd rfl h
    · simp only
      omega

end DxilSpirv.Memory
