import Mathlib.Algebra.BigOperators.Ring.Finset
import Mathlib.Algebra.Order.BigOperators.Group.Finset

/-!
# Clients of an atomic counter

Clients add their sizes to a counter that starts at zero, one at a time and in any order. What a
client reads before it adds is where its range starts: the ranges follow each other, whatever the
order was. With every size one the counter hands out tickets.
-/

namespace DxilSpirv.Spirv

variable {ι : Type} {size : ι → Nat} {served : Finset ι} {start : ι → Nat} {i : ι}

/-- What the clients that a counter served have read from it. -/
structure Served (size : ι → Nat) (served : Finset ι) (start : ι → Nat) : Prop where
  /-- A range ends at the count at most. -/
  end_le : ∀ i ∈ served, start i + size i ≤ ∑ j ∈ served, size j
  /-- Of two ranges one ends before the other starts. -/
  apart : ∀ i ∈ served, ∀ j ∈ served, i ≠ j →
    start i + size i ≤ start j ∨ start j + size j ≤ start i
  /-- What divides every size divides every start. -/
  dvd_start : ∀ d, (∀ i ∈ served, d ∣ size i) → ∀ i ∈ served, d ∣ start i

namespace Served

/-- Nobody is served at first. -/
theorem empty : Served size ∅ start where
  end_le i hi := absurd hi (Finset.notMem_empty i)
  apart i hi := absurd hi (Finset.notMem_empty i)
  dvd_start _ _ i hi := absurd hi (Finset.notMem_empty i)

/-- A new client reads the count and adds its size. -/
theorem add [DecidableEq ι] (h : Served size served start) (hi : i ∉ served) :
    Served size (insert i served) (Function.update start i (∑ j ∈ served, size j)) := by
  have hold : ∀ {j}, j ∈ served →
      Function.update start i (∑ j ∈ served, size j) j = start j := by
    intro j hj
    apply Function.update_of_ne
    rintro rfl
    exact hi hj
  have hsum := Finset.sum_insert (f := size) hi
  constructor
  · intro j hj
    rw [hsum]
    rcases Finset.mem_insert.mp hj with rfl | hj
    · rw [Function.update_self]
      omega
    · rw [hold hj]
      have hend := h.end_le j hj
      omega
  · intro j hj k hk hne
    rcases Finset.mem_insert.mp hj with hji | hj
    · have hk : k ∈ served := by
        apply Finset.mem_of_mem_insert_of_ne hk
        rw [← hji]
        exact hne.symm
      right
      rw [hji, hold hk, Function.update_self]
      exact h.end_le k hk
    · rcases Finset.mem_insert.mp hk with hki | hk
      · left
        rw [hki, hold hj, Function.update_self]
        exact h.end_le j hj
      · rw [hold hj, hold hk]
        exact h.apart j hj k hk hne
  · intro d hd j hj
    have hserved : ∀ k ∈ served, d ∣ size k := fun k hk => hd k (Finset.mem_insert_of_mem hk)
    rcases Finset.mem_insert.mp hj with rfl | hj
    · rw [Function.update_self]
      exact Finset.dvd_sum hserved
    · rw [hold hj]
      exact h.dvd_start d hserved j hj

end Served

/-- The clients that took a ticket: every client adds one. -/
abbrev Tickets (served : Finset ι) (ticket : ι → Nat) : Prop := Served (fun _ => 1) served ticket

namespace Tickets

variable {ticket : ι → Nat}

/-- No two clients hold the same ticket. -/
theorem injOn (h : Tickets served ticket) : Set.InjOn ticket served := by
  intro i hi j hj heq
  by_contra hne
  have hapart := h.apart i hi j hj hne
  omega

theorem lt_card (h : Tickets served ticket) (hi : i ∈ served) : ticket i < served.card := by
  have hend := h.end_le i hi
  rw [← Finset.card_eq_sum_ones] at hend
  omega

/-- The tickets are the numbers below their count. -/
theorem image_eq_range (h : Tickets served ticket) :
    served.image ticket = Finset.range served.card := by
  apply Finset.eq_of_subset_of_card_le
  · intro t ht
    obtain ⟨i, hi, rfl⟩ := Finset.mem_image.mp ht
    exact Finset.mem_range.mpr (h.lt_card hi)
  · rw [Finset.card_range, Finset.card_image_of_injOn h.injOn]

end Tickets

end DxilSpirv.Spirv
