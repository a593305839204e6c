import Mathlib.Data.Set.Card
import Mathlib.Order.Interval.Finset.Nat
import DxilSpirv.Graph.Tree

/-!
# Heights in a finite acyclic graph

Where a relation without cycles stays below a bound, the number of vertices that are reached
falls along every edge. So whatever follows the edges, or pointers along which such a number
falls, ends within the bound.
-/

namespace DxilSpirv.Graph

variable {r : Nat → Nat → Prop} {n a b : Nat}

/-- The vertices below `n` that are reached from `a` in at least one step. -/
def reached (r : Nat → Nat → Prop) (n a : Nat) : Set Nat :=
  {b | b < n ∧ Relation.TransGen r a b}

/-- How many vertices are reached from `a`. -/
noncomputable def height (r : Nat → Nat → Prop) (n a : Nat) : Nat := (reached r n a).ncard

theorem reached_finite (r : Nat → Nat → Prop) (n a : Nat) : (reached r n a).Finite :=
  (Set.finite_Iio n).subset fun _ hb => hb.1

/-- A vertex of the graph reaches the others at most. -/
theorem height_lt (hr : ∀ a, ¬ Relation.TransGen r a a) (ha : a < n) : height r n a < n := by
  have hsub : reached r n a ⊂ Set.Iio n :=
    ⟨fun _ hb => hb.1, fun h => hr a (h ha).2⟩
  have hcard := Set.ncard_lt_ncard hsub (Set.finite_Iio n)
  have hn : (Set.Iio n).ncard = n := by
    rw [← Finset.coe_Iio, Set.ncard_coe_finset, Nat.card_Iio]
  rwa [hn] at hcard

/-- Heights fall along walks. -/
theorem height_lt_of_transGen (hr : ∀ a, ¬ Relation.TransGen r a a) (hb : b < n)
    (hab : Relation.TransGen r a b) : height r n b < height r n a := by
  refine Set.ncard_lt_ncard ⟨?_, ?_⟩ (reached_finite r n a)
  · exact fun x hx => ⟨hx.1, hab.trans hx.2⟩
  · exact fun h => hr b (h ⟨hb, hab⟩).2

/-- Pointers are known on `D` and stay in it, and a rank falls on the way until a vertex points
to itself. -/
def Climbing (par : Nat → Option Nat) (rank : Nat → Nat) (D : Nat → Prop) : Prop :=
  ∀ x, D x → ∃ y, par x = some y ∧ D y ∧ (y = x ∨ rank y < rank x)

namespace Climbing

variable {par par' : Nat → Option Nat} {rank : Nat → Nat} {D : Nat → Prop} {e x y : Nat}

theorem congr (h : Climbing par rank D) (hp : ∀ x, D x → par' x = par x) :
    Climbing par' rank D := by
  intro x hx
  rw [hp x hx]
  exact h x hx

/-- Where only `e` points to itself, it is above everything. -/
theorem top_anc (h : Climbing par rank D) (htop : ∀ x, D x → par x = some x → x = e) (hx : D x) :
    Anc par e x := by
  induction hn : rank x using Nat.strongRecOn generalizing x with
  | ind n ih =>
    obtain ⟨y, hy, hDy, rfl | hlt⟩ := h x hx
    · exact htop y hx hy ▸ .refl par y
    · exact (Anc.iff_par hy).mpr (.inr (ih _ (hn ▸ hlt) hDy rfl))

end Climbing

end DxilSpirv.Graph
