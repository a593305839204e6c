import Mathlib.Logic.Relation
import Mathlib.Data.List.Induction
import Mathlib.Tactic.Common

/-!
# Walks and dominance in a directed graph

A walk lists the vertices it visits, so "every walk to `b` passes through `a`" is
membership. Dominance is stated over walks; the recursive characterisation over the
predecessors of a vertex is what the tree algorithms compute.
-/

namespace DxilSpirv.Graph

variable {α : Type*}

/-- The vertices of `p` follow one another along `r` from `a` to `b`. -/
inductive Walk (r : α → α → Prop) : α → α → List α → Prop
  | single (a : α) : Walk r a a [a]
  | cons {a b c : α} {p : List α} : r a b → Walk r b c p → Walk r a c (a :: p)

/-- `b` can be reached from `a`, possibly by the empty walk. -/
abbrev Reaches (r : α → α → Prop) : α → α → Prop := Relation.ReflTransGen r

/-- More edges reach more. -/
theorem Reaches.mono {r s : α → α → Prop} {a b : α} (h : Reaches r a b)
    (hrs : ∀ x y, r x y → s x y) : Reaches s a b := by
  induction h with
  | refl => exact .refl
  | tail _ hbc ih => exact .tail ih (hrs _ _ hbc)

/-- Only edges out of what was reached so far matter for reachability. -/
theorem Reaches.mono_on {r s : α → α → Prop} {a b : α} (h : Reaches r a b)
    (hrs : ∀ x y, Reaches r a x → r x y → s x y) : Reaches s a b := by
  induction h with
  | refl => exact .refl
  | tail hab hbc ih => exact .tail ih (hrs _ _ hab hbc)

namespace Walk

variable {r s : α → α → Prop} {a b c : α} {p q : List α}

/-- A walk passes its start. -/
theorem head_mem (h : Walk r a b p) : a ∈ p := by
  cases h <;> simp

/-- A walk passes its end. -/
theorem last_mem (h : Walk r a b p) : b ∈ p := by
  induction h with
  | single a => simp
  | cons _ _ ih => exact List.mem_cons_of_mem _ ih

/-- A walk witnesses reachability of its end. -/
theorem reaches (h : Walk r a b p) : Reaches r a b := by
  induction h with
  | single a => exact .refl
  | cons hab _ ih => exact .head hab ih

/-- One more edge at the end of a walk. -/
theorem snoc (h : Walk r a b p) (hbc : r b c) : Walk r a c (p ++ [c]) := by
  induction h with
  | single a => exact .cons hbc (.single c)
  | cons hab _ ih => exact .cons hab (ih hbc)

/-- A walk that stops at its first vertex or ends with an edge out of a shorter walk. -/
theorem snoc_cases (h : Walk r a b p) :
    (a = b ∧ p = [b]) ∨ ∃ x q, Walk r a x q ∧ r x b ∧ p = q ++ [b] := by
  induction h with
  | single a => exact .inl ⟨rfl, rfl⟩
  | @cons a b c p hab hw ih =>
    refine .inr ?_
    rcases ih with ⟨rfl, rfl⟩ | ⟨x, q, hq, hx, rfl⟩
    · exact ⟨a, [a], .single a, hab, rfl⟩
    · exact ⟨x, a :: q, .cons hab hq, hx, rfl⟩

/-- Induction on a walk from its start. -/
theorem snoc_induction {P : α → List α → Prop} (hsingle : P a [a])
    (hsnoc : ∀ x y q, Walk r a x q → P x q → r x y → P y (q ++ [y])) (h : Walk r a b p) :
    P b p := by
  induction p using List.reverseRecOn generalizing b with
  | nil => exact absurd h.head_mem List.not_mem_nil
  | append_singleton q z ih =>
    rcases h.snoc_cases with ⟨rfl, hp⟩ | ⟨x, q', hq, hx, hp⟩
    · rw [hp]
      exact hsingle
    · obtain ⟨rfl, hz⟩ := List.append_inj' hp rfl
      rw [hz]
      exact hsnoc x b q hq (ih hq) hx

/-- Every vertex of a walk splits it: there is a walk up to the vertex and one from it. -/
theorem split (h : Walk r a b p) {x : α} (hx : x ∈ p) :
    ∃ q q', Walk r a x q ∧ Walk r x b q' ∧ (∀ y ∈ q, y ∈ p) ∧ ∀ y ∈ q', y ∈ p := by
  induction h with
  | single a =>
    obtain rfl : x = a := by simpa using hx
    exact ⟨[x], [x], .single x, .single x, fun _ h => h, fun _ h => h⟩
  | @cons a b c p hab hw ih =>
    rcases List.mem_cons.mp hx with rfl | hx
    · exact ⟨[x], x :: p, .single x, .cons hab hw, by simp, fun _ h => h⟩
    · obtain ⟨q, q', hq, hq', hs, hs'⟩ := ih hx
      refine ⟨a :: q, q', .cons hab hq, hq', ?_, fun y hy => List.mem_cons_of_mem _ (hs' y hy)⟩
      intro y hy
      rcases List.mem_cons.mp hy with rfl | hy
      · exact List.mem_cons_self ..
      · exact List.mem_cons_of_mem _ (hs y hy)

/-- A walk is also a walk of any larger relation. -/
theorem mono (h : Walk r a b p) (hrs : ∀ x ∈ p, ∀ y ∈ p, r x y → s x y) : Walk s a b p := by
  induction h with
  | single a => exact .single a
  | cons hab hw ih =>
    refine .cons (hrs _ (List.mem_cons_self ..) _ (List.mem_cons_of_mem _ hw.head_mem) hab) ?_
    exact ih fun x hx y hy =>
      hrs x (List.mem_cons_of_mem _ hx) y (List.mem_cons_of_mem _ hy)

/-- Reachability is realised by a walk. -/
theorem of_reaches (h : Reaches r a b) : ∃ p, Walk r a b p := by
  induction h using Relation.ReflTransGen.head_induction_on with
  | refl => exact ⟨[b], .single b⟩
  | head hab _ ih =>
    obtain ⟨p, hp⟩ := ih
    exact ⟨_ :: p, .cons hab hp⟩

/-- Every vertex of a walk lies between its ends. -/
theorem reaches_mem (h : Walk r a b p) {x : α} (hx : x ∈ p) : Reaches r a x ∧ Reaches r x b := by
  obtain ⟨q, q', hq, hq', _, _⟩ := h.split hx
  exact ⟨hq.reaches, hq'.reaches⟩

end Walk

variable {r : α → α → Prop} {ord : α → Nat} {a b c : α}

/-- Along a relation that lowers a rank, reachability lowers it too. -/
theorem Reaches.ord_le (ord : α → Nat) (hr : ∀ x y, r x y → ord y < ord x) (h : Reaches r a b) :
    ord b ≤ ord a := by
  induction h with
  | refl => exact Nat.le_refl _
  | tail _ hbc ih => exact Nat.le_trans (Nat.le_of_lt (hr _ _ hbc)) ih

/-- Along edges that descend, another vertex is reached below. -/
theorem Reaches.ord_lt (ord : α → Nat) (hr : ∀ x y, r x y → ord y < ord x) (h : Reaches r a b)
    (hne : a ≠ b) :
    ord b < ord a := by
  rcases Relation.ReflTransGen.cases_head h with rfl | ⟨c, hac, hcb⟩
  · exact absurd rfl hne
  · exact Nat.lt_of_le_of_lt (Reaches.ord_le ord hr hcb) (hr _ _ hac)

/-- A ranked relation has no cycle. -/
theorem acyclic_of_ord (ord : α → Nat) (hr : ∀ x y, r x y → ord y < ord x) (a : α) :
    ¬ Relation.TransGen r a a := by
  intro h
  obtain ⟨b, hab, hba⟩ := Relation.TransGen.head'_iff.mp h
  have := hr _ _ hab
  have := Reaches.ord_le ord hr hba
  omega

/-- A relation that is ranked on the vertices reachable from a root has no cycle there. -/
theorem acyclic_of_ord_on {r s : α → α → Prop} (root : α) (ord : α → Nat)
    (hsub : ∀ x y, s x y → r x y) (hr : ∀ x y, Reaches r root x → s x y → ord y < ord x)
    (ha : Reaches r root a) :
    ¬ Relation.TransGen s a a := by
  have hlt : ∀ b, Relation.TransGen s a b → Reaches r root b ∧ ord b < ord a := by
    intro b hab
    induction hab with
    | single h => exact ⟨ha.tail (hsub _ _ h), hr _ _ ha h⟩
    | tail _ h ih => exact ⟨ih.1.tail (hsub _ _ h), Nat.lt_trans (hr _ _ ih.1 h) ih.2⟩
  exact fun h => Nat.lt_irrefl _ (hlt a h).2

/-- Along edges that descend, no two vertices reach each other. -/
theorem Reaches.antisymm (hr : ∀ x y, r x y → ord y < ord x) (h : Reaches r a b)
    (h' : Reaches r b a) : a = b := by
  by_contra hne
  have := h.ord_lt ord hr hne
  have := h'.ord_le ord hr
  omega

/-- Every walk from `root` to `b` passes through `a`. -/
def Dominates (r : α → α → Prop) (root a b : α) : Prop :=
  ∀ p, Walk r root b p → a ∈ p

variable {root : α}

/-- A vertex dominates itself. -/
theorem Dominates.refl (r : α → α → Prop) (root a : α) : Dominates r root a a :=
  fun _ hp => hp.last_mem

/-- The root dominates every vertex. -/
theorem root_dominates (r : α → α → Prop) (root b : α) : Dominates r root root b :=
  fun _ hp => hp.head_mem

/-- Dominance is transitive. -/
theorem Dominates.trans (hab : Dominates r root a b) (hbc : Dominates r root b c) :
    Dominates r root a c := by
  intro p hp
  obtain ⟨q, q', hq, _, hs, _⟩ := hp.split (hbc p hp)
  exact hs _ (hab q hq)

/-- Two vertices that dominate one another are the same, when one of them can be reached. -/
theorem Dominates.antisymm (hab : Dominates r root a b) (hba : Dominates r root b a)
    (ha : Reaches r root a) : a = b := by
  by_contra hne
  -- No walk ever meets the first of the two.
  have havoid : ∀ x p, Walk r root x p → a ∉ p ∧ b ∉ p := by
    intro x p hp
    refine Walk.snoc_induction (P := fun _ p => a ∉ p ∧ b ∉ p) ?_ ?_ hp
    · constructor
      · intro h
        obtain rfl := List.mem_singleton.mp h
        exact hne (List.mem_singleton.mp (hba [a] (.single a))).symm
      · intro h
        obtain rfl := List.mem_singleton.mp h
        exact hne (List.mem_singleton.mp (hab [b] (.single b)))
    · intro x y q hq ih hxy
      constructor
      · intro h
        obtain rfl : a = y := by simpa [ih.1] using h
        have hb := hba _ (hq.snoc hxy)
        exact hne (by simpa [ih.2] using hb : b = a).symm
      · intro h
        obtain rfl : b = y := by simpa [ih.2] using h
        have ha := hab _ (hq.snoc hxy)
        exact hne (by simpa [ih.1] using ha)
  obtain ⟨p, hp⟩ := Walk.of_reaches ha
  exact (havoid a p hp).1 hp.last_mem

/-- A dominator of a reachable vertex reaches it. -/
theorem Dominates.reaches (h : Dominates r root a b) (hb : Reaches r root b) : Reaches r a b := by
  obtain ⟨p, hp⟩ := Walk.of_reaches hb
  exact (hp.reaches_mem (h p hp)).2

/-- Only the root dominates the root. -/
theorem dominates_root : Dominates r root a root ↔ a = root := by
  constructor
  · intro h
    simpa using h [root] (.single root)
  · rintro rfl
    exact .refl r a a

/-- Away from the root, dominators are the vertex itself and the common dominators of
its predecessors. -/
theorem dominates_iff_preds (hb : b ≠ root) :
    Dominates r root a b ↔ a = b ∨ ∀ p, r p b → Dominates r root a p := by
  constructor
  · intro h
    by_cases hab : a = b
    · exact .inl hab
    · refine .inr fun p hp q hq => ?_
      have := h _ (hq.snoc hp)
      simpa [hab] using this
  · rintro (rfl | h) p hp
    · exact hp.last_mem
    · rcases hp.snoc_cases with ⟨rfl, -⟩ | ⟨x, q, hq, hx, rfl⟩
      · exact absurd rfl hb
      · exact List.mem_append_left _ (h x hx q hq)

/-- A set of vertices without the root that is entered through `a` only is dominated by `a`. -/
theorem Dominates.of_cut {S : α → Prop} (hroot : ¬ S root)
    (hcut : ∀ x y, r x y → S y → S x ∨ x = a) (hb : S b) : Dominates r root a b := by
  intro p hp
  induction hp with
  | single x => exact absurd hb hroot
  | @cons x y z p hxy hw ih =>
    by_cases hy : S y
    · rcases hcut x y hxy hy with hx | rfl
      · exact absurd hx hroot
      · exact List.mem_cons_self ..
    · exact List.mem_cons_of_mem _ (ih hy hb)

/-- An edge that leads back to a dominator of its source. -/
def BackEdge (r : α → α → Prop) (root a b : α) : Prop :=
  Reaches r root a ∧ r a b ∧ Dominates r root b a

/-- The edges that do not lead back to a dominator form no cycle. -/
def Reducible (r : α → α → Prop) (root : α) : Prop :=
  ∀ a, Reaches r root a → ¬ Relation.TransGen (fun x y => r x y ∧ ¬ Dominates r root y x) a a

/-- A graph is reducible when a rank goes down along every edge that is not a back edge. -/
theorem Reducible.of_rank (ord : α → Nat)
    (h : ∀ x y, r x y → ord y < ord x ∨ Dominates r root y x) : Reducible r root := by
  intro a _ hcyc
  refine acyclic_of_ord ord ?_ a hcyc
  rintro x y ⟨hxy, hn⟩
  exact (h x y hxy).resolve_right hn

end DxilSpirv.Graph
