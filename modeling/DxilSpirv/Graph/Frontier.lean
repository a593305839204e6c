import DxilSpirv.Graph.Tree

/-!
# Dominance frontiers

The frontier of a vertex collects its own successors that hang elsewhere and what its
children pass up. Passing up once per vertex, children first, yields every successor of the
subtree that leaves it; on the edges the tree was built from, that is the textbook frontier.
-/

namespace DxilSpirv.Graph

variable {α : Type*}

/-- The successors of `a` that do not hang below it. -/
def OwnFrontier (succ : α → List α) (par : α → Option α) (a f : α) : Prop :=
  f ∈ succ a ∧ par f ≠ some a

/-- `f` is an own frontier of `a`, or a successor of a vertex strictly below `a` and not
itself below `a`. -/
def InFrontier (succ : α → List α) (par : α → Option α) (D : α → Prop) (a f : α) : Prop :=
  OwnFrontier succ par a f ∨ ∃ p, D p ∧ a ≠ p ∧ Anc par a p ∧ f ∈ succ p ∧ ¬ Anc par a f

variable {succ : α → List α} {par : α → Option α} {ord : α → Nat} {root : α} {D : α → Prop}
  {a f : α}

/-- A strict ancestor is above some child of its own. -/
theorem Anc.exists_child (h : Rooted par ord root D) {p : α} (hp : D p) (hap : Anc par a p)
    (hne : a ≠ p) : ∃ k, D k ∧ k ≠ a ∧ par k = some a ∧ Anc par k p := by
  rcases Relation.ReflTransGen.cases_tail hap with hpa | ⟨k, hpk, hka⟩
  · exact absurd hpa hne
  · by_cases hk : k = a
    · subst hk
      have hr : k = root := by
        by_contra hr
        obtain ⟨y, hy, -, hlt⟩ := h.up k (h.anc_mem hp hpk).1 hr
        have := Option.some.inj (hy.symm.trans hka)
        exact Nat.lt_irrefl _ (this ▸ hlt)
      subst hr
      -- a walk that stays at the root took its last real step before
      clear hka
      induction hpk using Relation.ReflTransGen.head_induction_on with
      | refl => exact absurd rfl hne
      | @head x y hxy hyk ih =>
        by_cases hy : k = y
        · subst hy
          exact ⟨x, hp, hne.symm, hxy, .refl par x⟩
        · obtain ⟨z, hz, hzk, hpz, hzy⟩ := ih (h.par_mem hp hxy) hyk hy
          exact ⟨z, hz, hzk, hpz, hzy.trans ((Anc.iff_par hxy).mpr (.inr (.refl par y)))⟩
    · exact ⟨k, (h.anc_mem hp hpk).1, hk, hka, hpk⟩

/-- Frontiers are what the children pass up and the vertex adds. -/
theorem inFrontier_iff (h : Rooted par ord root D) : InFrontier succ par D a f ↔
    OwnFrontier succ par a f ∨
      ∃ k, D k ∧ k ≠ a ∧ par k = some a ∧ InFrontier succ par D k f ∧ ¬ Anc par a f := by
  constructor
  · rintro (hown | ⟨p, hp, hne, hap, hf, hn⟩)
    · exact .inl hown
    · obtain ⟨k, hk, hka, hpar, hkp⟩ := hap.exists_child h hp hne
      have hak : Anc par a k := (Anc.iff_par hpar).mpr (.inr (.refl par a))
      refine .inr ⟨k, hk, hka, hpar, ?_, hn⟩
      by_cases hkp' : k = p
      · subst hkp'
        refine .inl ⟨hf, fun hfk => hn ?_⟩
        exact hak.trans ((Anc.iff_par hfk).mpr (.inr (.refl par k)))
      · exact .inr ⟨p, hp, hkp', hkp, hf, fun hkf => hn (hak.trans hkf)⟩
  · rintro (hown | ⟨k, hk, hka, hpar, hkf, hn⟩)
    · exact .inl hown
    · have hak : Anc par a k := (Anc.iff_par hpar).mpr (.inr (.refl par a))
      refine .inr ?_
      rcases hkf with ⟨hf, -⟩ | ⟨p, hp, -, hkp, hf, -⟩
      · exact ⟨k, hk, hka.symm, hak, hf, hn⟩
      · refine ⟨p, hp, ?_, hak.trans hkp, hf, hn⟩
        rintro rfl
        exact hka (h.anc_antisymm hp hkp hak)

/-- On the edges of the graph, the frontier of `a` holds the vertices with a predecessor that
`a` dominates and that `a` does not strictly dominate. -/
theorem DomTree.frontier_iff {r : α → α → Prop} {par : α → Option α} {ord : α → Nat} {root : α}
    {D : α → Prop} (h : DomTree r par ord root D) (hD : ∀ x y, r x y → D x ∧ D y)
    (hreach : ∀ x, D x → Reaches r root x) (hlow : ∀ x y, r x y → ord y < ord x) {a f : α}
    (ha : D a) :
    ((r a f ∧ par f ≠ some a) ∨ ∃ p, D p ∧ a ≠ p ∧ Anc par a p ∧ r p f ∧ ¬ Anc par a f) ↔
      ∃ p, r p f ∧ Dominates r root a p ∧ ¬ (a ≠ f ∧ Dominates r root a f) := by
  have hroot : ∀ x, ¬ r x root := by
    intro x hx
    have := hlow x root hx
    have := h.le_root x (hD x root hx).1
    omega
  constructor
  · rintro (⟨hf, hpar⟩ | ⟨p, hp, hne, hap, hf, hn⟩)
    · refine ⟨a, hf, .refl r root a, ?_⟩
      rintro ⟨haf, hdom⟩
      have hfr : f ≠ root := fun he => hroot a (he ▸ hf)
      obtain ⟨d, hd, -⟩ := h.up f (hD a f hf).2 hfr
      obtain ⟨hdf, hdd, hmin⟩ := h.isImmediateDominator (hD a f hf).2 hfr hd
      -- the parent dominates the predecessor `a`, and `a` dominates the parent
      have hda := ((dominates_iff_preds hfr).mp hdd).resolve_left hdf a hf
      have had := hmin a haf hdom
      have hDd := h.par_mem (hD a f hf).2 hd
      rw [← h.anc_iff d a ha] at hda
      rw [← h.anc_iff a d hDd] at had
      exact hpar (h.anc_antisymm ha hda had ▸ hd)
    · refine ⟨p, hf, (h.anc_iff a p hp).mp hap, fun hdom => hn ?_⟩
      exact (h.anc_iff a f (hD p f hf).2).mpr hdom.2
  · rintro ⟨p, hf, hap, hn⟩
    obtain ⟨hDp, hDf⟩ := hD p f hf
    by_cases hne : a = p
    · subst hne
      refine .inl ⟨hf, fun hpar => hn ⟨?_, ?_⟩⟩
      · rintro rfl
        exact Nat.lt_irrefl _ (hlow _ _ hf)
      · exact (h.anc_iff a f hDf).mp ((Anc.iff_par hpar).mpr (.inr (.refl par a)))
    · refine .inr ⟨p, hDp, hne, (h.anc_iff a p hDp).mpr hap, hf, fun haf => hn ⟨?_, ?_⟩⟩
      · rintro rfl
        have := Reaches.ord_le ord hlow (hap.reaches (hreach p hDp))
        have := hlow p a hf
        omega
      · exact (h.anc_iff a f hDf).mp haf

end DxilSpirv.Graph
