import DxilSpirv.Graph.Walk

/-!
# Trees given by parent pointers

A partial parent function describes the part of a tree that has been built so far. On the
vertices built, ranks grow towards the root, so ancestry is a total order above each vertex
and the nearest common ancestor of two vertices is found by climbing from the lower one.
The last part ties ancestry to dominance: a vertex hung below the nearest common ancestor
of its predecessors has exactly its dominators as ancestors.
-/

namespace DxilSpirv.Graph

variable {α : Type*}

/-- `a` is `b` or one of the vertices above it. -/
def Anc (par : α → Option α) (a b : α) : Prop :=
  Relation.ReflTransGen (fun x y => par x = some y) b a

/-- The vertices satisfying `D` hang in a tree below `root`, and ranks grow towards it. -/
structure Rooted (par : α → Option α) (ord : α → Nat) (root : α) (D : α → Prop) : Prop where
  root_mem : D root
  root_par : par root = some root
  up : ∀ x, D x → x ≠ root → ∃ y, par x = some y ∧ D y ∧ ord x < ord y
  le_root : ∀ x, D x → ord x ≤ ord root
  inj : ∀ x y, D x → D y → ord x = ord y → x = y

/-- `c` is the nearest common ancestor of `a` and `b`. -/
def IsNca (par : α → Option α) (a b c : α) : Prop :=
  ∀ x, Anc par x c ↔ Anc par x a ∧ Anc par x b

variable {par par' : α → Option α} {ord : α → Nat} {root : α} {D : α → Prop} {a b c x y : α}

namespace Anc

theorem refl (par : α → Option α) (a : α) : Anc par a a := Relation.ReflTransGen.refl

theorem trans (hab : Anc par a b) (hbc : Anc par b c) : Anc par a c :=
  Relation.ReflTransGen.trans hbc hab

/-- Ancestry through the parent. -/
theorem iff_par (h : par b = some c) : Anc par a b ↔ a = b ∨ Anc par a c := by
  constructor
  · intro hab
    rcases Relation.ReflTransGen.cases_head hab with hb | ⟨d, hd, hda⟩
    · exact .inl hb.symm
    · have hdc : d = c := Option.some.inj (hd.symm.trans h)
      exact .inr (hdc ▸ hda)
  · rintro (rfl | hac)
    · exact .refl par a
    · exact Relation.ReflTransGen.head h hac

/-- Two ancestors of one vertex are comparable. -/
theorem total (ha : Anc par a c) (hb : Anc par b c) : Anc par a b ∨ Anc par b a :=
  (Relation.ReflTransGen.total_of_right_unique
    (fun _ _ _ h h' => Option.some.inj (h.symm.trans h')) ha hb).symm

end Anc

namespace Rooted

/-- Only the root is above the root. -/
theorem anc_root (h : Rooted par ord root D) : Anc par a root ↔ a = root := by
  constructor
  · intro ha
    induction ha with
    | refl => rfl
    | @tail x y _ hxy ih =>
      rw [ih] at hxy
      exact (Option.some.inj (h.root_par.symm.trans hxy)).symm
  · rintro rfl
    exact .refl par a

theorem par_mem (h : Rooted par ord root D) (hx : D x) (hy : par x = some y) : D y := by
  by_cases hr : x = root
  · subst hr
    exact Option.some.inj (h.root_par.symm.trans hy) ▸ hx
  · obtain ⟨z, hz, hDz, -⟩ := h.up x hx hr
    exact Option.some.inj (hz.symm.trans hy) ▸ hDz

/-- An ancestor belongs to the tree and ranks no lower. -/
theorem anc_mem (h : Rooted par ord root D) (hb : D b) (hab : Anc par a b) :
    D a ∧ ord b ≤ ord a := by
  induction hab with
  | refl => exact ⟨hb, Nat.le_refl _⟩
  | @tail x y _ hxy ih =>
    refine ⟨h.par_mem ih.1 hxy, ?_⟩
    by_cases hr : x = root
    · subst hr
      have := Option.some.inj (h.root_par.symm.trans hxy)
      exact this ▸ ih.2
    · obtain ⟨z, hz, -, hlt⟩ := h.up x ih.1 hr
      have hzy := Option.some.inj (hz.symm.trans hxy)
      rw [← hzy]
      exact Nat.le_trans ih.2 (Nat.le_of_lt hlt)

theorem anc_antisymm (h : Rooted par ord root D) (hb : D b) (hab : Anc par a b)
    (hba : Anc par b a) : a = b := by
  obtain ⟨ha, hle⟩ := h.anc_mem hb hab
  exact h.inj a b ha hb (Nat.le_antisymm (h.anc_mem ha hba).2 hle)

/-- The root is above every vertex of the tree. -/
theorem root_anc (h : Rooted par ord root D) (hx : D x) : Anc par root x := by
  induction hn : ord root - ord x using Nat.strongRecOn generalizing x with
  | ind n ih =>
    by_cases hr : x = root
    · exact hr ▸ .refl par x
    · obtain ⟨y, hy, hDy, hlt⟩ := h.up x hx hr
      have := h.le_root y hDy
      exact (Anc.iff_par hy).mpr (.inr (ih _ (by omega) hDy rfl))

/-- Ancestry in the tree does not depend on parents outside it. -/
theorem anc_congr (h : Rooted par ord root D) (hp : ∀ z, D z → par' z = par z) (hb : D b) :
    Anc par' a b ↔ Anc par a b := by
  constructor
  · intro hab
    have hmem : D a ∧ Anc par a b := by
      induction hab with
      | refl => exact ⟨hb, .refl par b⟩
      | tail _ hxy ih =>
        rw [hp _ ih.1] at hxy
        exact ⟨h.par_mem ih.1 hxy, Relation.ReflTransGen.tail ih.2 hxy⟩
    exact hmem.2
  · intro hab
    induction hab with
    | refl => exact .refl par' b
    | @tail x y hbx hxy ih =>
      have hx := (h.anc_mem hb hbx).1
      exact Relation.ReflTransGen.tail ih ((hp x hx).trans hxy)

theorem congr (h : Rooted par ord root D) (hp : ∀ z, D z → par' z = par z) :
    Rooted par' ord root D where
  root_mem := h.root_mem
  root_par := (hp _ h.root_mem).trans h.root_par
  up := fun x hx hr => by
    rw [hp x hx]
    exact h.up x hx hr
  le_root := h.le_root
  inj := h.inj

/-- The lower of two vertices is replaced by its parent when climbing. -/
theorem isNca_step (h : Rooted par ord root D) (ha : D a) (hb : D b) (hlt : ord a < ord b)
    (hx : par a = some x) (hnca : IsNca par x b c) : IsNca par a b c := by
  intro z
  rw [hnca z, Anc.iff_par hx]
  constructor
  · exact fun hz => ⟨.inr hz.1, hz.2⟩
  · rintro ⟨rfl | hz, hzb⟩
    · exact absurd (h.anc_mem hb hzb).2 (Nat.not_le.mpr hlt)
    · exact ⟨hz, hzb⟩

/-- A nearest common ancestor belongs to the tree. -/
theorem isNca_mem (h : Rooted par ord root D) (ha : D a) (hnca : IsNca par a b c) : D c :=
  (h.anc_mem ha ((hnca c).mp (.refl par c)).1).1

/-- Nearest common ancestors do not depend on parents outside the tree. -/
theorem isNca_congr (h : Rooted par ord root D) (hp : ∀ z, D z → par' z = par z) (ha : D a)
    (hb : D b) (hnca : IsNca par' a b c) : IsNca par a b c := by
  have hc := (h.congr hp).isNca_mem ha hnca
  intro x
  rw [← h.anc_congr hp ha, ← h.anc_congr hp hb, ← h.anc_congr hp hc]
  exact hnca x

/-- The lower of two different vertices is not the root, so there is somewhere to climb. -/
theorem exists_par_of_lt (h : Rooted par ord root D) (ha : D a) (hb : D b)
    (hlt : ord a < ord b) : ∃ x, par a = some x ∧ D x ∧ ord a < ord x ∧ x ≠ a := by
  have hr : a ≠ root := by
    rintro rfl
    exact absurd (h.le_root b hb) (Nat.not_le.mpr hlt)
  obtain ⟨x, hx, hDx, hax⟩ := h.up a ha hr
  exact ⟨x, hx, hDx, hax, fun he => Nat.lt_irrefl _ (he ▸ hax)⟩

end Rooted

theorem IsNca.symm (h : IsNca par a b c) : IsNca par b a c :=
  fun x => (h x).trans and_comm

theorem IsNca.self (par : α → Option α) (a : α) : IsNca par a a a :=
  fun _ => and_self_iff.symm

/-! ## Trees of dominators -/

/-- The ancestors of the vertices built so far are their dominators. -/
structure DomTree (r : α → α → Prop) (par : α → Option α) (ord : α → Nat) (root : α)
    (D : α → Prop) : Prop extends Rooted par ord root D where
  anc_iff : ∀ a b, D b → (Anc par a b ↔ Dominates r root a b)

/-- The tree that holds nothing but its root. -/
theorem DomTree.single (r : α → α → Prop) (ord : α → Nat) (hpar : par root = some root) :
    DomTree r par ord root (· = root) := by
  have hroot : Rooted par ord root (· = root) :=
    ⟨rfl, hpar, fun x hx hne => absurd hx hne, fun x hx => Nat.le_of_eq (congrArg ord hx),
      fun x y hx hy _ => hx.trans hy.symm⟩
  refine ⟨hroot, ?_⟩
  rintro a b rfl
  rw [hroot.anc_root, dominates_root]

/-- Hang a vertex below the nearest common ancestor of its predecessors. -/
theorem DomTree.extend {r : α → α → Prop} (h : DomTree r par ord root D) {v q : α}
    (par' : α → Option α)
    (hv : v ≠ root) (hn : ¬ D v) (hagree : ∀ z, D z → par' z = par z) (hpar : par' v = some q)
    (hpred : ∃ p, r p v) (hmem : ∀ p, r p v → D p) (hord : ∀ x, D x → ord v < ord x)
    (hq : ∀ x, Anc par x q ↔ ∀ p, r p v → Anc par x p) :
    DomTree r par' ord root (fun x => x = v ∨ D x) := by
  obtain ⟨p, hp⟩ := hpred
  have hDq : D q := (h.anc_mem (hmem p hp) ((hq q).mp (.refl par q) p hp)).1
  have hrooted : Rooted par' ord root (fun x => x = v ∨ D x) := by
    refine ⟨.inr h.root_mem, (hagree _ h.root_mem).trans h.root_par, ?_, ?_, ?_⟩
    · rintro x (rfl | hx) hr
      · exact ⟨q, hpar, .inr hDq, hord q hDq⟩
      · obtain ⟨y, hy, hDy, hlt⟩ := h.up x hx hr
        exact ⟨y, (hagree x hx).trans hy, .inr hDy, hlt⟩
    · rintro x (rfl | hx)
      · exact Nat.le_of_lt (hord root h.root_mem)
      · exact h.le_root x hx
    · rintro x y (rfl | hx) (rfl | hy) he
      · rfl
      · exact absurd he (Nat.ne_of_lt (hord y hy))
      · exact absurd he.symm (Nat.ne_of_lt (hord x hx))
      · exact h.inj x y hx hy he
  refine ⟨hrooted, ?_⟩
  rintro a b (rfl | hb)
  · rw [Anc.iff_par hpar, h.anc_congr hagree hDq, hq, dominates_iff_preds hv]
    refine or_congr Iff.rfl (forall_congr' fun p => imp_congr_right fun hp => ?_)
    exact h.anc_iff a p (hmem p hp)
  · rw [h.anc_congr hagree hb]
    exact h.anc_iff a b hb

/-- `d` is the closest strict dominator of `b`. -/
def IsImmediateDominator (r : α → α → Prop) (root d b : α) : Prop :=
  d ≠ b ∧ Dominates r root d b ∧ ∀ a, a ≠ b → Dominates r root a b → Dominates r root a d

/-- Away from the root, parents are immediate dominators. -/
theorem DomTree.isImmediateDominator {r : α → α → Prop} (h : DomTree r par ord root D)
    {d : α} (hb : D b) (hne : b ≠ root) (hd : par b = some d) :
    IsImmediateDominator r root d b := by
  obtain ⟨y, hy, hDy, hlt⟩ := h.up b hb hne
  obtain rfl : y = d := Option.some.inj (hy.symm.trans hd)
  refine ⟨fun he => Nat.lt_irrefl _ (he ▸ hlt), ?_, fun a ha hab => ?_⟩
  · exact (h.anc_iff y b hb).mp ((Anc.iff_par hy).mpr (.inr (.refl par y)))
  · rw [← h.anc_iff a b hb, Anc.iff_par hy] at hab
    exact (h.anc_iff a y hDy).mp (hab.resolve_left ha)

end DxilSpirv.Graph
