import DxilSpirv.Graph.Frontier
import DxilSpirv.Cfg.Backward
import DxilSpirv.Cfg.Dominance

/-!
# Dominance frontiers

`compute_dominance_frontier` visits the blocks in post order, adds the successors of each
block to its frontier and passes what its immediate dominator does not dominate up. The pass
is followed on the frontiers alone, since it writes nothing else.
-/

namespace DxilSpirv

open DxilSpirv.Graph Dfs CFGStructurizer

/-- The pool `c` with the frontiers `g`. -/
def withFrontier (c : CFGStructurizer) (g : Nat → List Nat) : CFGStructurizer :=
  { c with node := fun n => { c.node n with dominanceFrontier := g n } }

/-- Frontiers change neither the forward analyses nor the edges. -/
theorem Grown.withFrontier (c : CFGStructurizer) (g : Nat → List Nat) :
    Grown c (withFrontier c g) :=
  ⟨rfl, fun _ => rfl, fun _ _ h => h, fun _ _ h => h⟩

variable {c : CFGStructurizer} {D : Nat → Prop}

/-- A write to one frontier. -/
theorem withFrontier_modify (c : CFGStructurizer) (g : Nat → List Nat) (n f : Nat) :
    ((withFrontier c g).modify n fun x =>
      { x with dominanceFrontier := addUnique x.dominanceFrontier f }) =
    withFrontier c (Function.update g n (addUnique (g n) f)) := by
  apply CFGStructurizer.ext
  case node =>
    funext m
    rw [modify_node]
    by_cases hm : m = n
    · subst hm
      simp [withFrontier]
    · simp [withFrontier, hm]
  all_goals rfl

/-- The blocks hang in a tree of immediate dominators that fits into the pool, and edges stay
in it. -/
structure FrontierTree (c : CFGStructurizer) (D : Nat → Prop) : Prop where
  rooted : Rooted c.idom c.order c.entryBlock D
  order_lt : c.order c.entryBlock < c.size
  succ : ∀ a, D a → ∀ f ∈ (c.node a).succ, D f
  inner : ∀ a b, D b → a ≠ b → Anc c.idom a b → (c.node a).succ ≠ []

/-- `dominates` decides ancestry. -/
theorem FrontierTree.dominates_eq (h : FrontierTree c D) (a : Nat) {b : Nat} (hb : D b) :
    ∃ r, c.dominates a b = .ok r ∧ (r = true ↔ Anc c.idom a b) := by
  refine climbs_eq h.rooted a _ b hb ?_
  have := h.order_lt
  omega

/-- Passing a frontier up. -/
private theorem propagate_eq (h : FrontierTree c D) (d : Nat) (l : List Nat) (hl : ∀ f ∈ l, D f) :
    ∀ g : Nat → List Nat, (∀ m, D m → (g m).Nodup) →
      ∃ g', l.foldlM (fun c f => do
          if ← c.dominates d f then return c
          else return c.modify d fun x =>
            { x with dominanceFrontier := addUnique x.dominanceFrontier f })
          (withFrontier c g) = .ok (withFrontier c g') ∧
        (∀ m, D m → (g' m).Nodup) ∧
        ∀ m f, f ∈ g' m ↔ f ∈ g m ∨ m = d ∧ f ∈ l ∧ ¬ Anc c.idom d f := by
  induction l with
  | nil => exact fun g hg => ⟨g, rfl, hg, by simp⟩
  | cons f l ih =>
    intro g hg
    obtain ⟨r, hr, hanc⟩ := h.dominates_eq d (hl f (List.mem_cons_self ..))
    have hdom : (withFrontier c g).dominates d f = .ok r := hr
    have hrest := ih fun x hx => hl x (List.mem_cons_of_mem _ hx)
    rw [List.foldlM_cons, hdom]
    simp only [ok_bind]
    by_cases hd : r = true
    · obtain ⟨g', hok, hnd, hmem⟩ := hrest g hg
      refine ⟨g', ?_, hnd, fun m x => ?_⟩
      · rw [if_pos hd]
        exact hok
      · rw [hmem, List.mem_cons]
        constructor
        · rintro (hx | ⟨hm, hx, hn⟩)
          · exact .inl hx
          · exact .inr ⟨hm, .inr hx, hn⟩
        · rintro (hx | ⟨hm, rfl | hx, hn⟩)
          · exact .inl hx
          · exact absurd (hanc.mp hd) hn
          · exact .inr ⟨hm, hx, hn⟩
    · obtain ⟨g', hok, hnd, hmem⟩ := hrest (Function.update g d (addUnique (g d) f)) (by
        intro m hDm
        by_cases hm : m = d
        · subst hm
          simpa using nodup_addUnique (hg m hDm) f
        · simpa [hm] using hg m hDm)
      refine ⟨g', ?_, hnd, fun m x => ?_⟩
      · rw [if_neg hd, pure_eq_ok, ok_bind, withFrontier_modify]
        exact hok
      · have hnf : ¬ Anc c.idom d f := fun ha => hd (hanc.mpr ha)
        have hupd : x ∈ Function.update g d (addUnique (g d) f) m ↔ x ∈ g m ∨ m = d ∧ x = f := by
          by_cases hm : m = d
          · subst hm
            simp
          · simp [hm]
        rw [hmem, hupd, List.mem_cons]
        constructor
        · rintro ((hx | ⟨hm, rfl⟩) | ⟨hm, hx, hn⟩)
          · exact .inl hx
          · exact .inr ⟨hm, .inl rfl, hnf⟩
          · exact .inr ⟨hm, .inr hx, hn⟩
        · rintro (hx | ⟨hm, rfl | hx, hn⟩)
          · exact .inl (.inl hx)
          · exact .inl (.inr ⟨hm, rfl⟩)
          · exact .inr ⟨hm, hx, hn⟩

/-- The own frontier of a block, read off the pool. -/
abbrev OwnDominanceFrontier (c : CFGStructurizer) : Nat → Nat → Prop :=
  OwnFrontier (fun n => (c.node n).succ) c.idom

/-- A successor that the block does not dominate immediately is in its own frontier. -/
private theorem ownFrontier_eq (n s : Nat) {g : Nat → List Nat} (hg : ∀ m, D m → (g m).Nodup) :
    ∃ g', (if (c.node s).immediateDominator = some n then withFrontier c g
        else (withFrontier c g).modify n fun x =>
          { x with dominanceFrontier := addUnique x.dominanceFrontier s }) = withFrontier c g' ∧
      (∀ m, D m → (g' m).Nodup) ∧
      ∀ m f, f ∈ g' m ↔ f ∈ g m ∨ m = n ∧ f = s ∧ c.idom s ≠ some n := by
  by_cases hi : (c.node s).immediateDominator = some n
  · exact ⟨g, if_pos hi, hg, fun m f => by simp [CFGStructurizer.idom, hi]⟩
  · refine ⟨Function.update g n (addUnique (g n) s), ?_, fun m hDm => ?_, fun m f => ?_⟩
    · rw [if_neg hi, withFrontier_modify]
    · by_cases hm : m = n
      · subst hm
        simpa using nodup_addUnique (hg m hDm) s
      · simpa [hm] using hg m hDm
    · by_cases hm : m = n
      · subst hm
        simp [CFGStructurizer.idom, hi]
      · simp [hm]

/-- Every block of the tree has a parent, and only the root is its own. -/
private theorem FrontierTree.exists_parent (h : FrontierTree c D) {n : Nat} (hn : D n) :
    ∃ d, c.idom n = some d ∧ (n = d → d = c.entryBlock) := by
  by_cases hr : n = c.entryBlock
  · exact ⟨n, hr ▸ h.rooted.root_par, fun _ => hr⟩
  · obtain ⟨d, hd, -, hlt⟩ := h.rooted.up n hn hr
    exact ⟨d, hd, fun he => absurd hlt (he ▸ Nat.lt_irrefl _)⟩

/-- The loop of `recompute_dominance_frontier` over the successors that are left. -/
private theorem frontierLoop_eq (h : FrontierTree c D) {n : Nat} (hn : D n) (l : List Nat)
    (hl : ∀ f ∈ l, D f) :
    ∀ g : Nat → List Nat, (∀ m, D m → (g m).Nodup) → (∀ f ∈ g n, D f) →
      ∃ g', l.foldlM (fun c succ =>
          let c := if (c.node succ).immediateDominator = some n then c
            else c.modify n fun x =>
              { x with dominanceFrontier := addUnique x.dominanceFrontier succ }
          match (c.node n).immediateDominator with
          | some idom => c.propagateFrontier n idom
          | none => .ok c) (withFrontier c g) = .ok (withFrontier c g') ∧
        (∀ m, D m → (g' m).Nodup) ∧
        ∀ m f, f ∈ g' m ↔ f ∈ g m ∨ (m = n ∧ f ∈ l ∧ c.idom f ≠ some n) ∨
          (m ≠ n ∧ c.idom n = some m ∧ l ≠ [] ∧ ¬ Anc c.idom m f ∧
            (f ∈ g n ∨ f ∈ l ∧ c.idom f ≠ some n)) := by
  obtain ⟨d, hd, hroot⟩ := h.exists_parent hn
  induction l with
  | nil => exact fun g hg _ => ⟨g, rfl, hg, by simp⟩
  | cons s l ih =>
    intro g hg hgn
    have hs := hl s (List.mem_cons_self ..)
    obtain ⟨g₁, hok₁, hnd₁, hmem₁⟩ := ownFrontier_eq n s hg
    have hD₁ : ∀ f ∈ g₁ n, D f := by
      intro f hf
      rcases (hmem₁ n f).mp hf with hf | ⟨-, rfl, -⟩
      · exact hgn f hf
      · exact hs
    -- what goes up
    obtain ⟨g₂, hok₂, hnd₂, hmem₂⟩ := propagate_eq h d (g₁ n) hD₁ g₁ hnd₁
    have hself : ∀ f, f ∈ g₂ n ↔ f ∈ g₁ n := by
      intro f
      rw [hmem₂]
      refine ⟨fun hf => hf.elim id fun hf => hf.2.1, .inl⟩
    obtain ⟨g', hok', hnd', hmem'⟩ := ih (fun x hx => hl x (List.mem_cons_of_mem _ hx)) g₂ hnd₂
      fun f hf => hD₁ f ((hself f).mp hf)
    have hstep : (withFrontier c g₁).propagateFrontier n d = .ok (withFrontier c g₂) := hok₂
    have hidom : ((withFrontier c g₁).node n).immediateDominator = some d := hd
    refine ⟨g', ?_, hnd', fun m f => ?_⟩
    · rw [List.foldlM_cons]
      dsimp only
      have hif : ((withFrontier c g).node s).immediateDominator =
        (c.node s).immediateDominator := rfl
      rw [hif, hok₁, hidom]
      change ((withFrontier c g₁).propagateFrontier n d >>= _) = _
      rw [hstep, ok_bind]
      exact hok'
    · have hdm : c.idom n = some m ↔ m = d := by
        rw [hd, Option.some.injEq, eq_comm]
      rw [hmem', hself, hmem₂, hmem₁, hmem₁, hdm, List.mem_cons]
      by_cases hm : m = n
      · subst hm
        -- the root passes nothing to itself
        have hnone : ¬ (m = d ∧ (f ∈ g m ∨ m = m ∧ f = s ∧ c.idom s ≠ some m) ∧
            ¬ Anc c.idom d f) := by
          rintro ⟨hmd, hf, hanc⟩
          have hDf : D f := hD₁ f ((hmem₁ m f).mpr hf)
          exact hanc (hroot hmd ▸ h.rooted.root_anc hDf)
        constructor
        · rintro (((hf | ⟨-, rfl, hi⟩) | hup) | ⟨-, hf, hi⟩ | ⟨hne, -⟩)
          · exact .inl hf
          · exact .inr (.inl ⟨rfl, .inl rfl, hi⟩)
          · exact absurd hup hnone
          · exact .inr (.inl ⟨rfl, .inr hf, hi⟩)
          · exact absurd rfl hne
        · rintro (hf | ⟨-, rfl | hf, hi⟩ | ⟨hne, -⟩)
          · exact .inl (.inl (.inl hf))
          · exact .inl (.inl (.inr ⟨rfl, rfl, hi⟩))
          · exact .inr (.inl ⟨rfl, hf, hi⟩)
          · exact absurd rfl hne
      · by_cases hmd : m = d
        · subst hmd
          constructor
          · rintro (((hf | ⟨he, -⟩) | ⟨-, hf, hn⟩) | ⟨he, -⟩ | ⟨-, -, -, hn, hf⟩)
            · exact .inl hf
            · exact absurd he hm
            · refine .inr (.inr ⟨hm, rfl, List.cons_ne_nil _ _, hn, ?_⟩)
              rcases hf with hf | ⟨-, rfl, hi⟩
              · exact .inl hf
              · exact .inr ⟨.inl rfl, hi⟩
            · exact absurd he hm
            · refine .inr (.inr ⟨hm, rfl, List.cons_ne_nil _ _, hn, ?_⟩)
              rcases hf with (hf | ⟨-, rfl, hi⟩) | hf
              · exact .inl hf
              · exact .inr ⟨.inl rfl, hi⟩
              · exact .inr ⟨.inr hf.1, hf.2⟩
          · rintro (hf | ⟨he, -⟩ | ⟨-, -, -, hn, hf | ⟨rfl | hf, hi⟩⟩)
            · exact .inl (.inl (.inl hf))
            · exact absurd he hm
            · exact .inl (.inr ⟨rfl, .inl hf, hn⟩)
            · exact .inl (.inr ⟨rfl, .inr ⟨rfl, rfl, hi⟩, hn⟩)
            · refine .inr (.inr ⟨hm, rfl, ?_, hn, .inr ⟨hf, hi⟩⟩)
              rintro rfl
              exact absurd hf List.not_mem_nil
        · simp [hm, hmd]

/-- One block of the pass. -/
private theorem recomputeDominanceFrontier_eq (h : FrontierTree c D) {n : Nat} (hn : D n)
    {g : Nat → List Nat} (hg : ∀ m, D m → (g m).Nodup) (hgn : ∀ f ∈ g n, D f) :
    ∃ g', recomputeDominanceFrontier (withFrontier c g) n = .ok (withFrontier c g') ∧
      (∀ m, D m → (g' m).Nodup) ∧
      ∀ m f, f ∈ g' m ↔ f ∈ g m ∨ (m = n ∧ OwnDominanceFrontier c n f) ∨
        (m ≠ n ∧ c.idom n = some m ∧ (c.node n).succ ≠ [] ∧ ¬ Anc c.idom m f ∧
          (f ∈ g n ∨ OwnDominanceFrontier c n f)) :=
  frontierLoop_eq h hn (c.node n).succ (h.succ n hn) g hg hgn

/-- The frontiers once the blocks in `p` were visited. -/
def FrontierSoFar (c : CFGStructurizer) (D : Nat → Prop) (p : List Nat) (m f : Nat) : Prop :=
  (m ∈ p ∧ OwnDominanceFrontier c m f) ∨
    ∃ k ∈ p, k ≠ m ∧ c.idom k = some m ∧
      InFrontier (fun n => (c.node n).succ) c.idom D k f ∧ ¬ Anc c.idom m f

/-- What is in a frontier is in the tree, and its owner branches. -/
theorem FrontierTree.inFrontier_mem (h : FrontierTree c D) {a f : Nat} (ha : D a)
    (hf : InFrontier (fun n => (c.node n).succ) c.idom D a f) :
    D f ∧ (c.node a).succ ≠ [] := by
  rcases hf with ⟨hf, -⟩ | ⟨p, hp, hne, hap, hf, -⟩
  · exact ⟨h.succ a ha f hf, fun hnil => by simp [hnil] at hf⟩
  · exact ⟨h.succ p hp f hf, h.inner a p hp hne hap⟩

/-- The rest of the pass, once the blocks in `p` were visited. -/
private theorem frontierPass_eq (h : FrontierTree c D) (t : List Nat) :
    ∀ (p : List Nat) (g : Nat → List Nat), (∀ n ∈ p ++ t, D n) → (p ++ t).Nodup →
      (∀ n ∈ t, ∀ k, D k → c.order k < c.order n → (p ++ t).idxOf k < (p ++ t).idxOf n) →
      (∀ k, D k → k ∈ p ++ t) → (∀ m, D m → (g m).Nodup) →
      (∀ m f, D m → (f ∈ g m ↔ FrontierSoFar c D p m f)) →
      ∃ g', t.foldlM recomputeDominanceFrontier (withFrontier c g) = .ok (withFrontier c g') ∧
        (∀ m, D m → (g' m).Nodup) ∧
        ∀ m f, D m → (f ∈ g' m ↔ FrontierSoFar c D (p ++ t) m f) := by
  induction t with
  | nil =>
    intro p g _ _ _ _ hg hmem
    exact ⟨g, rfl, hg, by simpa using hmem⟩
  | cons n t ih =>
    intro p g hD hnd hord hall hg hmem
    have hn : D n := hD n (by simp)
    have hnp : n ∉ p := fun hp => (List.nodup_append.mp hnd).2.2 n hp n (by simp) rfl
    -- the children of `n` were visited
    have hchild : ∀ k, D k → k ≠ n → c.idom k = some n → k ∈ p := by
      intro k hk hkn hidom
      have hr : k ≠ c.entryBlock := by
        rintro rfl
        exact hkn (Option.some.inj (h.rooted.root_par.symm.trans hidom))
      obtain ⟨y, hy, -, hlt⟩ := h.rooted.up k hk hr
      have hyn : y = n := Option.some.inj (hy.symm.trans hidom)
      have hidx := hord n (by simp) k hk (hyn ▸ hlt)
      by_contra hkp
      rw [List.idxOf_append_of_notMem hkp, List.idxOf_append_of_notMem hnp,
        List.idxOf_cons_self] at hidx
      omega
    have hfull : ∀ f, f ∈ g n ∨ OwnDominanceFrontier c n f ↔
        InFrontier (fun n => (c.node n).succ) c.idom D n f := by
      intro f
      rw [inFrontier_iff h.rooted, hmem n f hn, or_comm]
      refine or_congr Iff.rfl ⟨?_, ?_⟩
      · rintro (⟨hp, -⟩ | ⟨k, hk, hkn, hidom, hkf, hnf⟩)
        · exact absurd hp hnp
        · exact ⟨k, hD k (List.mem_append_left _ hk), hkn, hidom, hkf, hnf⟩
      · rintro ⟨k, hk, hkn, hidom, hkf, hnf⟩
        exact .inr ⟨k, hchild k hk hkn hidom, hkn, hidom, hkf, hnf⟩
    obtain ⟨g₁, hok, hnd₁, hmem₁⟩ := recomputeDominanceFrontier_eq h hn hg fun f hf =>
      (h.inFrontier_mem hn ((hfull f).mp (.inl hf))).1
    have happ : p ++ [n] ++ t = p ++ n :: t := by simp
    obtain ⟨g', hok', hnd', hmem'⟩ := ih (p ++ [n]) g₁ (happ ▸ hD) (happ ▸ hnd)
      (fun m hm k hk hlt => by
        rw [happ]
        exact hord m (List.mem_cons_of_mem _ hm) k hk hlt)
      (happ ▸ hall) hnd₁ (fun m f hDm => by
        rw [hmem₁, hmem m f hDm, hfull]
        simp only [FrontierSoFar, List.mem_append, List.mem_singleton]
        constructor
        · rintro ((⟨hm, hown⟩ | ⟨k, hk, hrest⟩) | ⟨rfl, hown⟩ | ⟨hmn, hidom, -, hnf, hf⟩)
          · exact .inl ⟨.inl hm, hown⟩
          · exact .inr ⟨k, .inl hk, hrest⟩
          · exact .inl ⟨.inr rfl, hown⟩
          · exact .inr ⟨n, .inr rfl, Ne.symm hmn, hidom, hf, hnf⟩
        · rintro (⟨hm | rfl, hown⟩ | ⟨k, hk | rfl, hkm, hidom, hf, hnf⟩)
          · exact .inl (.inl ⟨hm, hown⟩)
          · exact .inr (.inl ⟨rfl, hown⟩)
          · exact .inl (.inr ⟨k, hk, hkm, hidom, hf, hnf⟩)
          · exact .inr (.inr ⟨Ne.symm hkm, hidom, (h.inFrontier_mem hn hf).2, hnf, hf⟩))
    refine ⟨g', ?_, hnd', by rwa [happ] at hmem'⟩
    rw [List.foldlM_cons, hok, ok_bind]
    exact hok'

/-- The pass finishes, writes frontiers only, and computes the frontiers of the tree. -/
theorem computeDominanceFrontier_eq
    (h : FrontierTree c (· ∈ c.forwardPostVisitOrder)) (hnd : c.forwardPostVisitOrder.Nodup)
    (hord : ∀ n ∈ c.forwardPostVisitOrder, c.order n = c.forwardPostVisitOrder.idxOf n) :
    ∃ g, c.computeDominanceFrontier = .ok (withFrontier c g) ∧
      ∀ m ∈ c.forwardPostVisitOrder, (g m).Nodup ∧ ∀ f, f ∈ g m ↔
        InFrontier (fun n => (c.node n).succ) c.idom (· ∈ c.forwardPostVisitOrder) m f := by
  have hclear : c.modifyAll c.forwardPostVisitOrder (fun x => { x with dominanceFrontier := [] }) =
      withFrontier c fun n =>
        if n ∈ c.forwardPostVisitOrder then [] else (c.node n).dominanceFrontier := by
    rw [modifyAll_pool]
    apply CFGStructurizer.ext
    case node =>
      funext n
      dsimp only
      rw [modifyAll_node _ _ (by simp)]
      by_cases hn : n ∈ c.forwardPostVisitOrder <;> simp [withFrontier, hn]
    all_goals rfl
  obtain ⟨g, hok, hg, hmem⟩ := frontierPass_eq h c.forwardPostVisitOrder []
    (fun n => if n ∈ c.forwardPostVisitOrder then [] else (c.node n).dominanceFrontier) (by simp)
    (by simpa using hnd)
    (fun n hn k hk hlt => by
      rw [hord n hn, hord k hk] at hlt
      simpa using hlt)
    (by simp) (fun m hm => by simp [hm]) (fun m f hm => by simp [hm, FrontierSoFar])
  refine ⟨g, ?_, fun m hm => ⟨hg m hm, fun f => ?_⟩⟩
  · simp only [computeDominanceFrontier, hclear]
    exact hok
  · rw [hmem m f hm, inFrontier_iff h.rooted]
    simp only [FrontierSoFar, List.nil_append, hm, true_and]

/-! ## After `recompute_cfg` -/

/-- The post-dominance frontiers are the only thing that differs. -/
structure PostFrontierOnly (c c' : CFGStructurizer) : Prop where
  pool : c' = { c with node := c'.node }
  node : ∀ n, c'.node n =
    { c.node n with postDominanceFrontier := (c'.node n).postDominanceFrontier }

namespace PostFrontierOnly

variable {c' c'' : CFGStructurizer}

/-- A pool differs from itself in no post-dominance frontier. -/
theorem refl (c : CFGStructurizer) : PostFrontierOnly c c := ⟨rfl, fun _ => rfl⟩

/-- Two changes of post-dominance frontiers make one. -/
theorem trans (h : PostFrontierOnly c c') (h' : PostFrontierOnly c' c'') :
    PostFrontierOnly c c'' := by
  refine ⟨?_, fun n => ?_⟩
  · rw [h'.pool, h.pool]
  · rw [h'.node n, h.node n]

/-- To set the post-dominance frontier of a block changes no other thing. -/
theorem modify (c : CFGStructurizer) (n : Nat) (g : CFGNode → List Nat) :
    PostFrontierOnly c (c.modify n fun x => { x with postDominanceFrontier := g x }) := by
  refine ⟨rfl, fun m => ?_⟩
  rw [modify_node]
  split
  · rename_i h
    rw [h]
  · rfl

/-- To set the post-dominance frontiers of some blocks changes no other thing. -/
theorem modifyAll (c : CFGStructurizer) (l : List Nat) (g : CFGNode → List Nat) :
    PostFrontierOnly c (c.modifyAll l fun x => { x with postDominanceFrontier := g x }) := by
  induction l generalizing c with
  | nil => exact .refl c
  | cons n l ih => exact (modify c n g).trans (ih _)

/-- The last pass of `recompute_cfg`. -/
theorem of_compute (h : c.computePostDominanceFrontier = .ok c') : PostFrontierOnly c c' := by
  refine foldlM_invariant (P := PostFrontierOnly c) ?_ (modifyAll c _ fun _ => []) h
  intro n _ s s' hs hstep
  refine foldlM_invariant (P := PostFrontierOnly c) ?_ hs hstep
  intro p _ s s' hs hstep
  have hown : PostFrontierOnly c (if (s.node p).immediatePostDominator = some n then s
      else s.modify n fun x =>
        { x with postDominanceFrontier := addUnique x.postDominanceFrontier p }) := by
    split
    · exact hs
    · exact hs.trans (modify s n fun x => addUnique x.postDominanceFrontier p)
  dsimp only at hstep
  split at hstep
  · rename_i d _
    refine foldlM_invariant (P := PostFrontierOnly c) ?_ hown hstep
    intro f _ s s' hs hstep
    obtain ⟨r, -, hstep⟩ := bind_eq_ok.mp hstep
    split at hstep
    · obtain rfl := Except.ok.inj hstep
      exact hs
    · obtain rfl := Except.ok.inj hstep
      exact hs.trans (modify s d fun x => addUnique x.postDominanceFrontier f)
  · obtain rfl := Except.ok.inj hstep
    exact hown

/-- Post-dominance frontiers touch neither the forward analyses nor the edges. -/
theorem grown (h : PostFrontierOnly c c') : Grown c c' := by
  refine ⟨?_, fun n => ?_, fun n f hf => ?_, fun n p hp => ?_⟩
  · conv_lhs => rw [h.pool]
    rw [h.pool]
  · rw [h.node n]
  · rwa [h.node n]
  · rwa [h.node n]

/-- The dominance queries are the same. -/
theorem dominates_eq (h : PostFrontierOnly c c') (a b : Nat) :
    c'.dominates a b = c.dominates a b := by
  have hidom : (fun x => (c'.node x).immediateDominator) =
      fun x => (c.node x).immediateDominator := funext fun x => by rw [h.node x]
  rw [CFGStructurizer.dominates, CFGStructurizer.dominates, hidom, h.pool]

end PostFrontierOnly

/-- The pool `s` is one the analyses of `c₁` pass through: it has the order and the back edges of
`c₁`, and its edges between reached blocks. -/
structure ForwardStage (c₁ s : CFGStructurizer) : Prop where
  order : s.forwardPostVisitOrder = c₁.forwardPostVisitOrder
  backEdge : ∀ n, (s.node n).predBackEdge = (c₁.node n).predBackEdge
  edge : ∀ a b, c₁.ForwardEdge a b → b ∈ (s.node a).succ ∧ a ∈ (s.node b).pred

/-- A true branch that `backwards_visit` added to the graph of `c₁` on the way to `c'`: from the
continue block `p` of a loop to the only exit of that loop, a case label of a switch in the loop. -/
structure TrueBranch (c₁ c' : CFGStructurizer) (p f : Nat) : Prop where
  succ : f ∈ (c'.node p).succ
  new : f ∉ (c₁.node p).succ
  transposed : ∃ s header, ForwardStage c₁ s ∧ Grown s c' ∧ s.TransposedExit header p f

/-- A true branch starts at a visited block. -/
theorem TrueBranch.reached {c₁ c' : CFGStructurizer} {p f : Nat} (h : TrueBranch c₁ c' p f) :
    p ∈ c₁.forwardPostVisitOrder := by
  obtain ⟨s, header, hs, -, hexit⟩ := h.transposed
  exact hs.order ▸ hexit.source_mem

/-- The pool `c'` holds the dominators and the frontiers of the forward graph of `c₁`. -/
structure DominanceOf (c₁ c' : CFGStructurizer) : Prop where
  entry : (c'.node c₁.entryBlock).immediateDominator = some c₁.entryBlock
  immediate : ∀ b ∈ c₁.forwardPostVisitOrder, b ≠ c₁.entryBlock →
    ∃ d, (c'.node b).immediateDominator = some d ∧
      IsImmediateDominator c₁.ForwardEdge c₁.entryBlock d b
  dominates : ∀ a, ∀ b ∈ c₁.forwardPostVisitOrder, ∃ r, c'.dominates a b = .ok r ∧
    (r = true ↔ Dominates c₁.ForwardEdge c₁.entryBlock a b)
  frontier_nodup : ∀ a ∈ c₁.forwardPostVisitOrder, (c'.node a).dominanceFrontier.Nodup
  frontier : ∀ a ∈ c₁.forwardPostVisitOrder, ∀ f, f ∈ (c'.node a).dominanceFrontier ↔
    (∃ p, c₁.ForwardEdge p f ∧ Dominates c₁.ForwardEdge c₁.entryBlock a p ∧
      ¬ (a ≠ f ∧ Dominates c₁.ForwardEdge c₁.entryBlock a f)) ∨
    ∃ p, TrueBranch c₁ c' p f ∧
      (a = p ∧ (c'.node f).immediateDominator ≠ some a ∨
        a ≠ p ∧ Dominates c₁.ForwardEdge c₁.entryBlock a p ∧
          ¬ Dominates c₁.ForwardEdge c₁.entryBlock a f)

variable {c' : CFGStructurizer} {fuel : Nat}

/-- A visit of the reachability sets bits only. -/
theorem visitReachability_only (c : CFGStructurizer) (n : Nat) :
    ∃ bits, c.visitReachability n = { c with reachabilityBitset := bits } := ⟨_, rfl⟩

/-- Only the reachability bits are written. -/
theorem buildReachability_only (c : CFGStructurizer) : ∃ bits stride, c.buildReachability =
    { c with reachabilityBitset := bits, reachabilityStride := stride } := by
  have hfold : ∀ (l : List Nat) (c' : CFGStructurizer), ∃ bits,
      l.foldl visitReachability c' = { c' with reachabilityBitset := bits } := by
    intro l
    induction l with
    | nil => exact fun c' => ⟨c'.reachabilityBitset, rfl⟩
    | cons m l ih =>
      intro c'
      obtain ⟨bits, hbits⟩ := visitReachability_only c' m
      obtain ⟨bits', hbits'⟩ := ih { c' with reachabilityBitset := bits }
      exact ⟨bits', by rw [List.foldl_cons, hbits, hbits']⟩
  obtain ⟨bits, hbits⟩ := hfold c.forwardPostVisitOrder
    { c with
      reachabilityStride := (c.forwardPostVisitOrder.length + 31) / 32
      reachabilityBitset := fun _ => 0 }
  exact ⟨bits, _, hbits⟩

/-- The pool after the forward half: the visited pool with its dominator tree and its
reachability bits. -/
structure ForwardResult (c c₃ : CFGStructurizer) : Prop where
  order : c₃.forwardPostVisitOrder = c.search.post
  entryBlock : c₃.entryBlock = c.entryBlock
  exitBlock : c₃.exitBlock = c.exitBlock
  size : c₃.size = c.size
  node : ∀ n, c₃.node n = { (visited c).node n with immediateDominator := c₃.idom n }
  tree : DomTree (visited c).ForwardEdge c₃.idom (visited c).order c.entryBlock
    (· ∈ c.search.post)

/-- The visit keeps the exit. -/
theorem visited_exitBlock (c : CFGStructurizer) : (visited c).exitBlock = c.exitBlock := by
  rw [visited, pruneDeadPreds, modifyAll_pool]
  rfl

/-- The forward half always finishes once the back edges are unique. -/
theorem recomputeForward_eq (hc : c.WellFormed) (hone : OneBackEdge c.search.back)
    (hfuel : 2 * c.size < fuel) :
    ∃ c₃, c.recomputeForward fuel = .ok c₃ ∧ ForwardResult c c₃ := by
  obtain ⟨c₂, hok, honly, htree⟩ := buildImmediateDominators_eq (visited_forwardDag hc hone)
    fuel (by rwa [visited_size])
  rw [visited_order, visited_entryBlock] at htree
  obtain ⟨bits, stride, hreach⟩ := buildReachability_only c₂
  refine ⟨c₂.buildReachability, ?_, ?_⟩
  · simp only [recomputeForward, visit_reset hc.toClosed, searchResult_ok hone, ok_bind]
    rw [hok]
    rfl
  · rw [hreach]
    refine ⟨?_, ?_, ?_, ?_, honly.node, htree⟩
    · rw [honly.pool]
      exact visited_order c
    · rw [honly.pool]
      exact visited_entryBlock c
    · rw [honly.pool]
      exact visited_exitBlock c
    · rw [honly.pool]
      exact visited_size c

/-- The forward half only separates edges between reached blocks. -/
theorem ForwardResult.enclosed (h : ForwardResult c c') (hc : c.WellFormed)
    (hone : OneBackEdge c.search.back) : Enclosed c' := by
  have hdag := visited_forwardDag hc hone
  have hcomp := search_complete hc.toClosed
  refine ⟨fun a ha b hb => ?_, fun n b hb => ?_⟩
  · rw [h.order] at ha ⊢
    rw [h.node a] at hb
    rw [← visited_order] at ha ⊢
    exact (hdag.lower a b ⟨ha, hb⟩).1
  · rw [h.order]
    have hback : backInto c.search.back n = some b := by
      rw [h.node n, visited_node] at hb
      split at hb <;> exact hb
    exact (hcomp.retreat b n ((backInto_eq_some hone).mp hback)).1

/-- A pool that the backwards half made from the forward half satisfies what the frontier pass
needs. -/
theorem frontierTree_of_backwardOnly {c₂ : CFGStructurizer} (hdag : c.ForwardDag)
    (hpool : c₂.forwardPostVisitOrder = c.forwardPostVisitOrder ∧
      c₂.entryBlock = c.entryBlock ∧ c₂.size = c.size)
    (horder : c₂.order = c.order) (hsucc : ∀ n, ∀ f ∈ (c.node n).succ, f ∈ (c₂.node n).succ)
    (he : Enclosed c₂)
    (htree : DomTree c.ForwardEdge c₂.idom c.order c.entryBlock (· ∈ c.forwardPostVisitOrder)) :
    FrontierTree c₂ (· ∈ c₂.forwardPostVisitOrder) := by
  obtain ⟨hL, hentry, hsize⟩ := hpool
  refine ⟨?_, ?_, he.succ, ?_⟩
  · rw [horder, hentry, hL]
    exact htree.toRooted
  · rw [horder, hentry, hsize, hdag.order_eq _ hdag.entry_mem]
    exact Nat.lt_of_lt_of_le (List.idxOf_lt_length_of_mem hdag.entry_mem) hdag.length_le
  · intro a b hb hne hab hnil
    rw [hL] at hb
    have hdom := (htree.anc_iff a b hb).mp hab
    rcases Relation.ReflTransGen.cases_head (hdom.reaches ((hdag.reaches b).mp hb)) with
      he | ⟨x, hax, -⟩
    · exact hne he
    · have := hsucc a x hax.2
      rw [hnil] at this
      exact absurd this List.not_mem_nil

/-- Splitting the final edges into those of the traversal and the true branches. -/
private theorem inFrontier_split (c₁ c' : CFGStructurizer)
    (par : Nat → Option Nat) {L : List Nat} (hL : L = c₁.forwardPostVisitOrder)
    (hsucc : ∀ n, ∀ f ∈ (c₁.node n).succ, f ∈ (c'.node n).succ)
    (hadded : ∀ n, ∀ f ∈ (c'.node n).succ, f ∈ (c₁.node n).succ ∨ TrueBranch c₁ c' n f)
    {a f : Nat} (ha : a ∈ L) :
    InFrontier (fun n => (c'.node n).succ) par (· ∈ L) a f ↔
      ((c₁.ForwardEdge a f ∧ par f ≠ some a) ∨
        ∃ p, p ∈ L ∧ a ≠ p ∧ Anc par a p ∧ c₁.ForwardEdge p f ∧ ¬ Anc par a f) ∨
      ∃ p, TrueBranch c₁ c' p f ∧
        (a = p ∧ par f ≠ some a ∨ a ≠ p ∧ Anc par a p ∧ ¬ Anc par a f) := by
  subst hL
  constructor
  · rintro (⟨hf, hpar⟩ | ⟨p, hp, hne, hap, hf, hn⟩)
    · rcases hadded a f hf with h | h
      · exact .inl (.inl ⟨⟨ha, h⟩, hpar⟩)
      · exact .inr ⟨a, h, .inl ⟨rfl, hpar⟩⟩
    · rcases hadded p f hf with h | h
      · exact .inl (.inr ⟨p, hp, hne, hap, ⟨hp, h⟩, hn⟩)
      · exact .inr ⟨p, h, .inr ⟨hne, hap, hn⟩⟩
  · rintro ((⟨hf, hpar⟩ | ⟨p, hp, hne, hap, hf, hn⟩) | ⟨p, hb, ⟨rfl, hpar⟩ | ⟨hne, hap, hn⟩⟩)
    · exact .inl ⟨hsucc a f hf.2, hpar⟩
    · exact .inr ⟨p, hp, hne, hap, hsucc p f hf.2, hn⟩
    · exact .inl ⟨hb.succ, hpar⟩
    · exact .inr ⟨p, hb.reached, hne, hap, hb.succ, hn⟩

/-- A pool that the backwards half reaches from the forward half is a stage of the traversal. -/
theorem ForwardResult.stage (h : ForwardResult c c') (hc : c.WellFormed)
    (hone : OneBackEdge c.search.back) {s : CFGStructurizer} (hs : Grown c' s) :
    ForwardStage (searched c.resetTraversal c.search) s := by
  have hdag := visited_forwardDag hc hone
  refine ⟨?_, fun n => ?_, fun a b hab => ?_⟩
  · rw [hs.order_eq, h.order]
    rfl
  · rw [hs.node n, h.node n, visited_node]
    split <;> rfl
  · have hedge : (visited c).ForwardEdge a b := by
      rw [ForwardEdge, visited_order, visited_succ]
      exact hab
    refine ⟨hs.succ a b ?_, hs.pred b a ?_⟩
    · rw [h.node a]
      exact hedge.2
    · rw [h.node b]
      exact (hdag.mem_pred b (hdag.lower a b hedge).1 a).mpr hedge

/-- A branch of the final pool that the traversal did not leave is a true one. -/
theorem ForwardResult.succ_or_trueBranch {c₃ c₅ : CFGStructurizer} (h : ForwardResult c c₃)
    (hc : c.WellFormed) (hone : OneBackEdge c.search.back) (hback : BackwardOnly c₃ c₅)
    {g : Nat → List Nat} (hpost : PostFrontierOnly (withFrontier c₅ g) c') {n f : Nat}
    (hf : f ∈ (c'.node n).succ) :
    f ∈ ((searched c.resetTraversal c.search).node n).succ ∨
      TrueBranch (searched c.resetTraversal c.search) c' n f := by
  by_cases hnew : f ∈ ((searched c.resetTraversal c.search).node n).succ
  · exact .inl hnew
  · have hf₅ : f ∈ (c₅.node n).succ := by
      rw [hpost.node n] at hf
      exact hf
    rcases hback.added n f hf₅ with hold | ⟨s, header, hs, hs', hexit⟩
    · rw [h.node n] at hold
      exact absurd (by rwa [visited_succ] at hold) hnew
    · refine .inr ⟨hf, hnew, s, header, h.stage hc hone hs, ?_, hexit⟩
      exact (hs'.trans (.withFrontier c₅ g)).trans hpost.grown

/-- Over the tree of immediate dominators, the frontiers are those of the traversed graph. -/
theorem visited_frontier_iff (hc : c.WellFormed) (hone : OneBackEdge c.search.back)
    {par : Nat → Option Nat} (htree : DomTree (visited c).ForwardEdge par (visited c).order
      c.entryBlock (· ∈ c.search.post)) {a f : Nat} (ha : a ∈ c.search.post) :
    (((visited c).ForwardEdge a f ∧ par f ≠ some a) ∨
        ∃ p, p ∈ c.search.post ∧ a ≠ p ∧ Anc par a p ∧ (visited c).ForwardEdge p f ∧
          ¬ Anc par a f) ↔
      ∃ p, (visited c).ForwardEdge p f ∧ Dominates (visited c).ForwardEdge c.entryBlock a p ∧
        ¬ (a ≠ f ∧ Dominates (visited c).ForwardEdge c.entryBlock a f) := by
  have hdag := visited_forwardDag hc hone
  refine htree.frontier_iff ?_ ?_ ?_ ha
  · intro x y hxy
    rw [← visited_order]
    exact ⟨hxy.1, (hdag.lower x y hxy).1⟩
  · intro x hx
    rw [← visited_order] at hx
    rw [← visited_entryBlock]
    exact (hdag.reaches x).mp hx
  · intro x y hxy
    rw [hdag.order_eq x hxy.1, hdag.order_eq y (hdag.lower x y hxy).1]
    exact (hdag.lower x y hxy).2

/-- What `recompute_cfg` computes from the edges its traversal left: the dominator tree, the
answers of `dominates` and the frontiers. -/
theorem recomputeCfg_dominanceOf (hc : c.WellFormed) (hone : OneBackEdge c.search.back)
    (hfuel : 2 * c.size < fuel) (h : c.recomputeCfg fuel = .ok c') :
    DominanceOf (searched c.resetTraversal c.search) c' := by
  have hdag := visited_forwardDag hc hone
  obtain ⟨c₃, hfor, hres⟩ := recomputeForward_eq hc hone hfuel
  simp only [recomputeCfg, hfor, ok_bind, bind_eq_ok] at h
  obtain ⟨c₄, h₄, c₅, h₅, c₆, h₆, h₇⟩ := h
  have hback := (backwardOnly_backwardsVisit (hres.enclosed hc hone) h₄).trans
    (backwardOnly_buildImmediatePostDominators h₅)
  have he₅ := (hres.enclosed hc hone).mono hback
  -- the fields of the final nodes that the dominators are about
  have hidom₅ : c₅.idom = c₃.idom := funext fun n => by rw [CFGStructurizer.idom, hback.node n]
  have horder₅ : c₅.order = (visited c).order := funext fun n => by
    rw [CFGStructurizer.order, hback.node n, hres.node n]
  have hL₅ : c₅.forwardPostVisitOrder = c.search.post := hback.order_eq.trans hres.order
  have hentry₅ : c₅.entryBlock = c.entryBlock := by
    rw [hback.pool]
    exact hres.entryBlock
  have hsize₅ : c₅.size = c.size := by
    rw [hback.pool]
    exact hres.size
  have hsucc₅ : ∀ n, ∀ f ∈ ((visited c).node n).succ, f ∈ (c₅.node n).succ := by
    intro n f hf
    refine hback.succ n f ?_
    rw [hres.node n]
    exact hf
  have htree : DomTree (visited c).ForwardEdge c₅.idom (visited c).order
      (visited c).entryBlock (· ∈ (visited c).forwardPostVisitOrder) := by
    rw [hidom₅, visited_entryBlock, visited_order]
    exact hres.tree
  have hfrontier : FrontierTree c₅ (· ∈ c₅.forwardPostVisitOrder) :=
    frontierTree_of_backwardOnly hdag
      ⟨hL₅.trans (visited_order c).symm, hentry₅.trans (visited_entryBlock c).symm,
        hsize₅.trans (visited_size c).symm⟩ horder₅ hsucc₅ he₅ htree
  obtain ⟨g, hg, hmem⟩ := computeDominanceFrontier_eq hfrontier
    (by rw [hL₅, ← visited_order]; exact hdag.nodup)
    (fun n hn => by
      rw [hL₅] at hn ⊢
      rw [horder₅, ← visited_order]
      exact hdag.order_eq n (by rwa [visited_order]))
  rw [hg] at h₆
  obtain rfl := Except.ok.inj h₆
  have hpost := PostFrontierOnly.of_compute h₇
  have hidom' : ∀ n, (c'.node n).immediateDominator = c₅.idom n := fun n => by
    rw [hpost.node n]
    rfl
  have hsucc' : ∀ n, (c'.node n).succ = (c₅.node n).succ := fun n => by
    rw [hpost.node n]
    rfl
  have hdf' : ∀ n, (c'.node n).dominanceFrontier = g n := fun n => by
    rw [hpost.node n]
    rfl
  have hdom' : ∀ a b, c'.dominates a b = c₅.dominates a b := fun a b => hpost.dominates_eq a b
  have hedge := searched_forwardEdge c
  rw [visited_entryBlock, visited_order] at htree
  have hLmem : ∀ n, n ∈ c₅.forwardPostVisitOrder ↔ n ∈ c.search.post := fun n => by rw [hL₅]
  refine ⟨?_, ?_, ?_, ?_, ?_⟩
  · rw [hidom']
    exact htree.root_par
  · intro b hb hne
    obtain ⟨d, hd, -⟩ := htree.up b hb hne
    refine ⟨d, (hidom' b).trans hd, ?_⟩
    rw [hedge]
    exact htree.isImmediateDominator hb hne hd
  · intro a b hb
    obtain ⟨r, hr, hanc⟩ := hfrontier.dominates_eq a ((hLmem b).mpr hb)
    refine ⟨r, (hdom' a b).trans hr, ?_⟩
    rw [hanc, hedge]
    exact htree.anc_iff a b hb
  · intro a ha
    rw [hdf']
    exact (hmem a ((hLmem a).mpr ha)).1
  · intro a ha f
    have hsplit := inFrontier_split (searched c.resetTraversal c.search) c' c₅.idom
      (L := c₅.forwardPostVisitOrder) hL₅ (fun n f hf => by
        rw [hsucc']
        exact hsucc₅ n f (by rwa [visited_succ]))
      (fun _ _ => hres.succ_or_trueBranch hc hone hback hpost) (f := f) ((hLmem a).mpr ha)
    have hlists : (fun n => (c'.node n).succ) = fun n => (c₅.node n).succ := funext hsucc'
    rw [hlists] at hsplit
    rw [hdf', (hmem a ((hLmem a).mpr ha)).2 f, hsplit, hedge, hL₅]
    refine or_congr (visited_frontier_iff hc hone htree ha)
      (exists_congr fun p => and_congr_right fun hp => ?_)
    have hfL : f ∈ c.search.post := by
      have hf := hp.succ
      rw [hsucc'] at hf
      exact (hLmem f).mp (he₅.succ p ((hLmem p).mpr hp.reached) f hf)
    rw [hidom', htree.anc_iff a p hp.reached, htree.anc_iff a f hfL]
    rfl

/-- Whenever `recompute_cfg` completes, its traversal left an acyclic graph on the reachable
blocks, immediate dominators and `dominates` are those of that graph, and frontiers are too
except for what the true branches of transposed loop exits add to them. -/
theorem recomputeCfg_dominance (c c' : CFGStructurizer) (fuel : Nat) (hc : c.WellFormed)
    (hfuel : 2 * c.size < fuel) (h : c.recomputeCfg fuel = .ok c') :
    ∃ c₁, c.visitEntry = .ok c₁ ∧ c₁.entryBlock = c.entryBlock ∧
      (∀ n, n ∈ c₁.forwardPostVisitOrder ↔ Reaches c.Edge c.entryBlock n) ∧
      (∀ n, n ∈ c₁.forwardPostVisitOrder ↔ Reaches c₁.ForwardEdge c.entryBlock n) ∧
      (∀ a, ¬ Relation.TransGen c₁.ForwardEdge a a) ∧ DominanceOf c₁ c' := by
  have hvisit := visit_reset hc.toClosed
  have hone : OneBackEdge c.search.back := by
    by_contra hn
    have hforward : c.recomputeForward fuel = .error .assertion := by
      simp only [recomputeForward]
      rw [visit_reset hc.toClosed, searchResult_error hn, error_bind]
    simp only [recomputeCfg, hforward, error_bind] at h
    cases h
  have hdag := visited_forwardDag hc hone
  have hedge := searched_forwardEdge c
  refine ⟨_, hvisit.trans (searchResult_ok hone), rfl,
    fun n => (search_complete hc.toClosed).mem_post n, fun n => ?_, ?_,
    recomputeCfg_dominanceOf hc hone hfuel h⟩
  · rw [hedge, ← visited_entryBlock, ← hdag.reaches n, visited_order]
    rfl
  · rw [hedge]
    exact acyclic_of_ord _ fun a b hab => (hdag.lower a b hab).2

/-- Nested infinite loops that are left from the outer latch `3` over the inner one `4`, for a
block that never returns. -/
def loopIntoLoop : CFGStructurizer := ofNodes
  [{ succ := [1], ir := { terminator := { type := .branch, directBlock := some 1 } } },
    { succ := [2], pred := [0, 3],
      ir := { terminator := { type := .branch, directBlock := some 2 } } },
    { succ := [3], pred := [1, 4],
      ir := { terminator := { type := .branch, directBlock := some 3 } } },
    { succ := [1, 4], pred := [2],
      ir := { terminator := { type := .condition, trueBlock := some 1, falseBlock := some 4 } } },
    { succ := [2, 5], pred := [3],
      ir := { terminator := { type := .switch, cases := [{ node := 2, isDefault := true },
        { node := 5, value := 1 }] } } },
    { succ := [6], pred := [4],
      ir := { terminator := { type := .branch, directBlock := some 6 } } },
    { succ := [6], pred := [5, 6],
      ir := { terminator := { type := .branch, directBlock := some 6 } } }, {}] 0 7

/-- The loop that exits into a loop is well-formed. -/
theorem loopIntoLoop_wellFormed : loopIntoLoop.WellFormed :=
  ofNodes_wellFormed rfl (by decide) (by decide) (by decide) (by decide) (by decide) (by decide)
    (by decide) (by decide)

/-- The analyses of a pool with nested infinite loops. -/
theorem loopIntoLoop_dominance : ∃ c₁ c', loopIntoLoop.visitEntry = .ok c₁ ∧
    loopIntoLoop.recomputeCfg 40 = .ok c' ∧ DominanceOf c₁ c' := by
  obtain ⟨c', hok, -⟩ := exists_of_yields (x := loopIntoLoop.recomputeCfg 40) (p := fun _ => true)
    (by decide +kernel)
  obtain ⟨c₁, hvisit, -, -, -, -, hd⟩ := recomputeCfg_dominance loopIntoLoop c' 40
    loopIntoLoop_wellFormed (by decide) hok
  exact ⟨c₁, c', hvisit, hok, hd⟩

/-- The outer latch gets a true branch to the exit `5`, which enters its frontier although the
latch strictly dominates it. -/
theorem loopIntoLoop_frontier_not_exact : ∃ c₁ c', loopIntoLoop.visitEntry = .ok c₁ ∧
    loopIntoLoop.recomputeCfg 40 = .ok c' ∧
    ¬ ∀ a ∈ c₁.forwardPostVisitOrder, ∀ f, f ∈ (c'.node a).dominanceFrontier ↔
      ∃ p ∈ c₁.forwardPostVisitOrder, f ∈ (c'.node p).succ ∧
        Dominates c₁.ForwardEdge c₁.entryBlock a p ∧
        ¬ (a ≠ f ∧ Dominates c₁.ForwardEdge c₁.entryBlock a f) := by
  have hone : OneBackEdge loopIntoLoop.search.back := by decide +kernel
  obtain ⟨c', hok, hmem⟩ := exists_of_yields (x := loopIntoLoop.recomputeCfg 40)
    (p := fun c' => decide (5 ∈ (c'.node 3).dominanceFrontier)) (by decide +kernel)
  refine ⟨_, c', (visit_reset loopIntoLoop_wellFormed.toClosed).trans (searchResult_ok hone), hok,
    fun hall => ?_⟩
  have hL : 3 ∈ loopIntoLoop.search.post := by decide +kernel
  obtain ⟨p, -, -, -, hn⟩ := (hall 3 hL 5).mp (of_decide_eq_true hmem)
  refine hn ⟨by decide, .of_cut (S := fun n => n = 4 ∨ n = 5 ∨ n = 6) (by decide) ?_ (by simp)⟩
  intro x y hxy
  have hedge : loopIntoLoop.Edge x y := by
    have hs : y ∈ ((visited loopIntoLoop).node x).succ := by
      rw [visited_succ]
      exact hxy.2
    exact ((mem_visited_succ loopIntoLoop_wellFormed hone).mp hs).1
  exact ofNodes_forall_edge
    (P := fun x y => y = 4 ∨ y = 5 ∨ y = 6 → (x = 4 ∨ x = 5 ∨ x = 6) ∨ x = 3) (by decide) hedge

end DxilSpirv
