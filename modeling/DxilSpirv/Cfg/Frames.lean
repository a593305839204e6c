import DxilSpirv.Cfg.Analysis

/-!
# What the dominator searches leave alone

The searches for common dominators compute missing dominators on demand, at any block. All
they ever do to a pool is to set immediate dominators, so they keep every relation between
pools that these writes keep.
-/

namespace DxilSpirv

open CFGStructurizer

/-- A relation between pools that survives sequences of writes of one field. -/
structure Frame (set : Option Nat → CFGNode → CFGNode)
    (R : CFGStructurizer → CFGStructurizer → Prop) : Prop where
  refl : ∀ c, R c c
  trans : ∀ a b c, R a b → R b c → R a c
  write : ∀ c n d, R c (c.modify n (set d))

variable {R : CFGStructurizer → CFGStructurizer → Prop}

/-- Computing one dominator, given what the search for common ones leaves alone. -/
theorem Frame.recomputeWith (hR : Frame .setImmediateDominator R)
    {find : CFGStructurizer → Nat → Nat → Except Fault (CFGStructurizer × Nat)}
    (hfind : ∀ c a b r, find c a b = .ok r → R c r.1) {c c' : CFGStructurizer} {n : Nat}
    (h : recomputeImmediateDominatorWith find c n = .ok c') : R c c' := by
  unfold recomputeImmediateDominatorWith at h
  split at h
  · obtain rfl := Except.ok.inj h
    exact hR.write c n _
  · refine foldlM_invariant (P := R c) ?_ (hR.write c n none) h
    intro e _ s s' hs hstep
    split at hstep
    · simp only [bind_eq_ok, pure_eq_ok] at hstep
      obtain ⟨⟨s₁, d⟩, h₁, hstep⟩ := hstep
      obtain rfl := Except.ok.inj hstep
      exact hR.trans _ _ _ (hR.trans _ _ _ hs (hfind _ _ _ _ h₁)) (hR.write _ n _)
    · obtain rfl := Except.ok.inj hstep
      exact hR.trans _ _ _ hs (hR.write s n _)

private theorem Frame.ensure (hR : Frame .setImmediateDominator R)
    {recompute : CFGStructurizer → Nat → Except Fault CFGStructurizer}
    (hrec : ∀ c n c', recompute c n = .ok c' → R c c') {c c' : CFGStructurizer} {n : Nat}
    (h : c.ensureDominator recompute n = .ok c') : R c c' := by
  unfold ensureDominator at h
  split at h
  · simp only [bind_eq_ok] at h
    obtain ⟨c₁, h₁, h⟩ := h
    have hfold : R c c₁ := foldlM_invariant (P := R c)
      (fun m _ s s' hs hstep => hR.trans _ _ _ hs (hrec s m s' hstep)) (hR.refl c) h₁
    exact hR.trans _ _ _ hfold (hrec c₁ n c' h)
  · obtain rfl := Except.ok.inj h
    exact hR.refl c

/-- The search for a common dominator, and everything computed on demand for it. -/
theorem Frame.findCommonDominator (hR : Frame .setImmediateDominator R) (fuel : Nat) :
    ∀ (c : CFGStructurizer) (a b : Nat) (r : CFGStructurizer × Nat),
      CFGStructurizer.findCommonDominator fuel c a b = .ok r → R c r.1 := by
  induction fuel with
  | zero => exact fun c a b r h => nomatch h
  | succ fuel ih =>
    intro c a b r h
    have hrec : ∀ c n c', recomputeImmediateDominatorWith
        (CFGStructurizer.findCommonDominator fuel) c n = .ok c' → R c c' :=
      fun c n c' h => hR.recomputeWith ih h
    simp only [CFGStructurizer.findCommonDominator] at h
    split at h
    · obtain rfl := Except.ok.inj h
      exact hR.refl c
    · simp only [bind_eq_ok] at h
      obtain ⟨c₁, h₁, c₂, h₂, h⟩ := h
      refine hR.trans _ _ _ (hR.trans _ _ _ (hR.ensure hrec h₁) (hR.ensure hrec h₂)) ?_
      split at h
      · simp only [bind_eq_ok, pure_eq_ok] at h
        obtain ⟨ba, -, h⟩ := h
        split at h
        · obtain rfl := Except.ok.inj h
          exact hR.refl c₂
        · simp only [bind_eq_ok] at h
          obtain ⟨ab, -, h⟩ := h
          split at h
          · obtain rfl := Except.ok.inj h
            exact hR.refl c₂
          · simp only [bind_eq_ok] at h
            obtain ⟨a', -, b', -, h⟩ := h
            split at h
            · obtain rfl := Except.ok.inj h
              exact hR.refl c₂
            · split at h
              · obtain rfl := Except.ok.inj h
                exact hR.refl c₂
              · exact ih c₂ a' b' r h
      · split at h
        · split at h
          · obtain rfl := Except.ok.inj h
            exact hR.refl c₂
          · obtain ⟨a', -, h⟩ := bind_eq_ok.mp h
            exact ih c₂ a' b r h
        · split at h
          · obtain rfl := Except.ok.inj h
            exact hR.refl c₂
          · obtain ⟨b', -, h⟩ := bind_eq_ok.mp h
            exact ih c₂ a b' r h

/-- Computing one immediate dominator. -/
theorem Frame.recomputeImmediateDominator (hR : Frame .setImmediateDominator R) {fuel n : Nat}
    {c c' : CFGStructurizer}
    (h : CFGStructurizer.recomputeImmediateDominator fuel c n = .ok c') : R c c' :=
  hR.recomputeWith (hR.findCommonDominator fuel) h

/-- Computing one post-dominator, given what the search for common ones leaves alone. -/
theorem Frame.recomputePostWith (hR : Frame .setImmediatePostDominator R)
    {find : CFGStructurizer → Nat → Nat → Except Fault (CFGStructurizer × Nat)}
    (hfind : ∀ c a b r, find c a b = .ok r → R c r.1) {c c' : CFGStructurizer} {n : Nat}
    (h : recomputeImmediatePostDominatorWith find c n = .ok c') : R c c' := by
  unfold recomputeImmediatePostDominatorWith at h
  split at h
  · obtain rfl := Except.ok.inj h
    exact hR.refl c
  · refine foldlM_invariant (P := R c) ?_ (hR.write c n none) h
    intro e _ s s' hs hstep
    split at hstep
    · simp only [bind_eq_ok, pure_eq_ok] at hstep
      obtain ⟨⟨s₁, d⟩, h₁, hstep⟩ := hstep
      obtain rfl := Except.ok.inj hstep
      exact hR.trans _ _ _ (hR.trans _ _ _ hs (hfind _ _ _ _ h₁)) (hR.write _ n _)
    · obtain rfl := Except.ok.inj hstep
      exact hR.trans _ _ _ hs (hR.write s n _)

private theorem Frame.ensurePost (hR : Frame .setImmediatePostDominator R)
    {recompute : CFGStructurizer → Nat → Except Fault CFGStructurizer}
    (hrec : ∀ c n c', recompute c n = .ok c' → R c c') {c c' : CFGStructurizer} {n : Nat}
    (h : c.ensurePostDominator recompute n = .ok c') : R c c' := by
  unfold ensurePostDominator at h
  split at h
  · simp only [bind_eq_ok] at h
    obtain ⟨c₁, h₁, h⟩ := h
    have hfold : R c c₁ := foldlM_invariant (P := R c)
      (fun m _ s s' hs hstep => hR.trans _ _ _ hs (hrec s m s' hstep)) (hR.refl c) h₁
    exact hR.trans _ _ _ hfold (hrec c₁ n c' h)
  · obtain rfl := Except.ok.inj h
    exact hR.refl c

/-- The search for a common post-dominator, and everything computed on demand for it. -/
theorem Frame.findCommonPostDominator (hR : Frame .setImmediatePostDominator R) (fuel : Nat) :
    ∀ (c : CFGStructurizer) (a b : Nat) (r : CFGStructurizer × Nat),
      CFGStructurizer.findCommonPostDominator fuel c a b = .ok r → R c r.1 := by
  induction fuel with
  | zero => exact fun c a b r h => nomatch h
  | succ fuel ih =>
    intro c a b r h
    have hrec : ∀ c n c', recomputeImmediatePostDominatorWith
        (CFGStructurizer.findCommonPostDominator fuel) c n = .ok c' → R c c' :=
      fun c n c' h => hR.recomputePostWith ih h
    simp only [CFGStructurizer.findCommonPostDominator] at h
    split at h
    · obtain rfl := Except.ok.inj h
      exact hR.refl c
    · simp only [bind_eq_ok] at h
      obtain ⟨c₁, h₁, c₂, h₂, h⟩ := h
      refine hR.trans _ _ _ (hR.trans _ _ _ (hR.ensurePost hrec h₁) (hR.ensurePost hrec h₂)) ?_
      split at h
      · simp only [bind_eq_ok, pure_eq_ok] at h
        obtain ⟨ba, -, h⟩ := h
        split at h
        · obtain rfl := Except.ok.inj h
          exact hR.refl c₂
        · simp only [bind_eq_ok] at h
          obtain ⟨ab, -, h⟩ := h
          split at h
          · obtain rfl := Except.ok.inj h
            exact hR.refl c₂
          · simp only [bind_eq_ok] at h
            obtain ⟨a', -, b', -, h⟩ := h
            exact ih c₂ a' b' r h
      · split at h
        · obtain ⟨a', -, h⟩ := bind_eq_ok.mp h
          exact ih c₂ a' b r h
        · obtain ⟨b', -, h⟩ := bind_eq_ok.mp h
          exact ih c₂ a b' r h

/-- Computing one immediate post-dominator. -/
theorem Frame.recomputeImmediatePostDominator (hR : Frame .setImmediatePostDominator R)
    {fuel n : Nat} {c c' : CFGStructurizer}
    (h : CFGStructurizer.recomputeImmediatePostDominator fuel c n = .ok c') : R c c' :=
  hR.recomputePostWith (hR.findCommonPostDominator fuel) h

end DxilSpirv
