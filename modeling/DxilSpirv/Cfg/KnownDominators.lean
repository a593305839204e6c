import DxilSpirv.Cfg.Dominance
import DxilSpirv.Cfg.Retarget

/-!
# Dominators in the middle of a pass

A pass that retargets branches only recomputes the dominators of the blocks involved. Blocks
whose chains of dominators avoid these blocks keep their chains, so what dominates them can be
asked before or after the rewrite.
-/

namespace DxilSpirv

open DxilSpirv.Graph

namespace CFGStructurizer

/-- Where climbing ends in an answer, the answer is ancestry. -/
theorem climbs_ok {next : Nat → Option Nat} {a : Nat} {r : Bool} (fuel : Nat) :
    ∀ b, climbs next a fuel b = .ok r → (r = true ↔ Anc next a b) := by
  induction fuel with
  | zero =>
    intro b h
    cases h
  | succ fuel ih =>
    intro b h
    simp only [climbs] at h
    split at h
    · rename_i hab
      obtain rfl := Except.ok.inj h
      simp [hab, Anc.refl]
    · rename_i hab
      cases hb : next b with
      | none =>
        rw [hb] at h
        obtain rfl := Except.ok.inj h
        refine iff_of_false Bool.false_ne_true fun hanc => ?_
        rcases Relation.ReflTransGen.cases_head hanc with he | ⟨d, hd, -⟩
        · exact hab he.symm
        · rw [hb] at hd
          cases hd
      | some d =>
        rw [hb] at h
        dsimp only at h
        split at h
        · rename_i hbd
          obtain rfl := Except.ok.inj h
          refine iff_of_false Bool.false_ne_true fun hanc => ?_
          -- the chain stays at a block that is its own dominator
          have hstay : ∀ x, Anc next x b → x = b := by
            intro x hx
            induction hx with
            | refl => rfl
            | tail _ hxy ih =>
              rw [ih, hb] at hxy
              exact ((Option.some.inj hxy).symm.trans hbd.symm)
          exact hab (hstay a hanc)
        · rw [ih d h, Anc.iff_par hb]
          simp [hab]

/-- Climbing only reads the pointers along the chain. -/
theorem climbs_congr {next next' : Nat → Option Nat} {a : Nat} {r : Bool} (fuel : Nat) :
    ∀ fuel' b, fuel ≤ fuel' → (∀ x, Anc next x b → next' x = next x) →
      climbs next a fuel b = .ok r → climbs next' a fuel' b = .ok r := by
  induction fuel with
  | zero =>
    intro fuel' b hle hagree h
    cases h
  | succ fuel ih =>
    intro fuel' b hle hagree h
    obtain ⟨fuel', rfl⟩ : ∃ k, fuel' = k + 1 := ⟨fuel' - 1, by omega⟩
    simp only [climbs] at h ⊢
    rw [hagree b (.refl next b)]
    split at h
    · rename_i hab
      rw [if_pos hab]
      exact h
    · rename_i hab
      rw [if_neg hab]
      cases hb : next b with
      | none =>
        rw [hb] at h
        exact h
      | some d =>
        rw [hb] at h
        dsimp only at h ⊢
        split at h
        · rename_i hbd
          rw [if_pos hbd]
          exact h
        · rename_i hbd
          rw [if_neg hbd]
          exact ih fuel' d (by omega)
            (fun x hx => hagree x ((Anc.iff_par hb).mpr (.inr hx))) h

variable {c c' : CFGStructurizer} {D : Nat → Prop} {fuel : Nat}

/-- Where all dominators are known, the search for common ones computes none of them. -/
theorem findCommonDominator_known (hD : ∀ x, D x → ∃ y, c.idom x = some y ∧ D y) (fuel : Nat) :
    ∀ a b (r : CFGStructurizer × Nat), D a → D b → findCommonDominator fuel c a b = .ok r →
      r.1 = c ∧ D r.2 := by
  induction fuel with
  | zero =>
    intro a b r ha hb h
    cases h
  | succ fuel ih =>
    intro a b r ha hb h
    obtain ⟨ya, hya, hDya⟩ := hD a ha
    obtain ⟨yb, hyb, hDyb⟩ := hD b hb
    simp only [findCommonDominator] at h
    split at h
    · obtain rfl := Except.ok.inj h
      exact ⟨rfl, ha⟩
    · rw [ensureDominator_some hya, ok_bind, ensureDominator_some hyb, ok_bind] at h
      have hia : (c.node a).immediateDominator = some ya := hya
      have hib : (c.node b).immediateDominator = some yb := hyb
      simp only [hia, hib, required_some, deref_some, ok_bind, pure_eq_ok] at h
      split at h
      · obtain ⟨ba, -, h⟩ := bind_eq_ok.mp h
        split at h
        · obtain rfl := Except.ok.inj h
          exact ⟨rfl, hb⟩
        · obtain ⟨ab, -, h⟩ := bind_eq_ok.mp h
          split at h
          · obtain rfl := Except.ok.inj h
            exact ⟨rfl, ha⟩
          · split at h
            · obtain rfl := Except.ok.inj h
              exact ⟨rfl, hb⟩
            · split at h
              · obtain rfl := Except.ok.inj h
                exact ⟨rfl, ha⟩
              · exact ih ya yb r hDya hDyb h
      · split at h
        · split at h
          · obtain rfl := Except.ok.inj h
            exact ⟨rfl, hb⟩
          · exact ih ya b r hDya hb h
        · split at h
          · obtain rfl := Except.ok.inj h
            exact ⟨rfl, ha⟩
          · exact ih a yb r ha hDyb h

/-- Recomputing the dominator of a block from known ones changes no other dominator. -/
theorem recomputeImmediateDominator_known {v : Nat}
    (hD : ∀ x, D x → ∃ y, c.idom x = some y ∧ D y) (hv : ¬ D v)
    (hpred : ∀ p ∈ (c.node v).pred, D p)
    (h : recomputeImmediateDominator fuel c v = .ok c') : ∀ x ≠ v, c'.idom x = c.idom x := by
  unfold recomputeImmediateDominator recomputeImmediateDominatorWith at h
  split at h
  · obtain rfl := Except.ok.inj h
    intro x hx
    rw [idom_modify, if_neg hx]
  · let P : CFGStructurizer → Prop := fun s =>
      (∀ x ≠ v, s.idom x = c.idom x) ∧ ∀ d, s.idom v = some d → D d
    have hfold : P c' := by
      refine foldlM_invariant (P := P) ?_ ⟨fun x hx => ?_, fun d hd => ?_⟩ h
      · rintro e he s s' ⟨hs, hsv⟩ hstep
        split at hstep
        · rename_i d hd
          simp only [bind_eq_ok, pure_eq_ok] at hstep
          obtain ⟨⟨s₁, z⟩, hfind, hstep⟩ := hstep
          obtain rfl := Except.ok.inj hstep
          have hDs : ∀ x, D x → ∃ y, s.idom x = some y ∧ D y := by
            intro x hx
            rw [hs x fun he => hv (he ▸ hx)]
            exact hD x hx
          obtain ⟨rfl, hz⟩ := findCommonDominator_known hDs fuel d e _ (hsv d hd) (hpred e he) hfind
          refine ⟨fun x hx => ?_, fun d' hd' => ?_⟩
          · rw [idom_modify, if_neg hx]
            exact hs x hx
          · rw [idom_modify, if_pos rfl] at hd'
            exact Option.some.inj hd' ▸ hz
        · obtain rfl := Except.ok.inj hstep
          refine ⟨fun x hx => ?_, fun d' hd' => ?_⟩
          · rw [idom_modify, if_neg hx]
            exact hs x hx
          · rw [idom_modify, if_pos rfl] at hd'
            exact Option.some.inj hd' ▸ hpred e he
      · rw [idom_modify, if_neg hx]
      · rw [idom_modify, if_pos rfl] at hd
        cases hd
    exact hfold.1

/-- Post-dominators are computed without a look at dominators. -/
theorem recomputeImmediatePostDominator_idom {n : Nat}
    (h : recomputeImmediatePostDominator fuel c n = .ok c') (x : Nat) : c'.idom x = c.idom x := by
  have hframe : Frame .setImmediatePostDominator
      (fun c c' : CFGStructurizer => ∀ x, c'.idom x = c.idom x) :=
    { refl := fun _ _ => rfl
      trans := fun _ _ _ h h' x => (h' x).trans (h x)
      write := fun c n d x => modify_field c n x _ CFGNode.immediateDominator fun _ => rfl }
  exact hframe.recomputeImmediatePostDominator h x

/-- Moving a predecessor with known dominators only changes the dominators of the two targets. -/
theorem retargetBranch_idom {n p q : Nat} (hD : ∀ x, D x → ∃ y, c.idom x = some y ∧ D y)
    (hp : ¬ D p) (hq : ¬ D q) (hpq : p ≠ q) (hn : D n) (hpred : ∀ x ∈ (c.node p).pred, D x)
    (hqpred : ∀ x ∈ (c.node q).pred, D x) (h : c.retargetBranch fuel n p q = .ok c') :
    ∀ x, x ≠ p → x ≠ q → c'.idom x = c.idom x := by
  simp only [retargetBranch, bind_eq_ok] at h
  obtain ⟨c₁, h₁, c₂, h₂, h⟩ := h
  simp only [retargetBranchPreTraversal, bind_eq_ok, pure_eq_ok] at h₁
  obtain ⟨_, -, _, -, _, -, _, -, h₁⟩ := h₁
  obtain rfl := Except.ok.inj h₁
  have hidom₁ : ∀ x, (c.retargeted n p q).idom x = c.idom x := fun x => by
    rw [idom, (retargeted_edgesOnly ..).node x]
  have hpreds : ∀ v, v = p ∨ v = q → ∀ x ∈ ((c.retargeted n p q).node v).pred, D x := by
    intro v hv x hx
    rw [retargeted_pred c hpq] at hx
    rcases hv with rfl | rfl
    · rw [if_pos rfl] at hx
      exact hpred x (List.mem_of_mem_erase hx)
    · rw [if_neg hpq.symm, if_pos rfl] at hx
      split at hx
      · rcases mem_of_mem_replace hx with hx | rfl
        · exact hqpred x hx
        · exact hn
      · rcases mem_addUnique.mp hx with hx | rfl
        · exact hqpred x hx
        · exact hn
  let P : CFGStructurizer → Prop := fun s =>
    (∀ x, x ≠ p → x ≠ q → s.idom x = c.idom x) ∧
      ∀ x, (s.node x).pred = ((c.retargeted n p q).node x).pred
  have hfold : P c₂ := by
    refine foldlM_invariant (P := P) ?_ ⟨fun x _ _ => hidom₁ x, fun _ => rfl⟩ h₂
    rintro v hv s s' ⟨hs, hspred⟩ hstep
    have hvpq : v = p ∨ v = q := by
      split at hv
      · simpa using hv
      · simpa using Or.comm.mp (by simpa using hv : v = q ∨ v = p)
    have hDs : ∀ x, D x → ∃ y, s.idom x = some y ∧ D y := by
      intro x hx
      rw [hs x (fun he => hp (he ▸ hx)) fun he => hq (he ▸ hx)]
      exact hD x hx
    have hDv : ¬ D v := by
      rcases hvpq with rfl | rfl
      · exact hp
      · exact hq
    have hkeep := recomputeImmediateDominator_known hDs hDv (fun x hx => by
      rw [hspred] at hx
      exact hpreds v hvpq x hx) hstep
    refine ⟨fun x hxp hxq => ?_, fun x => ?_⟩
    · rw [hkeep x (by rcases hvpq with rfl | rfl <;> assumption), hs x hxp hxq]
    · rw [(DominatorsOnly.forwardFrame.recomputeImmediateDominator hstep).pred, hspred]
  intro x hxp hxq
  rw [recomputeImmediatePostDominator_idom h, hfold.1 x hxp hxq]

/-- A block without predecessors counts as an entry block. -/
theorem recomputeImmediateDominator_nil {v : Nat} (h : (c.node v).pred = []) :
    recomputeImmediateDominator fuel c v =
      .ok (c.modify v (.setImmediateDominator (some v))) := by
  rw [recomputeImmediateDominator, recomputeImmediateDominatorWith, if_pos h]

/-- The dominator of a block with one predecessor is that predecessor. -/
theorem recomputeImmediateDominator_singleton {v n : Nat} (h : (c.node v).pred = [n]) :
    recomputeImmediateDominator fuel c v = .ok ((c.modify v (.setImmediateDominator none)).modify v
      (.setImmediateDominator (some n))) := by
  have hnone : ((c.modify v (.setImmediateDominator none)).node v).immediateDominator = none := by
    rw [modify_node_self]
    rfl
  rw [recomputeImmediateDominator, recomputeImmediateDominatorWith, h,
    if_neg (List.cons_ne_nil n []), List.foldlM_cons, hnone, ok_bind]
  rfl

/-- A block that loses its last predecessor counts as an entry block from then on. -/
theorem retargetBranch_idom_self {n p q : Nat} (hpq : p ≠ q) (hpred : (c.node p).pred = [n])
    (hqpred : (c.node q).pred = []) (h : c.retargetBranch fuel n p q = .ok c') :
    c'.idom p = some p := by
  simp only [retargetBranch, bind_eq_ok] at h
  obtain ⟨c₁, h₁, c₂, h₂, h⟩ := h
  simp only [retargetBranchPreTraversal, bind_eq_ok, pure_eq_ok] at h₁
  obtain ⟨_, -, _, -, _, -, _, -, h₁⟩ := h₁
  obtain rfl := Except.ok.inj h₁
  have hp : ((c.retargeted n p q).node p).pred = [] := by
    rw [retargeted_pred c hpq, if_pos rfl, hpred]
    simp
  have hq : ((c.retargeted n p q).node q).pred = [n] := by
    rw [retargeted_pred c hpq, if_neg hpq.symm, if_pos rfl, hqpred]
    simp [addUnique]
  rw [recomputeImmediatePostDominator_idom h]
  split at h₂
  · rw [List.foldlM_cons, recomputeImmediateDominator_nil hp, ok_bind, List.foldlM_cons,
      recomputeImmediateDominator_singleton (by rw [(IdomOnly.modify ..).pred, hq]), ok_bind] at h₂
    obtain rfl := Except.ok.inj h₂
    rw [idom_modify, if_neg hpq, idom_modify, if_neg hpq, idom_modify, if_pos rfl]
  · rw [List.foldlM_cons, recomputeImmediateDominator_singleton hq, ok_bind, List.foldlM_cons,
      recomputeImmediateDominator_nil (by
        rw [(IdomOnly.modify ..).pred, (IdomOnly.modify ..).pred, hp]), ok_bind] at h₂
    obtain rfl := Except.ok.inj h₂
    rw [idom_modify, if_pos rfl]

end CFGStructurizer

end DxilSpirv
