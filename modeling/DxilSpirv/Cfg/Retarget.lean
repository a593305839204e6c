import DxilSpirv.Cfg.Frames

/-!
# Retargeting branches of an analysed graph

`retarget_branch` also brings the dominators of the blocks involved up to date. What it does
to contents and edges is the same as before the analysis, so a pass that only moves edges and
contents can be described by lookups, whatever the dominators are.
-/

namespace DxilSpirv

/-- Preset the dominators of a new node. -/
def CFGNode.setDominators (idom ipdom : Option Nat) (x : CFGNode) : CFGNode :=
  { x with immediateDominator := idom, immediatePostDominator := ipdom }

namespace CFGStructurizer

/-- `CFGNode::retarget_branch`. -/
def retargetBranch (fuel : Nat) (c : CFGStructurizer) (n toPrev toNext : Nat) :
    Except Fault CFGStructurizer := do
  let c ← c.retargetBranchPreTraversal n toPrev toNext
  let changed :=
    if (c.node toNext).forwardPostVisitOrder < (c.node toPrev).forwardPostVisitOrder then
      [toPrev, toNext]
    else [toNext, toPrev]
  let c ← changed.foldlM (recomputeImmediateDominator fuel) c
  recomputeImmediatePostDominator fuel c n

/-- Only dominators and post-dominators differ. -/
structure DominatorsOnly (c c' : CFGStructurizer) : Prop where
  pool : c' = { c with node := c'.node }
  node : ∀ n, c'.node n = { c.node n with
    immediateDominator := (c'.node n).immediateDominator
    immediatePostDominator := (c'.node n).immediatePostDominator }

namespace DominatorsOnly

variable {c c' c'' : CFGStructurizer}

/-- A pool differs from itself in no dominator. -/
theorem refl (c : CFGStructurizer) : DominatorsOnly c c := ⟨rfl, fun _ => rfl⟩

/-- Two changes of dominators make one. -/
theorem trans (h : DominatorsOnly c c') (h' : DominatorsOnly c' c'') : DominatorsOnly c c'' := by
  constructor
  · rw [h'.pool, h.pool]
  · intro n
    rw [h'.node n, h.node n]

/-- A write to the dominators of one block. -/
theorem modify (c : CFGStructurizer) (n : Nat) (f : CFGNode → CFGNode)
    (hf : ∀ x, f x = { x with
      immediateDominator := (f x).immediateDominator
      immediatePostDominator := (f x).immediatePostDominator }) :
    DominatorsOnly c (c.modify n f) := by
  constructor
  · rfl
  · intro m
    rw [modify_node]
    split
    · rename_i h
      rw [h]
      exact hf _
    · rfl

/-- No block is made. -/
theorem size (h : DominatorsOnly c c') : c'.size = c.size := by rw [h.pool]

/-- The operations are the same. -/
theorem ir (h : DominatorsOnly c c') (n : Nat) : (c'.node n).ir = (c.node n).ir := by
  rw [h.node n]

/-- The branches are the same. -/
theorem succ (h : DominatorsOnly c c') (n : Nat) : (c'.node n).succ = (c.node n).succ := by
  rw [h.node n]

/-- The predecessors are the same. -/
theorem pred (h : DominatorsOnly c c') (n : Nat) : (c'.node n).pred = (c.node n).pred := by
  rw [h.node n]

/-- To set dominators changes dominators only. -/
theorem forwardFrame : Frame .setImmediateDominator DominatorsOnly where
  refl := .refl
  trans _ _ _ := .trans
  write c n _ := .modify c n _ fun _ => rfl

/-- To set post-dominators changes dominators only. -/
theorem backwardFrame : Frame .setImmediatePostDominator DominatorsOnly where
  refl := .refl
  trans _ _ _ := .trans
  write c n _ := .modify c n _ fun _ => rfl

end DominatorsOnly

variable (c : CFGStructurizer) (n x : Nat) (d d' : Option Nat)

@[simp] theorem modify_setDominators_ir :
    ((c.modify n (.setDominators d d')).node x).ir = (c.node x).ir :=
  modify_field c n x _ _ fun _ => rfl

@[simp] theorem modify_setDominators_succ :
    ((c.modify n (.setDominators d d')).node x).succ = (c.node x).succ :=
  modify_field c n x _ _ fun _ => rfl

@[simp] theorem modify_setDominators_pred :
    ((c.modify n (.setDominators d d')).node x).pred = (c.node x).pred :=
  modify_field c n x _ _ fun _ => rfl

/-- Retargeting writes to the terminator of the retargeted block only. -/
theorem retargeted_ir (c : CFGStructurizer) (n p q x : Nat) :
    ((c.retargeted n p q).node x).ir =
      if x = n then { (c.node x).ir with terminator := (c.node x).ir.terminator.retarget p q }
      else (c.node x).ir := by
  dsimp only [retargeted]
  rw [modify_node]
  by_cases hx : x = n
  · subst hx
    simp only [if_pos, CFGNode.mapTerminator, modify_mapPred_ir, modify_mapSucc_ir]
  · simp only [if_neg hx, modify_mapPred_ir, modify_mapSucc_ir]

/-- The asserts of `retarget_branch` and all it does apart from dominators. -/
theorem retargetBranch_ok {c c' : CFGStructurizer} {fuel n p q : Nat}
    (h : c.retargetBranch fuel n p q = .ok c') :
    (p ∈ (c.node n).succ ∧ n ∈ (c.node p).pred ∧ q ∉ (c.node n).succ ∧ n ∉ (c.node q).pred) ∧
      DominatorsOnly (c.retargeted n p q) c' := by
  simp only [retargetBranch, retargetBranchPreTraversal, bind_eq_ok, pure_eq_ok] at h
  obtain ⟨c₁, ⟨_, h1, _, h2, _, h3, _, h4, hc₁⟩, c₂, hc₂, h⟩ := h
  obtain rfl := Except.ok.inj hc₁
  refine ⟨⟨check_eq_ok.mp h1, check_eq_ok.mp h2, check_eq_ok.mp h3, check_eq_ok.mp h4⟩, ?_⟩
  have hdoms : DominatorsOnly (c.retargeted n p q) c₂ :=
    foldlM_invariant (P := DominatorsOnly _)
      (fun _ _ _ _ hs hstep =>
        hs.trans (DominatorsOnly.forwardFrame.recomputeImmediateDominator hstep)) (.refl _) hc₂
  exact hdoms.trans (DominatorsOnly.backwardFrame.recomputeImmediatePostDominator h)

/-- `add_branch` for every block of a list. -/
def addBranches (c : CFGStructurizer) (n : Nat) (dsts : List Nat) :
    Except Fault CFGStructurizer :=
  dsts.foldlM (fun c dst => c.addBranch n dst) c

/-- To add a member twice is to add it once. -/
theorem addUnique_self (l : List Nat) (n : Nat) : addUnique (addUnique l n) n = addUnique l n := by
  rw [addUnique, if_pos (mem_addUnique.mpr (.inr rfl))]

/-- Adding branches writes to the successors of one block and the predecessors of the others. -/
theorem addBranches_spec {c c' : CFGStructurizer} {n : Nat} {dsts : List Nat}
    (h : c.addBranches n dsts = .ok c') :
    EdgesOnly c c' ∧ ∀ x, (c'.node x).ir = (c.node x).ir ∧
      (c'.node x).succ = (if x = n then dsts.foldl addUnique (c.node x).succ else (c.node x).succ) ∧
      (c'.node x).pred = if x ∈ dsts then addUnique (c.node x).pred n else (c.node x).pred := by
  induction dsts generalizing c with
  | nil =>
    obtain rfl := Except.ok.inj h
    exact ⟨.refl c, fun x => by simp⟩
  | cons d dsts ih =>
    simp only [addBranches, List.foldlM_cons, bind_eq_ok] at h
    obtain ⟨c₁, h₁, h⟩ := h
    simp only [addBranch, bind_eq_ok, pure_eq_ok] at h₁
    obtain ⟨_, -, h₁⟩ := h₁
    obtain rfl := Except.ok.inj h₁
    obtain ⟨hframe, hrest⟩ := ih h
    refine ⟨.trans (.trans (.modify c n _ fun _ => rfl) (.modify _ d _ fun _ => rfl)) hframe, ?_⟩
    intro x
    obtain ⟨hir, hsucc, hpred⟩ := hrest x
    refine ⟨?_, ?_, ?_⟩
    · rw [hir, modify_mapPred_ir, modify_mapSucc_ir]
    · rw [hsucc, modify_mapPred_succ, modify_mapSucc_succ]
      by_cases hx : x = n <;> simp [hx]
    · rw [hpred, modify_mapPred_pred, modify_mapSucc_pred]
      by_cases hxd : x = d <;> by_cases hxl : x ∈ dsts <;> simp [hxd, hxl, addUnique_self]

/-- A block without branches gets exactly the new ones. -/
theorem foldl_addUnique {l : List Nat} (h : l.Nodup) : l.foldl addUnique [] = l := by
  suffices hgen : ∀ (l d : List Nat), (d ++ l).Nodup → l.foldl addUnique d = d ++ l from hgen l [] h
  intro l
  induction l with
  | nil => exact fun d _ => (List.append_nil d).symm
  | cons n l ih =>
    intro d hd
    have hn : n ∉ d := fun hm => (List.nodup_append.mp hd).2.2 n hm n (List.mem_cons_self ..) rfl
    rw [List.foldl_cons, addUnique, if_neg hn]
    have happ : d ++ n :: l = d ++ [n] ++ l := by simp
    rw [happ]
    exact ih _ (happ ▸ hd)

end CFGStructurizer

end DxilSpirv
