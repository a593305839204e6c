import DxilSpirv.Cfg.Retarget

/-!
# Giving each predecessor its own block

Two passes replace a block by one new block for each of its predecessors. They differ in what
the new blocks contain and in what happens to the old one, but the edges and the terminators of
the predecessors change in the same way.
-/

namespace DxilSpirv

namespace CFGStructurizer

variable {c c' c'' : CFGStructurizer} {node p : Nat} {succs : List Nat}

/-- One predecessor `p` of `node` was moved to a new block with the given contents. -/
structure SplitStep (c : CFGStructurizer) (node p : Nat) (succs : List Nat)
    (nodeIr blockIr : IRBlock) (c' : CFGStructurizer) : Prop where
  size : c'.size = c.size + 1
  ir : ∀ x, (c'.node x).ir =
    if x = c.size then blockIr
    else if x = node then nodeIr
    else if x = p then
      { (c.node x).ir with terminator := (c.node x).ir.terminator.retarget node c.size }
    else (c.node x).ir
  succ : ∀ x, (c'.node x).succ =
    if x = c.size then succs
    else if x = p then (c.node x).succ.replace node c.size
    else (c.node x).succ
  pred : ∀ x, (c'.node x).pred =
    if x = c.size then [p]
    else if x = node then (c.node x).pred.erase p
    else if x ∈ succs then addUnique (c.node x).pred c.size
    else (c.node x).pred

/-- The facts about the blocks around a block that the loop over its predecessors needs: lists
without repetitions, inside the pool, and no edge from the block to itself. -/
structure Isolated (c : CFGStructurizer) (node : Nat) : Prop where
  node_lt : node < c.size
  pred_lt : ∀ x, ∀ q ∈ (c.node x).pred, q < c.size
  succ_lt : ∀ s ∈ (c.node node).succ, s < c.size
  nodup_pred : (c.node node).pred.Nodup
  nodup_succ : (c.node node).succ.Nodup
  notMem_pred : node ∉ (c.node node).pred
  notMem_succ : node ∉ (c.node node).succ

/-- The new block of a predecessor. -/
def breakNode (c : CFGStructurizer) (node p : Nat) : Nat :=
  c.size + (c.node node).pred.idxOf p

theorem le_breakNode (c : CFGStructurizer) (node p : Nat) : c.size ≤ c.breakNode node p :=
  Nat.le_add_right ..

theorem breakNode_inj {p q : Nat} (hp : p ∈ (c.node node).pred)
    (hq : c.breakNode node p = c.breakNode node q) : p = q := by
  have hidx : (c.node node).pred.idxOf p = (c.node node).pred.idxOf q := by
    unfold breakNode at hq
    omega
  exact (List.idxOf_inj hp).mp hidx

/-- The pool once the predecessors in `done` have their blocks, whose contents satisfy `Q`. -/
structure SplitOff (c : CFGStructurizer) (node : Nat) (Q : Nat → IRBlock → Prop)
    (done : List Nat) (nodeIr : IRBlock) (c' : CFGStructurizer) : Prop where
  size : c'.size = c.size + done.length
  node_ir : (c'.node node).ir = nodeIr
  ir : ∀ x < c.size, x ≠ node → (c'.node x).ir =
    if x ∈ done then
      { (c.node x).ir with
        terminator := (c.node x).ir.terminator.retarget node (c.breakNode node x) }
    else (c.node x).ir
  succ : ∀ x < c.size, (c'.node x).succ =
    if x ∈ done then (c.node x).succ.replace node (c.breakNode node x) else (c.node x).succ
  pred : ∀ x < c.size, (c'.node x).pred =
    if x = node then (c.node x).pred.drop done.length
    else if x ∈ (c.node node).succ then (c.node x).pred ++ done.map (c.breakNode node)
    else (c.node x).pred
  break_ir : ∀ p ∈ done, Q p (c'.node (c.breakNode node p)).ir
  break_succ : ∀ p ∈ done, (c'.node (c.breakNode node p)).succ = (c.node node).succ
  break_pred : ∀ p ∈ done, (c'.node (c.breakNode node p)).pred = [p]

variable {Q : Nat → IRBlock → Prop}

theorem SplitOff.refl (c : CFGStructurizer) (node : Nat) (Q : Nat → IRBlock → Prop) :
    SplitOff c node Q [] (c.node node).ir c where
  size := rfl
  node_ir := rfl
  ir x _ _ := by simp
  succ x _ := by simp
  pred x _ := by
    split
    · rfl
    · simp
  break_ir p hp := absurd hp List.not_mem_nil
  break_succ p hp := absurd hp List.not_mem_nil
  break_pred p hp := absurd hp List.not_mem_nil

/-- The blocks handed out so far and the next one. -/
theorem SplitOff.breakNode_eq {done rest : List Nat}
    (hpreds : (c.node node).pred = done ++ p :: rest) (hnodup : (c.node node).pred.Nodup)
    {nodeIr : IRBlock} (h : SplitOff c node Q done nodeIr c') :
    p ∉ done ∧ c.breakNode node p = c'.size ∧ ∀ q ∈ done, c.breakNode node q < c'.size := by
  rw [hpreds] at hnodup
  have hpdone : p ∉ done := fun hm =>
    (List.nodup_append.mp hnodup).2.2 p hm p (List.mem_cons_self ..) rfl
  refine ⟨hpdone, ?_, ?_⟩
  · rw [h.size, breakNode, hpreds, List.idxOf_append_of_notMem hpdone, List.idxOf_cons_self]
    rfl
  · intro q hq
    rw [h.size, breakNode, hpreds, List.idxOf_append_of_mem hq]
    have := List.idxOf_lt_length_of_mem hq
    omega

/-- One more predecessor. -/
theorem SplitOff.step (hc : c.Isolated node) {done rest : List Nat}
    (hpreds : (c.node node).pred = done ++ p :: rest) {nodeIr nodeIr' blockIr : IRBlock}
    (h : SplitOff c node Q done nodeIr c')
    (hstep : SplitStep c' node p (c.node node).succ nodeIr' blockIr c'') (hQ : Q p blockIr) :
    SplitOff c node Q (done ++ [p]) nodeIr' c'' := by
  have hpmem : p ∈ (c.node node).pred := by simp [hpreds]
  obtain ⟨hpdone, hbrk, hbrk_lt⟩ := h.breakNode_eq hpreds hc.nodup_pred
  have hpn : p ≠ node := fun he => hc.notMem_pred (he ▸ hpmem)
  have hplt := hc.pred_lt node p hpmem
  have hnlt := hc.node_lt
  have hle : c.size ≤ c'.size := by rw [h.size]; omega
  refine ⟨?_, ?_, ?_, ?_, ?_, ?_, ?_, ?_⟩
  · rw [hstep.size, h.size, List.length_append]
    simp only [List.length_cons, List.length_nil]
    omega
  · rw [hstep.ir, if_neg (by omega), if_pos rfl]
  · intro x hx hxn
    rw [hstep.ir, if_neg (by omega), if_neg hxn, h.ir x hx hxn, ← hbrk]
    by_cases hxp : x = p
    · subst hxp
      simp [hpdone]
    · simp [hxp]
  · intro x hx
    rw [hstep.succ, if_neg (by omega), h.succ x hx]
    by_cases hxp : x = p
    · subst hxp
      simp [hpdone, hbrk]
    · simp [hxp]
  · intro x hx
    rw [hstep.pred, if_neg (by omega), h.pred x hx]
    by_cases hxn : x = node
    · subst hxn
      simp [hpreds, List.drop_append]
    · by_cases hxs : x ∈ (c.node node).succ
      · have hnew : c'.size ∉ (c.node x).pred ++ done.map (c.breakNode node) := by
          intro hm
          rcases List.mem_append.mp hm with hm | hm
          · have := hc.pred_lt x _ hm
            omega
          · obtain ⟨q, hq, he⟩ := List.mem_map.mp hm
            have := hbrk_lt q hq
            omega
        simp [hxn, hxs, addUnique, hnew, hbrk]
      · simp [hxn, hxs]
  · intro q hq
    rw [hstep.ir]
    rcases List.mem_append.mp hq with hq | hq
    · have hne : c.breakNode node q ≠ c'.size := Nat.ne_of_lt (hbrk_lt q hq)
      have hge := c.le_breakNode node q
      rw [if_neg hne, if_neg (by omega), if_neg (by omega)]
      exact h.break_ir q hq
    · obtain rfl := List.mem_singleton.mp hq
      rw [if_pos hbrk]
      exact hQ
  · intro q hq
    rw [hstep.succ]
    rcases List.mem_append.mp hq with hq | hq
    · have hne : c.breakNode node q ≠ c'.size := Nat.ne_of_lt (hbrk_lt q hq)
      have hge := c.le_breakNode node q
      rw [if_neg hne, if_neg (by omega), h.break_succ q hq]
    · obtain rfl := List.mem_singleton.mp hq
      rw [if_pos hbrk]
  · intro q hq
    rw [hstep.pred]
    rcases List.mem_append.mp hq with hq | hq
    · have hne : c.breakNode node q ≠ c'.size := Nat.ne_of_lt (hbrk_lt q hq)
      have hge := c.le_breakNode node q
      have hns : c.breakNode node q ∉ (c.node node).succ := fun hm =>
        absurd (hc.succ_lt _ hm) (by omega)
      rw [if_neg hne, if_neg (by omega), if_neg hns, h.break_pred q hq]
    · obtain rfl := List.mem_singleton.mp hq
      rw [if_pos hbrk]

end CFGStructurizer

end DxilSpirv
