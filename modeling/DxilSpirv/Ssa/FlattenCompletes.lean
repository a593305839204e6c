import DxilSpirv.Ssa.Flatten
import DxilSpirv.Ssa.Surrounded

/-!
# Eliminating a block completes

For a breaking PHI construct that is known around and that its successors record, no assert of
`eliminate_node_link_preds_to_succ` fails and every search ends.
-/

namespace DxilSpirv

open DxilSpirv.Graph

namespace CFGStructurizer

variable {c c' c₁ : CFGStructurizer} {fuel node p : Nat}

/-- A new block that has its branches is ready to take the edge of a predecessor. -/
theorem prepared_addBranches {succs : List Nat} {t : Terminator} (hnode : node < c'.size)
    (hs : ∀ s ∈ succs, s < c'.size ∧ s ≠ node)
    (h : (c'.createNode.1.modify c'.size (.mapTerminator fun _ => t)).addBranches c'.size succs =
      .ok c₁) (d : Option Nat) :
    Prepared c' node
      (c₁.modify c'.size (.setDominators d (c₁.node node).immediatePostDominator)) := by
  have hnew : ∀ x, (c'.createNode.1.modify c'.size (.mapTerminator fun _ => t)).node x =
      if x = c'.size then { ir := { terminator := t } } else c'.node x := by
    intro x
    rw [modify_node, createNode_node, createNode_node, if_pos rfl]
    split <;> rfl
  have hns : node ≠ c'.size := Nat.ne_of_lt hnode
  have hss : c'.size ∉ succs := fun hm => Nat.lt_irrefl _ (hs _ hm).1
  obtain ⟨hframe, hadd⟩ := addBranches_spec h
  have hold : ∀ {β : Type} (field : CFGNode → β) (x : Nat),
      (∀ y : CFGNode, field { y with
        ir := (c₁.node x).ir
        succ := (c₁.node x).succ
        pred := (c₁.node x).pred } = field y) →
      field (c₁.node x) = field
          (if x = c'.size then { ir := { terminator := t } } else c'.node x) := by
    intro β field x hfield
    rw [hframe.node x, hfield, hnew]
  have hsame : ∀ {β : Type} (field : CFGNode → β) (x : Nat), x ≠ c'.size →
      field ((c₁.modify c'.size
        (.setDominators d (c₁.node node).immediatePostDominator)).node x) = field (c₁.node x) := by
    intro β field x hx
    rw [modify_node, if_neg hx]
  refine ⟨?_, fun x hx => ?_, fun x => ?_, fun x => ?_, fun x hx => ?_, fun x hx => ?_, ?_, ?_⟩
  · rw [modify_size, hframe.pool]
    rfl
  · rw [idom, hsame CFGNode.immediateDominator x hx,
      hold CFGNode.immediateDominator x fun _ => rfl, if_neg hx]
  · have hipdom : ∀ x ≠ c'.size, c₁.ipdom x = c'.ipdom x := fun x hx => by
      rw [ipdom, hold CFGNode.immediatePostDominator x fun _ => rfl, if_neg hx]
    by_cases hx : x = c'.size
    · rw [hx, if_pos rfl, ← hipdom node hns, ipdom, modify_node, if_pos rfl]
      rfl
    · rw [if_neg hx, ← hipdom x hx, ipdom, hsame CFGNode.immediatePostDominator x hx]
  · refine (modify_field c₁ c'.size x (.setDominators d _) CFGNode.backwardPostVisitOrder
      fun _ => rfl).trans ?_
    rw [hold CFGNode.backwardPostVisitOrder x fun _ => rfl]
    split <;> rfl
  · rw [hsame CFGNode.succ x hx, (hadd x).2.1, if_neg hx, hnew, if_neg hx]
  · rw [hsame CFGNode.fakeSucc x hx, hold CFGNode.fakeSucc x fun _ => rfl, if_neg hx]
  · rw [hsame CFGNode.pred node hns, (hadd node).2.2, if_neg fun hm => (hs node hm).2 rfl, hnew,
      if_neg hns]
  · refine (modify_field c₁ c'.size c'.size (.setDominators d _) CFGNode.pred fun _ => rfl).trans ?_
    rw [(hadd c'.size).2.2, if_neg hss, hnew, if_pos rfl]

/-- The pool once the predecessors in `done` have their break blocks, with what is still known in
it. -/
structure LinkedFor (c : CFGStructurizer) (node : Nat) (done : List Nat) (c' : CFGStructurizer) :
    Prop where
  linked : Linked c node done c'
  idom : ∀ x < c.size, x ≠ node → c'.idom x = c.idom x
  leads : StillLeads c node c'

/-- A predecessor gets its break block. -/
theorem linkBreakNode_completes (h : Surrounded c node) (bs : List Nat) {done rest : List Nat}
    (hpreds : (c.node node).pred = done ++ p :: rest) (hinv : LinkedFor c node done c')
    (hfuel : 2 * (c'.size + 1) < fuel) :
    ∃ c'' bs', linkBreakNode fuel node (c.node node).succ (c', bs) p = .ok (c'', bs') ∧
      LinkedFor c node (done ++ [p]) c'' := by
  have hpmem : p ∈ (c.node node).pred := by simp [hpreds]
  have hisol := h.isolated hpmem
  have hle : c.size ≤ c'.size := by rw [hinv.linked.size]; omega
  have hnlt := Nat.lt_of_lt_of_le hisol.node_lt hle
  have hsuccs : ∀ s ∈ (c.node node).succ, s < c'.size ∧ s ≠ node := fun s hs =>
    ⟨Nat.lt_of_lt_of_le (hisol.succ_lt s hs) hle, fun he => hisol.notMem_succ (he ▸ hs)⟩
  let base := c'.createNode.1.modify c'.size
    (.mapTerminator fun _ => (c'.createNode.1.node node).ir.terminator)
  have hfake : (base.node c'.size).fakeSucc = [] := by
    refine (modify_field _ _ _ (.mapTerminator _) CFGNode.fakeSucc fun _ => rfl).trans ?_
    rw [createNode_node, if_pos rfl]
  obtain ⟨c₁, h₁⟩ := addBranches_completes hfake (c.node node).succ
  have hprep := prepared_addBranches hnlt hsuccs h₁ (some p)
  obtain ⟨c₂, h₂, hipdom, hipdom_p⟩ := h.retargetBranch_completes hpreds hinv.linked hinv.idom
    hinv.leads hprep hfuel
  have hidom := h.retargetBranch_idom hpmem hinv.linked hinv.idom hprep h₂
  obtain ⟨hmoved, hdoms⟩ := retargetBranch_ok h₂
  let c₃ := (c₂.modify c'.size (.mapTerminator (resolveCondition (c₂.node node).ir.phi p))).modify
    node (.mapPhi (List.map (PHI.moveIncoming p c'.size)))
  have hok : linkBreakNode fuel node (c.node node).succ (c', bs) p =
      .ok (c₃, bs ++ [c'.size]) := by
    simp only [linkBreakNode, createNode_snd, pure_eq_ok]
    rw [h₁, ok_bind, h₂, ok_bind]
  -- the contents are written last
  have hkeep : ∀ {β : Type} (field : CFGNode → β), (∀ (y : CFGNode) (ir : IRBlock),
      field { y with ir } = field y) → ∀ x, field (c₃.node x) = field (c₂.node x) := by
    intro β field hf x
    refine (modify_field _ _ _ _ field fun y => hf y _).trans ?_
    exact modify_field _ _ _ _ field fun y => hf y _
  refine ⟨c₃, _, hok, (hinv.linked.step hisol hpreds hok).2, fun x hx hxn => ?_, ?_⟩
  · rw [idom, hkeep CFGNode.immediateDominator fun _ _ => rfl]
    exact hidom x hx hxn
  · refine .step h hpmem (hinv.leads.prepare h hpmem hle hprep) (fun x hx => ?_) ?_
      (fun x hx => ?_) ?_ fun x => ?_
    · rw [hkeep CFGNode.fakeSucc fun _ _ => rfl, hdoms.node, (retargeted_edgesOnly ..).node,
        ← hinv.leads.fakeSucc x hx]
      exact hprep.fakeSucc x (by omega)
    · rw [modify_size, modify_size, hdoms.pool, (retargeted_edgesOnly ..).pool]
    · rw [ipdom, hkeep CFGNode.immediatePostDominator fun _ _ => rfl]
      exact hipdom x hx
    · rw [ipdom, hkeep CFGNode.immediatePostDominator fun _ _ => rfl]
      exact hipdom_p
    · rw [backwardOrder, hkeep CFGNode.backwardPostVisitOrder fun _ _ => rfl, hdoms.node,
        (retargeted_edgesOnly ..).node]

/-- All predecessors get their break blocks. -/
theorem linkBreakNodes_complete (h : Surrounded c node) (hn : node < c.size)
    (hfuel : 2 * (c.size + (c.node node).pred.length) < fuel) :
    ∃ c' bs, (c.node node).pred.foldlM (linkBreakNode fuel node (c.node node).succ) (c, []) =
      .ok (c', bs) := by
  suffices hgen : ∀ (rest done : List Nat) (c₁ : CFGStructurizer) (bs : List Nat),
      (c.node node).pred = done ++ rest → LinkedFor c node done c₁ →
      ∃ c' bs', rest.foldlM (linkBreakNode fuel node (c.node node).succ) (c₁, bs) =
        .ok (c', bs') from
    hgen _ [] c [] rfl ⟨.refl c node, fun _ _ _ => rfl, .refl h hn⟩
  intro rest
  induction rest with
  | nil => exact fun done c₁ bs _ _ => ⟨c₁, bs, rfl⟩
  | cons p rest ih =>
    intro done c₁ bs hpreds hinv
    have hsize : 2 * (c₁.size + 1) < fuel := by
      have hlen := congrArg List.length hpreds
      rw [List.length_append, List.length_cons] at hlen
      have := hinv.linked.size
      omega
    obtain ⟨c₂, bs₂, hstep, hinv₂⟩ := linkBreakNode_completes h bs hpreds hinv hsize
    obtain ⟨c', bs', hrest⟩ :=
      ih (done ++ [p]) c₂ bs₂ (by rw [hpreds, List.append_assoc]; rfl) hinv₂
    exact ⟨c', bs', by rw [List.foldlM_cons, hstep, ok_bind, hrest]⟩

/-- The PHIs of the successors can be rewritten when each has an entry for the block. -/
theorem rewriteSuccs_complete {succs bs : List Nat} (hnodup : succs.Nodup) (hn : node ∉ succs)
    (hentry : ∀ s ∈ succs, ∀ phi ∈ (c.node s).ir.phi, node ∈ phi.incoming.map (·.block)) :
    ∃ c', succs.foldlM (rewriteSucc node bs) c = .ok c' := by
  suffices hgen : ∀ (rest done : List Nat) (c₁ : CFGStructurizer), succs = done ++ rest →
      Flattened c node bs done c₁ → ∃ c', rest.foldlM (rewriteSucc node bs) c₁ = .ok c' from
    hgen _ [] c rfl (.refl c node bs)
  intro rest
  induction rest with
  | nil => exact fun done c₁ _ _ => ⟨c₁, rfl⟩
  | cons s rest ih =>
    intro done c₁ hsuccs hflat
    have hmem : s ∈ succs := by simp [hsuccs]
    have hs : s ∉ done := fun hm => by
      rw [hsuccs] at hnodup
      exact (List.nodup_append.mp hnodup).2.2 s hm s (List.mem_cons_self ..) rfl
    obtain ⟨phis, hphis⟩ : ∃ phis, (c₁.node s).ir.phi.mapM
        (splitIncoming (c₁.node node).ir.phi node bs) = .ok phis := by
      rw [hflat.ir s hs]
      refine mapM_total fun phi hphi => ?_
      obtain ⟨i, hi, hib⟩ := List.mem_map.mp (hentry s hmem phi hphi)
      obtain ⟨j, hj⟩ := Option.isSome_iff_exists.mp
        (List.find?_isSome (p := fun i => i.block == node).mpr ⟨i, hi, beq_iff_eq.mpr hib⟩)
      unfold splitIncoming
      rw [hj]
      dsimp only
      split
      · exact ⟨_, rfl⟩
      · exact ⟨_, rfl⟩
    obtain ⟨c₂, hstep⟩ : ∃ c₂, rewriteSucc node bs c₁ s = .ok c₂ := by
      simp only [rewriteSucc, hphis, ok_bind, pure_eq_ok]
      exact ⟨_, rfl⟩
    have hndone : node ∉ done := fun hm => hn (by rw [hsuccs]; exact List.mem_append_left _ hm)
    obtain ⟨c', hrest⟩ := ih (done ++ [s]) c₂ (by rw [hsuccs, List.append_assoc]; rfl)
      (rewriteSucc_ok hs hndone hflat hstep)
    exact ⟨c', by rw [List.foldlM_cons, hstep, ok_bind, hrest]⟩

/-- Eliminating a breaking PHI construct completes. -/
theorem eliminateNodeLinkPredsToSucc_completes (hc : c.SsaForm) (h : Surrounded c node)
    (hb : c.blockIsBreakingPhiConstruct fuel node = .ok true)
    (hrecorded : ∀ s ∈ (c.node node).succ, node ∈ (c.node s).pred)
    (hfuel : 2 * (c.size + (c.node node).pred.length) < fuel) :
    ∃ c', c.eliminateNodeLinkPredsToSucc fuel node = .ok c' := by
  have hphi := phiOnly_of_breaking hb
  have hisol := hc.isolated hphi
  obtain ⟨c₁, bs, h₁⟩ := linkBreakNodes_complete h hisol.node_lt hfuel
  obtain ⟨rfl, hlinked⟩ := linkBreakNodes_ok hisol h₁
  have hempty : (c₁.node node).pred = [] := by
    rw [hlinked.pred node hisol.node_lt, if_pos rfl, List.drop_length]
  have hsuccs : (c₁.node node).succ = (c.node node).succ := by
    rw [hlinked.succ node hisol.node_lt, if_neg hisol.notMem_pred]
  obtain ⟨c₂, h₂⟩ : ∃ c₂, (c.node node).succ.foldlM
      (rewriteSucc node ((c.node node).pred.map (c.breakNode node))) c₁ = .ok c₂ := by
    refine rewriteSuccs_complete hisol.nodup_succ hisol.notMem_succ fun s hs phi hmem => ?_
    have hne : s ≠ node := fun he => hisol.notMem_succ (he ▸ hs)
    have hold : (c₁.node s).ir.phi = (c.node s).ir.phi := by
      rw [hlinked.ir s (hisol.succ_lt s hs) hne]
      split <;> rfl
    rw [hold] at hmem
    exact hc.incoming_pred s phi hmem node (hrecorded s hs)
      (hc.branches node s (hrecorded s hs) hphi.succBackEdge)
  refine ⟨c₂.modify node (.mapPhi fun _ => []), ?_⟩
  simp only [eliminateNodeLinkPredsToSucc, check, if_pos hphi.succ_length, h₁, ok_bind,
    if_pos hempty, hsuccs, h₂, pure_eq_ok]

end CFGStructurizer

end DxilSpirv
