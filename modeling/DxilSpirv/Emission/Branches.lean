import DxilSpirv.Emission.Operations

/-!
# How a node ends

The merge and the terminator of a node, and the PHIs of the blocks it branches to. Control goes from
the block that the node is known by to the first block of the next node.
-/

namespace DxilSpirv.Emission

open SpirvFunction Program

variable {k l fromId toId : Nat} {s : SpirvFunction}

/-- What is rewritten already stays as it is. -/
theorem rewriteIncoming_twice (hne : toId ≠ fromId) (phi : PHI) :
    rewriteIncoming fromId toId (rewriteIncoming fromId toId phi) =
      rewriteIncoming fromId toId phi := by
  unfold rewriteIncoming
  rw [List.map_map]
  refine congrArg (fun incoming => { phi with incoming }) (List.map_congr_left fun i _ => ?_)
  by_cases hi : i.block = fromId
  · simp [hi, hne]
  · simp [hi]

/-- The rewrite of incoming blocks touches the PHIs of one block. -/
theorem rewritePhiIncoming_block (s : SpirvFunction) (l l' fromId toId : Nat) :
    (s.rewritePhiIncoming l fromId toId).block l' =
      if l' = l then { s.block l with phis := (s.block l).phis.map (rewriteIncoming fromId toId) }
        else s.block l' :=
  Function.update_apply ..

/-- Rewriting PHIs changes nothing but PHIs of first blocks. -/
theorem grows_rewritePhiIncoming (k : Nat) (s : SpirvFunction) (n fromId toId : Nat) :
    Grows k s (s.rewritePhiIncoming (s.label n) fromId toId) where
  drawn := le_rfl
  insts l' := by
    rw [rewritePhiIncoming_block]
    split_ifs with h
    · exact h ▸ List.prefix_rfl
    · exact List.prefix_rfl
  phis l' _ hfirst := by
    rw [rewritePhiIncoming_block, if_neg fun h => hfirst n h.symm]
  label _ := .inl rfl
  constants _ := .inl
  kept := List.Subset.refl _
  fresh h := by
    refine ⟨fun l' hl' => ?_, h.label, h.id, h.constants⟩
    have hne : l' ≠ s.label n := Nat.ne_of_gt (lt_of_le_of_lt (h.label n) hl')
    rw [rewritePhiIncoming_block, if_neg hne]
    exact h.block l' hl'

/-- What rewriting the PHIs of some nodes does. -/
theorem rewritePhis_spec (hne : toId ≠ fromId) (targets : List Nat) :
    let s' := Emitting.rewritePhis s fromId toId targets
    (∀ k, Grows k s s') ∧ s'.builder = s.builder ∧ s'.label = s.label ∧ s'.id = s.id ∧
      (∀ l, (s'.block l).insts = (s.block l).insts) ∧
      ∀ l, (s'.block l).phis =
        if toId ≠ 0 ∧ l ∈ targets.map s.label
          then (s.block l).phis.map (rewriteIncoming fromId toId)
        else (s.block l).phis := by
  unfold Emitting.rewritePhis
  by_cases hzero : toId = 0
  · rw [if_pos hzero]
    exact ⟨fun k => Grows.refl k s, rfl, rfl, rfl, fun _ => rfl,
      fun _ => (if_neg fun h => h.1 hzero).symm⟩
  rw [if_neg hzero]
  induction targets generalizing s with
  | nil =>
    exact ⟨fun k => Grows.refl k s, rfl, rfl, rfl, fun _ => rfl,
      fun _ => (if_neg fun h => List.not_mem_nil h.2).symm⟩
  | cons n targets ih =>
    set s₁ := s.rewritePhiIncoming (s.label n) fromId toId with hs₁
    obtain ⟨hgrows, hbuilder, hlabel, hid, hinsts, hphis⟩ := @ih s₁
    rw [List.foldl_cons]
    refine ⟨fun k => (grows_rewritePhiIncoming k s n fromId toId).trans (hgrows k), hbuilder,
      hlabel, hid, fun l => (hinsts l).trans ?_, fun l => (hphis l).trans ?_⟩
    · rw [hs₁, rewritePhiIncoming_block]
      split_ifs with h
      · rw [h]
      · rfl
    · have hlabels : s₁.label = s.label := rfl
      have htwice : rewriteIncoming fromId toId ∘ rewriteIncoming fromId toId =
          rewriteIncoming fromId toId :=
        funext (rewriteIncoming_twice hne)
      rw [hlabels, hs₁, rewritePhiIncoming_block]
      by_cases hl : l = s.label n <;> by_cases hmem : l ∈ targets.map s.label <;>
        simp [hl, hmem, hzero, htwice]

section Kept

variable {p : Place} {e : Emitting}

@[simp] theorem addInst_phis (s : SpirvFunction) (l l' : Nat) (i : Inst) :
    ((s.addInst l i).block l').phis = (s.block l').phis := by
  rw [addInst_block]
  split_ifs with h
  · rw [h]
  · rfl

/-- The loop header leaves the PHIs. -/
theorem emitLoopHeader_phis (s : SpirvFunction) (info : MergeInfo) (node bb fake : Nat)
    (replacement : Option Nat) (l : Nat) :
    ((s.emitLoopHeader info node bb fake replacement).block l).phis = (s.block l).phis := by
  unfold SpirvFunction.emitLoopHeader
  cases info.mergeBlock <;> cases info.continueBlock <;> simp

/-- To leave the loop header leaves the PHIs. -/
theorem leaveHeader_phis (p : Place) (e : Emitting) (l : Nat) :
    ((e.leaveHeader p).module.block l).phis = (e.module.block l).phis := by
  by_cases hleave : p.info.mergeType = .loop ∧ e.rewriteTo = 0
  · obtain ⟨replacement, heq⟩ := Emitting.leaveHeader_eq hleave
    rw [heq, addInst_phis, addBlock_block, emitLoopHeader_phis, drawId_block]
  · have heq : e.leaveHeader p = e := if_neg hleave
    rw [heq]

/-- Only the block that both ways go on to gets a PHI. -/
theorem emitInner_phis (e : Emitting) (op : Operation) {inner merge l : Nat} (hl : l ≠ merge) :
    ((e.emitInner op inner merge).block l).phis = (e.module.block l).phis := by
  unfold Emitting.emitInner
  split_ifs
  · exact addInst_phis ..
  · rw [addInst_phis, addInst_phis]
  · refine (congrArg SpvBlock.phis ((addPhi_block ..).trans (if_neg hl))).trans ?_
    change (((e.module.drawId.addInst inner _).addInst inner _).block l).phis = _
    rw [addInst_phis, addInst_phis, drawId_block]

/-- An operation leaves the PHIs of all blocks that are there. -/
theorem emitOperation_phis (hok : e.Ok p) (op : Operation) {l : Nat}
    (hl : l ≤ e.module.builder.uniqueId) :
    ((e.emitOperation p op).module.block l).phis = (e.module.block l).phis := by
  unfold Emitting.emitOperation
  split_ifs
  · rfl
  · have hdrawn := (Emitting.leaveHeader_spec hok).1.drawn
    refine (emitInner_phis _ op ?_).trans ?_
    · exact Nat.ne_of_lt (Nat.lt_succ_of_le ((hl.trans hdrawn).trans (Nat.le_succ _)))
    · change ((((((e.leaveHeader p).module.drawId.drawId.addBlock _).addBlock _).addInst
        _ _).addInst _ _).block l).phis = _
      rw [addInst_phis, addInst_phis, addBlock_block, addBlock_block, drawId_block, drawId_block,
        leaveHeader_phis]
  · rfl
  · exact addInst_phis ..

/-- The operations leave the PHIs. -/
theorem emitOperations_phis (hok : e.Ok p) (ops : List Operation) {l : Nat}
    (hl : l ≤ e.module.builder.uniqueId) :
    ((ops.foldl (Emitting.emitOperation p) e).module.block l).phis = (e.module.block l).phis := by
  induction ops generalizing e with
  | nil => rfl
  | cons op ops ih =>
    have hfirst := Emitting.emits_emitOperation hok op
    exact (ih hfirst.ok (hl.trans hfirst.grows.drawn)).trans (emitOperation_phis hok op hl)

@[simp] theorem addPhi_insts (s : SpirvFunction) (l l' : Nat) (phi : PHI) :
    ((s.addPhi l phi).block l').insts = (s.block l').insts := by
  rw [addPhi_block]
  split_ifs with h
  · rw [h]
  · rfl

/-- An inner construct adds to its own block only. -/
theorem emitInner_insts (e : Emitting) (op : Operation) {inner merge l : Nat} (hl : l ≠ inner) :
    ((e.emitInner op inner merge).block l).insts = (e.module.block l).insts := by
  unfold Emitting.emitInner
  split_ifs
  · exact congrArg SpvBlock.insts ((addInst_block ..).trans (if_neg hl))
  · rw [addInst_block, if_neg hl, addInst_block, if_neg hl]
  · refine (addPhi_insts ..).trans ?_
    change (((e.module.drawId.addInst inner _).addInst inner _).block l).insts = _
    rw [addInst_block, if_neg hl, addInst_block, if_neg hl, drawId_block]

/-- The block at hand stays, or is a new one. -/
theorem bb_emitOperation (hok : e.Ok p) (op : Operation) :
    (e.emitOperation p op).bb = e.bb ∨ e.module.builder.uniqueId < (e.emitOperation p op).bb := by
  unfold Emitting.emitOperation
  split_ifs
  · exact .inl rfl
  · have hmasked := Emitting.masked_emitMasked hok op
    refine .inr ?_
    rw [hmasked.bb]
    exact lt_of_le_of_lt (Emitting.leaveHeader_spec hok).1.drawn
      (hmasked.lt_inner.trans hmasked.lt_merge)
  · exact .inl rfl
  · exact .inl rfl

/-- An operation goes to the block at hand and to new ones. -/
theorem emitOperation_insts (hok : e.Ok p) (op : Operation) {l : Nat}
    (hle : l ≤ e.module.builder.uniqueId) (hl : l ≠ e.bb) (hfake : l ≠ p.fake) :
    ((e.emitOperation p op).module.block l).insts = (e.module.block l).insts := by
  unfold Emitting.emitOperation
  split_ifs
  · rfl
  · obtain ⟨hgrows, -, -, -, -, -, hcases⟩ := Emitting.leaveHeader_spec hok
    have hbb : l ≠ (e.leaveHeader p).bb := by
      rcases hcases with ⟨-, hbb⟩ | ⟨-, -, hlt, -⟩
      · rw [hbb]
        exact hl
      · exact Nat.ne_of_lt (lt_of_le_of_lt hle hlt)
    refine (emitInner_insts _ op ?_).trans ?_
    · exact Nat.ne_of_lt (Nat.lt_succ_of_le (hle.trans hgrows.drawn))
    · change ((((((e.leaveHeader p).module.drawId.drawId.addBlock _).addBlock _).addInst
        _ _).addInst _ _).block l).insts = _
      rw [addInst_block, if_neg hbb, addInst_block, if_neg hbb, addBlock_block, addBlock_block,
        drawId_block, drawId_block]
      by_cases hleave : p.info.mergeType = .loop ∧ e.rewriteTo = 0
      · obtain ⟨replacement, heq⟩ := Emitting.leaveHeader_eq hleave
        obtain ⟨-, -, -, -, hother, -⟩ := emitLoopHeader_spec e.module.drawId p.info
          p.node hok.bb_ne
          (hok.bb_le.trans (Nat.le_succ _)) (hok.fake_le.trans (Nat.le_succ _)) replacement
        rw [heq, addInst_block, if_neg hl, addBlock_block, hother l hl hfake, drawId_block]
      · have heq : e.leaveHeader p = e := if_neg hleave
        rw [heq]
  · rfl
  · rw [addInst_block, if_neg hl]

/-- The operations add to the block at hand, and to blocks of their own. -/
theorem emitOperations_insts (hok : e.Ok p) (ops : List Operation) {l : Nat}
    (hle : l ≤ e.module.builder.uniqueId) (hl : l ≠ e.bb) (hfake : l ≠ p.fake) :
    ((ops.foldl (Emitting.emitOperation p) e).module.block l).insts = (e.module.block l).insts := by
  induction ops generalizing e with
  | nil => rfl
  | cons op ops ih =>
    have hfirst := Emitting.emits_emitOperation hok op
    refine (ih hfirst.ok (hle.trans hfirst.grows.drawn) ?_).trans
      (emitOperation_insts hok op hle hl hfake)
    rcases bb_emitOperation hok op with hbb | hlt
    · rw [hbb]
      exact hl
    · exact Nat.ne_of_lt (lt_of_le_of_lt hle hlt)

/-- After the operations the block at hand is the same or a new one. -/
theorem bb_emitOperations (hok : e.Ok p) (ops : List Operation) :
    (ops.foldl (Emitting.emitOperation p) e).bb = e.bb ∨
      e.module.builder.uniqueId < (ops.foldl (Emitting.emitOperation p) e).bb := by
  induction ops generalizing e with
  | nil => exact .inl rfl
  | cons op ops ih =>
    have hfirst := Emitting.emits_emitOperation hok op
    rcases ih hfirst.ok with hbb | hlt
    · exact (bb_emitOperation hok op).imp hbb.trans fun hlt => hbb ▸ hlt
    · exact .inr (lt_of_le_of_lt hfirst.grows.drawn hlt)

/-- A block that is never reached is new. -/
theorem grows_addUnreachable (k : Nat) (s : SpirvFunction) : Grows k s s.addUnreachable where
  drawn := Nat.le_succ _
  insts l := by
    change (s.block l).insts <+: ((s.addInst s.newBlock .unreachable).block l).insts
    rw [addInst_block]
    split_ifs with h
    · exact h ▸ List.prefix_append _ _
    · exact List.prefix_rfl
  phis l _ _ := addInst_phis ..
  label _ := .inl rfl
  constants _ := .inl
  kept := List.Subset.refl _
  fresh h := by
    refine ⟨fun l hl => ?_, fun n => (h.label n).trans (Nat.le_succ _),
      fun n => (h.id n).trans (Nat.le_succ _), fun i hi => (h.constants i hi).trans (Nat.le_succ _)⟩
    change (s.addInst s.newBlock .unreachable).block l = {}
    have hne : l ≠ s.newBlock := Nat.ne_of_gt hl
    rw [addInst_block, if_neg hne]
    exact h.block l (Nat.lt_of_succ_lt hl)

/-- An unreachable block is a block of its own. -/
theorem addUnreachable_block (s : SpirvFunction) {l : Nat} (hl : l ≠ s.newBlock) :
    s.addUnreachable.block l = s.block l :=
  (addInst_block ..).trans (if_neg hl)

/-- An unreachable block leaves the PHIs. -/
theorem addUnreachable_phis (s : SpirvFunction) (l : Nat) :
    (s.addUnreachable.block l).phis = (s.block l).phis :=
  addInst_phis ..

/-- The merge of a node goes to the end of the block at hand. -/
structure Merged (p : Place) (e : Emitting) (s' : SpirvFunction) : Prop where
  grows : ∀ k, Grows k e.module s'
  label : s'.label = e.module.label
  id : s'.id = e.module.id
  phis : ∀ l, (s'.block l).phis = (e.module.block l).phis
  other : ∀ l ≤ e.module.builder.uniqueId, l ≠ e.bb → l ≠ p.fake →
    (s'.block l).insts = (e.module.block l).insts
  insts : ∃ is, (∀ i ∈ is, i.skipped = true) ∧
    (s'.block e.bb).insts = (e.module.block e.bb).insts ++ is

/-- The merge is emitted at the end of the block at hand. -/
theorem merged_emitMerge (hok : e.Ok p) : Merged p e (e.emitMerge p) := by
  have hsame : Merged p e e.module :=
    ⟨fun k => Grows.refl k _, rfl, rfl, fun _ => rfl, fun _ _ _ _ => rfl, [], List.forall_mem_nil _,
      (List.append_nil _).symm⟩
  unfold Emitting.emitMerge
  split
  next mergeBlock _ _ =>
    refine ⟨fun k => grows_addInst k hok.bb_le _, rfl, rfl, fun l => addInst_phis ..,
      fun l _ hl _ => ?_, [.selectionMerge (e.module.label mergeBlock) p.info.selectionControlMask],
        List.forall_mem_singleton.mpr rfl, ?_⟩
    · rw [addInst_block, if_neg hl]
    · rw [addInst_block, if_pos rfl]
  · have hle : e.bb ≤ e.module.addUnreachable.builder.uniqueId := hok.bb_le.trans (Nat.le_succ _)
    refine ⟨fun k => (grows_addUnreachable k _).trans (grows_addInst k hle _), rfl, rfl,
      fun l => (addInst_phis ..).trans (addUnreachable_phis ..), fun l hle hl _ => ?_,
      [.selectionMerge e.module.newBlock 0], List.forall_mem_singleton.mpr rfl, ?_⟩
    · rw [addInst_block, if_neg hl, addUnreachable_block _ (Nat.ne_of_lt (Nat.lt_succ_of_le hle))]
    · rw [addInst_block, if_pos rfl,
        addUnreachable_block _ (Nat.ne_of_lt (Nat.lt_succ_of_le hok.bb_le))]
  · split_ifs
    · obtain ⟨hgrows, -, hlabel, hid, hother, -, his⟩ :=
        emitLoopHeader_spec e.module p.info p.node hok.bb_ne hok.bb_le hok.fake_le none
      exact ⟨hgrows, hlabel, hid, emitLoopHeader_phis _ _ _ _ _ _,
        fun l _ hl hl' => congrArg SpvBlock.insts (hother l hl hl'), his⟩
    · exact hsame
  · exact hsame

/-- The node goes on where it was. -/
theorem Merged.ok {s' : SpirvFunction} (h : Merged p e s') (hok : e.Ok p) :
    Emitting.Ok p { e with module := s' } where
  fresh := (h.grows 0).fresh hok.fresh
  bb_le := hok.bb_le.trans (h.grows 0).drawn
  bb_ne := hok.bb_ne
  fake_le := hok.fake_le.trans (h.grows 0).drawn
  at_end := by
    change e.rewriteTo = 0 ∧ e.bb = s'.label p.node ∨ e.rewriteTo = e.bb ∧
      s'.id p.node = e.bb ∧ e.bb ≠ 0
    rw [h.label, h.id]
    exact hok.at_end

end Kept

variable {s' : SpirvFunction} {p : Place} {e : Emitting} {t : Terminator} {i : Inst}

/-- The nodes that control can go to. -/
def branchTargets (t : Terminator) : List Nat :=
  match t.type with
  | .branch => t.directBlock.toList
  | .condition => t.trueBlock.toList ++ t.falseBlock.toList
  | .switch => (t.cases.find? (·.isDefault)).toList.map (·.node) ++
      (t.cases.filter (!·.isDefault)).map (·.node)
  | _ => []

/-- The instruction that a node ends with. -/
def closing (s : SpirvFunction) (t : Terminator) : Option Inst :=
  match t.type with
  | .unreachable => some .unreachable
  | .branch => do some (.branch (s.label (← t.directBlock)))
  | .condition => do
      some (.branchConditional t.conditionalId (s.label (← t.trueBlock)) (s.label (← t.falseBlock)))
  | .switch => do
    let default ← t.cases.find? (·.isDefault)
    some (.switch t.conditionalId (s.id default.node)
      ((t.cases.filter (!·.isDefault)).map fun c => (c.value, s.id c.node)))
  | .kill => some .kill
  | .ret => some (.ret t.returnValue)

/-- A loop header that branches into the loop on both sides. -/
def Splits (info : MergeInfo) (t : Terminator) : Prop :=
  t.type = .condition ∧ ∃ trueBlock ∈ t.trueBlock, ∃ falseBlock ∈ t.falseBlock,
    Emitting.splitsHeader info trueBlock falseBlock

/-- A node has its last instruction: in the block at hand, or in a selection of its own, which it is
known by then. -/
structure Closed (p : Place) (e : Emitting) (t : Terminator) (i : Inst)
    (s' : SpirvFunction) : Prop where
  grows : Grows e.module.builder.uniqueId e.module s'
  label : s'.label = e.module.label
  id_of_ne : ∀ n, n ≠ p.node → s'.id n = e.module.id n
  other : ∀ l ≤ e.module.builder.uniqueId, l ≠ e.bb → (s'.block l).insts = (e.module.block l).insts
  shape :
    (s'.id p.node = e.module.id p.node ∧ ∃ is, (∀ i ∈ is, i.skipped = true) ∧
      (s'.block e.bb).insts = (e.module.block e.bb).insts ++ (is ++ [i])) ∨
    (e.rewriteTo = 0 ∧ Splits p.info t ∧ e.module.builder.uniqueId < s'.id p.node ∧
      s'.id p.node ≤ s'.builder.uniqueId ∧
      (s'.block e.bb).insts = (e.module.block e.bb).insts ++ [.branch (s'.id p.node)] ∧
      (s'.block (s'.id p.node)).phis = [] ∧
      ∃ is, (∀ i ∈ is, i.skipped = true) ∧ (s'.block (s'.id p.node)).insts = is ++ [i])

/-- The last instruction goes to the end of the block at hand. -/
theorem closed_addInst (hok : e.Ok p) (t : Terminator) (i : Inst) :
    Closed p e t i (e.module.addInst e.bb i) where
  grows := grows_addInst _ hok.bb_le i
  label := rfl
  id_of_ne _ _ := rfl
  other l _ hl := by rw [addInst_block, if_neg hl]
  shape := .inl ⟨rfl, [], List.forall_mem_nil _, by rw [addInst_block, if_pos rfl]; rfl⟩

/-- The PHIs of other blocks are rewritten once the node has its last instruction. -/
theorem Closed.rewrite (h : Closed p e t i s) {fromId : Nat} (hne : e.rewriteTo ≠ fromId)
    (targets : List Nat) :
    Closed p e t i (Emitting.rewritePhis s fromId e.rewriteTo targets) := by
  obtain ⟨hgrows, hbuilder, hlabel, hid, hinsts, hphis⟩ :=
    @rewritePhis_spec fromId e.rewriteTo s hne targets
  refine ⟨h.grows.trans (hgrows _), hlabel.trans h.label,
    fun n hn => (congrFun hid n).trans (h.id_of_ne n hn),
    fun l hle hl => (hinsts l).trans (h.other l hle hl), ?_⟩
  rw [hid, hinsts, hinsts, hbuilder, hphis]
  rcases h.shape with hdirect | ⟨hzero, hsplits, hlt, hle, hbranch, hempty, his⟩
  · exact .inl hdirect
  · refine .inr ⟨hzero, hsplits, hlt, hle, hbranch, ?_, his⟩
    rw [if_neg fun hrewrite => hrewrite.1 hzero]
    exact hempty

/-- The branches of a conditional terminator. -/
theorem closed_emitCondition (hok : e.Ok p) (htype : t.type = .condition)
    {trueBlock falseBlock : Nat} (htrue : t.trueBlock = some trueBlock)
    (hfalse : t.falseBlock = some falseBlock) :
    Closed p e t
      (.branchConditional t.conditionalId (e.module.label trueBlock) (e.module.label falseBlock))
        (e.emitCondition p t.conditionalId trueBlock falseBlock) ∧
      ∀ l, ((e.emitCondition p t.conditionalId trueBlock falseBlock).block l).phis =
        (e.module.block l).phis := by
  set branch : Inst := .branchConditional t.conditionalId (e.module.label trueBlock)
    (e.module.label falseBlock)
  unfold Emitting.emitCondition
  dsimp only
  split_ifs with hsplits hzero
  · set s := e.module
    have hselection : e.bb ≠ s.newBlock := Nat.ne_of_lt (Nat.lt_succ_of_le hok.bb_le)
    have hunreachable : e.bb ≠ s.drawId.newBlock :=
      Nat.ne_of_lt (Nat.lt_succ_of_le (hok.bb_le.trans (Nat.le_succ _)))
    have hne : s.newBlock ≠ s.drawId.newBlock := Nat.ne_of_lt (Nat.lt_succ_self _)
    set s₁ := ((s.drawId.drawId.addBlock s.newBlock).addBlock s.drawId.newBlock).addInst e.bb
      (.branch s.newBlock)
    set s₂ :=
      (s₁.addInst s.newBlock (.selectionMerge s.drawId.newBlock 0)).addInst s.newBlock branch
    set s₃ := s₂.addInst s.drawId.newBlock .unreachable
    have hgrows : Grows s.builder.uniqueId s s₃ := by
      have hbb : e.bb ≤
          ((s.drawId.drawId.addBlock s.newBlock).addBlock s.drawId.newBlock).builder.uniqueId :=
        hok.bb_le.trans (Nat.le_add_right _ 2)
      have h₁ : Grows s.builder.uniqueId s s₁ :=
        ((((grows_drawId _ _).trans (grows_drawId _ _)).trans (grows_addBlock _ _ _)).trans
          (grows_addBlock _ _ _)).trans
          (grows_addInst _ hbb _)
      have hle : s.newBlock ≤ s₁.builder.uniqueId := Nat.le_succ _
      have h₂ : Grows s.builder.uniqueId s₁ s₂ := grows_addInsts _ hle _ _
      exact (h₁.trans h₂).trans (grows_addInst _ (Nat.le_refl s.drawId.newBlock) _)
    have hset :
        Grows s.builder.uniqueId s₃ { s₃ with id := Function.update s.id p.node s.newBlock } := by
      refine grows_setId _ fun n => ?_
      by_cases hn : n = p.node
      · exact .inr (by rw [hn, Function.update_self]; exact Nat.le_succ _)
      · exact .inl (Function.update_of_ne hn _ _)
    have hphis (l : Nat) : (s₃.block l).phis = (s.block l).phis := by
      rw [addInst_phis, addInst_phis, addInst_phis, addInst_phis, addBlock_block, addBlock_block,
        drawId_block, drawId_block]
    have hempty : s.block s.newBlock = {} := hok.fresh.block _ (Nat.lt_succ_self _)
    refine ⟨⟨hgrows.trans hset, rfl, fun n hn => Function.update_of_ne hn _ _, fun l hle hl => ?_,
      .inr ⟨hzero, ⟨htype, trueBlock, htrue, falseBlock, hfalse, hsplits⟩, ?_⟩⟩, hphis⟩
    · have hl₁ : l ≠ s.newBlock := Nat.ne_of_lt (Nat.lt_succ_of_le hle)
      have hl₂ : l ≠ s.drawId.newBlock :=
        Nat.ne_of_lt (Nat.lt_succ_of_le (hle.trans (Nat.le_succ _)))
      rw [addInst_block, if_neg hl₂, addInst_block, if_neg hl₁, addInst_block, if_neg hl₁,
        addInst_block, if_neg hl]
      rfl
    dsimp only
    rw [Function.update_self]
    refine ⟨Nat.lt_succ_self _, Nat.le_succ _, ?_, ?_, [.selectionMerge s.drawId.newBlock 0],
      List.forall_mem_singleton.mpr rfl, ?_⟩
    · rw [addInst_block, if_neg hunreachable, addInst_block, if_neg hselection, addInst_block,
        if_neg hselection,
        addInst_block, if_pos rfl, addBlock_block, addBlock_block, drawId_block, drawId_block]
    · rw [hphis, hempty]
    · rw [addInst_block, if_neg hne, addInst_block, if_pos rfl, addInst_block, if_pos rfl,
        addInst_block,
        if_neg hselection.symm, addBlock_block, addBlock_block, drawId_block, drawId_block, hempty]
      rfl
  · have hbb : e.bb ≤ e.module.addUnreachable.builder.uniqueId := hok.bb_le.trans (Nat.le_succ _)
    refine ⟨⟨(grows_addUnreachable _ _).trans (grows_addInsts _ hbb _ _), rfl,
      fun _ _ => rfl, fun l hle hl => ?_,
      .inl ⟨rfl, [.selectionMerge e.module.newBlock 0], List.forall_mem_singleton.mpr rfl, ?_⟩⟩,
        fun l => ?_⟩
    · rw [addInst_block, if_neg hl, addInst_block, if_neg hl,
        addUnreachable_block _ (Nat.ne_of_lt (Nat.lt_succ_of_le hle))]
    · rw [addInst_block, if_pos rfl, addInst_block, if_pos rfl,
        addUnreachable_block _ (Nat.ne_of_lt (Nat.lt_succ_of_le hok.bb_le)), List.append_assoc]
    · rw [addInst_phis, addInst_phis, addUnreachable_phis]
  · exact ⟨closed_addInst hok t branch, fun l => addInst_phis ..⟩

/-- A terminator that control does not leave the function by, or leaves it for good. -/
theorem closed_of_ends (hok : e.Ok p) (hemit : e.module.addInst e.bb i = s')
    (hnone : branchTargets t = []) (fromId : Nat) : Closed p e t i s' ∧ ∀ l, (s'.block l).phis =
      if e.rewriteTo ≠ 0 ∧ l ∈ (branchTargets t).map e.module.label then
        (e.module.block l).phis.map (rewriteIncoming fromId e.rewriteTo)
      else (e.module.block l).phis := by
  rw [← hemit]
  refine ⟨closed_addInst hok t i, fun l => (addInst_phis ..).trans (if_neg fun h => ?_).symm⟩
  rw [hnone] at h
  exact List.not_mem_nil h.2

/-- The last instruction of a node, and what becomes of the PHIs of the nodes it branches to. -/
theorem closed_emitTerminator {fromId : Nat} (hok : e.Ok p) (hne : e.rewriteTo ≠ fromId)
    (hemit : e.emitTerminator p t fromId = some s') :
    ∃ i, closing e.module t = some i ∧ Closed p e t i s' ∧ ∀ l, (s'.block l).phis =
      if e.rewriteTo ≠ 0 ∧ l ∈ (branchTargets t).map e.module.label then
        (e.module.block l).phis.map (rewriteIncoming fromId e.rewriteTo)
      else (e.module.block l).phis := by
  unfold Emitting.emitTerminator at hemit
  cases htype : t.type with
  | unreachable =>
    simp only [htype, Option.some.injEq] at hemit
    exact ⟨.unreachable, by simp only [closing, htype], closed_of_ends hok hemit
      (by simp only [branchTargets, htype]) _⟩
  | kill =>
    simp only [htype, Option.some.injEq] at hemit
    exact ⟨.kill, by simp only [closing, htype],
      closed_of_ends hok hemit (by simp only [branchTargets, htype]) _⟩
  | ret =>
    simp only [htype, Option.some.injEq] at hemit
    obtain ⟨hclosed, hphis⟩ := @closed_of_ends _ p e t (.ret t.returnValue) hok rfl
      (by simp only [branchTargets, htype]) fromId
    refine ⟨.ret t.returnValue, by simp only [closing, htype], ?_, fun l => ?_⟩
    · rw [← hemit]
      exact ⟨(hclosed.grows.trans (grows_addBlock _ _ _)).trans (grows_drawId _ _), rfl,
        fun _ _ => rfl, hclosed.other,
        .inl (hclosed.shape.resolve_right fun h => absurd (h.2.1.1.symm.trans htype) (by decide))⟩
    · rw [← hemit]
      exact hphis l
  | branch =>
    simp only [htype, Option.bind_eq_bind, Option.bind_eq_some_iff, Option.some.injEq] at hemit
    obtain ⟨target, htarget, rfl⟩ := hemit
    have hclosed := closed_addInst hok t (.branch (e.module.label target))
    obtain ⟨-, -, -, -, -, hphis⟩ :=
      @rewritePhis_spec fromId e.rewriteTo
        (e.module.addInst e.bb (.branch (e.module.label target))) hne [target]
    refine ⟨_, by simp [closing, htype, htarget], hclosed.rewrite hne _,
      fun l => (hphis l).trans ?_⟩
    rw [addInst_phis, addInst_label]
    simp only [branchTargets, htype, htarget, Option.toList_some]
  | condition =>
    simp only [htype, Option.bind_eq_bind, Option.bind_eq_some_iff, Option.some.injEq] at hemit
    obtain ⟨trueBlock, htrue, falseBlock, hfalse, rfl⟩ := hemit
    obtain ⟨hclosed, hsame⟩ := closed_emitCondition hok htype htrue hfalse
    obtain ⟨-, -, -, -, -, hphis⟩ := @rewritePhis_spec fromId e.rewriteTo
      (e.emitCondition p t.conditionalId trueBlock falseBlock) hne [trueBlock, falseBlock]
    refine ⟨_, by simp [closing, htype, htrue, hfalse], hclosed.rewrite hne _,
      fun l => (hphis l).trans ?_⟩
    rw [hsame, hclosed.label]
    simp only [branchTargets, htype, htrue, hfalse, Option.toList_some, List.singleton_append]
  | switch =>
    simp only [htype, Option.bind_eq_bind, Option.bind_eq_some_iff, Option.some.injEq] at hemit
    obtain ⟨default, hdefault, rfl⟩ := hemit
    set targets := default.node :: (t.cases.filter fun c => !c.isDefault).map (·.node) with htargets
    obtain ⟨hgrows, hbuilder, hlabel, hid, hinsts, hphis⟩ :=
      @rewritePhis_spec fromId e.rewriteTo e.module hne targets
    set s₁ := Emitting.rewritePhis e.module fromId e.rewriteTo targets
    have hbb : e.bb ≤ s₁.builder.uniqueId := hbuilder ▸ hok.bb_le
    refine ⟨.switch t.conditionalId (e.module.id default.node)
        ((t.cases.filter (!·.isDefault)).map fun c =>
      (c.value, e.module.id c.node)), by simp [closing, htype, hdefault],
        ⟨(hgrows _).trans (grows_addInst _ hbb _), hlabel,
      fun n _ => congrFun hid n, fun l _ hl => ?_,
        .inl ⟨congrFun hid _, [], List.forall_mem_nil _, ?_⟩⟩, fun l => ?_⟩
    · rw [addInst_block, if_neg hl, hinsts]
    · rw [addInst_block, if_pos rfl, hid]
      exact congrArg (· ++ _) (hinsts e.bb)
    · rw [addInst_phis, hphis]
      simp only [htargets, branchTargets, htype, hdefault, Option.toList_some, List.map_cons,
        List.map_nil, List.singleton_append]

variable {V W : Type} {K : Nat} {null : Nat → V} {builder : Spv.Builder} {c c' : Config V W}
  {m : Machine V W}

/-- The ids of a terminator are those of a program. -/
structure TerminatorBelow (K : Nat) (t : Terminator) : Prop where
  condition : t.type = .condition ∨ t.type = .switch → 0 < t.conditionalId ∧ t.conditionalId ≤ K
  returnValue : t.returnValue ≤ K

/-- Control goes to one of the targets. -/
theorem next_mem {env : Env V} {n : Nat} (hn : m.next t env = some n) : n ∈ branchTargets t := by
  unfold Machine.next at hn
  unfold branchTargets
  cases htype : t.type <;> rw [htype] at hn <;> dsimp only at hn ⊢
  case unreachable | kill | ret => exact absurd hn.symm (Option.some_ne_none n)
  case branch => exact Option.mem_toList.mpr hn
  case condition =>
    split_ifs at hn
    · exact List.mem_append_left _ (Option.mem_toList.mpr hn)
    · exact List.mem_append_right _ (Option.mem_toList.mpr hn)
  case switch =>
    obtain ⟨k, hk, rfl⟩ := Option.map_eq_some_iff.mp hn
    rcases Option.or_eq_some_iff.mp hk with hk | ⟨-, hk⟩
    · have hfound := List.find?_some hk
      simp only [Bool.and_eq_true] at hfound
      exact List.mem_append_right _ (List.mem_map_of_mem
        (List.mem_filter.mpr ⟨List.mem_of_find?_eq_some hk, hfound.1⟩))
    · exact List.mem_append_left _ (List.mem_map_of_mem (Option.mem_toList.mpr hk))

/-- Control goes somewhere, unless the function ends. -/
theorem exists_next (hclosing : closing s t = some i) {env : Env V}
    (hending : endingOf t env = none) :
    ∃ n, m.next t env = some n := by
  unfold closing at hclosing
  unfold endingOf at hending
  unfold Machine.next
  cases htype : t.type <;> rw [htype] at hclosing hending <;> dsimp only at hending ⊢
  case unreachable | kill | ret => exact absurd hending (Option.some_ne_none _)
  case branch =>
    obtain ⟨target, htarget, -⟩ := Option.bind_eq_some_iff.mp hclosing
    exact ⟨target, htarget⟩
  case condition =>
    obtain ⟨trueBlock, htrue, hi⟩ := Option.bind_eq_some_iff.mp hclosing
    obtain ⟨falseBlock, hfalse, -⟩ := Option.bind_eq_some_iff.mp hi
    split_ifs
    · exact ⟨trueBlock, htrue⟩
    · exact ⟨falseBlock, hfalse⟩
  case switch =>
    obtain ⟨default, hdefault, -⟩ := Option.bind_eq_some_iff.mp hclosing
    rw [hdefault]
    cases t.cases.find? fun k => !k.isDefault && k.value == m.word (env t.conditionalId) with
    | none => exact ⟨default.node, rfl⟩
    | some k => exact ⟨k.node, rfl⟩

/-- Where a switch goes: the first label of its word, or the default. -/
theorem switchTarget_map (id : Nat → Nat) (word : BitVec 32) {cases : List TerminatorCase}
    {default : TerminatorCase} (hdefault : cases.find? (·.isDefault) = some default) {n : Nat}
    (hn : ((cases.find? fun k => !k.isDefault && k.value == word).or
      (cases.find? fun k => k.isDefault)).map (·.node) = some n) :
    switchTarget word (id default.node)
      ((cases.filter (!·.isDefault)).map fun c => (c.value, id c.node)) = id n := by
  unfold switchTarget
  rw [List.find?_map, List.find?_filter]
  have hsame : (fun a : TerminatorCase => decide ((!a.isDefault) = true ∧
      ((fun c : BitVec 32 × Nat => c.1 == word) ∘ fun c : TerminatorCase =>
        (c.value, id c.node)) a = true)) =
      fun k => !k.isDefault && k.value == word := by
    funext a
    rw [Bool.eq_iff_iff]
    simp
  rw [hsame]
  cases hfind : cases.find? fun k => !k.isDefault && k.value == word with
  | none =>
    rw [hfind, hdefault] at hn
    rw [← Option.some.inj hn]
    rfl
  | some k =>
    rw [hfind] at hn
    rw [← Option.some.inj hn]
    rfl

/-- The last instruction ends the function as the terminator does, or goes to the first block of the
next node. -/
theorem step_closing (hclosing : closing s t = some i) (hbelow : TerminatorBelow K t)
    (hcases : t.type = .switch → ∀ n ∈ branchTargets t, s.id n = s.label n)
    (hagree : Agree K null builder c c') (blocks : Nat → SpvBlock) (l : Nat) (rest : List Inst) :
    (∀ ending, endingOf t c.env = some ending →
      step m blocks ⟨l, i :: rest, c'⟩ = .inr (outcome c ending)) ∧
      ∀ n, m.next t c.env = some n →
        step m blocks ⟨l, i :: rest, c'⟩ = .inl (arrive blocks l (s.label n) c') := by
  unfold closing at hclosing
  have hcondition (h : t.type = .condition ∨ t.type = .switch) :
      c'.env t.conditionalId = c.env t.conditionalId :=
    hagree.env _ (hbelow.condition h).1 (hbelow.condition h).2
  unfold endingOf Machine.next
  cases htype : t.type <;> rw [htype] at hclosing
  case unreachable | kill =>
    obtain rfl := Option.some.inj hclosing
    refine ⟨fun ending hending => ?_, fun n hn => absurd hn.symm (Option.some_ne_none n)⟩
    rw [← Option.some.inj hending, ← hagree.outcome]
    rfl
  case ret =>
    obtain rfl := Option.some.inj hclosing
    refine ⟨fun ending hending => ?_, fun n hn => absurd hn.symm (Option.some_ne_none n)⟩
    have hvalue : returned c'.env t.returnValue = returned c.env t.returnValue := by
      unfold returned
      split_ifs with hzero
      · rfl
      · rw [hagree.env _ (Nat.pos_of_ne_zero hzero) hbelow.returnValue]
    rw [← Option.some.inj hending, ← hagree.outcome, ← hvalue]
    rfl
  case branch =>
    obtain ⟨target, htarget, hi⟩ := Option.bind_eq_some_iff.mp hclosing
    obtain rfl := Option.some.inj hi
    refine ⟨fun ending hending => absurd hending.symm (Option.some_ne_none ending), fun n hn => ?_⟩
    obtain rfl := Option.some.inj (htarget.symm.trans hn)
    rfl
  case condition =>
    obtain ⟨trueBlock, htrue, hi⟩ := Option.bind_eq_some_iff.mp hclosing
    obtain ⟨falseBlock, hfalse, hi⟩ := Option.bind_eq_some_iff.mp hi
    obtain rfl := Option.some.inj hi
    refine ⟨fun ending hending => absurd hending.symm (Option.some_ne_none ending), fun n hn => ?_⟩
    have hstep : step m blocks ⟨l, .branchConditional t.conditionalId (s.label trueBlock)
        (s.label falseBlock) :: rest, c'⟩ =
      .inl (arrive blocks l
        (if m.truth (c'.env t.conditionalId) then s.label trueBlock else s.label falseBlock) c') :=
          rfl
    rw [hstep, hcondition (.inl htype)]
    dsimp only at hn ⊢
    cases hholds : m.truth (c.env t.conditionalId) <;> rw [hholds] at hn
    case false => rw [Option.some.inj (hfalse.symm.trans hn)]; rfl
    case true => rw [Option.some.inj (htrue.symm.trans hn)]; rfl
  case switch =>
    obtain ⟨default, hdefault, hi⟩ := Option.bind_eq_some_iff.mp hclosing
    obtain rfl := Option.some.inj hi
    refine ⟨fun ending hending => absurd hending.symm (Option.some_ne_none ending), fun n hn => ?_⟩
    have hstep (cases : List (BitVec 32 × Nat)) :
      step m blocks ⟨l, .switch t.conditionalId (s.id default.node) cases :: rest, c'⟩ =
        .inl (arrive blocks l (switchTarget (m.word (c'.env t.conditionalId)) (s.id default.node)
          cases) c') := rfl
    rw [hstep, hcondition (.inr htype)]
    dsimp only at hn ⊢
    have hmem : m.next t c.env = some n := by
      rw [Machine.next, htype]
      exact hn
    rw [switchTarget_map s.id _ hdefault hn, hcases htype n (next_mem hmem)]

end DxilSpirv.Emission
