import DxilSpirv.Emission.Branches

/-!
# What emitted nodes do

From its first block, a node does what its operations and its terminator do, and control leaves it
from the block that it is known by then, for the first block of the next node.
-/

namespace DxilSpirv.Emission

open SpirvFunction Program

variable {s : SpirvFunction} {p : Place}

/-- A PHI as it is emitted: its blocks are named by their ids, and a block that stands in for one
comes last. -/
def NamedBy (id : Nat → Nat) (fake : Nat) (phi phi' : PHI) : Prop :=
  phi'.id = phi.id ∧ ∃ extra,
    phi'.incoming = phi.incoming.map (fun i => ⟨id i.block, i.id⟩) ++ extra ∧
    ∀ i ∈ extra, i.block = fake ∧ fake ≠ 0

/-- What the emission of PHIs changes. -/
structure PhisEmitted (p : Place) (s : SpirvFunction) (phis : List PHI)
    (s' : SpirvFunction) : Prop where
  grows : Grows s.builder.uniqueId s s'
  label : s'.label = s.label
  id : s'.id = s.id
  insts : ∀ l, l ≠ p.fake → (s'.block l).insts = (s.block l).insts
  other : ∀ l, l ≠ s.label p.node → (s'.block l).phis = (s.block l).phis
  phis : ∃ emitted, (s'.block (s.label p.node)).phis = (s.block (s.label p.node)).phis ++ emitted ∧
    List.Forall₂ (NamedBy s.id p.fake) (phis.filter (·.id ≠ 0)) emitted

@[simp] theorem relax_block (s : SpirvFunction) (phi : PHI) : (s.relax phi).block = s.block := by
  unfold relax
  split_ifs <;> rfl

@[simp] theorem relax_label (s : SpirvFunction) (phi : PHI) : (s.relax phi).label = s.label := by
  unfold relax
  split_ifs <;> rfl

@[simp] theorem relax_id (s : SpirvFunction) (phi : PHI) : (s.relax phi).id = s.id := by
  unfold relax
  split_ifs <;> rfl

/-- To relax the precision of a PHI draws no id. -/
theorem relax_uniqueId (s : SpirvFunction) (phi : PHI) :
    (s.relax phi).builder.uniqueId = s.builder.uniqueId := by
  unfold relax
  split_ifs <;> rfl

/-- A PHI goes to the end of those of the first block. -/
theorem phisEmitted_addPhi (hs : s.Fresh) {phi phi' : PHI} (hid : phi.id ≠ 0)
    (hnamed : NamedBy s.id p.fake phi phi') (relaxed : PHI) :
    PhisEmitted p s [phi] ((s.relax relaxed).addPhi (s.label p.node) phi') where
  grows := by
    have hle : s.label p.node ≤ (s.relax relaxed).builder.uniqueId := by
      rw [relax_uniqueId]
      exact hs.label p.node
    exact (grows_relax _ s relaxed).trans (grows_addPhi hle (.inr ⟨p.node, by rw [relax_label]⟩) _)
  label := relax_label s relaxed
  id := relax_id s relaxed
  insts l _ := by
    rw [addPhi_block]
    split_ifs with h
    · rw [h, relax_block]
    · rw [relax_block]
  other l hl := by rw [addPhi_block, if_neg hl, relax_block]
  phis := by
    refine ⟨[phi'], ?_, ?_⟩
    · rw [addPhi_block, if_pos rfl, relax_block]
    · have hfilter : [phi].filter (·.id ≠ 0) = [phi] := by simp [hid]
      rw [hfilter]
      exact .cons hnamed .nil

/-- One PHI is emitted. -/
theorem phisEmitted_emitPhi (hs : s.Fresh) (hfake : p.fake ≤ s.builder.uniqueId) (phi : PHI) :
    PhisEmitted p s [phi] (s.emitPhi p phi) := by
  unfold emitPhi
  dsimp only
  split_ifs with hzero hstand
  · refine ⟨Grows.refl _ _, rfl, rfl, fun _ _ => rfl, fun _ _ => rfl, [],
      (List.append_nil _).symm, ?_⟩
    have hfilter : [phi].filter (·.id ≠ 0) = [] := by simp [hzero]
    rw [hfilter]
    exact .nil
  · have hdraw := grows_drawId s.builder.uniqueId s
    have hundef := grows_addInst s.builder.uniqueId
        (show p.fake ≤ s.drawId.builder.uniqueId from hfake.trans (Nat.le_succ _))
      (.undef s.newBlock phi.typeId)
    have hadd := @phisEmitted_addPhi _ p (hundef.fresh (hdraw.fresh hs)) phi
      { phi with incoming := phi.incoming.map (fun i => ⟨s.id i.block, i.id⟩) ++
        [⟨p.fake, s.newBlock⟩] } hzero
      ⟨rfl, [⟨p.fake, s.newBlock⟩], rfl, List.forall_mem_singleton.mpr ⟨rfl, hstand.1⟩⟩ phi
    refine ⟨(hdraw.trans hundef).trans (hadd.grows.mono (Nat.le_succ _)), hadd.label, hadd.id,
      fun l hl => ?_, fun l hl => (hadd.other l hl).trans ?_, ?_⟩
    · refine (hadd.insts l hl).trans ?_
      rw [addInst_block, if_neg hl, drawId_block]
    · rw [addInst_phis, drawId_block]
    · obtain ⟨emitted, hemitted, hall⟩ := hadd.phis
      refine ⟨emitted, hemitted.trans ?_, hall⟩
      rw [addInst_phis]
      rfl
  · have hnamed : NamedBy s.id p.fake phi { phi with incoming := phi.incoming.map fun i =>
        ⟨s.id i.block, i.id⟩ } :=
      ⟨rfl, [], (List.append_nil _).symm, List.forall_mem_nil _⟩
    exact phisEmitted_addPhi hs hzero hnamed phi

/-- The PHIs of a node are emitted in order. -/
theorem phisEmitted_emitPhis (hs : s.Fresh) (hfake : p.fake ≤ s.builder.uniqueId)
    (phis : List PHI) : PhisEmitted p s phis (phis.foldl (fun s phi => s.emitPhi p phi) s) := by
  induction phis generalizing s with
  | nil =>
    exact ⟨Grows.refl _ _, rfl, rfl, fun _ _ => rfl, fun _ _ => rfl, [],
      (List.append_nil _).symm, .nil⟩
  | cons phi phis ih =>
    have hfirst := phisEmitted_emitPhi hs hfake phi
    have hrest := ih (hfirst.grows.fresh hs) (hfake.trans hfirst.grows.drawn)
    rw [List.foldl_cons]
    refine ⟨hfirst.grows.trans (hrest.grows.mono hfirst.grows.drawn),
      hrest.label.trans hfirst.label,
      hrest.id.trans hfirst.id, fun l hl => (hrest.insts l hl).trans (hfirst.insts l hl),
        fun l hl => ?_, ?_⟩
    · refine (hrest.other l ?_).trans (hfirst.other l hl)
      rw [hfirst.label]
      exact hl
    · obtain ⟨emitted, hemitted, hall⟩ := hfirst.phis
      obtain ⟨emitted', hemitted', hall'⟩ := hrest.phis
      rw [hfirst.label, hemitted, List.append_assoc] at hemitted'
      rw [hfirst.id] at hall'
      refine ⟨emitted ++ emitted', hemitted', ?_⟩
      rw [← List.singleton_append, List.filter_append]
      exact List.rel_append hall hall'

variable {s' : SpirvFunction} {node : Nat} {ir : IRBlock} {info : MergeInfo}

/-- The nodes that control can leave a node for: none, where one of its operations ends the
function. -/
def exits (ir : IRBlock) : List Nat :=
  if ir.operations.any fun op => decide (op.op ∈ implicitTerminators) then []
    else branchTargets ir.terminator

/-- What holds of a node that comes next: it has a first block, by which it is known and which is
empty. -/
structure Ready (s : SpirvFunction) (node : Nat) : Prop where
  fresh : s.Fresh
  label : s.label node ≠ 0
  id : s.id node = s.label node
  empty : s.block (s.label node) = {}

/-- The steps of the emission of a node: its PHIs, its operations, its merge and its terminator. -/
structure Stages (s : SpirvFunction) (node : Nat) (ir : IRBlock) (info : MergeInfo)
    (s' : SpirvFunction) (p : Place) (start last : Emitting) : Prop where
  node_eq : p.node = node
  info_eq : p.info = info
  fake : p.fake ≠ 0 → s.builder.uniqueId < p.fake
  phis : PhisEmitted p s ir.phi start.module
  ok : start.Ok p
  bb : start.bb = s.label node
  rewriteTo : start.rewriteTo = 0
  implicit : start.implicitTerminator = false
  operations : ir.operations.foldl (Emitting.emitOperation p) start = last
  ends : last.implicitTerminator = true ∧ (∃ markError, s' = { last.module with markError }) ∨
    last.implicitTerminator = false ∧
      Emitting.emitTerminator p { last with module := last.emitMerge p } ir.terminator
        (s.label node) = some s'

/-- A node that is emitted goes through all stages. -/
theorem exists_stages (h : Ready s node) (hemit : s.emitBasicBlock node ir info = some s') :
    ∃ p start last, Stages s node ir info s' p start last := by
  unfold emitBasicBlock at hemit
  set p : Place := { node, info, fake := if needsFake info then s.newBlock else 0 }
  set s₀ := if needsFake info then s.drawId else s with hs₀
  set s₁ := ir.phi.foldl (fun s phi => s.emitPhi p phi) s₀
  have hgrows₀ : Grows s.builder.uniqueId s s₀ := by
    rw [hs₀]
    split_ifs
    · exact grows_drawId _ _
    · exact Grows.refl _ _
  have hsame : s₀.block = s.block ∧ s₀.label = s.label ∧ s₀.id = s.id := by
    rw [hs₀]
    split_ifs <;> exact ⟨rfl, rfl, rfl⟩
  have hfake : p.fake ≤ s₀.builder.uniqueId ∧ (p.fake ≠ 0 → s.builder.uniqueId < p.fake) := by
    change (if needsFake info then s.newBlock else 0) ≤ s₀.builder.uniqueId ∧
      ((if needsFake info then s.newBlock else 0) ≠ 0 → s.builder.uniqueId < if needsFake info
        then s.newBlock else 0)
    rw [hs₀]
    split_ifs
    · exact ⟨le_rfl, fun _ => Nat.lt_succ_self _⟩
    · exact ⟨Nat.zero_le _, fun hne => absurd rfl hne⟩
  have hphis := phisEmitted_emitPhis (hgrows₀.fresh h.fresh) hfake.1 ir.phi
  have hbb : s₁.label node = s.label node :=
    (congrFun hphis.label node).trans (congrFun hsame.2.1 node)
  have hok : Emitting.Ok p { module := s₁, bb := s₁.label node } := by
    refine ⟨hphis.grows.fresh (hgrows₀.fresh h.fresh), ?_, ?_, hfake.1.trans hphis.grows.drawn,
      .inl ⟨rfl, rfl⟩⟩
    · exact (hphis.grows.fresh (hgrows₀.fresh h.fresh)).label node
    · intro heq
      have hstand : s.label node = p.fake := hbb.symm.trans heq
      have hlt := hfake.2 fun hzero => h.label (hstand.trans hzero)
      exact Nat.not_le_of_lt hlt (hstand ▸ h.fresh.label node)
  refine ⟨p, { module := s₁, bb := s₁.label node }, _, rfl, rfl, hfake.2, ?_, hok, hbb, rfl,
    rfl, rfl, ?_⟩
  · refine ⟨hgrows₀.trans (hphis.grows.mono hgrows₀.drawn), hphis.label.trans hsame.2.1,
      hphis.id.trans hsame.2.2,
      fun l hl => (hphis.insts l hl).trans (by rw [hsame.1]), fun l hl => ?_, ?_⟩
    · refine (hphis.other l ?_).trans (by rw [hsame.1])
      rw [hsame.2.1]
      exact hl
    · have hall := hphis.phis
      rw [hsame.1, hsame.2.1, hsame.2.2] at hall
      exact hall
  · have hid : s₁.id node = s.label node :=
      ((congrFun hphis.id node).trans (congrFun hsame.2.2 node)).trans h.id
    rw [← hid]
    dsimp only at hemit
    split_ifs at hemit with himplicit
    · exact .inl ⟨himplicit, _, (Option.some.inj hemit).symm⟩
    · exact .inr ⟨Bool.eq_false_of_not_eq_true himplicit, hemit⟩

variable {start last : Emitting}

/-- What the emission of a node does to labels, ids, PHIs and the instructions of other blocks. The
label `toId` is the one that PHIs are rewritten to, zero if none. -/
structure NodeEmitted (s : SpirvFunction) (node : Nat) (ir : IRBlock) (info : MergeInfo)
    (s' : SpirvFunction) (fake toId : Nat) (emitted : List PHI) : Prop where
  grows : Grows s.builder.uniqueId s s'
  label : s'.label = s.label
  id_of_ne : ∀ n, n ≠ node → s'.id n = s.id n
  fake_new : fake ≤ s'.builder.uniqueId ∧ (fake ≠ 0 → s.builder.uniqueId < fake)
  id_node : toId = 0 ∧ s'.id node = s.label node ∨
    (toId = s'.id node ∨ toId = 0 ∧ Splits info ir.terminator) ∧ s.builder.uniqueId < s'.id node ∧
      fake < s'.id node
  insts : ∀ l ≤ s.builder.uniqueId, l ≠ 0 → l ≠ s.label node →
    (s'.block l).insts = (s.block l).insts
  named : List.Forall₂ (NamedBy s.id fake) (ir.phi.filter (·.id ≠ 0)) emitted
  phis : ∀ l ≤ s.builder.uniqueId, (s'.block l).phis =
    if toId ≠ 0 ∧ l ∈ (exits ir).map s.label then
      (if l = s.label node then emitted else (s.block l).phis).map
        (rewriteIncoming (s.label node) toId)
    else if l = s.label node then emitted else (s.block l).phis

/-- What the steps up to the last operation do. -/
theorem Stages.emits (h : Stages s node ir info s' p start last) : Emitting.Emits p start last :=
  h.operations ▸ Emitting.emits_emitOperations h.ok ir.operations

/-- The block that PHIs are rewritten to is not the first block of the node. -/
theorem Stages.rewriteTo_ne (h : Stages s node ir info s' p start last) (hs : Ready s node) :
    last.rewriteTo ≠ s.label node := by
  rcases h.emits.id with ⟨hto, -⟩ | hlt
  · rw [hto, h.rewriteTo]
    exact hs.label.symm
  · exact Nat.ne_of_gt (lt_of_le_of_lt ((hs.fresh.label node).trans h.phis.grows.drawn) hlt)

/-- The block of a fake loop is none of the blocks before. -/
theorem Stages.ne_fake (h : Stages s node ir info s' p start last) {l : Nat}
    (hle : l ≤ s.builder.uniqueId) (hl : l ≠ 0) : l ≠ p.fake := by
  intro heq
  exact Nat.not_le_of_lt (h.fake (heq ▸ hl)) (heq ▸ hle)

/-- The instructions of blocks that were there before stay, but for the first block of the node. -/
theorem Stages.insts (h : Stages s node ir info s' p start last) {l : Nat}
    (hle : l ≤ s.builder.uniqueId) (hzero : l ≠ 0) (hl : l ≠ s.label node) :
    (last.module.block l).insts = (s.block l).insts := by
  have hfake := h.ne_fake hle hzero
  rw [← h.operations]
  refine (emitOperations_insts h.ok ir.operations (hle.trans h.phis.grows.drawn) ?_ hfake).trans
    (h.phis.insts l hfake)
  rw [h.bb]
  exact hl

/-- The block at hand is the first one, or new. -/
theorem Stages.last_bb (h : Stages s node ir info s' p start last) :
    last.bb = s.label node ∨ s.builder.uniqueId < last.bb := by
  rw [← h.operations]
  rcases bb_emitOperations h.ok ir.operations with hbb | hlt
  · exact .inl (hbb.trans h.bb)
  · exact .inr (lt_of_le_of_lt h.phis.grows.drawn hlt)

/-- The operations of a node leave the PHIs of the blocks before. -/
theorem Stages.phis_last (h : Stages s node ir info s' p start last) {l : Nat}
    (hle : l ≤ s.builder.uniqueId) :
    (last.module.block l).phis = (start.module.block l).phis := by
  rw [← h.operations]
  exact emitOperations_phis h.ok ir.operations (hle.trans h.phis.grows.drawn)

/-- To mark an error emits nothing. -/
theorem grows_markError (k : Nat) (s : SpirvFunction) (markError : Bool) :
    Grows k s { s with markError } :=
  ⟨le_rfl, fun _ => List.prefix_rfl, fun _ _ _ => rfl, fun _ => .inl rfl, fun _ => .inl,
    List.Subset.refl _, fun h => ⟨h.block, h.label, h.id, h.constants⟩⟩

/-- The node is known by its first block, or by a new one that PHIs are to be rewritten to. -/
theorem Stages.id_last (h : Stages s node ir info s' p start last) (hs : Ready s node) :
    last.rewriteTo = 0 ∧ last.module.id node = s.label node ∨
      last.rewriteTo = last.module.id node ∧ s.builder.uniqueId < last.module.id node ∧
        p.fake < last.module.id node := by
  rcases h.emits.id with ⟨hto, hid⟩ | hlt
  · rw [h.node_eq] at hid
    exact .inl ⟨hto.trans h.rewriteTo, hid.trans ((congrFun h.phis.id node).trans hs.id)⟩
  · rcases h.emits.ok.at_end with ⟨hto, -⟩ | ⟨hto, hid, -⟩
    · exact absurd hlt (hto ▸ Nat.not_lt_zero _)
    · rw [h.node_eq] at hid
      have heq : last.rewriteTo = last.module.id node := hto.trans hid.symm
      exact .inr ⟨heq, heq ▸ lt_of_le_of_lt h.phis.grows.drawn hlt,
        heq ▸ lt_of_le_of_lt h.ok.fake_le hlt⟩

/-- A node that went through all stages is emitted. -/
theorem nodeEmitted_of_stages (h : Stages s node ir info s' p start last) (hs : Ready s node) :
    ∃ fake toId emitted, NodeEmitted s node ir info s' fake toId emitted := by
  obtain ⟨emitted, hemitted, hnamed⟩ := h.phis.phis
  rw [h.node_eq, hs.empty] at hemitted
  have hemits := h.emits
  have hgrows : Grows s.builder.uniqueId s last.module :=
    h.phis.grows.trans (hemits.grows.mono h.phis.grows.drawn)
  have hlabel : last.module.label = s.label := hemits.label.trans h.phis.label
  have hid (n : Nat) (hn : n ≠ node) : last.module.id n = s.id n :=
    (hemits.id_of_ne n (h.node_eq ▸ hn)).trans (congrFun h.phis.id n)
  have hphis (l : Nat) (hle : l ≤ s.builder.uniqueId) :
      (last.module.block l).phis = if l = s.label node then emitted else (s.block l).phis := by
    rw [h.phis_last hle]
    split_ifs with hl
    · rw [hl]
      exact hemitted
    · exact h.phis.other l (by rw [h.node_eq]; exact hl)
  have hany : last.implicitTerminator = ir.operations.any fun op =>
      decide (op.op ∈ implicitTerminators) := by
    rw [← h.operations, implicit_emitOperations h.ok, h.implicit, Bool.false_or]
  rcases h.ends with ⟨himplicit, markError, rfl⟩ | ⟨himplicit, hterminator⟩
  · have hexits : exits ir = [] := if_pos (hany.symm.trans himplicit)
    refine ⟨p.fake, last.rewriteTo, emitted, hgrows.trans (grows_markError _ _ _), hlabel, hid,
      ⟨h.ok.fake_le.trans hemits.grows.drawn, h.fake⟩, ?_,
        fun l hle hzero hl => h.insts hle hzero hl, hnamed,
      fun l hle => (hphis l hle).trans ?_⟩
    · exact (h.id_last hs).imp_right fun hnew => ⟨.inl hnew.1, hnew.2⟩
    · have hnone : ¬ (last.rewriteTo ≠ 0 ∧ l ∈ (exits ir).map s.label) := by
        rw [hexits]
        exact fun hmem => List.not_mem_nil hmem.2
      rw [if_neg hnone]
  · have hexits : exits ir = branchTargets ir.terminator :=
      if_neg (by rw [← hany, himplicit]; exact Bool.false_ne_true)
    have hmerged := merged_emitMerge hemits.ok
    obtain ⟨i, -, hclosed, hrewritten⟩ :=
      closed_emitTerminator (hmerged.ok hemits.ok) (h.rewriteTo_ne hs) hterminator
    have hle_last {l : Nat} (hle : l ≤ s.builder.uniqueId) : l ≤ last.module.builder.uniqueId :=
      (hle.trans h.phis.grows.drawn).trans hemits.grows.drawn
    have hle_merged {l : Nat} (hle : l ≤ s.builder.uniqueId) :
        l ≤ (last.emitMerge p).builder.uniqueId :=
      (hle_last hle).trans (hmerged.grows 0).drawn
    refine ⟨p.fake, last.rewriteTo, emitted, (hgrows.trans (hmerged.grows _)).trans
      (hclosed.grows.mono (hle_merged le_rfl)),
      hclosed.label.trans (hmerged.label.trans hlabel), fun n hn => ?_,
      ⟨((h.ok.fake_le.trans hemits.grows.drawn).trans (hmerged.grows 0).drawn).trans
        hclosed.grows.drawn, h.fake⟩, ?_,
      fun l hle hzero hl => ?_, hnamed, fun l hle => ?_⟩
    · exact (hclosed.id_of_ne n (h.node_eq ▸ hn)).trans ((congrFun hmerged.id n).trans (hid n hn))
    · have hmid : (last.emitMerge p).id node = last.module.id node := congrFun hmerged.id node
      have hshape := hclosed.shape
      rw [h.node_eq, h.info_eq] at hshape
      rcases hshape with ⟨hsame, -⟩ | ⟨hto, hsplits, hlt, -⟩
      · rw [hsame, hmid]
        exact (h.id_last hs).imp_right fun hnew => ⟨.inl hnew.1, hnew.2⟩
      · refine .inr ⟨.inr ⟨hto, hsplits⟩, lt_of_le_of_lt (hle_merged le_rfl) hlt, ?_⟩
        exact lt_of_le_of_lt ((h.ok.fake_le.trans hemits.grows.drawn).trans (hmerged.grows 0).drawn)
          hlt
    · have hbb : l ≠ last.bb := by
        rcases h.last_bb with hbb | hlt
        · rw [hbb]
          exact hl
        · exact Nat.ne_of_lt (lt_of_le_of_lt hle hlt)
      exact ((hclosed.other l (hle_merged hle) hbb).trans
        (hmerged.other l (hle_last hle) hbb (h.ne_fake hle hzero))).trans
        (h.insts hle hzero hl)
    · rw [hrewritten, hexits]
      dsimp only
      rw [hmerged.phis, hmerged.label, hlabel, hphis l hle]

variable {V W : Type} {K : Nat} {null : Nat → V} {c c' : Config V W} {m : Machine V W}
  {B : SpirvFunction} {i : Inst}

/-- The node is known by the block at hand. -/
theorem Stages.bb_last (h : Stages s node ir info s' p start last) (hs : Ready s node) :
    last.module.id node = last.bb := by
  rcases h.emits.ok.at_end with ⟨hto, hbb⟩ | ⟨-, hid, -⟩
  · rcases h.id_last hs with ⟨-, hid⟩ | ⟨heq, hlt, -⟩
    · rw [hid, hbb, h.node_eq, h.emits.label, h.phis.label]
    · exact absurd hlt (heq ▸ hto ▸ Nat.not_lt_zero _)
  · rw [← h.node_eq]
    exact hid

/-- Control comes to the last instruction of a node, in the block that the node is known by. -/
theorem Closed.leads {e : Emitting} {t : Terminator} (h : Closed p e t i s') (hok : e.Ok p)
    (hbb : e.module.id p.node = e.bb) (hB : Grows s'.builder.uniqueId s' B) (c' : Config V W) :
    ∃ rest, Leads (step m B.block) ⟨e.bb, left e.module B e.bb, c'⟩
      ⟨s'.id p.node, i :: rest, c'⟩ := by
  rcases h.shape with ⟨hid, is, his, hinsts⟩ | ⟨-, -, hlt, hle, hbranch, hphis, is, his, hinsts⟩
  · refine ⟨left s' B e.bb, ?_⟩
    rw [left_of_append hinsts hB, List.append_assoc, hid, hbb]
    exact leads_skipped his
  · obtain ⟨more, hmore⟩ := hB.insts (s'.id p.node)
    have hfirst (n : Nat) : s'.label n ≠ s'.id p.node := by
      rw [h.label]
      exact Nat.ne_of_lt (lt_of_le_of_lt (hok.fresh.label n) hlt)
    refine ⟨more, ?_⟩
    rw [left_of_append hbranch hB]
    refine Leads.head rfl ?_
    rw [arrive_of_phis ((hB.phis _ hle hfirst).trans hphis), ← hmore, hinsts, List.append_assoc]
    exact leads_skipped his

/-- From its first block, an emitted node does what it does: it ends the function as its operations
and its terminator do, or goes on to the first block of the next node. -/
theorem Stages.runs (h : Stages s node ir info s' p start last) (hs : Ready s node)
    (hB : Grows s'.builder.uniqueId s' B) (hK : K ≤ s.builder.uniqueId)
    (hops : ∀ op ∈ ir.operations, OpBelow K op) (hbelow : TerminatorBelow K ir.terminator)
    (hswitch : ir.terminator.type = .switch → ∀ n ∈ branchTargets ir.terminator,
      n ≠ node ∧ s.id n = s.label n)
    (hagree : Agree K null B.builder c c') :
    let r := executeAll m null ir.operations c
    (∀ ending, r.2.or (endingOf ir.terminator r.1.env) = some ending →
        Gives (step m B.block) ⟨s.label node, (B.block (s.label node)).insts, c'⟩
          (outcome r.1 ending)) ∧
      (∀ n, r.2 = none → m.next ir.terminator r.1.env = some n → ∃ c₁ x,
        Agree K null B.builder r.1 c₁ ∧
        Leads (step m B.block) ⟨s.label node, (B.block (s.label node)).insts, c'⟩ x ∧
          step m B.block x = .inl (arrive B.block (s'.id node) (s.label n) c₁)) ∧
      (r.2.or (endingOf ir.terminator r.1.env) = none → ∃ n ∈ exits ir,
          m.next ir.terminator r.1.env = some n) := by
  have hemits := h.emits
  have hempty : (start.module.block (s.label node)).insts = [] := by
    rw [h.phis.insts _ (h.ne_fake (hs.fresh.label node) hs.label), hs.empty]
  have hmerged := merged_emitMerge hemits.ok
  have hgrows : Grows last.module.builder.uniqueId last.module B := by
    rcases h.ends with ⟨-, markError, rfl⟩ | ⟨-, hterminator⟩
    · exact (grows_markError _ _ _).trans hB
    · obtain ⟨i, -, hclosed, -⟩ :=
        closed_emitTerminator (hmerged.ok hemits.ok) (h.rewriteTo_ne hs) hterminator
      have hfirst := (hmerged.grows last.module.builder.uniqueId).trans
        (hclosed.grows.mono (hmerged.grows 0).drawn)
      exact hfirst.trans (hB.mono hfirst.drawn)
  obtain ⟨hgives, hleads⟩ := emitOperations_runs (m := m) h.ok h.implicit
    (hK.trans h.phis.grows.drawn) hops (h.operations ▸ hgrows) hagree
  rw [h.bb, left_of_empty hempty] at hgives hleads
  set r := executeAll m null ir.operations c with hr
  cases hending : r.2 with
  | some ending =>
    refine ⟨fun ending' hor => hgives ending' ?_, fun n hnone =>
      absurd (hending.symm.trans hnone) (Option.some_ne_none ending), fun hnone => ?_⟩
    · rw [hending] at hor ⊢
      exact hor
    · rw [hending] at hnone
      exact absurd hnone (Option.some_ne_none ending)
  | none =>
    obtain ⟨c₁, hlead, hagree₁⟩ := hleads hending
    rw [h.operations] at hlead
    have hgoes_on := goes_on_of_executeAll (hr ▸ hending)
    have himplicit : last.implicitTerminator = false := by
      rw [← h.operations, implicit_emitOperations h.ok, h.implicit, Bool.false_or, hgoes_on]
    have hterminator :=
      (h.ends.resolve_left fun hlast => Bool.false_ne_true (himplicit.symm.trans hlast.1)).2
    obtain ⟨i, hclosing, hclosed, -⟩ :=
      closed_emitTerminator (hmerged.ok hemits.ok) (h.rewriteTo_ne hs) hterminator
    have hB_merged : Grows last.module.builder.uniqueId (last.emitMerge p) B :=
      (hclosed.grows.mono (hmerged.grows 0).drawn).trans
        (hB.mono ((hmerged.grows 0).drawn.trans hclosed.grows.drawn))
    obtain ⟨is, his, hinsts⟩ := hmerged.insts
    have hid : (last.emitMerge p).id p.node = last.bb := by
      rw [hmerged.id, h.node_eq]
      exact h.bb_last hs
    obtain ⟨rest, hlast⟩ := hclosed.leads (m := m) (hmerged.ok hemits.ok) hid hB c₁
    rw [h.node_eq] at hlast
    have hall : Leads (step m B.block) ⟨s.label node, (B.block (s.label node)).insts, c'⟩
        ⟨s'.id node, i :: rest, c₁⟩ := by
      refine hlead.trans (Leads.trans ?_ hlast)
      rw [left_of_append hinsts hB_merged]
      exact leads_skipped his
    have hlabel : (last.emitMerge p).label = s.label :=
      hmerged.label.trans (hemits.label.trans h.phis.label)
    obtain ⟨hends, hnext⟩ := step_closing (m := m) hclosing hbelow (fun htype n hn => by
      obtain ⟨hne, hsame⟩ := hswitch htype n hn
      change (last.emitMerge p).id n = (last.emitMerge p).label n
      rw [hmerged.id, hlabel, hemits.id_of_ne n (h.node_eq ▸ hne), h.phis.id, hsame])
        hagree₁ B.block (s'.id node) rest
    refine ⟨fun ending hor => hall.gives
      (gives_of_step (hends ending (by rw [hending] at hor; exact hor))),
      fun n _ hn => ⟨c₁, _, hagree₁, hall, ?_⟩,
      fun hor => ?_⟩
    · rw [hnext n hn]
      change Sum.inl (arrive B.block (s'.id node) ((last.emitMerge p).label n) c₁) = _
      rw [hlabel]
    · rw [hending] at hor
      obtain ⟨n, hn⟩ := exists_next (m := m) hclosing hor
      have hexits : exits ir = branchTargets ir.terminator :=
        if_neg (by rw [hgoes_on]; exact Bool.false_ne_true)
      exact ⟨n, hexits ▸ next_mem hn, hn⟩

end DxilSpirv.Emission
