import DxilSpirv.Ssa.Incoming
import DxilSpirv.Ssa.Surrounded

/-!
# Duplicated blocks stand in for the original

Every predecessor continues in its own copy, which runs the same operations on the same values
and hands its results to the PHIs further down. The decorations of the operations are lost.
-/

namespace DxilSpirv

open DxilSpirv.Graph

namespace CFGStructurizer

variable {fuel node p : Nat} {succs : List Nat} {s s' : DuplicateState}

/-- The pool `c₂` once the edge of `p` leads to a new block without contents. -/
structure EdgeMoved (c : CFGStructurizer) (node p : Nat) (succs : List Nat)
    (c₂ : CFGStructurizer) : Prop where
  size : c₂.size = c.size + 1
  ir : ∀ x, (c₂.node x).ir =
    if x = c.size then {}
    else if x = p then
      { (c.node x).ir with terminator := (c.node x).ir.terminator.retarget node c.size }
    else (c.node x).ir
  succ : ∀ x, (c₂.node x).succ =
    if x = c.size then succs
    else if x = p then (c.node x).succ.replace node c.size
    else (c.node x).succ
  pred : ∀ x, (c₂.node x).pred =
    if x = c.size then [p]
    else if x = node then (c.node x).pred.erase p
    else if x ∈ succs then addUnique (c.node x).pred c.size
    else (c.node x).pred
  order : ∀ x ≠ c.size, c₂.order x = c.order x
  succBackEdge : ∀ x ≠ c.size, (c₂.node x).succBackEdge = (c.node x).succBackEdge
  fakeSucc : ∀ x ≠ c.size, (c₂.node x).fakeSucc = (c.node x).fakeSucc
  backwardOrder : ∀ x, c₂.backwardOrder x = if x = c.size then 0 else c.backwardOrder x
  known : ∀ D : Nat → Prop, (∀ x, D x → ∃ y, c.idom x = some y ∧ D y) → ¬ D node →
    ¬ D c.size → (∀ q ∈ (c.node node).pred, D q) → D p →
    ∀ x, x ≠ node → x ≠ c.size → c₂.idom x = c.idom x
  idom_self : (c.node node).pred = [p] → c₂.idom node = some node

/-- The pool with a new block that is to take the edge from `p`. -/
def withBlock (c : CFGStructurizer) (node p : Nat) : CFGStructurizer :=
  c.createNode.1.modify c.size (.setDominators (some p) (c.node node).immediatePostDominator)

/-- The pool with a block for a copy. -/
theorem withBlock_node (c : CFGStructurizer) (node p x : Nat) : (c.withBlock node p).node x =
    if x = c.size then .setDominators (some p) (c.node node).immediatePostDominator {}
    else c.node x := by
  rw [withBlock, modify_node, createNode_node, createNode_node, if_pos rfl]
  split <;> rfl

/-- The block for a copy leaves the others as they were. -/
theorem withBlock_node_ne (c : CFGStructurizer) {node p x : Nat} (hx : x ≠ c.size) :
    (c.withBlock node p).node x = c.node x := by
  rw [withBlock_node, if_neg hx]

@[simp] theorem withBlock_size (c : CFGStructurizer) (node p : Nat) :
    (c.withBlock node p).size = c.size + 1 := rfl

/-- The edge from the predecessor is moved to the copy. -/
theorem edgeMoved {c c₁ c₂ : CFGStructurizer}
    (h₁ : (c.withBlock node p).retargetBranch fuel p node c.size = .ok c₁)
    (h₂ : c₁.addBranches c.size succs = .ok c₂)
    (hnode : node < c.size) (hp : p < c.size) (hpn : p ≠ node) (hnodup : succs.Nodup)
    (hs : ∀ x ∈ succs, x < c.size ∧ x ≠ node) : EdgeMoved c node p succs c₂ := by
  have hns : node ≠ c.size := Nat.ne_of_lt hnode
  have hps : p ≠ c.size := Nat.ne_of_lt hp
  have hnew := c.withBlock_node node p
  obtain ⟨-, hdoms⟩ := retargetBranch_ok h₁
  obtain ⟨hframe, hadd⟩ := addBranches_spec h₂
  -- fields that are not among the edges, the contents and the dominators
  have hkeep : ∀ {β : Type} (field : CFGNode → β),
      (∀ x y : CFGNode, field { x with
        ir := y.ir
        succ := y.succ
        pred := y.pred
        immediateDominator := y.immediateDominator
        immediatePostDominator := y.immediatePostDominator } = field x) →
      ∀ x, field (c₂.node x) = field ((c.withBlock node p).node x) := by
    intro β field hfield x
    rw [hframe.node x, hdoms.node x, (retargeted_edgesOnly ..).node x]
    exact hfield ((c.withBlock node p).node x)
      { ir := (c₂.node x).ir
        succ := (c₂.node x).succ
        pred := (c₂.node x).pred
        immediateDominator := (c₁.node x).immediateDominator
        immediatePostDominator := (c₁.node x).immediatePostDominator }
  refine ⟨?_, ?_, ?_, ?_, ?_, ?_, ?_, ?_, ?_, ?_⟩
  · rw [hframe.pool, hdoms.pool, (retargeted_edgesOnly ..).pool]
    rfl
  · intro x
    rw [(hadd x).1, hdoms.ir, retargeted_ir, hnew]
    by_cases hx : x = c.size
    · subst hx
      rw [if_neg hps.symm, if_pos rfl, if_pos rfl]
      rfl
    · rw [if_neg hx, if_neg hx]
  · intro x
    rw [(hadd x).2.1, hdoms.succ, retargeted_succ, hnew]
    by_cases hx : x = c.size
    · subst hx
      rw [if_pos rfl, if_neg hps.symm, if_pos rfl, if_pos rfl]
      exact foldl_addUnique hnodup
    · rw [if_neg hx, if_neg hx, if_neg hx]
  · intro x
    rw [(hadd x).2.2, hdoms.pred, retargeted_pred _ hns, hnew]
    by_cases hx : x = c.size
    · subst hx
      have hxs : c.size ∉ succs := fun hm => absurd (hs _ hm).1 (Nat.lt_irrefl _)
      simp [hns.symm, hxs, CFGNode.setDominators, addUnique]
    · by_cases hxn : x = node
      · subst hxn
        have hxs : x ∉ succs := fun hm => (hs x hm).2 rfl
        simp [hx, hxs]
      · simp [hx, hxn]
  · intro x hx
    rw [order, hkeep CFGNode.forwardPostVisitOrder fun _ _ => rfl, withBlock_node_ne c hx]
  · intro x hx
    rw [hkeep CFGNode.succBackEdge fun _ _ => rfl, withBlock_node_ne c hx]
  · intro x hx
    rw [hkeep CFGNode.fakeSucc fun _ _ => rfl, withBlock_node_ne c hx]
  · intro x
    rw [backwardOrder, hkeep CFGNode.backwardPostVisitOrder fun _ _ => rfl, hnew]
    split <;> rfl
  · intro D hD hDn hDs hDpred hDp x hxn hxs
    have hidom₀ : ∀ x ≠ c.size, (c.withBlock node p).idom x = c.idom x := by
      intro x hx
      rw [idom, withBlock_node_ne c hx]
    have hidom₂ : c₂.idom x = c₁.idom x := by rw [idom, hframe.node x]
    rw [hidom₂, ← hidom₀ x hxs]
    refine retargetBranch_idom (D := D) ?_ hDn hDs hns hDp ?_ ?_ h₁ x hxn hxs
    · intro y hy
      rw [hidom₀ y fun he => hDs (he ▸ hy)]
      exact hD y hy
    · intro q hq
      rw [withBlock_node_ne c hns] at hq
      exact hDpred q hq
    · intro q hq
      rw [hnew, if_pos rfl] at hq
      exact absurd hq List.not_mem_nil
  · intro hpred
    rw [idom, hframe.node node]
    refine retargetBranch_idom_self hns ?_ ?_ h₁
    · rw [withBlock_node_ne c hns, hpred]
    · rw [hnew, if_pos rfl]
      rfl

/-- Filling in the contents of a block keeps everything else. -/
theorem modify_ir_field {β : Type} (field : CFGNode → β)
    (hf : ∀ (y : CFGNode) (ir : IRBlock), field { y with ir } = field y) (c : CFGStructurizer)
    (n : Nat) (ir : IRBlock) (x : Nat) :
    field ((c.modify n fun y => { y with ir }).node x) = field (c.node x) :=
  modify_field c n x _ field fun y => hf y ir

/-- What making one copy does. The PHIs are resolved in the pool `c₂`. -/
structure CopyMade (s : DuplicateState) (node p : Nat) (succs : List Nat) (c₂ : CFGStructurizer)
    (remap : IdRemap) (copy : CopyState) (s' : DuplicateState) : Prop where
  moved : EdgeMoved s.c node p succs c₂
  resolved : c₂.resolvePhis p (s.c.node node).ir.phi = .ok remap
  copied : (s.c.node node).ir.operations.foldlM copyOperation { m := s.m, remap } = .ok copy
  split : SplitStep s.c node p succs (s.c.node node).ir
    { operations := copy.operations
      terminator := copyTerminator (s.c.node node).ir.terminator copy.remap } s'.c
  module_eq : s'.m = copy.m.removeDecorations copy.removed
  copies : s'.copies = s.copies ++ [(s.c.size, copy.remap)]
  pool : ∃ ir, s'.c = c₂.modify s.c.size fun x => { x with ir }

/-- Only the contents of the new block are written after the PHIs are resolved. -/
theorem CopyMade.field {c₂ : CFGStructurizer} {remap : IdRemap} {copy : CopyState}
    (h : CopyMade s node p succs c₂ remap copy s') {β : Type} (field : CFGNode → β)
    (hf : ∀ (y : CFGNode) (ir : IRBlock), field { y with ir } = field y) (x : Nat) :
    field (s'.c.node x) = field (c₂.node x) := by
  obtain ⟨ir, hpool⟩ := h.pool
  rw [hpool]
  exact modify_ir_field field hf c₂ s.c.size ir x

/-- A copy that succeeds is made for one predecessor. -/
theorem duplicateFor_ok (h : duplicateFor fuel node succs s p = .ok s')
    (hnode : node < s.c.size) (hp : p < s.c.size) (hpn : p ≠ node) (hnodup : succs.Nodup)
    (hs : ∀ x ∈ succs, x < s.c.size ∧ x ≠ node) :
    ∃ c₂ remap copy, CopyMade s node p succs c₂ remap copy s' := by
  have hns : node ≠ s.c.size := Nat.ne_of_lt hnode
  have hblock : (s.c.createNode.1.node node).immediatePostDominator =
      (s.c.node node).immediatePostDominator := by rw [createNode_node, if_neg hns]
  simp only [duplicateFor, createNode_snd, hblock, bind_eq_ok, pure_eq_ok] at h
  obtain ⟨c₁, h₁, c₂, h₂, remap, hremap, copy, hcopy, h⟩ := h
  obtain rfl := Except.ok.inj h
  have hmoved := edgeMoved h₁ h₂ hnode hp hpn hnodup hs
  have hnode₂ : (c₂.node node).ir = (s.c.node node).ir := by
    rw [hmoved.ir, if_neg hns, if_neg hpn.symm]
  rw [hnode₂] at hremap hcopy
  refine ⟨c₂, remap, copy, hmoved, hremap, hcopy, ?_, rfl, rfl, _, rfl⟩
  refine ⟨hmoved.size, fun x => ?_, fun x => ?_, fun x => ?_⟩
  · dsimp only
    rw [modify_node, hnode₂]
    by_cases hx : x = s.c.size
    · rw [if_pos hx, if_pos hx]
    · rw [if_neg hx, if_neg hx, hmoved.ir, if_neg hx]
      by_cases hxn : x = node
      · subst hxn
        rw [if_neg hpn.symm, if_pos rfl]
      · rw [if_neg hxn]
  · exact (modify_ir_field CFGNode.succ (fun _ _ => rfl) c₂ _ _ x).trans (hmoved.succ x)
  · exact (modify_ir_field CFGNode.pred (fun _ _ => rfl) c₂ _ _ x).trans (hmoved.pred x)

/-- What a pass may assume about a block that it is about to duplicate: the blocks around it are
known, PHIs are in SSA form and ids were handed out. -/
structure Duplicable (c : CFGStructurizer) (m : SpirvModule) (node : Nat) : Prop
    extends Surrounded c node where
  phi_ids : ((c.node node).ir.phi.map (·.id)).Nodup
  incoming_nodup : ∀ x, ∀ phi ∈ (c.node x).ir.phi, (phi.incoming.map (·.block)).Nodup
  incoming_lt : ∀ x, ∀ phi ∈ (c.node x).ir.phi, ∀ i ∈ phi.incoming, i.block < c.size
  incoming_id_lt : ∀ x, ∀ phi ∈ (c.node x).ir.phi, ∀ i ∈ phi.incoming, i.id < m.nextId
  incoming_id_ne : ∀ phi ∈ (c.node node).ir.phi, ∀ i ∈ phi.incoming, i.id ≠ 0
  /-- Where PHIs are to be resolved, the visit orders tell which dominator is nearer. -/
  orders : (c.node node).ir.phi ≠ [] → ∀ p ∈ (c.node node).pred, OrdersGrow c p
  decorates : m.Decorates (c.node node).ir.operations
  operations : ∀ op ∈ (c.node node).ir.operations, op.WellFormed m
  condition : (c.node node).ir.terminator.type = .condition →
    (c.node node).ir.terminator.conditionalId ≠ 0 ∧
      (c.node node).ir.terminator.conditionalId < m.nextId

variable {c : CFGStructurizer} {m : SpirvModule}

/-- A choice of the incoming values that arrive over `p`. -/
def Selects (c : CFGStructurizer) (node p : Nat) (sel : PHI → Option Nat) : Prop :=
  ∀ phi ∈ (c.node node).ir.phi, ∃ i, Arrives c p phi.incoming i ∧ sel phi = some i.id

/-- The copy for `p` that is made with the names `remap` and has the contents `ir`. -/
structure CopyFor (c : CFGStructurizer) (m : SpirvModule) (node p : Nat) (remap : IdRemap)
    (ir : IRBlock) (m' : SpirvModule) : Prop where
  phi : ir.phi = []
  terminator : ir.terminator = copyTerminator (c.node node).ir.terminator remap
  runs : ∃ sel, Selects c node p sel ∧
    ∀ {V W : Type} (machine : Machine V W) (e : Env V) (w : W), Agrees m.nextId remap
      (machine.run (c.node node).ir.operations ⟨enterWith sel (c.node node).ir.phi e, w, []⟩)
      (machine.run ir.operations ⟨e, w, []⟩)
  operations : List.Forall₂ (fun op dup : Operation =>
    (op.id = 0 → dup.id = 0) ∧ (op.id ≠ 0 → m.nextId ≤ dup.id ∧ dup.id < m'.nextId) ∧
      ∀ d ∈ Decoration.shared, m'.hasDecoration dup.id d = (m.hasDecoration op.id d &&
        (d ≠ .nonUniform ∧ (c.node node).pred.head? = some p)))
    (c.node node).ir.operations ir.operations

/-- The state once the predecessors in `done` have their copies. -/
structure DuplicatedFor (c : CFGStructurizer) (m : SpirvModule) (node : Nat) (done : List Nat)
    (s : DuplicateState) : Prop where
  split : SplitOff c node (fun _ _ => True) done (c.node node).ir s.c
  order : ∀ x < c.size, s.c.order x = c.order x
  succBackEdge : ∀ x < c.size, (s.c.node x).succBackEdge = (c.node x).succBackEdge
  idom : ∀ x < c.size, x ≠ node → s.c.idom x = c.idom x
  idom_self : done ≠ [] → (c.node node).pred = done → s.c.idom node = some node
  decorates : s.m.Decorates (c.node node).ir.operations
  le : m.nextId ≤ s.m.nextId
  start : done = [] → s.m = m
  dropped : done ≠ [] → ∀ op ∈ (c.node node).ir.operations,
    s.m.hasDecoration op.id .noContraction = false ∧ s.m.hasDecoration op.id .fpFastMathMode = false
  copies : List.Forall₂ (fun p k => k.1 = c.breakNode node p ∧
    CopyFor c m node p k.2 (s.c.node k.1).ir s.m) done s.copies

/-- Before the first predecessor nothing is duplicated. -/
theorem DuplicatedFor.refl (h : Duplicable c m node) : DuplicatedFor c m node [] { c, m } where
  split := .refl c node _
  order _ _ := rfl
  succBackEdge _ _ := rfl
  idom _ _ _ := rfl
  idom_self hne := absurd rfl hne
  decorates := h.decorates
  le := Nat.le_refl _
  start _ := rfl
  dropped hne := absurd rfl hne
  copies := .nil

/-- What was decorated before keeps what it has, so earlier copies are not affected. -/
theorem CopyFor.mono (hops : ∀ op ∈ (c.node node).ir.operations, op.WellFormed m) {remap : IdRemap}
    {ir : IRBlock} {m₁ m₂ : SpirvModule} {dups : List Operation}
    (h : CopyFor c m node p remap ir m₁) (hm₁ : m₁.Decorates (c.node node).ir.operations)
    (hpass : PassedOn m₁ (c.node node).ir.operations dups m₂) : CopyFor c m node p remap ir m₂ := by
  refine ⟨h.phi, h.terminator, h.runs, ?_⟩
  refine ((List.forall₂_and_left _ _).mpr ⟨fun _ h => h, h.operations⟩).imp ?_
  rintro op dup ⟨hop, hzero, hfresh, hdec⟩
  refine ⟨hzero, fun h0 => ⟨(hfresh h0).1, Nat.lt_of_lt_of_le (hfresh h0).2 hpass.le⟩, ?_⟩
  intro d hd
  rw [← hdec d hd]
  by_cases h0 : op.id = 0
  · rw [hzero h0, hpass.zero, hm₁.zero]
  · refine hpass.old dup.id (hfresh h0).2 (fun hmem => ?_) d
    obtain ⟨o, ho, hid⟩ := List.mem_map.mp hmem
    have hlt := (hops o ho).id_lt
    have hge := (hfresh h0).1
    omega

/-- The names of the PHIs make the copy start like the original. -/
theorem agrees_enter {V W : Type} {phis : List PHI} (hids : (phis.map (·.id)).Nodup)
    {remap : IdRemap} (hmem : ∀ phi ∈ phis, ∃ v, remap phi.id = some v)
    (hout : ∀ x, x ∉ phis.map (·.id) → remap x = none) (bound : Nat) (e : Env V) (w : W) :
    Agrees bound remap ⟨enterWith (fun phi => remap phi.id) phis e, w, []⟩ ⟨e, w, []⟩ := by
  refine ⟨fun x _ => ?_, rfl, rfl⟩
  by_cases hx : x ∈ phis.map (·.id)
  · obtain ⟨phi, hphi, rfl⟩ := List.mem_map.mp hx
    obtain ⟨v, hv⟩ := hmem phi hphi
    rw [getRemapped_some hv]
    exact (enterWith_of_mem hids hphi hv).symm
  · rw [getRemapped_none (hout x hx)]
    exact (enterWith_of_notMem hx).symm

/-- Moving the edge of a predecessor affects no other dominators than those of its two targets. -/
theorem DuplicatedFor.idom_moved (hd : Duplicable c m node) {done : List Nat}
    (h : DuplicatedFor c m node done s) (hp : p ∈ (c.node node).pred) {c₂ : CFGStructurizer}
    (hmoved : EdgeMoved s.c node p (c.node node).succ c₂) :
    ∀ x < c.size, x ≠ node → c₂.idom x = c.idom x := by
  have hle : c.size ≤ s.c.size := by rw [h.split.size]; omega
  have hnlt := (hd.isolated hp).node_lt
  intro x hx hxn
  rw [← h.idom x hx hxn]
  refine hmoved.known (Above c node) ?_ (fun hn => (hd.above_ne hn).1 rfl) (fun hn => ?_) ?_
    ⟨p, hp, .refl _ _⟩ x hxn (by omega)
  · intro y hy
    rw [h.idom y (hd.above_ne hy).2 (hd.above_ne hy).1]
    exact hd.above_up hy
  · have := (hd.above_ne hn).2
    omega
  · intro q hq
    rw [h.split.pred node hnlt, if_pos rfl] at hq
    exact ⟨q, List.mem_of_mem_drop hq, .refl _ _⟩

/-- The dominators above a predecessor stay. -/
theorem DuplicatedFor.sameAbove (hd : Duplicable c m node) {done : List Nat}
    (h : DuplicatedFor c m node done s) (hp : p ∈ (c.node node).pred) {c₂ : CFGStructurizer}
    (hmoved : EdgeMoved s.c node p (c.node node).succ c₂) : SameAbove c c₂ p := by
  have hle : c.size ≤ s.c.size := by rw [h.split.size]; omega
  refine ⟨?_, fun x hx => ?_, fun x hx => ?_⟩
  · rw [hmoved.size]
    omega
  · obtain ⟨hxn, hlt⟩ := hd.above_ne ⟨p, hp, hx⟩
    exact h.idom_moved hd hp hmoved x hlt hxn
  · have hlt := (hd.above_ne ⟨p, hp, hx⟩).2
    rw [hmoved.order x (by omega), h.order x hlt]

/-- Every PHI of the block is renamed to what arrives from the predecessor. -/
theorem Duplicable.selects (hd : Duplicable c m node)
    (hcan : c.canDuplicatePhis node = .ok true) {done : List Nat}
    (h : DuplicatedFor c m node done s) (hp : p ∈ (c.node node).pred) {c₂ : CFGStructurizer}
    {remap : IdRemap} (hmoved : EdgeMoved s.c node p (c.node node).succ c₂)
    (hresolved : c₂.resolvePhis p (c.node node).ir.phi = .ok remap) :
    Selects c node p fun phi => remap phi.id := by
  intro phi hphi
  obtain ⟨i, hi⟩ := canDuplicatePhis_ok hcan hp phi hphi
  obtain ⟨j, hj, hremap⟩ := (resolvePhis_ok hd.phi_ids hresolved).1 phi hphi
  rw [(h.sameAbove hd hp hmoved).findIncomingValue hi] at hj
  obtain rfl := Option.some.inj (Except.ok.inj hj)
  have hgrow := hd.orders (List.ne_nil_of_mem hphi) p hp
  exact ⟨i, (findIncomingValue_ok hgrow hi).1 i rfl, hremap⟩

/-- The PHIs are renamed to ids that were handed out before the copies. -/
theorem Duplicable.selected_lt (hd : Duplicable c m node) {remap : IdRemap}
    (hselects : Selects c node p fun phi => remap phi.id)
    (hout : ∀ x, x ∉ (c.node node).ir.phi.map (·.id) → remap x = none) {x v : Nat}
    (hv : remap x = some v) : v < m.nextId := by
  by_cases hx : x ∈ (c.node node).ir.phi.map (·.id)
  · obtain ⟨phi, hphi, rfl⟩ := List.mem_map.mp hx
    obtain ⟨i, hi, hremap⟩ := hselects phi hphi
    obtain rfl := Option.some.inj (hv.symm.trans hremap)
    exact hd.incoming_id_lt node phi hphi i hi.mem
  · rw [hout x hx] at hv
    cases hv

/-- Only the copy for the first predecessor has a decoration to take over. -/
theorem DuplicatedFor.hasDecoration {done rest : List Nat} (h : DuplicatedFor c m node done s)
    (hp : p ∉ done) (hpreds : (c.node node).pred = done ++ p :: rest) {op : Operation}
    (hop : op ∈ (c.node node).ir.operations) {d : Decoration} (hd : d ∈ Decoration.shared) :
    (s.m.hasDecoration op.id d && d ≠ .nonUniform) = (m.hasDecoration op.id d &&
      (d ≠ .nonUniform ∧ (c.node node).pred.head? = some p)) := by
  cases done with
  | nil =>
    rw [h.start rfl, hpreds]
    simp
  | cons q done =>
    -- what the first copy took over is not there any more
    have hne : q ≠ p := fun he => hp (he ▸ List.mem_cons_self ..)
    obtain ⟨hnc, hfp⟩ := h.dropped (List.cons_ne_nil q done) op hop
    simp only [Decoration.shared, List.mem_cons, List.not_mem_nil, or_false] at hd
    rw [hpreds]
    rcases hd with rfl | rfl | rfl <;> simp [hnc, hfp, hne]

/-- One more predecessor. -/
theorem DuplicatedFor.step (hd : Duplicable c m node) (hcan : c.canDuplicatePhis node = .ok true)
    {done rest : List Nat} (hpreds : (c.node node).pred = done ++ p :: rest)
    (h : DuplicatedFor c m node done s)
    (hok : duplicateFor fuel node (c.node node).succ s p = .ok s') :
    DuplicatedFor c m node (done ++ [p]) s' := by
  have hpmem : p ∈ (c.node node).pred := by simp [hpreds]
  have hisol := hd.isolated hpmem
  obtain ⟨hpdone, hbrk, hbrk_lt⟩ := h.split.breakNode_eq hpreds hisol.nodup_pred
  have hpn : p ≠ node := fun he => hisol.notMem_pred (he ▸ hpmem)
  have hplt := hisol.pred_lt node p hpmem
  have hnlt := hisol.node_lt
  have hle : c.size ≤ s.c.size := by rw [h.split.size]; omega
  obtain ⟨c₂, remap, copy, hmade⟩ := duplicateFor_ok hok (by omega) (by omega) hpn
    hisol.nodup_succ fun x hx =>
      ⟨Nat.lt_of_lt_of_le (hisol.succ_lt x hx) hle, fun he => hisol.notMem_succ (he ▸ hx)⟩
  have hresolved := hmade.resolved
  have hcopied := hmade.copied
  have hstep := hmade.split
  rw [h.split.node_ir] at hresolved hcopied hstep
  have hselects := hd.selects hcan h hpmem hmade.moved hresolved
  have hout := (resolvePhis_ok hd.phi_ids hresolved).2
  have hremap_lt : ∀ x v, remap x = some v → v < s.m.nextId := fun _ _ hv =>
    Nat.lt_of_lt_of_le (hd.selected_lt hselects hout hv) h.le
  have hops : ∀ op ∈ (c.node node).ir.operations, op.WellFormed s.m :=
    fun op hop => (hd.operations op hop).mono h.le
  have hcopies := copyOperations_ok h.decorates hops hremap_lt hcopied
  have hpass := hcopies.passedOn h.decorates hops
  rw [← hmade.module_eq] at hpass
  refine
    { split := SplitOff.step hisol hpreds h.split hstep trivial
      order := fun x hx => ?_
      succBackEdge := fun x hx => ?_
      idom := fun x hx hxn => (hmade.field CFGNode.immediateDominator (fun _ _ => rfl) x).trans
        (h.idom_moved hd hpmem hmade.moved x hx hxn)
      idom_self := fun _ hall => ?_
      decorates := hpass.toDecorates
      le := Nat.le_trans h.le hpass.le
      start := fun hnil => absurd hnil (by simp)
      dropped := fun _ => hpass.dropped
      copies := ?_ }
  · rw [← h.order x hx, ← hmade.moved.order x (by omega)]
    exact hmade.field CFGNode.forwardPostVisitOrder (fun _ _ => rfl) x
  · rw [← h.succBackEdge x hx, ← hmade.moved.succBackEdge x (by omega)]
    exact hmade.field CFGNode.succBackEdge (fun _ _ => rfl) x
  · refine (hmade.field CFGNode.immediateDominator (fun _ _ => rfl) node).trans
      (hmade.moved.idom_self ?_)
    rw [h.split.pred node hnlt, if_pos rfl, hall, List.drop_left]
  · rw [hmade.copies]
    refine List.rel_append ?_ (.cons ⟨hbrk.symm, ?_⟩ .nil)
    · refine ((List.forall₂_and_left _ _).mpr ⟨fun _ h => h, h.copies⟩).imp ?_
      rintro q k ⟨hq, hk, hcopy⟩
      have hlt := hbrk_lt q hq
      have hge := c.le_breakNode node q
      rw [← hk] at hlt hge
      refine ⟨hk, ?_⟩
      rw [hstep.ir, if_neg (by omega), if_neg (by omega), if_neg (by omega)]
      exact hcopy.mono hd.operations h.decorates hpass
    · rw [hstep.ir, if_pos rfl]
      refine ⟨rfl, rfl, ⟨fun phi => remap phi.id, hselects, ?_⟩, ?_⟩
      · intro V W machine e w
        have hrun := hcopies.agrees machine (agrees_enter hd.phi_ids (fun phi hphi => by
          obtain ⟨i, -, hi⟩ := hselects phi hphi
          exact ⟨i.id, hi⟩) hout s.m.nextId e w)
        exact ⟨fun x hx => hrun.env x (Nat.lt_of_lt_of_le hx h.le), hrun.memory, hrun.trace⟩
      · refine ((List.forall₂_and_left _ _).mpr ⟨fun _ h => h, hpass.copies⟩).imp ?_
        rintro op dup ⟨hop, hcopy⟩
        refine ⟨hcopy.id_zero, fun h0 => ?_, fun d hdsh => ?_⟩
        · exact ⟨Nat.le_trans h.le (hcopy.id_fresh h0).1, (hcopy.id_fresh h0).2⟩
        · rw [hcopy.decorations d hdsh]
          exact h.hasDecoration hpdone hpreds hop hdsh

/-- All predecessors have their copies. -/
theorem duplicateFor_all (hd : Duplicable c m node) (hcan : c.canDuplicatePhis node = .ok true)
    (h : (c.node node).pred.foldlM (duplicateFor fuel node (c.node node).succ) { c, m } = .ok s') :
    DuplicatedFor c m node (c.node node).pred s' := by
  suffices hgen : ∀ (rest done : List Nat) (s : DuplicateState),
      (c.node node).pred = done ++ rest → DuplicatedFor c m node done s →
      rest.foldlM (duplicateFor fuel node (c.node node).succ) s = .ok s' →
      DuplicatedFor c m node (c.node node).pred s' from hgen _ [] _ rfl (.refl hd) h
  intro rest
  induction rest with
  | nil =>
    intro done s hpreds hinv h
    obtain rfl := Except.ok.inj h
    rw [List.append_nil] at hpreds
    exact hpreds ▸ hinv
  | cons p rest ih =>
    intro done s hpreds hinv h
    rw [List.foldlM_cons, bind_eq_ok] at h
    obtain ⟨s₂, hstep, h⟩ := h
    exact ih (done ++ [p]) s₂ (by rw [hpreds, List.append_assoc]; rfl)
      (hinv.step hd hcan hpreds hstep) h

variable {c' : CFGStructurizer}

/-- Blocks on the chain of ladders that starts at a block. -/
inductive OnLadder (c : CFGStructurizer) : Nat → Nat → Prop
  | here (s : Nat) : OnLadder c s s
  | next {s t x : Nat} : (c.node s).succ = [t] → OnLadder c t x → OnLadder c s x

/-- A ladder follows forward edges. -/
theorem OnLadder.reaches {s x : Nat} (h : OnLadder c s x) : Reaches c.Flows s x := by
  induction h with
  | here s => exact .refl
  | next hs _ ih => exact .head (by simp [Flows, hs]) ih

/-- The same successors make the same ladders. -/
theorem OnLadder.congr {s x : Nat}
    (hsucc : ∀ y, OnLadder c s y → (c'.node y).succ = (c.node y).succ) :
    OnLadder c' s x ↔ OnLadder c s x := by
  constructor
  · intro h
    induction h with
    | here s => exact .here s
    | next hs _ ih =>
      rw [hsucc _ (.here _)] at hs
      exact .next hs (ih fun y hy => hsucc y (.next hs hy))
  · intro h
    induction h with
    | here s => exact .here s
    | next hs _ ih =>
      refine .next ?_ (ih fun y hy => hsucc y (.next hs hy))
      rw [hsucc _ (.here _), hs]

/-- The blocks whose PHIs are looked at for one successor. -/
theorem ladderChain_ok {s : Nat} {l : List Nat} (h : c.ladderChain fuel s = .ok l) (x : Nat) :
    x ∈ l ↔ ∃ y, OnLadder c s y ∧ (x = y ∨ (c.node y).succBackEdge = some x) := by
  induction fuel generalizing s l with
  | zero => cases h
  | succ fuel ih =>
    obtain ⟨rest, rfl, hlater⟩ : ∃ rest, l = (c.node s).succBackEdge.toList ++ s :: rest ∧
        (x ∈ rest ↔ ∃ t y, (c.node s).succ = [t] ∧ OnLadder c t y ∧
          (x = y ∨ (c.node y).succBackEdge = some x)) := by
      simp only [ladderChain, pure_eq_ok] at h
      split at h
      · rename_i t hs
        obtain ⟨rest, hrest, h⟩ := bind_eq_ok.mp h
        refine ⟨rest, (Except.ok.inj h).symm, ?_⟩
        rw [ih hrest]
        constructor
        · rintro ⟨y, hy, hx⟩
          exact ⟨t, y, hs, hy, hx⟩
        · rintro ⟨t', y, hs', hy, hx⟩
          rw [hs] at hs'
          obtain rfl := List.head_eq_of_cons_eq hs'
          exact ⟨y, hy, hx⟩
      · rename_i hs
        refine ⟨[], (Except.ok.inj h).symm, fun hx => absurd hx List.not_mem_nil, ?_⟩
        rintro ⟨t, y, hs', -⟩
        exact absurd hs' (hs t)
    rw [List.mem_append, List.mem_cons, hlater]
    constructor
    · rintro (hx | rfl | ⟨t, y, hs, hy, hx⟩)
      · exact ⟨s, .here s, .inr (Option.mem_toList.mp hx)⟩
      · exact ⟨x, .here x, .inl rfl⟩
      · exact ⟨y, .next hs hy, hx⟩
    · rintro ⟨y, hy, hx⟩
      cases hy with
      | here =>
        rcases hx with rfl | hx
        · exact .inr (.inl rfl)
        · exact .inl (Option.mem_toList.mpr hx)
      | next hs hy => exact .inr (.inr ⟨_, y, hs, hy, hx⟩)

/-- Values of a block may arrive at `x` through ladders. -/
def ReachedByLadder (c : CFGStructurizer) (node x : Nat) : Prop :=
  ∃ s ∈ (c.node node).succ, ∃ y, OnLadder c s y ∧ (x = y ∨ (c.node y).succBackEdge = some x)

variable {copies : List (Nat × IdRemap)} {phi : PHI}

/-- A PHI without a value of the block stays. -/
theorem splitCopies_none (h : phi.incomingFrom node = none) :
    splitCopies node copies phi = phi := by
  rw [PHI.incomingFrom, Option.map_eq_none_iff] at h
  rw [splitCopies, h]

/-- The entries of a PHI once those of the copies replace the entry of the block. -/
theorem splitCopies_some {v : Nat} (h : phi.incomingFrom node = some v) :
    splitCopies node copies phi = { phi with
      incoming := (phi.incoming.eraseP fun i => i.block == node) ++
        copies.map fun k => ⟨k.1, getRemappedIdForDuplicatedBlock v k.2⟩ } := by
  rw [PHI.incomingFrom, Option.map_eq_some_iff] at h
  obtain ⟨i, hi, rfl⟩ := h
  rw [splitCopies, hi]

/-- The entries of the copies are new: distinct blocks behind all blocks of the PHI. -/
structure Splits (copies : List (Nat × IdRemap)) (node size : Nat) (phi : PHI) : Prop where
  node_lt : node < size
  nodup : (copies.map (·.1)).Nodup
  le : ∀ k ∈ copies, size ≤ k.1
  incoming_nodup : (phi.incoming.map (·.block)).Nodup
  incoming_lt : ∀ i ∈ phi.incoming, i.block < size

variable {size v : Nat}

/-- The entry of the node gives way to an entry for each copy. -/
theorem splitCopies_blocks (hv : phi.incomingFrom node = some v) :
    (splitCopies node copies phi).incoming.map (·.block) =
      (phi.incoming.map (·.block)).erase node ++ copies.map (·.1) := by
  rw [splitCopies_some hv]
  simp only [List.map_append, List.map_map, map_eraseP_block]
  rfl

/-- The split PHI has one entry for a block. -/
theorem Splits.blocks_nodup (h : Splits copies node size phi) :
    ((splitCopies node copies phi).incoming.map (·.block)).Nodup := by
  cases hv : phi.incomingFrom node with
  | none =>
    rw [splitCopies_none hv]
    exact h.incoming_nodup
  | some v =>
    rw [splitCopies_blocks hv]
    refine List.nodup_append.mpr ⟨h.incoming_nodup.erase node, h.nodup, ?_⟩
    rintro a ha b hb rfl
    obtain ⟨i, hi, rfl⟩ := List.mem_map.mp (List.mem_of_mem_erase ha)
    obtain ⟨k, hk, he⟩ := List.mem_map.mp hb
    have hlt := h.incoming_lt i hi
    have hge := h.le k hk
    omega

/-- No value of the block is left. -/
theorem Splits.notMem (h : Splits copies node size phi) :
    (splitCopies node copies phi).incomingFrom node = none := by
  cases hv : phi.incomingFrom node with
  | none => rwa [splitCopies_none hv]
  | some v =>
    rw [PHI.incomingFrom, Option.map_eq_none_iff, List.find?_eq_none]
    intro i hi hbeq
    have hmem : node ∈ (splitCopies node copies phi).incoming.map (·.block) :=
      List.mem_map.mpr ⟨i, hi, beq_iff_eq.mp hbeq⟩
    rw [splitCopies_blocks hv] at hmem
    rcases List.mem_append.mp hmem with hmem | hmem
    · exact (h.incoming_nodup.mem_erase_iff.mp hmem).1 rfl
    · obtain ⟨k, hk, he⟩ := List.mem_map.mp hmem
      have hge := h.le k hk
      have hlt := h.node_lt
      omega

/-- A PHI is split once. -/
theorem Splits.idempotent (h : Splits copies node size phi) :
    splitCopies node copies (splitCopies node copies phi) = splitCopies node copies phi :=
  splitCopies_none h.notMem

/-- A copy's entry has the value under the copy's names. -/
theorem Splits.incomingFrom_copy (h : Splits copies node size phi)
    (hv : phi.incomingFrom node = some v) {k : Nat × IdRemap} (hk : k ∈ copies) :
    (splitCopies node copies phi).incomingFrom k.1 =
      some (getRemappedIdForDuplicatedBlock v k.2) := by
  refine incomingFrom_of_mem h.blocks_nodup
    (i := ⟨k.1, getRemappedIdForDuplicatedBlock v k.2⟩) ?_
  rw [splitCopies_some hv]
  exact List.mem_append_right _ (List.mem_map.mpr ⟨k, hk, rfl⟩)

/-- The other entries stay. -/
theorem Splits.incomingFrom_of_ne (h : Splits copies node size phi) {q : Nat} (hq : q ≠ node)
    (hlt : q < size) : (splitCopies node copies phi).incomingFrom q = phi.incomingFrom q := by
  cases hv : phi.incomingFrom node with
  | none => rw [splitCopies_none hv]
  | some v =>
    refine incomingFrom_erase_append (congrArg PHI.incoming (splitCopies_some hv)) hq fun i hi => ?_
    obtain ⟨k, hk, rfl⟩ := List.mem_map.mp hi
    have hge := h.le k hk
    exact Nat.ne_of_gt (Nat.lt_of_lt_of_le hlt hge)

/-- Rewriting the PHIs of some blocks. -/
theorem modifyAll_mapPhi_ir (c : CFGStructurizer) (l : List Nat) {f : List PHI → List PHI} {n : Nat}
    (hf : f (f (c.node n).ir.phi) = f (c.node n).ir.phi) :
    ((c.modifyAll l (.mapPhi f)).node n).ir =
      if n ∈ l then { (c.node n).ir with phi := f (c.node n).ir.phi } else (c.node n).ir := by
  rw [modifyAll_node _ _ (by simp only [CFGNode.mapPhi, hf])]
  split <;> rfl

variable {m' : SpirvModule}

/-- The run `a'` of a copy in the block `b` does what the run `a` of the original did: the same
effects, the same continuation, and the same values in the PHIs that the original fed. No value
that existed before is overwritten. -/
structure RunsAlike {V W : Type} (machine : Machine V W) (c c' : CFGStructurizer)
    (m : SpirvModule) (node b : Nat) (e : Env V) (a a' : Config V W) : Prop where
  memory : a'.memory = a.memory
  trace : a'.trace = a.trace
  next : machine.next (c'.node b).ir.terminator a'.env =
    machine.next (c.node node).ir.terminator a.env
  kept : ∀ x < m.nextId, a'.env x = e x
  phis : ∀ x, c.ReachedByLadder node x → x ≠ node → x < c.size →
    List.Forall₂ (fun phi phi' : PHI => phi'.id = phi.id ∧ ∀ v, phi.incomingFrom node = some v →
      (phi'.incomingFrom b).map a'.env = some (a.env v)) (c.node x).ir.phi (c'.node x).ir.phi

/-- The copy `b` takes the place of the block over the edge from `p`. -/
structure CopyStandsIn (c c' : CFGStructurizer) (m : SpirvModule) (node p b : Nat) : Prop where
  fresh : c.size ≤ b
  retargeted : (c'.node p).ir.terminator = (c.node p).ir.terminator.retarget node b
  runs : ∃ sel, Selects c node p sel ∧
    ∀ {V W : Type} (machine : Machine V W) (e : Env V) (w : W),
      RunsAlike machine c c' m node b e
        (machine.run (c.node node).ir.operations ⟨enterWith sel (c.node node).ir.phi e, w, []⟩)
        (machine.run (c'.node b).ir.operations ⟨enter p (c'.node b).ir.phi e, w, []⟩)

/-- What stays: the operations of all other blocks, the PHIs that no ladder leads to, and the edges
that do not touch the block. The edges of a predecessor `p` go to its copy in place of the block,
and each copy branches where the block did. -/
structure KeepsRest (c c' : CFGStructurizer) (node : Nat) : Prop where
  size : c'.size = c.size + (c.node node).pred.length
  operations : ∀ x < c.size, x ≠ node → (c'.node x).ir.operations = (c.node x).ir.operations
  terminator : ∀ x < c.size, x ≠ node → (c'.node x).ir.terminator =
    if x ∈ (c.node node).pred then (c.node x).ir.terminator.retarget node (c.breakNode node x)
    else (c.node x).ir.terminator
  phi : ∀ x < c.size, x ≠ node → ¬ c.ReachedByLadder node x →
    (c'.node x).ir.phi = (c.node x).ir.phi
  succ : ∀ x < c.size, (c'.node x).succ =
    if x ∈ (c.node node).pred then (c.node x).succ.replace node (c.breakNode node x)
    else (c.node x).succ
  pred : ∀ x < c.size, (c'.node x).pred =
    if x = node then []
    else if x ∈ (c.node node).succ then
      (c.node x).pred ++ (c.node node).pred.map (c.breakNode node)
    else (c.node x).pred
  copy_edges : ∀ p ∈ (c.node node).pred,
    (c'.node (c.breakNode node p)).succ = (c.node node).succ ∧
      (c'.node (c.breakNode node p)).pred = [p]

/-- Everything but the decorations is kept, and only the copy for the first predecessor has
decorations, none of them non-uniformity. -/
structure Duplicated (c c' : CFGStructurizer) (m m' : SpirvModule) (node : Nat) : Prop where
  copies : ∀ p ∈ (c.node node).pred, CopyStandsIn c c' m node p (c.breakNode node p)
  phis : ∀ x, c.ReachedByLadder node x → x ≠ node → x < c.size →
    List.Forall₂ (KeepsEntries c node) (c.node x).ir.phi (c'.node x).ir.phi
  rest : KeepsRest c c' node
  decorations : ∀ p ∈ (c.node node).pred, List.Forall₂ (fun op dup : Operation =>
    ∀ d ∈ Decoration.shared, m'.hasDecoration dup.id d = (m.hasDecoration op.id d &&
      (d ≠ .nonUniform ∧ (c.node node).pred.head? = some p)))
    (c.node node).ir.operations (c'.node (c.breakNode node p)).ir.operations

/-- Where a copy ends up, the terminator continues like the original. -/
theorem copyTerminator_next {V W : Type} (machine : Machine V W) {t : Terminator} {remap : IdRemap}
    (htype : t.type = .branch ∨ t.type = .condition) {e e' : Env V}
    (hcond : t.type = .condition → t.conditionalId ≠ 0 ∧
      e' (getRemappedIdForDuplicatedBlock t.conditionalId remap) = e t.conditionalId) :
    machine.next (copyTerminator t remap) e' = machine.next t e := by
  rcases htype with ht | ht
  · simp only [Machine.next, copyTerminator, ht]
  · obtain ⟨hne, hval⟩ := hcond ht
    simp only [Machine.next, copyTerminator, ht, if_neg hne, hval]

/-- The new entries fit the PHIs of every block. -/
theorem DuplicatedFor.splits (hd : Duplicable c m node) {s : DuplicateState}
    (h : DuplicatedFor c m node (c.node node).pred s) (hne : (c.node node).pred ≠ []) {x : Nat}
    {phi : PHI} (hphi : phi ∈ (c.node x).ir.phi) : Splits s.copies node c.size phi := by
  obtain ⟨p, l, hp⟩ := List.exists_cons_of_ne_nil hne
  have hisol := hd.isolated (p := p) (by simp [hp])
  have hblocks : s.copies.map (·.1) = (c.node node).pred.map (c.breakNode node) := by
    have hrel := h.copies.imp fun _ _ hk => hk.1
    rw [← List.forall₂_eq_eq_eq]
    exact List.forall₂_map_left_iff.mpr (List.forall₂_map_right_iff.mpr hrel.flip)
  refine ⟨hisol.node_lt, ?_, ?_, hd.incoming_nodup x phi hphi, hd.incoming_lt x phi hphi⟩
  · rw [hblocks]
    exact hisol.nodup_pred.map_on fun q hq r _ he => breakNode_inj hq he
  · intro k hk
    have hmem : k.1 ∈ s.copies.map (·.1) := List.mem_map_of_mem hk
    rw [hblocks] at hmem
    obtain ⟨q, -, he⟩ := List.mem_map.mp hmem
    rw [← he]
    exact c.le_breakNode node q

/-- The ladders below the block are the same before and after the copies were made. -/
theorem DuplicatedFor.mem_chains (hd : Duplicable c m node) {s : DuplicateState}
    (h : DuplicatedFor c m node (c.node node).pred s) {chains : List (List Nat)}
    (hchains : (c.node node).succ.mapM (s.c.ladderChain fuel) = .ok chains) (x : Nat) :
    x ∈ chains.flatten ↔ c.ReachedByLadder node x := by
  have hrel := forall₂_of_mapM hchains
  -- a block on a ladder is no predecessor, so it keeps its edges
  have hbelow : ∀ t ∈ (c.node node).succ, ∀ y, OnLadder c t y →
      (s.c.node y).succ = (c.node y).succ ∧
          (s.c.node y).succBackEdge = (c.node y).succBackEdge := by
    intro t ht y hy
    have hlt : y < c.size := by
      rcases Relation.ReflTransGen.cases_tail hy.reaches with rfl | ⟨z, -, hz⟩
      · exact (hd.inside node y ht).2
      · exact (hd.inside z y hz).2
    have hnot : y ∉ (c.node node).pred := fun hp =>
      hd.acyclic node (Relation.TransGen.head' ht
        (hy.reaches.trans (.single (hd.flows_of_pred y node hp))))
    exact ⟨by rw [h.split.succ y hlt, if_neg hnot], h.succBackEdge y hlt⟩
  have hcongr : ∀ t ∈ (c.node node).succ, ∀ y, OnLadder s.c t y ↔ OnLadder c t y :=
    fun t ht y => OnLadder.congr fun z hz => (hbelow t ht z hz).1
  constructor
  · intro hx
    obtain ⟨l, hl, hxl⟩ := List.mem_flatten.mp hx
    obtain ⟨t, ht, hlt⟩ := exists_left_of_forall₂ hrel hl
    obtain ⟨y, hy, hxy⟩ := (ladderChain_ok hlt x).mp hxl
    have hy := (hcongr t ht y).mp hy
    rw [(hbelow t ht y hy).2] at hxy
    exact ⟨t, ht, y, hy, hxy⟩
  · rintro ⟨t, ht, y, hy, hxy⟩
    obtain ⟨l, hl, hlt⟩ := exists_right_of_forall₂ hrel ht
    refine List.mem_flatten.mpr ⟨l, hl, (ladderChain_ok hlt x).mpr ⟨y, (hcongr t ht y).mpr hy, ?_⟩⟩
    rw [(hbelow t ht y hy).2]
    exact hxy

/-- Rewriting PHIs on the ladders leaves the rest as the copies left it. -/
theorem DuplicatedFor.keepsRest {s : DuplicateState}
    (h : DuplicatedFor c m node (c.node node).pred s) {l : List Nat} {f : List PHI → List PHI}
    (hl : ∀ x, x ∈ l ↔ c.ReachedByLadder node x)
    (hir : ∀ x < c.size, x ≠ node → ((s.c.modifyAll l (.mapPhi f)).node x).ir =
      if x ∈ l then { (s.c.node x).ir with phi := f (c.node x).ir.phi } else (s.c.node x).ir) :
    KeepsRest c (s.c.modifyAll l (.mapPhi f)) node := by
  have hsucc : ∀ x, ((s.c.modifyAll l (.mapPhi f)).node x).succ = (s.c.node x).succ :=
    modifyAll_field CFGNode.succ (fun y : CFGNode => (rfl : (y.mapPhi f).succ = y.succ)) s.c l
  have hpred : ∀ x, ((s.c.modifyAll l (.mapPhi f)).node x).pred = (s.c.node x).pred :=
    modifyAll_field CFGNode.pred (fun y : CFGNode => (rfl : (y.mapPhi f).pred = y.pred)) s.c l
  refine ⟨?_, ?_, ?_, ?_, ?_, ?_, ?_⟩
  · rw [modifyAll_pool]
    exact h.split.size
  · intro x hx hxn
    rw [hir x hx hxn, h.split.ir x hx hxn]
    split <;> split <;> rfl
  · intro x hx hxn
    rw [hir x hx hxn, h.split.ir x hx hxn]
    by_cases hp : x ∈ (c.node node).pred
    · simp only [if_pos hp]
      split <;> rfl
    · simp only [if_neg hp]
      split <;> rfl
  · intro x hx hxn hnot
    rw [hir x hx hxn, if_neg fun hm => hnot ((hl x).mp hm), h.split.ir x hx hxn]
    split <;> rfl
  · intro x hx
    rw [hsucc, h.split.succ x hx]
  · intro x hx
    rw [hpred, h.split.pred x hx]
    by_cases hxn : x = node
    · subst hxn
      rw [if_pos rfl, if_pos rfl, List.drop_length]
    · rw [if_neg hxn, if_neg hxn]
  · intro p hp
    rw [hsucc, hpred]
    exact ⟨h.split.break_succ p hp, h.split.break_pred p hp⟩

/-- What duplicating a block does. -/
theorem duplicateNode_ok (hd : Duplicable c m node) (hcan : c.canDuplicatePhis node = .ok true)
    (h : c.duplicateNode fuel m node = .ok (c', m')) : Duplicated c c' m m' node := by
  simp only [duplicateNode, bind_eq_ok, pure_eq_ok] at h
  obtain ⟨_, htype, _, hlen, b, hb, _, -, s, hs, _, -, chains, hchains, h⟩ := h
  obtain ⟨rfl, rfl⟩ := Prod.mk.inj (Except.ok.inj h)
  have htype := check_eq_ok.mp htype
  have hlen := check_eq_ok.mp hlen
  have hne : (c.node node).pred ≠ [] := fun hnil => by simp [hnil] at hlen
  have hall := duplicateFor_all hd hcan hs
  obtain ⟨q, l, hq⟩ := List.exists_cons_of_ne_nil hne
  have hisol := hd.isolated (p := q) (by simp [hq])
  have hnlt := hisol.node_lt
  have hchain := hall.mem_chains hd hchains
  have hsplits : ∀ x, ∀ phi ∈ (c.node x).ir.phi, Splits s.copies node c.size phi :=
    fun x phi hphi => hall.splits hd hne hphi
  -- the contents of blocks in the end
  have hphi : ∀ x < c.size, x ≠ node → (s.c.node x).ir.phi = (c.node x).ir.phi := by
    intro x hx hxn
    rw [hall.split.ir x hx hxn]
    split <;> rfl
  have hir : ∀ x < c.size, x ≠ node →
      ((s.c.modifyAll chains.flatten (.mapPhi (List.map (splitCopies node s.copies)))).node x).ir =
        if x ∈ chains.flatten then
          { (s.c.node x).ir with phi := (c.node x).ir.phi.map (splitCopies node s.copies) }
        else (s.c.node x).ir := by
    intro x hx hxn
    rw [modifyAll_mapPhi_ir, hphi x hx hxn]
    rw [hphi x hx hxn, List.map_map]
    exact List.map_congr_left fun phi hmem => (hsplits x phi hmem).idempotent
  have hladder : ∀ x, c.ReachedByLadder node x → x ≠ node → x < c.size →
      ((s.c.modifyAll chains.flatten (.mapPhi (List.map (splitCopies node s.copies)))).node
        x).ir.phi = (c.node x).ir.phi.map (splitCopies node s.copies) := by
    intro x hx hxn hlt
    rw [hir x hlt hxn, if_pos ((hchain x).mpr hx)]
  have hcopy : ∀ p ∈ (c.node node).pred, ∃ k ∈ s.copies, k.1 = c.breakNode node p ∧
      CopyFor c m node p k.2 ((s.c.modifyAll chains.flatten
        (.mapPhi (List.map (splitCopies node s.copies)))).node (c.breakNode node p)).ir s.m := by
    intro p hp
    obtain ⟨k, hk, hkp, hfor⟩ := exists_right_of_forall₂ hall.copies hp
    refine ⟨k, hk, hkp, ?_⟩
    rw [hkp] at hfor
    have hnil := hfor.phi
    rw [modifyAll_mapPhi_ir _ _ (by rw [hnil]; rfl), hnil]
    split
    · rw [List.map_nil, ← hnil]
      exact hfor
    · exact hfor
  refine ⟨fun p hp => ?_, fun x hx hxn hlt => ?_, hall.keepsRest hchain hir, fun p hp => ?_⟩
  · obtain ⟨k, hk, hkp, hfor⟩ := hcopy p hp
    have hpn : p ≠ node := fun he => hisol.notMem_pred (he ▸ hp)
    refine ⟨c.le_breakNode node p, ?_, ?_⟩
    · rw [hir p (hisol.pred_lt node p hp) hpn]
      have hterm : (s.c.node p).ir.terminator =
          (c.node p).ir.terminator.retarget node (c.breakNode node p) := by
        rw [hall.split.ir p (hisol.pred_lt node p hp) hpn, if_pos hp]
      split <;> exact hterm
    · obtain ⟨sel, hsel, hrun⟩ := hfor.runs
      refine ⟨sel, hsel, fun machine e w => ?_⟩
      rw [hfor.phi]
      have hagree := hrun machine e w
      refine ⟨hagree.memory, hagree.trace, ?_, ?_, ?_⟩
      · rw [hfor.terminator]
        exact copyTerminator_next machine htype fun ht =>
          ⟨(hd.condition ht).1, hagree.env _ (hd.condition ht).2⟩
      · intro x hx
        refine run_env_of_ne machine (fun dup hdup h0 => ?_) _
        obtain ⟨op, -, hzero, hfresh, -⟩ := exists_left_of_forall₂ hfor.operations hdup
        have hop : op.id ≠ 0 := fun he => h0 (hzero he)
        have hge := (hfresh hop).1
        omega
      · intro x hx hxn hlt
        rw [hladder x hx hxn hlt, List.forall₂_map_right_iff, List.forall₂_same]
        intro phi hmem
        have hsplit := hsplits x phi hmem
        refine ⟨?_, fun v hv => ?_⟩
        · unfold splitCopies
          split <;> rfl
        · obtain ⟨i, hi, rfl⟩ := Option.map_eq_some_iff.mp hv
          have hin := hsplit.incomingFrom_copy hv hk
          rw [hkp] at hin
          rw [hin, Option.map_some]
          exact congrArg some
            (hagree.env _ (hd.incoming_id_lt x phi hmem i (List.mem_of_find?_eq_some hi)))
  · rw [hladder x hx hxn hlt, List.forall₂_map_right_iff, List.forall₂_same]
    intro phi hmem
    have hsplit := hsplits x phi hmem
    refine ⟨?_, hsplit.notMem, fun r hr hrn => hsplit.incomingFrom_of_ne hrn hr⟩
    unfold splitCopies
    split <;> rfl
  · obtain ⟨k, -, -, hfor⟩ := hcopy p hp
    exact hfor.operations.imp fun op dup hrel => hrel.2.2

end CFGStructurizer

end DxilSpirv
