import DxilSpirv.Cfg.Escape
import DxilSpirv.Cfg.SplitOff
import DxilSpirv.Graph.Walk
import DxilSpirv.Ssa.Machine

/-!
# Splitting breaking PHI constructs

A block that only joins values before it breaks looks like a merge, but is not one. It is
eliminated: every predecessor gets a break block of its own, and the PHIs of the block are
flattened into the PHIs of its successors.
-/

namespace DxilSpirv

open DxilSpirv.Graph

/-- Move the incoming value of one block to another block. -/
def PHI.moveIncoming (pred breakNode : Nat) (phi : PHI) : PHI :=
  { phi with
    incoming := phi.incoming.map fun i => if i.block = pred
      then { i with block := breakNode } else i }

/-- The condition of a break block: a PHI of the eliminated block has the incoming value. -/
def resolveCondition (phis : List PHI) (pred : Nat) (t : Terminator) : Terminator :=
  { t with
    conditionalId := phis.foldl (fun cond phi => phi.incoming.foldl (fun cond i =>
      if i.block = pred ∧ phi.id = cond then i.id else cond) cond) t.conditionalId }

namespace CFGNode

/-- Edit the PHIs of a node. -/
def mapPhi (f : List PHI → List PHI) (x : CFGNode) : CFGNode :=
  { x with ir := { x.ir with phi := f x.ir.phi } }

end CFGNode

namespace CFGStructurizer

/-- `CFGStructurizer::ladder_chain_has_phi_dependencies`. -/
def ladderChainHasPhiDependencies (c : CFGStructurizer) (node : Nat) :
    Nat → Nat → Except Fault Bool
  | 0, _ => .error .outOfFuel
  | fuel + 1, succ =>
    if (c.node succ).ir.phi.any fun phi => phi.incoming.any fun i => i.block = node then .ok true
    else
      match (c.node succ).succ with
      | [s] => ladderChainHasPhiDependencies c node fuel s
      | _ => .ok false

/-- Whether a block is the exit ladder of a loop that has no exit of its own, and should stay. -/
def isLoopLadder (c : CFGStructurizer) (n : Nat) : Except Fault Bool := do
  let header ← c.getInnermostLoopHeaderFor c.entryBlock n
  match (c.node header).predBackEdge with
  | none => return false
  | some continueBlock =>
    if ← c.dominates header n then
      if (c.node continueBlock).succ ≠ [] then return false
      else if c.queryReachability n continueBlock then return false
      -- if the paths all end up in the same merge anyway, it is safer to split
      else if (c.node n).dominanceFrontier.any fun df =>
          some df = (c.node continueBlock).immediatePostDominator then return false
      -- we cannot reach, but the frontier can: a loop exit
      else return (c.node n).postDominanceFrontier.any fun pdf =>
        c.queryReachability pdf continueBlock
    else return false

/-- Whether a block is no part of a back edge and ends in a branch to its one or two successors. -/
def isPlainBranch (c : CFGStructurizer) (n : Nat) : Bool :=
  (c.node n).succBackEdge = none && (c.node n).predBackEdge = none &&
    match (c.node n).succ with
    | [_] => (c.node n).ir.terminator.type = .branch
    | [_, _] => (c.node n).ir.terminator.type = .condition
    | _ => false

/-- `CFGStructurizer::block_is_breaking_phi_construct`. -/
def blockIsBreakingPhiConstruct (fuel : Nat) (c : CFGStructurizer) (n : Nat) :
    Except Fault Bool := do
  if (c.node n).ir.operations ≠ [] ∨ (c.node n).pred.length ≤ 1 then return false
  -- nothing that could be considered load bearing
  else if ← c.postDominatesPerfectStructuredConstruct n then return false
  else if !c.isPlainBranch n then return false
  else if ← (c.node n).succ.allM fun succ => do
      if ← c.dominates n succ then return false
      else c.ladderChainHasPhiDependencies n fuel succ then
    -- a merge block candidate for a loop would only have to be merged again
    if (c.node n).pred.any fun pred => (c.node pred).succBackEdge ≠ none then return false
    else return !(← c.isLoopLadder n)
  else return false

/-- Give one predecessor of an eliminated block its break block. -/
def linkBreakNode (fuel node : Nat) (succs : List Nat) (s : CFGStructurizer × List Nat)
    (pred : Nat) : Except Fault (CFGStructurizer × List Nat) := do
  let (c, breakNode) := s.1.createNode
  let c := c.modify breakNode (.mapTerminator fun _ => (c.node node).ir.terminator)
  let c ← c.addBranches breakNode succs
  let c := c.modify breakNode (.setDominators (some pred) (c.node node).immediatePostDominator)
  let c ← c.retargetBranch fuel pred node breakNode
  -- we may depend on a PHI to do the conditional branch
  let c := c.modify breakNode (.mapTerminator (resolveCondition (c.node node).ir.phi pred))
  let c := c.modify node (.mapPhi (List.map (PHI.moveIncoming pred breakNode)))
  return (c, s.2 ++ [breakNode])

/-- Replace the incoming value of an eliminated block by those of its break blocks. -/
def splitIncoming (nodePhis : List PHI) (node : Nat) (breakNodes : List Nat) (phi : PHI) :
    Except Fault PHI :=
  match phi.incoming.find? fun i => i.block == node with
  | none => .error .assertion
  | some fromNode =>
    let rest := phi.incoming.eraseP fun i => i.block == node
    match nodePhis.find? fun out => out.id == fromNode.id with
    | some out => .ok { phi with incoming := rest ++ out.incoming }
    -- a plain value dominates all predecessors of the block
    | none => .ok { phi with incoming := rest ++ breakNodes.map fun b => ⟨b, fromNode.id⟩ }

/-- Rewrite the PHIs of one successor of an eliminated block. -/
def rewriteSucc (node : Nat) (breakNodes : List Nat) (c : CFGStructurizer) (succ : Nat) :
    Except Fault CFGStructurizer := do
  let phis ← (c.node succ).ir.phi.mapM (splitIncoming (c.node node).ir.phi node breakNodes)
  let c := c.modify succ (.mapPhi fun _ => phis)
  -- the block is unreachable now
  return c.modify succ (.mapPred (·.erase node))

/-- `CFGStructurizer::eliminate_node_link_preds_to_succ`. -/
def eliminateNodeLinkPredsToSucc (fuel : Nat) (c : CFGStructurizer) (node : Nat) :
    Except Fault CFGStructurizer := do
  check ((c.node node).succ.length = 1 ∨ (c.node node).succ.length = 2)
  let succs := (c.node node).succ
  let (c, breakNodes) ← (c.node node).pred.foldlM (linkBreakNode fuel node succs) (c, [])
  check ((c.node node).pred = [])
  let c ← (c.node node).succ.foldlM (rewriteSucc node breakNodes) c
  return c.modify node (.mapPhi fun _ => [])

variable (c : CFGStructurizer) (n x : Nat) (f : List PHI → List PHI) (d d' : Option Nat)

@[simp] theorem modify_mapPhi_succ : ((c.modify n (.mapPhi f)).node x).succ = (c.node x).succ :=
  modify_field c n x _ _ fun _ => rfl

@[simp] theorem modify_mapPhi_pred : ((c.modify n (.mapPhi f)).node x).pred = (c.node x).pred :=
  modify_field c n x _ _ fun _ => rfl

@[simp] theorem modify_mapPhi_ir : ((c.modify n (.mapPhi f)).node x).ir =
    if x = n then { (c.node x).ir with phi := f (c.node x).ir.phi } else (c.node x).ir := by
  rw [modify_node]
  split <;> simp_all [CFGNode.mapPhi]

variable {c} {c' : CFGStructurizer} {fuel node p : Nat} {succs bs bs' : List Nat}

/-- What one break block changes. -/
theorem linkBreakNode_ok (h : linkBreakNode fuel node succs (c, bs) p = .ok (c', bs'))
    (hnode : node < c.size) (hp : p < c.size) (hpn : p ≠ node) (hnodup : succs.Nodup)
    (hs : ∀ s ∈ succs, s < c.size ∧ s ≠ node) :
    bs' = bs ++ [c.size] ∧ SplitStep c node p succs
      { (c.node node).ir with phi := (c.node node).ir.phi.map (PHI.moveIncoming p c.size) }
      { terminator := resolveCondition (c.node node).ir.phi p (c.node node).ir.terminator } c' := by
  simp only [linkBreakNode, createNode_snd, bind_eq_ok, pure_eq_ok] at h
  obtain ⟨c₁, h₁, c₂, h₂, h⟩ := h
  obtain ⟨rfl, rfl⟩ := Prod.mk.inj (Except.ok.inj h)
  have hns : node ≠ c.size := Nat.ne_of_lt hnode
  have hps : p ≠ c.size := Nat.ne_of_lt hp
  -- the new block before it has branches
  have hnew : ∀ x, ((c.createNode.1.modify c.size
      (.mapTerminator fun _ => (c.createNode.1.node node).ir.terminator)).node x) =
      if x = c.size then { ir := { terminator := (c.node node).ir.terminator } } else c.node x := by
    intro x
    rw [modify_node, createNode_node, createNode_node, createNode_node, if_neg hns, if_pos rfl]
    split <;> rfl
  obtain ⟨hframe, hadd⟩ := addBranches_spec h₁
  obtain ⟨-, hdoms⟩ := retargetBranch_ok h₂
  have hir₁ : ∀ x, (c₁.node x).ir =
      if x = c.size then { terminator := (c.node node).ir.terminator } else (c.node x).ir := by
    intro x
    rw [(hadd x).1, hnew]
    exact apply_ite CFGNode.ir ..
  have hsucc₁ : ∀ x, (c₁.node x).succ = if x = c.size then succs else (c.node x).succ := by
    intro x
    rw [(hadd x).2.1, hnew]
    by_cases hx : x = c.size
    · simp [hx, foldl_addUnique hnodup]
    · simp [hx]
  have hpred₁ : ∀ x, (c₁.node x).pred =
      if x = c.size then []
      else if x ∈ succs then addUnique (c.node x).pred c.size else (c.node x).pred := by
    intro x
    rw [(hadd x).2.2, hnew]
    by_cases hx : x = c.size
    · have hxs : x ∉ succs := fun hm => absurd (hs x hm).1 (by omega)
      simp [hx, hx ▸ hxs]
    · simp [hx]
  have hir₂ : ∀ x, (c₂.node x).ir =
      if x = p then
        { (c₁.node x).ir with terminator := (c₁.node x).ir.terminator.retarget node c.size }
      else (c₁.node x).ir := by
    intro x
    rw [hdoms.ir, retargeted_ir, modify_setDominators_ir]
  have hphi₂ : (c₂.node node).ir.phi = (c.node node).ir.phi := by
    rw [hir₂, if_neg hpn.symm, hir₁, if_neg hns]
  have hedges : ∀ x, (((c₂.modify c.size (.mapTerminator
      (resolveCondition (c₂.node node).ir.phi p))).modify node
        (.mapPhi (List.map (PHI.moveIncoming p c.size)))).node x).succ = (c₂.node x).succ ∧
      (((c₂.modify c.size (.mapTerminator
      (resolveCondition (c₂.node node).ir.phi p))).modify node
        (.mapPhi (List.map (PHI.moveIncoming p c.size)))).node x).pred = (c₂.node x).pred := by
    intro x
    constructor
    · rw [modify_mapPhi_succ, modify_mapTerminator_succ]
    · rw [modify_mapPhi_pred, modify_mapTerminator_pred]
  refine ⟨rfl, ?_, ?_, ?_, ?_⟩
  · rw [modify_size, modify_size, hdoms.size, (retargeted_edgesOnly ..).pool, hframe.pool]
    rfl
  · intro x
    rw [modify_mapPhi_ir, modify_mapTerminator_ir, hphi₂, hir₂, hir₁]
    by_cases hx : x = c.size
    · subst hx
      simp [hns.symm, hps.symm]
    · by_cases hxn : x = node
      · subst hxn
        simp [hx, hpn.symm]
      · simp [hx, hxn]
  · intro x
    rw [(hedges x).1, hdoms.succ, retargeted_succ, modify_setDominators_succ, hsucc₁]
    by_cases hx : x = p
    · subst hx
      simp [hps]
    · simp [hx]
  · intro x
    rw [(hedges x).2, hdoms.pred, retargeted_pred _ hns]
    simp only [modify_setDominators_pred, hpred₁]
    by_cases hx : x = c.size
    · subst hx
      simp [hns.symm, addUnique]
    · by_cases hxn : x = node
      · subst hxn
        have hxs : x ∉ succs := fun hm => (hs x hm).2 rfl
        simp [hx, hxs]
      · simp [hx, hxn]

/-- The eliminated block once the predecessors in `done` have their break blocks. -/
def movedIr (c : CFGStructurizer) (node : Nat) (done : List Nat) : IRBlock :=
  { (c.node node).ir with
    phi := (c.node node).ir.phi.map fun phi => { phi with
      incoming := phi.incoming.map fun i =>
        if i.block ∈ done then { i with block := c.breakNode node i.block } else i } }

/-- What the break block of a predecessor contains. -/
def IsBreakIr (c : CFGStructurizer) (node p : Nat) (ir : IRBlock) : Prop :=
  ir = { terminator := resolveCondition (c.node node).ir.phi p (c.node node).ir.terminator }

/-- The pool once the predecessors in `done` have their break blocks. -/
abbrev Linked (c : CFGStructurizer) (node : Nat) (done : List Nat) (c' : CFGStructurizer) : Prop :=
  SplitOff c node (c.IsBreakIr node) done (c.movedIr node done) c'

theorem Linked.refl (c : CFGStructurizer) (node : Nat) : Linked c node [] c := by
  have hir : c.movedIr node [] = (c.node node).ir := by simp [movedIr]
  rw [Linked, hir]
  exact .refl c node _

/-- The moves of other predecessors do not change what one predecessor resolves to. -/
private theorem resolveCondition_moved (phis : List PHI) (t : Terminator) {done : List Nat}
    {f : Nat → Nat} (hp : p ∉ done) (hf : ∀ q, f q ≠ p) :
    resolveCondition (phis.map fun phi => { phi with
      incoming := phi.incoming.map fun i =>
        if i.block ∈ done then { i with block := f i.block } else i }) p t =
      resolveCondition phis p t := by
  have hone : ∀ (i : IncomingValue) (phi : PHI) (cond : Nat),
      (if (if i.block ∈ done then { i with block := f i.block } else i).block = p ∧ phi.id = cond
        then (if i.block ∈ done then { i with block := f i.block } else i).id else cond) =
      if i.block = p ∧ phi.id = cond then i.id else cond := by
    intro i phi cond
    by_cases hi : i.block ∈ done
    · have hne : i.block ≠ p := fun h => hp (h ▸ hi)
      simp [hi, hf, hne]
    · simp [hi]
  simp only [resolveCondition, List.foldl_map, hone]

/-- One more predecessor. -/
theorem Linked.step (hc : c.Isolated node) {done rest : List Nat}
    (hpreds : (c.node node).pred = done ++ p :: rest) (h : Linked c node done c')
    {c'' : CFGStructurizer}
    (hok : linkBreakNode fuel node (c.node node).succ (c', bs) p = .ok (c'', bs')) :
    bs' = bs ++ [c.breakNode node p] ∧ Linked c node (done ++ [p]) c'' := by
  have hpmem : p ∈ (c.node node).pred := by simp [hpreds]
  obtain ⟨hpdone, hbrk, -⟩ := h.breakNode_eq hpreds hc.nodup_pred
  have hpn : p ≠ node := fun he => hc.notMem_pred (he ▸ hpmem)
  have hplt := hc.pred_lt node p hpmem
  have hnlt := hc.node_lt
  have hle : c.size ≤ c'.size := by rw [h.size]; omega
  obtain ⟨rfl, hstep⟩ := linkBreakNode_ok hok (by omega) (by omega) hpn hc.nodup_succ
    fun s hs => ⟨Nat.lt_of_lt_of_le (hc.succ_lt s hs) hle, fun he => hc.notMem_succ (he ▸ hs)⟩
  rw [h.node_ir, ← hbrk] at hstep
  have hbreak : ∀ q, c.breakNode node q ≠ p := fun q => by
    have := c.le_breakNode node q
    omega
  have hphi : (c.movedIr node done).phi.map (PHI.moveIncoming p (c.breakNode node p)) =
      (c.movedIr node (done ++ [p])).phi := by
    simp only [movedIr, List.map_map]
    refine List.map_congr_left fun phi _ => ?_
    simp only [Function.comp, PHI.moveIncoming, List.map_map]
    congr 1
    refine List.map_congr_left fun i _ => ?_
    by_cases hi : i.block ∈ done
    · simp [hi, hbreak]
    · by_cases hip : i.block = p
      · simp [hip, hpdone]
      · simp [hi, hip]
  rw [hphi] at hstep
  refine ⟨by rw [hbrk], SplitOff.step hc hpreds h hstep ?_⟩
  rw [IsBreakIr]
  exact congrArg _ (resolveCondition_moved _ _ hpdone hbreak)

/-- All predecessors have their break blocks. -/
theorem linkBreakNodes_ok (hc : c.Isolated node)
    (h : (c.node node).pred.foldlM (linkBreakNode fuel node (c.node node).succ) (c, []) =
      .ok (c', bs)) :
    bs = (c.node node).pred.map (c.breakNode node) ∧ Linked c node (c.node node).pred c' := by
  suffices hgen : ∀ (rest done : List Nat) (c₁ : CFGStructurizer),
      (c.node node).pred = done ++ rest → Linked c node done c₁ →
      rest.foldlM (linkBreakNode fuel node (c.node node).succ)
        (c₁, done.map (c.breakNode node)) = .ok (c', bs) →
      bs = (c.node node).pred.map (c.breakNode node) ∧ Linked c node (c.node node).pred c' from
    hgen _ [] c rfl (.refl c node) h
  intro rest
  induction rest with
  | nil =>
    intro done c₁ hpreds hlinked h
    obtain ⟨rfl, rfl⟩ := Prod.mk.inj (Except.ok.inj h)
    rw [List.append_nil] at hpreds
    rw [hpreds]
    exact ⟨rfl, hlinked⟩
  | cons p rest ih =>
    intro done c₁ hpreds hlinked h
    rw [List.foldlM_cons, bind_eq_ok] at h
    obtain ⟨⟨c₂, bs₂⟩, hstep, h⟩ := h
    obtain ⟨rfl, hlinked₂⟩ := hlinked.step hc hpreds hstep
    refine ih (done ++ [p]) c₂ (by rw [hpreds, List.append_assoc]; rfl) hlinked₂ ?_
    rw [List.map_append]
    exact h

/-- The pool once the PHIs of the successors in `done` are rewritten. -/
structure Flattened (c : CFGStructurizer) (node : Nat) (bs done : List Nat)
    (c' : CFGStructurizer) : Prop where
  size : c'.size = c.size
  operations : ∀ x, (c'.node x).ir.operations = (c.node x).ir.operations
  ir : ∀ x, x ∉ done → (c'.node x).ir = (c.node x).ir
  phi : ∀ x ∈ done, List.Forall₂
    (fun phi phi' => splitIncoming (c.node node).ir.phi node bs phi = .ok phi')
    (c.node x).ir.phi (c'.node x).ir.phi
  terminator : ∀ x, (c'.node x).ir.terminator = (c.node x).ir.terminator
  succ : ∀ x, (c'.node x).succ = (c.node x).succ
  pred : ∀ x, (c'.node x).pred =
    if x ∈ done then (c.node x).pred.erase node else (c.node x).pred

theorem Flattened.refl (c : CFGStructurizer) (node : Nat) (bs : List Nat) :
    Flattened c node bs [] c where
  size := rfl
  operations _ := rfl
  ir _ _ := rfl
  phi _ h := absurd h List.not_mem_nil
  terminator _ := rfl
  succ _ := rfl
  pred _ := rfl

theorem rewriteSucc_ok {s : Nat} {done : List Nat} (hs : s ∉ done) (hn : node ∉ done)
    (h : Flattened c node bs done c') {c'' : CFGStructurizer}
    (hok : rewriteSucc node bs c' s = .ok c'') : Flattened c node bs (done ++ [s]) c'' := by
  simp only [rewriteSucc, bind_eq_ok, pure_eq_ok] at hok
  obtain ⟨phis, hphis, hok⟩ := hok
  obtain rfl := Except.ok.inj hok
  have hphis := forall₂_of_mapM hphis
  rw [h.ir s hs, h.ir node hn] at hphis
  refine ⟨h.size, ?_, ?_, ?_, ?_, ?_, ?_⟩
  · intro x
    rw [modify_mapPred_ir, modify_mapPhi_ir]
    split
    · exact h.operations x
    · exact h.operations x
  · intro x hx
    rw [List.mem_append, List.mem_singleton, not_or] at hx
    rw [modify_mapPred_ir, modify_mapPhi_ir, if_neg hx.2, h.ir x hx.1]
  · intro x hx
    rw [modify_mapPred_ir, modify_mapPhi_ir]
    rcases List.mem_append.mp hx with hx | hx
    · have hxs : x ≠ s := fun he => hs (he ▸ hx)
      rw [if_neg hxs]
      exact h.phi x hx
    · obtain rfl := List.mem_singleton.mp hx
      rw [if_pos rfl]
      exact hphis
  · intro x
    rw [modify_mapPred_ir, modify_mapPhi_ir]
    split
    · exact h.terminator x
    · exact h.terminator x
  · intro x
    rw [modify_mapPred_succ, modify_mapPhi_succ, h.succ]
  · intro x
    rw [modify_mapPred_pred, modify_mapPhi_pred, h.pred]
    by_cases hxs : x = s
    · subst hxs
      simp [hs]
    · simp [hxs]

/-- All successors are rewritten. -/
theorem rewriteSuccs_ok {succs : List Nat} (hnodup : succs.Nodup) (hn : node ∉ succs)
    (h : succs.foldlM (rewriteSucc node bs) c = .ok c') : Flattened c node bs succs c' := by
  suffices hgen : ∀ (rest done : List Nat) (c₁ : CFGStructurizer), succs = done ++ rest →
      Flattened c node bs done c₁ → rest.foldlM (rewriteSucc node bs) c₁ = .ok c' →
      Flattened c node bs succs c' from
    hgen _ [] c rfl (.refl c node bs) h
  intro rest
  induction rest with
  | nil =>
    intro done c₁ hsuccs hflat h
    obtain rfl := Except.ok.inj h
    rw [List.append_nil] at hsuccs
    exact hsuccs ▸ hflat
  | cons s rest ih =>
    intro done c₁ hsuccs hflat h
    rw [List.foldlM_cons, bind_eq_ok] at h
    obtain ⟨c₂, hstep, h⟩ := h
    rw [hsuccs] at hnodup hn
    have hs : s ∉ done := fun hm =>
      (List.nodup_append.mp hnodup).2.2 s hm s (List.mem_cons_self ..) rfl
    have hflat₂ := rewriteSucc_ok hs (fun hm => hn (List.mem_append_left _ hm)) hflat hstep
    exact ih (done ++ [s]) c₂ (by rw [hsuccs, List.append_assoc]; rfl) hflat₂ h

/-- The PHIs of a block once all predecessors have their break blocks. -/
def movedPhis (c : CFGStructurizer) (node : Nat) : List PHI :=
  (c.movedIr node (c.node node).pred).phi

/-- What the elimination of a block does to the other blocks: the edges of a predecessor `p` go to
its break block in place of the block, and each break block branches where the block did. -/
structure Eliminated (c : CFGStructurizer) (node : Nat) (c' : CFGStructurizer) : Prop where
  size : c'.size = c.size + (c.node node).pred.length
  break_ir : ∀ p ∈ (c.node node).pred, (c'.node (c.breakNode node p)).ir =
    { terminator := resolveCondition (c.node node).ir.phi p (c.node node).ir.terminator }
  break_edges : ∀ p ∈ (c.node node).pred,
    (c'.node (c.breakNode node p)).succ = (c.node node).succ ∧
      (c'.node (c.breakNode node p)).pred = [p]
  phi : ∀ s ∈ (c.node node).succ, List.Forall₂
    (fun phi phi' => splitIncoming (c.movedPhis node) node
      ((c.node node).pred.map (c.breakNode node)) phi = .ok phi')
    (c.node s).ir.phi (c'.node s).ir.phi
  phi_other : ∀ x < c.size, x ≠ node → x ∉ (c.node node).succ →
    (c'.node x).ir.phi = (c.node x).ir.phi
  operations : ∀ x < c.size, x ≠ node → (c'.node x).ir.operations = (c.node x).ir.operations
  terminator : ∀ x < c.size, x ≠ node → (c'.node x).ir.terminator =
    if x ∈ (c.node node).pred then (c.node x).ir.terminator.retarget node (c.breakNode node x)
    else (c.node x).ir.terminator
  succ : ∀ x < c.size, (c'.node x).succ =
    if x ∈ (c.node node).pred then (c.node x).succ.replace node (c.breakNode node x)
    else (c.node x).succ
  pred : ∀ x < c.size, (c'.node x).pred =
    if x = node then []
    else if x ∈ (c.node node).succ then
      ((c.node x).pred ++ (c.node node).pred.map (c.breakNode node)).erase node
    else (c.node x).pred

theorem eliminateNodeLinkPredsToSucc_ok (hc : c.Isolated node)
    (h : c.eliminateNodeLinkPredsToSucc fuel node = .ok c') : Eliminated c node c' := by
  simp only [eliminateNodeLinkPredsToSucc, bind_eq_ok, pure_eq_ok] at h
  obtain ⟨_, -, ⟨c₁, bs⟩, h₁, _, -, c₂, h₂, h⟩ := h
  obtain rfl := Except.ok.inj h
  obtain ⟨rfl, hlinked⟩ := linkBreakNodes_ok hc h₁
  have hsuccs : (c₁.node node).succ = (c.node node).succ := by
    rw [hlinked.succ node hc.node_lt, if_neg hc.notMem_pred]
  dsimp only at h₂
  rw [hsuccs] at h₂
  have hflat := rewriteSuccs_ok hc.nodup_succ hc.notMem_succ h₂
  have hmoved : (c₁.node node).ir.phi = c.movedPhis node := by
    rw [hlinked.node_ir]
    rfl
  have hne : ∀ s ∈ (c.node node).succ, s ≠ node := fun s hs he => hc.notMem_succ (he ▸ hs)
  have hnew : ∀ p, c.breakNode node p ≠ node ∧ c.breakNode node p ∉ (c.node node).succ := by
    intro p
    have hge := c.le_breakNode node p
    refine ⟨fun he => ?_, fun hm => ?_⟩
    · have := hc.node_lt
      omega
    · have := hc.succ_lt _ hm
      omega
  refine ⟨?_, ?_, ?_, ?_, ?_, ?_, ?_, ?_, ?_⟩
  · rw [modify_size, hflat.size, hlinked.size]
  · intro p hp
    rw [modify_mapPhi_ir, if_neg (hnew p).1, hflat.ir _ (hnew p).2]
    exact hlinked.break_ir p hp
  · intro p hp
    rw [modify_mapPhi_succ, modify_mapPhi_pred, hflat.succ, hflat.pred, if_neg (hnew p).2]
    exact ⟨hlinked.break_succ p hp, hlinked.break_pred p hp⟩
  · intro s hs
    have hphi := hflat.phi s hs
    have hold : (c₁.node s).ir.phi = (c.node s).ir.phi := by
      rw [hlinked.ir s (hc.succ_lt s hs) (hne s hs)]
      split <;> rfl
    rw [hmoved, hold] at hphi
    rw [modify_mapPhi_ir, if_neg (hne s hs)]
    exact hphi
  · intro x hx hxn hxs
    rw [modify_mapPhi_ir, if_neg hxn, hflat.ir x hxs, hlinked.ir x hx hxn]
    split <;> rfl
  · intro x hx hxn
    rw [modify_mapPhi_ir, if_neg hxn, hflat.operations, hlinked.ir x hx hxn]
    split <;> rfl
  · intro x hx hxn
    rw [modify_mapPhi_ir, if_neg hxn, hflat.terminator, hlinked.ir x hx hxn]
    split <;> rfl
  · intro x hx
    rw [modify_mapPhi_succ, hflat.succ, hlinked.succ x hx]
  · intro x hx
    rw [modify_mapPhi_pred, hflat.pred, hlinked.pred x hx]
    by_cases hxn : x = node
    · subst hxn
      rw [if_neg hc.notMem_succ, if_pos rfl, if_pos rfl, List.drop_length]
    · rw [if_neg hxn, if_neg hxn]
      split <;> rfl

/-- The entries of a PHI in another pool: that of the block is gone, and nothing else than entries
of new blocks is added. -/
structure KeepsEntries (c : CFGStructurizer) (node : Nat) (phi phi' : PHI) : Prop where
  same : phi' = { phi with incoming := phi'.incoming }
  notMem : phi'.incomingFrom node = none
  entries : ∀ q < c.size, q ≠ node → phi'.incomingFrom q = phi.incomingFrom q

end CFGStructurizer

end DxilSpirv
