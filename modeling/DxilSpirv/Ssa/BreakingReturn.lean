import DxilSpirv.Cfg.Escape
import DxilSpirv.Cfg.SplitOff
import DxilSpirv.Ssa.TrueBranches

/-!
# Splitting breaking returns

A block that only returns and does not merge any work is split: every predecessor gets a return of
its own. The pass is repeated until there is nothing to split.
-/

namespace DxilSpirv

open DxilSpirv.Graph

namespace CFGStructurizer

variable (fuel : Nat) (c : CFGStructurizer)

/-- Whether a block only serves to return and is meaningless to merge. -/
def isSplitCandidate (n : Nat) : Except Fault Bool :=
  if (c.node n).ir.operations = [] ∧ 1 < (c.node n).pred.length then do
    return (← c.countPostDominatesWorkFromIncomingPreds fuel n) = 0
  else .ok false

/-- The body of the first loop: the number of returns that post-dominate a predecessor, and the last
candidate for a split. -/
def classifyReturn (s : Nat × Option Nat) (n : Nat) : Except Fault (Nat × Option Nat) :=
  if (c.node n).ir.terminator.type ≠ .ret then .ok s
  else do
    if ← c.isSplitCandidate fuel n then return (s.1, some n)
    else if ← (c.node n).pred.anyM fun p => c.postDominates n p then return (s.1 + 1, s.2)
    else return s

/-- The return of a predecessor before it is linked. -/
def dummyReturn (split : Nat) : CFGNode where
  immediateDominator := (c.node split).immediateDominator
  immediatePostDominator := some c.exitBlock
  forwardPostVisitOrder := (c.node split).forwardPostVisitOrder
  backwardPostVisitOrder := (c.node split).backwardPostVisitOrder
  ir := { terminator := { type := .ret } }

/-- Give one predecessor of a split block a return of its own. -/
def duplicateReturn (split : Nat) (c : CFGStructurizer) (p : Nat) : Except Fault CFGStructurizer :=
  let (c, dummy) := c.createNode
  let c := c.modify dummy fun _ => c.dummyReturn split
  c.retargetBranch fuel p split dummy

/-- `CFGStructurizer::cleanup_breaking_return_constructs`. -/
def cleanupBreakingReturnConstructs : Except Fault (CFGStructurizer × Bool) := do
  let (postDominatingReturns, splitCandidate) ←
    c.forwardPostVisitOrder.foldlM (c.classifyReturn fuel) (0, none)
  if postDominatingReturns = 0 then return (c, false)
  else
    match splitCandidate with
    | some split => do
      let c ← (c.node split).pred.foldlM (duplicateReturn fuel split) c
      let c ← c.recomputeCfg fuel
      return (c, true)
    | none => return (c, false)

end CFGStructurizer

open CFGStructurizer

variable {fuel split p : Nat} {c c' : CFGStructurizer}

/-! ## The candidate -/

/-- What is known of a block that is split. -/
structure SplitReturn (c : CFGStructurizer) (split : Nat) : Prop where
  mem : split ∈ c.forwardPostVisitOrder
  returns : c.Returns split
  operations : (c.node split).ir.operations = []
  phi : (c.node split).ir.phi = []
  preds : 1 < (c.node split).pred.length

/-- A candidate has no PHIs: they would count as work. -/
theorem isSplitCandidate_spec (h : c.isSplitCandidate fuel p = .ok true) :
    (c.node p).ir.operations = [] ∧ (c.node p).ir.phi = [] ∧ 1 < (c.node p).pred.length := by
  unfold isSplitCandidate at h
  split at h
  · rename_i hshape
    simp only [bind_eq_ok, pure_eq_ok, Except.ok.injEq, decide_eq_true_eq] at h
    obtain ⟨count, hcount, rfl⟩ := h
    simp only [countPostDominatesWorkFromIncomingPreds, bind_eq_ok] at hcount
    obtain ⟨start, hstart, hcount⟩ := hcount
    -- several predecessors end the back-trace at once
    have hself : start = p := by
      unfold backtraceIdle at hstart
      split at hstart
      · cases hstart
      · split at hstart
        · rename_i hpred
          rw [hpred] at hshape
          exact absurd hshape.2 (by simp)
        · exact (Except.ok.inj hstart).symm
    subst hself
    split at hcount
    · cases hcount
    · rename_i hidle
      rw [not_or, Decidable.not_not, Decidable.not_not] at hidle
      exact ⟨hidle.1, hidle.2, hshape.2⟩
  · cases h

/-- The split block is a candidate of the forward order. -/
theorem splitReturn_of_classify {r : Nat × Option Nat}
    (h : c.forwardPostVisitOrder.foldlM (c.classifyReturn fuel) (0, none) = .ok r) :
    ∀ split, r.2 = some split → SplitReturn c split := by
  refine foldlM_invariant (P := fun s : Nat × Option Nat => ∀ split, s.2 = some split →
    SplitReturn c split) ?_ (by simp) h
  intro n hn s s' hs hstep
  unfold classifyReturn at hstep
  split at hstep
  · obtain rfl := Except.ok.inj hstep
    exact hs
  · rename_i hret
    simp only [bind_eq_ok] at hstep
    obtain ⟨candidate, hcandidate, hstep⟩ := hstep
    split at hstep
    · rename_i htrue
      obtain rfl := Except.ok.inj hstep
      intro split hsplit
      obtain rfl := Option.some.inj hsplit
      obtain ⟨hops, hphi, hpreds⟩ := isSplitCandidate_spec (htrue ▸ hcandidate)
      exact ⟨hn, not_not.mp hret, hops, hphi, hpreds⟩
    · simp only [bind_eq_ok] at hstep
      obtain ⟨post, -, hstep⟩ := hstep
      split at hstep
      · obtain rfl := Except.ok.inj hstep
        exact hs
      · obtain rfl := Except.ok.inj hstep
        exact hs

/-! ## One return for each predecessor -/

/-- What the loop over the predecessors does not touch. -/
structure SameBackEdges (c c' : CFGStructurizer) : Prop where
  entryBlock : c'.entryBlock = c.entryBlock
  old : ∀ x < c.size, (c'.node x).succBackEdge = (c.node x).succBackEdge ∧
    (c'.node x).predBackEdge = (c.node x).predBackEdge
  new : ∀ x, c.size ≤ x → x < c'.size →
    (c'.node x).succBackEdge = none ∧ (c'.node x).predBackEdge = none
  outside : ∀ x, c'.size ≤ x → (c'.node x).ir = (c.node x).ir ∧ c'.edges x = c.edges x ∧
    c'.predEdges x = c.predEdges x ∧ (c'.node x).predBackEdge = (c.node x).predBackEdge
  size : c.size ≤ c'.size

theorem SameBackEdges.refl (c : CFGStructurizer) : SameBackEdges c c :=
  ⟨rfl, fun _ _ => ⟨rfl, rfl⟩, fun _ hx hx' => absurd hx (Nat.not_le.mpr hx'),
    fun _ _ => ⟨rfl, rfl, rfl, rfl⟩, Nat.le_refl _⟩

theorem SameBackEdges.trans {c'' : CFGStructurizer} (h : SameBackEdges c c')
    (h' : SameBackEdges c' c'') : SameBackEdges c c'' := by
  refine ⟨h'.entryBlock.trans h.entryBlock, fun x hx => ?_, fun x hx hx' => ?_, fun x hx => ?_,
    h.size.trans h'.size⟩
  · obtain ⟨hsucc, hpred⟩ := h'.old x (Nat.lt_of_lt_of_le hx h.size)
    exact ⟨hsucc.trans (h.old x hx).1, hpred.trans (h.old x hx).2⟩
  · by_cases hmid : x < c'.size
    · obtain ⟨hsucc, hpred⟩ := h'.old x hmid
      exact ⟨hsucc.trans (h.new x hx hmid).1, hpred.trans (h.new x hx hmid).2⟩
    · exact h'.new x (Nat.le_of_not_lt hmid) hx'
  · obtain ⟨ir, edges, preds, back⟩ := h.outside x (h'.size.trans hx)
    obtain ⟨ir', edges', preds', back'⟩ := h'.outside x hx
    exact ⟨ir'.trans ir, edges'.trans edges, preds'.trans preds, back'.trans back⟩

/-- What one new return changes. -/
theorem duplicateReturn_ok (h : duplicateReturn fuel split c p = .ok c') (hsplit : split < c.size)
    (hp : p < c.size) (hne : p ≠ split) :
    SplitStep c split p [] (c.node split).ir { terminator := { type := .ret } } c' ∧
      SameBackEdges c c' ∧ split ∈ (c.node p).succ := by
  simp only [duplicateReturn, createNode_snd] at h
  obtain ⟨⟨hlinked, -⟩, hdoms⟩ := retargetBranch_ok h
  have hss : split ≠ c.size := Nat.ne_of_lt hsplit
  have hps : p ≠ c.size := Nat.ne_of_lt hp
  -- the pool with the new return before it is linked
  have hnew : ∀ x, ((c.createNode.1.modify c.size
      fun _ => c.createNode.1.dummyReturn split).node x) =
      if x = c.size then c.createNode.1.dummyReturn split else c.node x := by
    intro x
    rw [modify_node, createNode_node]
    split <;> rfl
  have hedges := retargeted_edgesOnly (c.createNode.1.modify c.size
    fun _ => c.createNode.1.dummyReturn split) p split c.size
  have hback : ∀ x, (c'.node x).succBackEdge =
    (if x = c.size then none else (c.node x).succBackEdge) ∧
      (c'.node x).predBackEdge = if x = c.size then none else (c.node x).predBackEdge := by
    intro x
    rw [hdoms.node x, hedges.node x, hnew]
    by_cases hx : x = c.size
    · rw [if_pos hx, if_pos hx, if_pos hx]
      exact ⟨rfl, rfl⟩
    · rw [if_neg hx, if_neg hx, if_neg hx]
      exact ⟨rfl, rfl⟩
  have hsize : c'.size = c.size + 1 := by
    rw [hdoms.size, hedges.pool]
    rfl
  have hir : ∀ x, (c'.node x).ir =
      if x = c.size then { terminator := { type := .ret } }
      else if x = split then (c.node split).ir
      else if x = p then
        { (c.node x).ir with terminator := (c.node x).ir.terminator.retarget split c.size }
      else (c.node x).ir := by
    intro x
    rw [hdoms.ir, retargeted_ir, hnew]
    by_cases hx : x = c.size
    · subst hx
      rw [if_neg hps.symm, if_pos rfl, if_pos rfl]
      rfl
    · rw [if_neg hx, if_neg hx]
      by_cases hxs : x = split
      · subst hxs
        rw [if_neg hne.symm, if_pos rfl]
      · rw [if_neg hxs]
  have hsucc : ∀ x, (c'.node x).succ =
      if x = c.size then []
      else if x = p then (c.node x).succ.replace split c.size
      else (c.node x).succ := by
    intro x
    rw [hdoms.succ, retargeted_succ, hnew]
    by_cases hx : x = c.size
    · subst hx
      rw [if_neg hps.symm, if_pos rfl, if_pos rfl]
      rfl
    · rw [if_neg hx, if_neg hx]
  have hpred : ∀ x, (c'.node x).pred =
      if x = c.size then [p]
      else if x = split then (c.node x).pred.erase p
      else if x ∈ ([] : List Nat) then addUnique (c.node x).pred c.size
      else (c.node x).pred := by
    intro x
    rw [hdoms.pred, retargeted_pred _ hss, hnew, hnew]
    by_cases hx : x = c.size
    · subst hx
      have hnil : (c.createNode.1.dummyReturn split).pred = [] := rfl
      rw [if_neg hss.symm, if_pos rfl, if_pos rfl, if_pos rfl, hnil]
      simp [addUnique]
    · by_cases hxs : x = split
      · subst hxs
        rw [if_pos rfl, if_neg hx, if_neg hx, if_pos rfl]
      · rw [if_neg hxs, if_neg hx, if_neg hx, if_neg hx, if_neg hxs, if_neg List.not_mem_nil]
  refine ⟨⟨hsize, hir, hsucc, hpred⟩, ⟨?_, ?_, ?_, ?_, ?_⟩, ?_⟩
  · rw [hdoms.pool, hedges.pool]
    rfl
  · intro x hx
    rw [(hback x).1, (hback x).2, if_neg (Nat.ne_of_lt hx), if_neg (Nat.ne_of_lt hx)]
    exact ⟨rfl, rfl⟩
  · intro x hx hx'
    have hxs : x = c.size := by omega
    rw [(hback x).1, (hback x).2, if_pos hxs, if_pos hxs]
    exact ⟨rfl, rfl⟩
  · intro x hx
    have hxn : x ≠ c.size := by omega
    have hxs : x ≠ split := by omega
    have hxp : x ≠ p := by omega
    have hedges' : c'.edges x = c.edges x := by
      rw [CFGStructurizer.edges, CFGStructurizer.edges, hsucc, if_neg hxn, if_neg hxp, (hback x).1,
        if_neg hxn]
    have hpreds' : c'.predEdges x = c.predEdges x := by
      rw [CFGStructurizer.predEdges, CFGStructurizer.predEdges, hpred, if_neg hxn, if_neg hxs,
        if_neg List.not_mem_nil, (hback x).2, if_neg hxn]
    refine ⟨?_, hedges', hpreds', ?_⟩
    · rw [hir, if_neg hxn, if_neg hxs, if_neg hxp]
    · rw [(hback x).2, if_neg hxn]
  · omega
  · rwa [hnew, if_neg hps] at hlinked

/-- The contents of a new return. -/
def IsDummyReturn (_ : Nat) (ir : IRBlock) : Prop := ir = { terminator := { type := .ret } }

/-- The pool once every predecessor of a split return has its own return. -/
structure SplitUp (c : CFGStructurizer) (split : Nat) (c' : CFGStructurizer) : Prop where
  off : SplitOff c split IsDummyReturn (c.node split).pred (c.node split).ir c'
  back : SameBackEdges c c'
  /-- The branches that are moved are edges of the forward graph. -/
  linked : ∀ p ∈ (c.node split).pred, split ∈ (c.node p).succ

/-- What the loop over the predecessors leaves. -/
theorem duplicateReturns_ok (hc : c.Isolated split) (hsucc : (c.node split).succ = [])
    (h : (c.node split).pred.foldlM (duplicateReturn fuel split) c = .ok c') :
    SplitUp c split c' := by
  suffices hgen : ∀ (rest done : List Nat) (s : CFGStructurizer),
      (c.node split).pred = done ++ rest →
      SplitOff c split IsDummyReturn done (c.node split).ir s → SameBackEdges c s →
      rest.foldlM (duplicateReturn fuel split) s = .ok c' →
      SplitOff c split IsDummyReturn (done ++ rest) (c.node split).ir c' ∧ SameBackEdges c c' ∧
        ∀ p ∈ rest, split ∈ (c.node p).succ by
    obtain ⟨hoff, hback, hlinked⟩ := hgen _ [] c rfl (.refl c split _) (.refl c) h
    exact ⟨hoff, hback, hlinked⟩
  intro rest
  induction rest with
  | nil =>
    intro done s _ hs hback h
    obtain rfl := Except.ok.inj h
    rw [List.append_nil]
    exact ⟨hs, hback, fun p hp => absurd hp List.not_mem_nil⟩
  | cons p rest ih =>
    intro done s hpreds hs hback h
    rw [List.foldlM_cons, bind_eq_ok] at h
    obtain ⟨t, ht, h⟩ := h
    have hmem : p ∈ (c.node split).pred := by simp [hpreds]
    have hsize : c.size ≤ s.size := hback.size
    have hplt := hc.pred_lt split p hmem
    have hnlt := hc.node_lt
    obtain ⟨hstep, hback', hlinked⟩ := duplicateReturn_ok ht (by omega) (by omega)
      fun he => hc.notMem_pred (he ▸ hmem)
    rw [hs.node_ir, ← hsucc] at hstep
    rw [List.append_cons done p rest]
    obtain ⟨hoff, hsame, hrest⟩ := ih (done ++ [p]) t (by rw [hpreds, List.append_cons])
      (hs.step hc hpreds hstep rfl) (hback.trans hback') h
    refine ⟨hoff, hsame, fun q hq => ?_⟩
    rcases List.mem_cons.mp hq with rfl | hq
    · rwa [hs.succ q hplt, if_neg (hs.breakNode_eq hpreds hc.nodup_pred).1] at hlinked
    · exact hrest q hq

/-- The split block is isolated as far as the loop relies on it. -/
theorem SplitReturn.isolated (hc : c.Settled) (h : SplitReturn c split) : c.Isolated split := by
  have hpred : ∀ x, ∀ q ∈ (c.node x).pred, c.Edge q x := fun x q hq =>
    hc.pred_edge q x (List.mem_append_left _ hq)
  have hnil : (c.node split).succ = [] :=
    (List.append_eq_nil_iff.mp (hc.returns split h.returns).1).1
  refine ⟨hc.order_lt h.mem, fun x q hq => hc.edge_lt q x (hpred x q hq), ?_, ?_, ?_, ?_, ?_⟩
  · rw [hnil]
    simp
  · exact (List.nodup_append.mp (hc.nodup_predEdges split)).1
  · rw [hnil]
    exact List.nodup_nil
  · intro hmem
    have hedge := hpred split split hmem
    rw [Edge, (hc.returns split h.returns).1] at hedge
    exact List.not_mem_nil hedge
  · rw [hnil]
    exact List.not_mem_nil

/-- Where the branches of a block lead afterwards: those of the predecessors of the split block into
it are moved. -/
def CFGStructurizer.moved (c : CFGStructurizer) (split a b : Nat) : Nat :=
  if a ∈ (c.node split).pred ∧ b = split then c.breakNode split a else b

theorem moved_of_ne {a b : Nat} (h : b ≠ split) : c.moved split a b = b :=
  if_neg fun hb => h hb.2

theorem moved_of_notMem {a : Nat} (h : a ∉ (c.node split).pred) (b : Nat) : c.moved split a b = b :=
  if_neg fun hb => h hb.1

theorem moved_split {a : Nat} (h : a ∈ (c.node split).pred) :
    c.moved split a split = c.breakNode split a :=
  if_pos ⟨h, rfl⟩

/-- A branch that stays inside the old pool is not moved. -/
theorem moved_lt {a b : Nat} (h : c.moved split a b < c.size) : c.moved split a b = b := by
  unfold moved at h ⊢
  split
  · rename_i hb
    rw [if_pos hb] at h
    exact absurd h (Nat.not_lt.mpr (c.le_breakNode split a))
  · rfl

theorem moved_inj {a x y : Nat} (hx : x < c.size) (hy : y < c.size)
    (h : c.moved split a x = c.moved split a y) : x = y := by
  have hle := c.le_breakNode split a
  unfold moved at h
  split at h <;> split at h
  · rename_i hx' hy'
    exact hx'.2.trans hy'.2.symm
  all_goals omega

namespace SplitUp

variable (hc : c.Settled) (hs : SplitReturn c split) (h : SplitUp c split c')

include hc h

/-- The edges out of the old blocks. -/
theorem edges_old {a : Nat} (ha : a < c.size) : c'.edges a = (c.edges a).map (c.moved split a) := by
  have hnodup := hc.nodup_edges a
  rw [edges] at hnodup
  rw [edges, edges, h.off.succ a ha, (h.back.old a ha).1, List.map_append]
  by_cases hmem : a ∈ (c.node split).pred
  · have hlink := h.linked a hmem
    -- the back edge of a predecessor leads elsewhere
    have hback : (c.node a).succBackEdge.toList.map (c.moved split a) =
        (c.node a).succBackEdge.toList := by
      refine (List.map_congr_left fun x hx => ?_).trans (List.map_id _)
      exact moved_of_ne fun he => (List.nodup_append.mp hnodup).2.2 split hlink x hx he.symm
    have hfwd := replace_map (List.nodup_append.mp hnodup).1 (f := id) (a := split) (b := split) rfl
      (fun x _ hx => hx) (c.breakNode split a)
    rw [List.map_id] at hfwd
    rw [if_pos hmem, hback, hfwd]
    congr 1
    refine List.map_congr_left fun x _ => ?_
    by_cases hx : x = split
    · rw [if_pos hx, hx, moved_split hmem]
    · rw [if_neg hx, moved_of_ne hx]
      rfl
  · have hid : ∀ l : List Nat, l.map (c.moved split a) = l := fun l =>
      (List.map_congr_left fun x _ => moved_of_notMem hmem x).trans (List.map_id l)
    rw [if_neg hmem, hid, hid]

include hs

/-- The blocks of the pool afterwards. -/
theorem lt_size_iff {x : Nat} : x < c'.size ↔
    x < c.size ∨ ∃ p ∈ (c.node split).pred, x = c.breakNode split p := by
  rw [h.off.size]
  constructor
  · intro hx
    by_cases hlt : x < c.size
    · exact .inl hlt
    · have hidx : x - c.size < (c.node split).pred.length := by omega
      refine .inr ⟨(c.node split).pred[x - c.size], List.getElem_mem hidx, ?_⟩
      rw [breakNode, (hs.isolated hc).nodup_pred.idxOf_getElem]
      omega
  · rintro (hlt | ⟨p, hp, rfl⟩)
    · omega
    · have := List.idxOf_lt_length_of_mem hp
      rw [breakNode]
      omega

/-- The new blocks have no successors. -/
theorem edges_breakNode {p : Nat} (hp : p ∈ (c.node split).pred) :
    c'.edges (c.breakNode split p) = [] := by
  have hlt := (h.lt_size_iff hc hs).mpr (.inr ⟨p, hp, rfl⟩)
  have hnil : (c.node split).succ = [] :=
    (List.append_eq_nil_iff.mp (hc.returns split hs.returns).1).1
  rw [edges, h.off.break_succ p hp, hnil, (h.back.new _ (c.le_breakNode split p) hlt).1]
  rfl

/-- A block is old, or a new return, or outside the pool. -/
theorem cases_block (x : Nat) : x < c.size ∨ (∃ p ∈ (c.node split).pred, x = c.breakNode split p) ∨
    c'.size ≤ x := by
  by_cases hx : x < c'.size
  · rcases (h.lt_size_iff hc hs).mp hx with hlt | hnew
    · exact .inl hlt
    · exact .inr (.inl hnew)
  · exact .inr (.inr (Nat.le_of_not_lt hx))

/-- The edges afterwards. -/
theorem edge_iff {a b : Nat} : c'.Edge a b ↔ ∃ x, c.Edge a x ∧ c.moved split a x = b := by
  have hout : ∀ x, c.size ≤ a → ¬ c.Edge a x := fun x ha he =>
    absurd (hc.edge_lt a x he) (Nat.not_lt.mpr ha)
  rcases h.cases_block hc hs a with ha | ⟨p, hp, rfl⟩ | ha
  · rw [Edge, h.edges_old hc ha, List.mem_map]
    rfl
  · rw [Edge, h.edges_breakNode hc hs hp]
    constructor
    · intro hb
      exact absurd hb List.not_mem_nil
    · rintro ⟨x, hx, -⟩
      exact absurd hx (hout x (c.le_breakNode split p))
  · have hle := h.back.size.trans ha
    rw [Edge, (h.back.outside a ha).2.1]
    constructor
    · intro hb
      exact absurd hb (hout b hle)
    · rintro ⟨x, hx, -⟩
      exact absurd hx (hout x hle)

/-- The edges into the old blocks: the split block is cut off. -/
theorem predEdges_old {b : Nat} (hb : b < c.size) :
    c'.predEdges b = if b = split then [] else c.predEdges b := by
  have hnil : (c.node split).succ = [] :=
    (List.append_eq_nil_iff.mp (hc.returns split hs.returns).1).1
  rw [predEdges, predEdges, h.off.pred b hb, (h.back.old b hb).2]
  by_cases hsplit : b = split
  · subst hsplit
    rw [if_pos rfl, if_pos rfl, (hc.returns b hs.returns).2, List.drop_length]
    rfl
  · rw [if_neg hsplit, if_neg hsplit, hnil, if_neg List.not_mem_nil]

theorem predEdges_breakNode {p : Nat} (hp : p ∈ (c.node split).pred) :
    c'.predEdges (c.breakNode split p) = [p] := by
  have hlt := (h.lt_size_iff hc hs).mpr (.inr ⟨p, hp, rfl⟩)
  rw [predEdges, h.off.break_pred p hp, (h.back.new _ (c.le_breakNode split p) hlt).2]
  rfl

/-- Old blocks that are reached afterwards were reached before. -/
theorem reaches_old {a : Nat} (ha : a < c.size) (hreach : Reaches c'.Edge c'.entryBlock a) :
    Reaches c.Edge c.entryBlock a := by
  rw [h.back.entryBlock] at hreach
  induction hreach with
  | refl => exact .refl
  | tail _ hab ih =>
    obtain ⟨x, hx, rfl⟩ := (h.edge_iff hc hs).mp hab
    rw [moved_lt ha]
    exact (ih (hc.edge_lt _ x hx)).tail hx

omit hc hs in
/-- The types of the terminators stay. -/
theorem returns_old {x : Nat} (hx : x < c.size) : c'.Returns x ↔ c.Returns x := by
  rw [CFGStructurizer.Returns, CFGStructurizer.Returns]
  by_cases hsplit : x = split
  · rw [hsplit, h.off.node_ir]
  · rw [h.off.ir x hx hsplit]
    split
    · rfl
    · rfl

omit hc in
/-- The branches of the old blocks. -/
theorem targets_old {x : Nat} (hx : x < c.size) : (c'.node x).ir.terminator.targets =
    (c.node x).ir.terminator.targets.map (c.moved split x) := by
  by_cases hsplit : x = split
  · have hret : (c.node split).ir.terminator.type = .ret := hs.returns
    rw [hsplit, h.off.node_ir, Terminator.targets, hret]
    rfl
  · rw [h.off.ir x hx hsplit]
    by_cases hmem : x ∈ (c.node split).pred
    · rw [if_pos hmem, Terminator.targets_retarget]
      refine List.map_congr_left fun y _ => ?_
      by_cases hy : y = split
      · rw [if_pos hy, hy, moved_split hmem]
      · rw [if_neg hy, moved_of_ne hy]
    · rw [if_neg hmem]
      exact ((List.map_congr_left fun y _ => moved_of_notMem hmem y).trans (List.map_id _)).symm

/-- The new pool is as well recorded as the old one. -/
theorem recorded : c'.Recorded := by
  have hsize := h.back.size
  constructor
  · refine ⟨?_, ?_, ?_⟩
    · rw [h.back.entryBlock]
      exact Nat.lt_of_lt_of_le hc.entry_lt hsize
    · intro a b hab
      obtain ⟨x, hx, rfl⟩ := (h.edge_iff hc hs).mp hab
      by_cases hmoved : a ∈ (c.node split).pred ∧ x = split
      · rw [hmoved.2, moved_split hmoved.1]
        exact (h.lt_size_iff hc hs).mpr (.inr ⟨a, hmoved.1, rfl⟩)
      · rw [moved, if_neg hmoved]
        exact Nat.lt_of_lt_of_le (hc.inside a x hx) hsize
    · intro a
      rcases h.cases_block hc hs a with ha | ⟨p, hp, rfl⟩ | ha
      · rw [h.edges_old hc ha]
        exact (hc.nodup_edges a).map_on fun x hx y hy hxy =>
          moved_inj (hc.inside a x hx) (hc.inside a y hy) hxy
      · rw [h.edges_breakNode hc hs hp]
        exact List.nodup_nil
      · rw [(h.back.outside a ha).2.1]
        exact hc.nodup_edges a
  · intro a b hab
    obtain ⟨x, hx, -⟩ := (h.edge_iff hc hs).mp hab
    exact Nat.lt_of_lt_of_le (hc.edge_lt a x hx) hsize
  · intro b
    rcases h.cases_block hc hs b with hb | ⟨p, hp, rfl⟩ | hb
    · rw [h.predEdges_old hc hs hb]
      split
      · exact List.nodup_nil
      · exact hc.nodup_predEdges b
    · rw [h.predEdges_breakNode hc hs hp]
      exact List.nodup_singleton p
    · rw [(h.back.outside b hb).2.2.1]
      exact hc.nodup_predEdges b
  · intro a b hab
    rw [h.edge_iff hc hs]
    rcases h.cases_block hc hs b with hb | ⟨p, hp, rfl⟩ | hb
    · rw [h.predEdges_old hc hs hb] at hab
      split at hab
      · exact absurd hab List.not_mem_nil
      · rename_i hne
        exact ⟨b, hc.pred_edge a b hab, moved_of_ne hne⟩
    · rw [h.predEdges_breakNode hc hs hp, List.mem_singleton] at hab
      subst hab
      exact ⟨split, List.mem_append_left _ (h.linked a hp), moved_split hp⟩
    · rw [(h.back.outside b hb).2.2.1] at hab
      exact absurd (hc.inside a b (hc.pred_edge a b hab)) (by omega)
  · intro a b hreach hab
    obtain ⟨x, hx, rfl⟩ := (h.edge_iff hc hs).mp hab
    have hold := hc.edge_pred a x (h.reaches_old hc hs (hc.edge_lt a x hx) hreach) hx
    by_cases hsplit : x = split
    · subst hsplit
      rw [predEdges, (hc.returns x hs.returns).2, Option.toList_none, List.append_nil] at hold
      rw [moved_split hold, h.predEdges_breakNode hc hs hold]
      exact List.mem_singleton_self a
    · rw [moved_of_ne hsplit, h.predEdges_old hc hs (hc.inside a x hx), if_neg hsplit]
      exact hold
  · intro a b hab
    rw [h.edge_iff hc hs]
    rcases h.cases_block hc hs a with ha | ⟨p, hp, rfl⟩ | ha
    · rw [Branches, h.targets_old hs ha, List.mem_map] at hab
      obtain ⟨x, hx, rfl⟩ := hab
      exact ⟨x, hc.branches a x hx, rfl⟩
    · have hdummy : (c'.node (c.breakNode split p)).ir = _ := h.off.break_ir p hp
      rw [Branches, hdummy] at hab
      exact absurd hab List.not_mem_nil
    · rw [Branches, (h.back.outside a ha).1] at hab
      exact absurd (hc.edge_lt a b (hc.branches a b hab)) (by omega)
  · intro n hn
    rcases h.cases_block hc hs n with hlt | ⟨p, hp, rfl⟩ | hge
    · rw [h.returns_old hlt] at hn
      rw [h.edges_old hc hlt, (hc.returns n hn).1, (h.back.old n hlt).2]
      exact ⟨rfl, (hc.returns n hn).2⟩
    · have hlt := (h.lt_size_iff hc hs).mpr (.inr ⟨p, hp, rfl⟩)
      exact ⟨h.edges_breakNode hc hs hp, (h.back.new _ (c.le_breakNode split p) hlt).2⟩
    · obtain ⟨hir, hedges, -, hback⟩ := h.back.outside n hge
      rw [CFGStructurizer.Returns, hir] at hn
      rw [hedges, hback]
      exact hc.returns n hn

end SplitUp

end DxilSpirv
