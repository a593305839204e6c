import DxilSpirv.Cfg.Traversal
import DxilSpirv.Graph.BitRows

/-!
# Recomputing the analyses

The dominator and post-dominator trees, the reachability bits, the backwards traversal with
its patches for infinite loops, and the dominance frontiers, in the order in which
`recompute_cfg` computes them. Loops and recursions of the source that follow pointers take
a recursion bound.
-/

namespace DxilSpirv

open Graph (bitAt orRow setBit)

/-- The node behind a pointer that was asserted not to be null. -/
def required : Option Nat → Except Fault Nat
  | some n => .ok n
  | none => .error .assertion

@[simp] theorem required_some (n : Nat) : required (some n) = .ok n := rfl

namespace CFGNode

def setImmediateDominator (d : Option Nat) (x : CFGNode) : CFGNode :=
  { x with immediateDominator := d }

def setImmediatePostDominator (d : Option Nat) (x : CFGNode) : CFGNode :=
  { x with immediatePostDominator := d }

def setBackwardVisited (v : Bool) (x : CFGNode) : CFGNode :=
  { x with backwardVisited := v }

end CFGNode

namespace CFGStructurizer

/-! ## Dominators -/

/-- Follow pointers from `other` until they meet `target` or end. -/
def climbs (next : Nat → Option Nat) (target : Nat) : Nat → Nat → Except Fault Bool
  | 0, _ => .error .outOfFuel
  | fuel + 1, other =>
    if target = other then .ok true
    else
      match next other with
      | none => .ok false
      | some d => if other = d then .ok false else climbs next target fuel d

/-- `CFGNode::dominates`. -/
def dominates (c : CFGStructurizer) (n other : Nat) : Except Fault Bool :=
  climbs (fun x => (c.node x).immediateDominator) n (c.size + 1) other

/-- `CFGNode::post_dominates`. -/
def postDominates (c : CFGStructurizer) (n startNode : Nat) : Except Fault Bool :=
  climbs (fun x => (c.node x).immediatePostDominator) n (c.size + 1) startNode

/-- `CFGNode::recompute_immediate_dominator`, given the search for a common dominator. -/
def recomputeImmediateDominatorWith
    (find : CFGStructurizer → Nat → Nat → Except Fault (CFGStructurizer × Nat))
    (c : CFGStructurizer) (n : Nat) : Except Fault CFGStructurizer :=
  -- for the entry block only
  if (c.node n).pred = [] then .ok (c.modify n (.setImmediateDominator (some n)))
  else
    (c.node n).pred.foldlM (fun c edge =>
        match (c.node n).immediateDominator with
        | some d => do
          let (c, common) ← find c d edge
          return c.modify n (.setImmediateDominator (some common))
        | none => .ok (c.modify n (.setImmediateDominator (some edge))))
      (c.modify n (.setImmediateDominator none))

/-- A dominator that is not known yet is computed on demand. -/
def ensureDominator (recompute : CFGStructurizer → Nat → Except Fault CFGStructurizer)
    (c : CFGStructurizer) (n : Nat) : Except Fault CFGStructurizer :=
  if (c.node n).immediateDominator = none then do
    let c ← (c.node n).pred.foldlM recompute c
    recompute c n
  else .ok c

/-- `CFGNode::find_common_dominator`. -/
def findCommonDominator :
    Nat → CFGStructurizer → Nat → Nat → Except Fault (CFGStructurizer × Nat)
  | 0, _, _, _ => .error .outOfFuel
  | fuel + 1, c, a, b =>
    if a = b then .ok (c, a)
    else do
      let recompute := recomputeImmediateDominatorWith (findCommonDominator fuel)
      let c ← ensureDominator recompute c a
      let c ← ensureDominator recompute c b
      if (c.node a).forwardPostVisitOrder = (c.node b).forwardPostVisitOrder then
        -- temporary visit orders can alias
        if ← c.dominates b a then return (c, b)
        else if ← c.dominates a b then return (c, a)
        else do
          let a' ← required (c.node a).immediateDominator
          let b' ← required (c.node b).immediateDominator
          if a = a' then return (c, b)
          else if b = b' then return (c, a)
          else findCommonDominator fuel c a' b'
      else if (c.node a).forwardPostVisitOrder < (c.node b).forwardPostVisitOrder then
        if (c.node a).immediateDominator = some a then return (c, b)
        else do
          let a' ← deref (c.node a).immediateDominator
          findCommonDominator fuel c a' b
      else
        if (c.node b).immediateDominator = some b then return (c, a)
        else do
          let b' ← deref (c.node b).immediateDominator
          findCommonDominator fuel c a b'

/-- `CFGNode::recompute_immediate_dominator`. -/
def recomputeImmediateDominator (fuel : Nat) :
    CFGStructurizer → Nat → Except Fault CFGStructurizer :=
  recomputeImmediateDominatorWith (findCommonDominator fuel)

/-- `CFGStructurizer::build_immediate_dominators`. -/
def buildImmediateDominators (fuel : Nat) (c : CFGStructurizer) : Except Fault CFGStructurizer :=
  c.forwardPostVisitOrder.reverse.foldlM (recomputeImmediateDominator fuel) c

/-! ## Post-dominators -/

/-- `CFGNode::recompute_immediate_post_dominator`, given the search for a common one. -/
def recomputeImmediatePostDominatorWith
    (find : CFGStructurizer → Nat → Nat → Except Fault (CFGStructurizer × Nat))
    (c : CFGStructurizer) (n : Nat) : Except Fault CFGStructurizer :=
  -- the immediate post dominator is already set up to be the exit node in leaf nodes
  if (c.node n).succ = [] ∧ (c.node n).fakeSucc = [] then .ok c
  else
    ((c.node n).succ ++ (c.node n).fakeSucc).foldlM (fun c edge =>
        match (c.node n).immediatePostDominator with
        | some d => do
          let (c, common) ← find c d edge
          return c.modify n (.setImmediatePostDominator (some common))
        | none => .ok (c.modify n (.setImmediatePostDominator (some edge))))
      (c.modify n (.setImmediatePostDominator none))

/-- A post-dominator that is not known yet is computed on demand. -/
def ensurePostDominator (recompute : CFGStructurizer → Nat → Except Fault CFGStructurizer)
    (c : CFGStructurizer) (n : Nat) : Except Fault CFGStructurizer :=
  if (c.node n).immediatePostDominator = none then do
    let c ← (c.node n).succ.foldlM recompute c
    recompute c n
  else .ok c

/-- `CFGNode::find_common_post_dominator`. -/
def findCommonPostDominator :
    Nat → CFGStructurizer → Nat → Nat → Except Fault (CFGStructurizer × Nat)
  | 0, _, _, _ => .error .outOfFuel
  | fuel + 1, c, a, b =>
    if a = b then .ok (c, a)
    else do
      let recompute := recomputeImmediatePostDominatorWith (findCommonPostDominator fuel)
      let c ← ensurePostDominator recompute c a
      let c ← ensurePostDominator recompute c b
      if (c.node a).backwardPostVisitOrder = (c.node b).backwardPostVisitOrder then
        -- temporary visit orders can alias
        if ← c.postDominates b a then return (c, b)
        else if ← c.postDominates a b then return (c, a)
        else do
          let a' ← required (c.node a).immediatePostDominator
          let b' ← required (c.node b).immediatePostDominator
          findCommonPostDominator fuel c a' b'
      else if (c.node a).backwardPostVisitOrder < (c.node b).backwardPostVisitOrder then do
        let a' ← required (c.node a).immediatePostDominator
        findCommonPostDominator fuel c a' b
      else do
        let b' ← required (c.node b).immediatePostDominator
        findCommonPostDominator fuel c a b'

/-- `CFGNode::recompute_immediate_post_dominator`. -/
def recomputeImmediatePostDominator (fuel : Nat) :
    CFGStructurizer → Nat → Except Fault CFGStructurizer :=
  recomputeImmediatePostDominatorWith (findCommonPostDominator fuel)

/-- `CFGStructurizer::build_immediate_post_dominators`. -/
def buildImmediatePostDominators (fuel : Nat) (c : CFGStructurizer) :
    Except Fault CFGStructurizer :=
  c.backwardPostVisitOrder.reverse.foldlM (recomputeImmediatePostDominator fuel) c

/-! ## Reachability -/

/-- The first word of the row of a block; the product is one of 32-bit integers. -/
def reachabilityRow (c : CFGStructurizer) (n : Nat) : Nat :=
  (c.node n).forwardPostVisitOrder * c.reachabilityStride % 2 ^ 32

/-- `CFGStructurizer::query_reachability`. -/
def queryReachability (c : CFGStructurizer) (source target : Nat) : Bool :=
  source = target ||
    bitAt c.reachabilityBitset (c.reachabilityRow source) (c.node target).forwardPostVisitOrder

/-- `CFGStructurizer::visit_reachability`. -/
def visitReachability (c : CFGStructurizer) (n : Nat) : CFGStructurizer :=
  let row := c.reachabilityRow n
  let bits := (c.node n).succ.foldl (fun bits succ =>
    orRow row (c.reachabilityRow succ) c.reachabilityStride bits) c.reachabilityBitset
  -- we can reach ourselves
  { c with reachabilityBitset := setBit row (c.node n).forwardPostVisitOrder bits }

/-- `CFGStructurizer::build_reachability`. -/
def buildReachability (c : CFGStructurizer) : CFGStructurizer :=
  c.forwardPostVisitOrder.foldl visitReachability
    { c with
      reachabilityStride := (c.forwardPostVisitOrder.length + 31) / 32
      reachabilityBitset := fun _ => 0 }

/-! ## Backwards traversal -/

/-- `LoopBacktracer::trace_to_parent`: the traced blocks after tracing `block`. -/
def traceToParent (c : CFGStructurizer) (header : Nat) :
    Nat → List Nat → Nat → Except Fault (List Nat)
  | 0, _, _ => .error .outOfFuel
  | fuel + 1, traced, block =>
    if block = header then .ok (addUnique traced block)
    else if block ∈ traced then .ok traced
    else do
      let traced ← (c.node block).pred.foldlM (traceToParent c header fuel) (traced ++ [block])
      -- continue blocks that only branch back belong to the loop as well
      match (c.node block).predBackEdge with
      | some b => traceToParent c header fuel traced b
      | none => .ok traced

/-- The state of a `LoopMergeTracer`. -/
structure LoopMergeTracer where
  loopExits : List Nat := []
  tracedBlocks : List Nat := []

/-- `LoopMergeTracer::trace_from_parent`, for the blocks a backtracer found. -/
def traceFromParent (c : CFGStructurizer) (backtraced : List Nat) :
    Nat → LoopMergeTracer → Nat → Except Fault LoopMergeTracer
  | 0, _, _ => .error .outOfFuel
  | fuel + 1, t, header =>
    if header ∉ backtraced then .ok { t with loopExits := addUnique t.loopExits header }
    else
      (c.node header).succ.foldlM (fun t succ =>
        if succ ∈ t.tracedBlocks then .ok t
        else do
          let t ← traceFromParent c backtraced fuel t succ
          return { t with tracedBlocks := addUnique t.tracedBlocks succ }) t

/-- `CFGNode::dominates_all_reachable_exits`, with the blocks completed so far. -/
def dominatesAllReachableExitsFrom (c : CFGStructurizer) (header : Nat) :
    Nat → List Nat → Nat → Except Fault (List Nat × Bool)
  | 0, _, _ => .error .outOfFuel
  | fuel + 1, completed, n =>
    if n ∈ completed then .ok (completed, true)
    else do
      let completed := completed ++ [n]
      let escapes ← match (c.node n).succBackEdge with
        | some b => (! ·) <$> c.dominates header b
        | none => .ok false
      if escapes then return (completed, false)
      else
        (c.node n).succ.foldlM (fun (completed, ok) succ =>
          if ok then do
            if ← c.dominates header succ then
              dominatesAllReachableExitsFrom c header fuel completed succ
            else return (completed, false)
          else return (completed, false)) (completed, true)

/-- `CFGNode::dominates_all_reachable_exits`. -/
def dominatesAllReachableExits (fuel : Nat) (c : CFGStructurizer) (n : Nat) :
    Except Fault Bool :=
  Prod.snd <$> dominatesAllReachableExitsFrom c n fuel [] n

/-- The loop of `get_innermost_loop_header_for`, started at the block `n`. -/
def innermostLoopHeaderFrom (c : CFGStructurizer) (header n : Nat) : Nat → Nat → Except Fault Nat
  | 0, _ => .error .outOfFuel
  | fuel + 1, other =>
    if header = other then .ok other
    -- entry block case
    else if (c.node other).pred = [] then .ok other
    -- a back edge that can reach the block only means that the loop is skipped over
    else if (c.node other).predBackEdge.any fun b => b = n || !c.queryReachability b n then
      .ok other
    else do
      let other ← required (c.node other).immediateDominator
      innermostLoopHeaderFrom c header n fuel other

/-- `CFGStructurizer::get_innermost_loop_header_for`. -/
def getInnermostLoopHeaderFor (c : CFGStructurizer) (header other : Nat) : Except Fault Nat :=
  innermostLoopHeaderFrom c header other (c.size + 1) other

/-- `CFGNode::reaches_backward_visited_node`, with the blocks completed so far. -/
def reachesBackwardVisitedNodeFrom (c : CFGStructurizer) :
    Nat → List Nat → Nat → Except Fault (List Nat × Bool)
  | 0, _, _ => .error .outOfFuel
  | fuel + 1, completed, n =>
    if n ∈ completed then .ok (completed, false)
    else if (c.node n).backwardVisited then .ok (completed ++ [n], true)
    else
      ((c.node n).succ ++ (c.node n).fakeSucc).foldlM (fun (completed, found) succ =>
        if found then .ok (completed, true)
        else reachesBackwardVisitedNodeFrom c fuel completed succ) (completed ++ [n], false)

/-- `CFGNode::reaches_backward_visited_node`. -/
def reachesBackwardVisitedNode (fuel : Nat) (c : CFGStructurizer) (n : Nat) :
    Except Fault Bool :=
  Prod.snd <$> reachesBackwardVisitedNodeFrom c fuel [] n

/-- `CFGStructurizer::backwards_visit` of one block. -/
def backwardsVisitBlock : Nat → CFGStructurizer → Nat → Except Fault CFGStructurizer
  | 0, _, _ => .error .outOfFuel
  | fuel + 1, c, entry => do
    let c := c.modify entry (.setBackwardVisited true)
    let c ← ((c.node entry).pred ++ (c.node entry).fakePred).foldlM (fun c pred =>
      if (c.node pred).backwardVisited then .ok c else backwardsVisitBlock fuel c pred) c
    return { c.modify entry fun x =>
        { x with backwardPostVisitOrder := c.backwardPostVisitOrder.length } with
      backwardPostVisitOrder := c.backwardPostVisitOrder ++ [entry] }

/-- The blocks where control leaves the function. -/
def leafNodes (c : CFGStructurizer) : List Nat :=
  c.forwardPostVisitOrder.filter fun n =>
    (c.node n).succ = [] ∧ (c.node n).succBackEdge = none

/-- The exits of the loop `header` whose continue block is `continueBlock`, outermost first. -/
def loopExits (fuel : Nat) (c : CFGStructurizer) (header continueBlock : Nat) :
    Except Fault (List Nat) := do
  let traced ← traceToParent c header fuel [] continueBlock
  let t ← traceFromParent c traced fuel {} header
  return t.loopExits.mergeSort fun a b =>
    (c.node b).forwardPostVisitOrder ≤ (c.node a).forwardPostVisitOrder

/-- Whether a loop is left through its only exit for good. -/
def transposeLoopExit (fuel : Nat) (c : CFGStructurizer) (header : Nat) (exits : List Nat) :
    Except Fault Bool :=
  match exits with
  | [exitNode] => do
    if ← c.dominatesAllReachableExits fuel exitNode then
      let innermostHeader ← c.getInnermostLoopHeaderFor header exitNode
      return innermostHeader = header
    else return false
  | _ => .ok false

/-- Whether a transposed exit is a case label that a switch of the loop must own. -/
def ownedBySwitch (c : CFGStructurizer) (header f : Nat) : Except Fault Bool :=
  match (c.node f).immediateDominator with
  | some d =>
    if (c.node d).ir.terminator.type = .switch then c.dominates header d else .ok false
  | none => .ok false

/-- The branch that a transposed exit gets from the continue block: a true one locks the
analysis in place. -/
def transposeExit (header continueBlock : Nat) (c : CFGStructurizer) (f : Nat) :
    Except Fault CFGStructurizer := do
  if ← c.ownedBySwitch header f then c.addBranch continueBlock f
  else return c.addFakeBranch continueBlock f

/-- The fake branch to an exit that is itself backwards reachable. -/
def linkExit (fuel continueBlock : Nat) (c : CFGStructurizer) (f : Nat) :
    Except Fault CFGStructurizer := do
  if ← c.reachesBackwardVisitedNode fuel f then return c.addFakeBranch continueBlock f
  else return c

/-- The branches from the continue block to the exits of the loop. -/
def linkExits (fuel : Nat) (c : CFGStructurizer) (header continueBlock : Nat)
    (exits : List Nat) : Except Fault CFGStructurizer := do
  if ← c.transposeLoopExit fuel header exits then
    exits.foldlM (transposeExit header continueBlock) c
  else exits.foldlM (linkExit fuel continueBlock) c

/-- A continue block that leads somewhere counts as visited for the inner loops. -/
def markLinked (c : CFGStructurizer) (continueBlock : Nat) : CFGStructurizer :=
  if (c.node continueBlock).succ ≠ [] ∨ (c.node continueBlock).fakeSucc ≠ [] then
    c.modify continueBlock (.setBackwardVisited true)
  else c

/-- Link the continue block of an infinite loop to the exits of the loop. -/
def linkContinueBlock (fuel : Nat) (c : CFGStructurizer) (header continueBlock : Nat) :
    Except Fault CFGStructurizer := do
  let exits ← c.loopExits fuel header continueBlock
  let c ← c.linkExits fuel header continueBlock exits
  return c.markLinked continueBlock

/-- The patches for the loops whose continue block was not visited, outer loops first. The flag
says whether there was one. -/
def linkContinueBlocks (fuel : Nat) (c : CFGStructurizer) :
    Except Fault (CFGStructurizer × Bool) :=
  c.forwardPostVisitOrder.reverse.foldlM (fun (c, needRevisit) n =>
    match (c.node n).predBackEdge with
    | some b =>
      if (c.node b).backwardVisited then .ok (c, needRevisit)
      else do
        let c ← c.linkContinueBlock fuel n b
        return (c, true)
    | none => .ok (c, needRevisit)) (c, false)

/-- The second traversal, which follows the patches. -/
def revisit (fuel : Nat) (leafNodes : List Nat) (c : CFGStructurizer) :
    Except Fault CFGStructurizer :=
  leafNodes.foldlM (backwardsVisitBlock fuel) (c.modifyAll c.forwardPostVisitOrder fun x =>
    { x with backwardVisited := false, traversing := false, backwardPostVisitOrder := 0 })

/-- The exit block post-dominates everything: the leaves hang below it. -/
def attachLeaves (c : CFGStructurizer) (leafNodes : List Nat) : CFGStructurizer :=
  (c.modify c.exitBlock fun x =>
    { x with
      backwardPostVisitOrder := c.backwardPostVisitOrder.length
      immediatePostDominator := some c.exitBlock
      backwardVisited := true }).modifyAll leafNodes
    (.setImmediatePostDominator (some c.exitBlock))

/-- `CFGStructurizer::backwards_visit`. -/
def backwardsVisit (fuel : Nat) (c : CFGStructurizer) : Except Fault CFGStructurizer := do
  let c := c.modifyAll c.forwardPostVisitOrder fun x =>
    { x with backwardVisited := false, traversing := false }
  let leafNodes := c.leafNodes
  let c ← leafNodes.foldlM (backwardsVisitBlock fuel) c
  let (c, needRevisit) ← c.linkContinueBlocks fuel
  if needRevisit then do
    let c ← revisit fuel leafNodes c
    return c.attachLeaves leafNodes
  else return c.attachLeaves leafNodes

/-! ## Frontiers -/

/-- The propagation step of `recompute_dominance_frontier`: the frontier of `n` goes up. -/
def propagateFrontier (c : CFGStructurizer) (n idom : Nat) : Except Fault CFGStructurizer :=
  (c.node n).dominanceFrontier.foldlM (fun c f => do
    if ← c.dominates idom f then return c
    else return c.modify idom fun x =>
      { x with dominanceFrontier := addUnique x.dominanceFrontier f }) c

/-- `CFGStructurizer::recompute_dominance_frontier`. -/
def recomputeDominanceFrontier (c : CFGStructurizer) (n : Nat) : Except Fault CFGStructurizer :=
  (c.node n).succ.foldlM (fun c succ =>
    let c :=
      if (c.node succ).immediateDominator = some n then c
      else c.modify n fun x => { x with dominanceFrontier := addUnique x.dominanceFrontier succ }
    match (c.node n).immediateDominator with
    | some idom => c.propagateFrontier n idom
    | none => .ok c) c

/-- `CFGStructurizer::compute_dominance_frontier`. -/
def computeDominanceFrontier (c : CFGStructurizer) : Except Fault CFGStructurizer :=
  let c := c.modifyAll c.forwardPostVisitOrder fun x => { x with dominanceFrontier := [] }
  c.forwardPostVisitOrder.foldlM recomputeDominanceFrontier c

/-- The propagation step of `recompute_post_dominance_frontier`. -/
def propagatePostFrontier (c : CFGStructurizer) (n ipdom : Nat) : Except Fault CFGStructurizer :=
  (c.node n).postDominanceFrontier.foldlM (fun c f => do
    if ← c.postDominates ipdom f then return c
    else return c.modify ipdom fun x =>
      { x with postDominanceFrontier := addUnique x.postDominanceFrontier f }) c

/-- `CFGStructurizer::recompute_post_dominance_frontier`. -/
def recomputePostDominanceFrontier (c : CFGStructurizer) (n : Nat) :
    Except Fault CFGStructurizer :=
  (c.node n).pred.foldlM (fun c pred =>
    let c :=
      if (c.node pred).immediatePostDominator = some n then c
      else c.modify n fun x =>
        { x with postDominanceFrontier := addUnique x.postDominanceFrontier pred }
    match (c.node n).immediatePostDominator with
    | some ipdom => c.propagatePostFrontier n ipdom
    | none => .ok c) c

/-- `CFGStructurizer::compute_post_dominance_frontier`. -/
def computePostDominanceFrontier (c : CFGStructurizer) : Except Fault CFGStructurizer :=
  let c := c.modifyAll c.backwardPostVisitOrder fun x => { x with postDominanceFrontier := [] }
  c.backwardPostVisitOrder.foldlM recomputePostDominanceFrontier c

/-! ## All analyses -/

/-- The first half of `recompute_cfg`: everything that looks at forward edges only. -/
def recomputeForward (fuel : Nat) (c : CFGStructurizer) : Except Fault CFGStructurizer := do
  let c ← c.visitEntry
  let c ← c.pruneDeadPreds.buildImmediateDominators fuel
  return c.buildReachability

/-- `CFGStructurizer::recompute_cfg`. -/
def recomputeCfg (fuel : Nat) (c : CFGStructurizer) : Except Fault CFGStructurizer := do
  let c ← c.recomputeForward fuel
  let c ← c.backwardsVisit fuel
  let c ← c.buildImmediatePostDominators fuel
  let c ← c.computeDominanceFrontier
  c.computePostDominanceFrontier

end CFGStructurizer

end DxilSpirv
