import DxilSpirv.Cfg.Analysis

/-!
# Paths that break

The heuristics that tell breaking control flow from merging control flow: whether control escapes
from a block to a merge candidate, and whether a merge candidate lies on a breaking path.
-/

namespace DxilSpirv

namespace CFGStructurizer

/-! ## Reachability with conditions -/

/-- `CFGStructurizer::query_reachability_through_back_edges`. -/
def queryReachabilityThroughBackEdges (c : CFGStructurizer) (source target : Nat) :
    Except Fault Bool := do
  if ← c.dominates target source then
    -- if the target dominates us, a back edge is the only way there
    return (c.node target).predBackEdge.any (c.queryReachability source ·)
  else return c.queryReachability source target

/-- Whether every path from a frontier to `mustReach` goes through a promoted post-dominator. -/
def allSuccsGoVia (c : CFGStructurizer) (promoted : List Nat) (mustReach frontier : Nat) :
    Except Fault Bool :=
  (c.node frontier).succ.allM fun succ =>
    if c.queryReachability succ mustReach then promoted.anyM fun pdom => c.postDominates pdom succ
    else .ok true

/-- The loop of `get_post_dominance_frontier_with_cfg_subset_that_reaches`. -/
def frontierThatReaches (c : CFGStructurizer) (mustReach : Nat) (mustReachFrontier : Option Nat) :
    Nat → List Nat → List Nat → Except Fault (Option Nat)
  | 0, _, _ => .error .outOfFuel
  | fuel + 1, promoted, frontiers =>
    let frontiers := match mustReachFrontier with
      | some start => frontiers.filter (c.queryReachability start)
      | none => frontiers
    let sorted := (frontiers.mergeSort fun a b =>
      (c.node a).backwardPostVisitOrder ≤ (c.node b).backwardPostVisitOrder).eraseDups
    match sorted.getLast? with
    | none => .ok none
    | some frontier => do
      if ← c.allSuccsGoVia promoted mustReach frontier then
        frontierThatReaches c mustReach mustReachFrontier fuel (promoted ++ [frontier])
          (sorted.dropLast ++ (c.node frontier).postDominanceFrontier)
      else return some frontier

/-- `CFGStructurizer::get_post_dominance_frontier_with_cfg_subset_that_reaches`. -/
def getPostDominanceFrontierWithCfgSubsetThatReaches (fuel : Nat) (c : CFGStructurizer)
    (n mustReach : Nat) (mustReachFrontier : Option Nat) : Except Fault (Option Nat) := do
  check (c.queryReachability n mustReach)
  c.frontierThatReaches mustReach mustReachFrontier fuel [n] (c.node n).postDominanceFrontier

/-- `CFGStructurizer::exists_path_in_cfg_without_intermediate_node`. -/
def existsPathInCfgWithoutIntermediateNode (fuel : Nat) (c : CFGStructurizer)
    (startBlock endBlock stopBlock : Nat) : Except Fault Bool := do
  -- inside a loop the back edge is the end of the analysis
  let endBlock := match (c.node endBlock).predBackEdge with
    | some b =>
      if !c.queryReachability stopBlock endBlock && !c.queryReachability startBlock endBlock then b
      else endBlock
    | none => endBlock
  if c.queryReachability startBlock endBlock && c.queryReachability startBlock stopBlock &&
      c.queryReachability stopBlock endBlock then
    let frontier ← c.getPostDominanceFrontierWithCfgSubsetThatReaches fuel stopBlock endBlock
      (some startBlock)
    return frontier.isSome
  else c.queryReachabilityThroughBackEdges startBlock endBlock

/-! ## Work that is post-dominated -/

/-- `CFGNode::reaches_domination_frontier_before_merge`. -/
def reachesDominationFrontierBeforeMerge (c : CFGStructurizer) (n merge : Nat) :
    Except Fault Bool :=
  (c.node n).dominanceFrontier.anyM fun frontier =>
    if merge ≠ frontier then c.postDominates merge frontier else .ok false

/-- `CFGNode::post_dominates_perfect_structured_construct`. -/
def postDominatesPerfectStructuredConstruct (c : CFGStructurizer) (n : Nat) :
    Except Fault Bool := do
  let idom ← deref (c.node n).immediateDominator
  if ← c.postDominates n idom then (c.node n).pred.allM (c.postDominates n) else return false

/-- `CFGNode::post_dominates_any_work` with the nodes visited so far. -/
def postDominatesAnyWorkFrom (c : CFGStructurizer) (n : Nat) :
    Nat → List Nat → Nat → Except Fault (List Nat × Bool)
  | 0, _, _ => .error .outOfFuel
  | fuel + 1, cache, parent =>
    if parent ∈ cache then .ok (cache, false)
    else if (c.node parent).ir.operations ≠ [] ∨ (c.node parent).ir.phi ≠ [] then do
      return (cache ++ [parent], ← c.postDominates n parent)
    else
      (c.node parent).pred.foldlM (fun (cache, found) p =>
        if found then .ok (cache, true)
        else postDominatesAnyWorkFrom c n fuel cache p) (cache ++ [parent], false)

/-- The trivial backtrace of `count_post_dominates_work_from_incoming_preds`. -/
def backtraceIdle (c : CFGStructurizer) : Nat → Nat → Except Fault Nat
  | 0, _ => .error .outOfFuel
  | fuel + 1, n =>
    match (c.node n).pred with
    | [p] =>
      if (c.node n).ir.operations = [] ∧ (c.node n).ir.phi = [] then do
        if ← c.postDominates n p then backtraceIdle c fuel p else return n
      else .ok n
    | _ => .ok n

/-- `CFGNode::count_post_dominates_work_from_incoming_preds`. -/
def countPostDominatesWorkFromIncomingPreds (fuel : Nat) (c : CFGStructurizer) (n : Nat) :
    Except Fault Nat := do
  let start ← c.backtraceIdle fuel n
  if (c.node start).ir.operations ≠ [] ∨ (c.node start).ir.phi ≠ [] then return 1
  else
    let (_, count) ← (c.node start).pred.foldlM (fun ((cache, count) : List Nat × Nat) p => do
      let (cache, found) ← c.postDominatesAnyWorkFrom start fuel cache p
      return (cache, if found then count + 1 else count)) ([], 0)
    return count

/-! ## Escapes -/

/-- Whether a post-dominance frontier lies inside the loop with the given continue block. -/
def frontierInsideLoop (c : CFGStructurizer) (header continueBlock frontier : Nat) :
    Except Fault Bool := do
  if ← c.dominates header frontier then return c.queryReachability frontier continueBlock
  else return false

/-- `CFGStructurizer::control_flow_is_escaping_from_loop`. -/
def controlFlowIsEscapingFromLoop (c : CFGStructurizer) (n merge : Nat) : Except Fault Bool := do
  if n = merge then return false
  else
    check ((← c.postDominates merge n) = true)
    let header ← c.getInnermostLoopHeaderFor c.entryBlock n
    match (c.node header).predBackEdge with
    | none => return false
    | some b =>
      let dominatesMerge ← c.dominates n merge
      let frontiersInside ← (c.node n).postDominanceFrontier.allM (c.frontierInsideLoop header b)
      return !dominatesMerge && !c.queryReachability b n && !c.queryReachability n b &&
        frontiersInside

/-- `block_is_control_dependent`. -/
def blockIsControlDependent (c : CFGStructurizer) (n : Nat) : Bool :=
  (c.node n).ir.operations.any fun op => op.op.opcodeIsControlDependent

/-- The successor that a merge candidate would be eliminated for. -/
def lookAhead (breaking : Nat → Except Fault Bool) (c : CFGStructurizer) :
    Nat → Nat → Except Fault Nat
  | 0, _ => .error .outOfFuel
  | fuel + 1, merge =>
    match (c.node merge).succ with
    | [succ] => do
      if (← breaking merge) ∧ (c.node merge).ir.operations ≠ [] ∧
          ¬ c.blockIsControlDependent merge then
        lookAhead breaking c fuel succ
      else return merge
    | _ => .ok merge

/-- Trace a predecessor of the merge block back to a block that is comparable with `n`. -/
def backtracePred (c : CFGStructurizer) (n : Nat) : Nat → Nat → Except Fault Nat
  | 0, _ => .error .outOfFuel
  | fuel + 1, pred =>
    if pred ≠ n ∧ !c.queryReachability pred n ∧ !c.queryReachability n pred then do
      let pred ← deref (c.node pred).immediateDominator
      backtracePred c n fuel pred
    else .ok pred

/-- Whether the merge block has a predecessor that shows the escape to be a false positive. -/
def foundFalsePositive (fuel : Nat) (c : CFGStructurizer) (n merge : Nat) :
    Except Fault Bool := do
  let idom ← deref (c.node n).immediateDominator
  let (_, found) ← (c.node merge).pred.foldlM (fun ((stopped, found) : Bool × Bool) pred => do
    if stopped then return (stopped, found)
    else if !(← c.dominates idom pred) then return (false, found)
    else
      let pred ← c.backtracePred n fuel pred
      if pred = n then return (false, found)
      else if c.queryReachability pred n then return (false, true)
      else return (true, false)) (false, false)
  return found

/-- A break is proved by a frontier that reaches a frontier of its own, or by a branch to a
continue block. -/
def isStrongEscape (c : CFGStructurizer) (n merge : Nat) : Except Fault Bool := do
  let fromFrontier ← (c.node n).postDominanceFrontier.anyM fun frontier => do
    if ← c.dominates frontier n then c.reachesDominationFrontierBeforeMerge frontier merge
    else return false
  if fromFrontier then return true
  else
    match (c.node n).succ with
    | [s] => return (c.node s).succBackEdge ≠ none
    | _ => return false

/-- Whether a block does no work and joins the work of one predecessor at most. -/
def isIdleLadder (fuel : Nat) (c : CFGStructurizer) (n : Nat) : Except Fault Bool :=
  if (c.node n).ir.operations = [] ∧ (c.node n).ir.phi = [] then do
    let count ← c.countPostDominatesWorkFromIncomingPreds fuel n
    return count ≤ 1
  else .ok false

/-- What is left of `control_flow_is_escaping` when the frontiers do not decide it. -/
def isWeakEscape (fuel : Nat) (c : CFGStructurizer) (n merge : Nat) : Except Fault Bool := do
  if ← c.isIdleLadder fuel n then return true
  else if 2 ≤ (c.node n).pred.length then return !(← c.foundFalsePositive fuel n merge)
  else return true

mutual

/-- `CFGStructurizer::merge_candidate_is_on_breaking_path`. -/
def mergeCandidateIsOnBreakingPath : Nat → CFGStructurizer → Nat → Except Fault Bool
  | 0, _, _ => .error .outOfFuel
  | fuel + 1, c, n =>
    match (c.node n).succ with
    | [succ] => do
      if (c.node n).pred.length < 2 then return false
      else if ← c.dominates n succ then return false
      else if !(← c.postDominates succ n) then return false
      else if !(← controlFlowIsEscaping fuel c n succ) then return false
      else return !(← c.postDominatesPerfectStructuredConstruct n)
    | _ => .ok false

/-- `CFGStructurizer::control_flow_is_escaping`. -/
def controlFlowIsEscaping : Nat → CFGStructurizer → Nat → Nat → Except Fault Bool
  | 0, _, _, _ => .error .outOfFuel
  | fuel + 1, c, n, merge => do
    if n = merge then return false
    else if ← c.controlFlowIsEscapingFromLoop n merge then return true
    else if ← blockIsLoadBearing fuel c n merge then return false
    -- one switch falling through to another
    else if 2 ≤ ((c.node n).postDominanceFrontier.filter fun f =>
        (c.node f).ir.terminator.type = .switch).length then return true
    else if ← c.reachesDominationFrontierBeforeMerge n merge then return false
    else if ← c.isStrongEscape n merge then return true
    else c.isWeakEscape fuel n merge

/-- `CFGStructurizer::block_is_load_bearing`. -/
def blockIsLoadBearing : Nat → CFGStructurizer → Nat → Nat → Except Fault Bool
  | 0, _, _, _ => .error .outOfFuel
  | fuel + 1, c, n, merge => do
    let merge ← c.lookAhead (mergeCandidateIsOnBreakingPath fuel c) fuel merge
    if (c.node n).pred.length < 2 then return false
    else
      let idom ← deref (c.node n).immediateDominator
      return !(← c.existsPathInCfgWithoutIntermediateNode fuel idom merge n)

end

end CFGStructurizer

end DxilSpirv
