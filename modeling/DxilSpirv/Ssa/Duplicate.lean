import DxilSpirv.Cfg.Escape
import DxilSpirv.Cfg.SplitOff
import DxilSpirv.Ssa.BreakingPhi
import DxilSpirv.Ssa.Module

/-!
# Duplicating impossible merge constructs

A block with code on a breaking path cannot be merged to. Every predecessor gets a copy of it,
with the PHIs resolved and the results renamed, and the PHIs that took values of the block take
those of the copies.
-/

namespace DxilSpirv

/-- New names for the ids of a duplicated block. -/
abbrev IdRemap := Nat → Option Nat

/-- `get_remapped_id_for_duplicated_block`. -/
def getRemappedIdForDuplicatedBlock (id : Nat) (remap : IdRemap) : Nat :=
  (remap id).getD id

/-- The id of a copied operation, or 0 when it has no result. -/
def allocateResult (m : SpirvModule) (op : Operation) : SpirvModule × Nat :=
  if op.id = 0 then (m, 0) else m.allocateId

/-- A copied operand. Ids must not be 0. -/
def remapArgument (remap : IdRemap) : Argument → Except Fault Argument
  | .literal w => .ok (.literal w)
  | .id i => do
    check (getRemappedIdForDuplicatedBlock i remap ≠ 0)
    return .id (getRemappedIdForDuplicatedBlock i remap)

/-- `CFGStructurizer::duplicate_op`. -/
def duplicateOp (m : SpirvModule) (op : Operation) (remap : IdRemap) :
    Except Fault (SpirvModule × Operation × IdRemap) := do
  let (m, id) := allocateResult m op
  let arguments ← op.arguments.mapM (remapArgument remap)
  return (m, { op := op.op, id, typeId := if op.id = 0 then 0 else op.typeId, arguments },
    if op.id = 0 then remap else Function.update remap op.id (some id))

/-- The operations copied so far, and the ids whose decorations were passed on. -/
structure CopyState where
  m : SpirvModule
  operations : List Operation := []
  remap : IdRemap
  removed : List Nat := []

/-- Pass a decoration on from an operation to its copy. -/
def copyDecoration (m : SpirvModule) (op dup : Operation) (d : Decoration)
    (operands : List (BitVec 32)) : SpirvModule × List Nat :=
  if m.hasDecoration op.id d then (m.addDecoration dup.id d operands, [op.id]) else (m, [])

/-- Copy one operation and its decorations. -/
def copyOperation (s : CopyState) (op : Operation) : Except Fault CopyState := do
  let (m, dup, remap) ← duplicateOp s.m op s.remap
  let (m, nocontract) := copyDecoration m op dup .noContraction []
  let (m, fpmode) := copyDecoration m op dup .fpFastMathMode [allowRecipMask]
  return {
    m
    operations := s.operations ++ [dup]
    remap
    removed := s.removed ++ nocontract ++ fpmode }

/-- Replace the incoming value of a duplicated block by those of its copies. -/
def splitCopies (node : Nat) (copies : List (Nat × IdRemap)) (phi : PHI) : PHI :=
  match phi.incoming.find? fun i => i.block == node with
  | none => phi
  | some fromNode =>
    { phi with
      incoming := (phi.incoming.eraseP fun i => i.block == node) ++
        copies.map fun (b, remap) => ⟨b, getRemappedIdForDuplicatedBlock fromNode.id remap⟩ }

namespace CFGStructurizer

/-- Keep the nearer of two incoming values. -/
def nearerIncoming (c : CFGStructurizer) (i : IncomingValue) :
    Option IncomingValue → IncomingValue
  | none => i
  | some candidate =>
    if (c.node i.block).forwardPostVisitOrder < (c.node candidate.block).forwardPostVisitOrder
    then i else candidate

/-- `CFGStructurizer::find_incoming_value`. -/
def findIncomingValue (c : CFGStructurizer) (frontierPred : Nat) (incoming : List IncomingValue) :
    Except Fault (Option IncomingValue) :=
  incoming.foldlM (fun candidate i => do
    if ← c.dominates i.block frontierPred then return some (c.nearerIncoming i candidate)
    else return candidate) none

/-- `CFGStructurizer::can_duplicate_phis`. -/
def canDuplicatePhis (c : CFGStructurizer) (n : Nat) : Except Fault Bool := do
  let found ← (c.node n).pred.allM fun pred => (c.node n).ir.phi.allM fun phi => do
    return (← c.findIncomingValue pred phi.incoming).isSome
  -- every incoming value must be settled at some predecessor
  if found then
    (c.node n).ir.phi.allM fun phi => phi.incoming.allM fun i =>
      (c.node n).pred.anyM fun pred => c.dominates i.block pred
  else return false

/-- The new name of one PHI in the copy for `pred`: its incoming value. -/
def resolvePhi (c : CFGStructurizer) (pred : Nat) (remap : IdRemap) (phi : PHI) :
    Except Fault IdRemap := do
  let i ← c.findIncomingValue pred phi.incoming
  match i with
  | some i => return Function.update remap phi.id (some i.id)
  | none => .error .assertion

/-- The new names of the PHIs in the copy for `pred`. -/
def resolvePhis (c : CFGStructurizer) (pred : Nat) (phis : List PHI) : Except Fault IdRemap :=
  phis.foldlM (c.resolvePhi pred) fun _ => none

/-- The terminator of a copy. -/
def copyTerminator (t : Terminator) (remap : IdRemap) : Terminator where
  type := t.type
  directBlock := t.directBlock
  trueBlock := t.trueBlock
  falseBlock := t.falseBlock
  conditionalId :=
    if t.conditionalId = 0 then 0 else getRemappedIdForDuplicatedBlock t.conditionalId remap

/-- The pool, the module and the copies made so far with their names. -/
structure DuplicateState where
  c : CFGStructurizer
  m : SpirvModule
  copies : List (Nat × IdRemap) := []

/-- Make the copy of a block for one predecessor. -/
def duplicateFor (fuel node : Nat) (succs : List Nat) (s : DuplicateState) (pred : Nat) :
    Except Fault DuplicateState := do
  let (c, block) := s.c.createNode
  let c := c.modify block (.setDominators (some pred) (c.node node).immediatePostDominator)
  let c ← c.retargetBranch fuel pred node block
  let c ← c.addBranches block succs
  let remap ← c.resolvePhis pred (c.node node).ir.phi
  let copy ← (c.node node).ir.operations.foldlM copyOperation { m := s.m, remap }
  let c := c.modify block fun x =>
    { x with
      ir := { operations := copy.operations
              terminator := copyTerminator (c.node node).ir.terminator copy.remap } }
  return { c
           m := copy.m.removeDecorations copy.removed
           copies := s.copies ++ [(block, copy.remap)] }

/-- The blocks at which values of a duplicated block may arrive: a chain of ladders, and the
headers that its blocks branch back to. -/
def ladderChain (c : CFGStructurizer) : Nat → Nat → Except Fault (List Nat)
  | 0, _ => .error .outOfFuel
  | fuel + 1, succ => do
    let rest ←
      match (c.node succ).succ with
      | [s] => ladderChain c fuel s
      | _ => .ok []
    return (c.node succ).succBackEdge.toList ++ succ :: rest

/-- `CFGStructurizer::duplicate_node`. -/
def duplicateNode (fuel : Nat) (c : CFGStructurizer) (m : SpirvModule) (node : Nat) :
    Except Fault (CFGStructurizer × SpirvModule) := do
  check ((c.node node).ir.terminator.type = .branch ∨ (c.node node).ir.terminator.type = .condition)
  check (2 ≤ (c.node node).pred.length)
  check ((← (c.node node).succ.anyM fun succ => c.dominates node succ) = false)
  let succs := (c.node node).succ
  let s ← (c.node node).pred.foldlM (duplicateFor fuel node succs) { c, m }
  check ((s.c.node node).pred = [])
  let chains ← succs.mapM (s.c.ladderChain fuel)
  return (s.c.modifyAll chains.flatten (.mapPhi (List.map (splitCopies node s.copies))), s.m)

/-- The test of one switch label in `block_is_ambiguous_switch_merge_block`. -/
def labelEntersMerge (c : CFGStructurizer) (n pdf pdom label : Nat) : Except Fault Bool :=
  if !c.queryReachability label n && !c.queryReachability n label then
    (c.node label).dominanceFrontier.anyM fun df => do
      return !(← c.dominates pdf df) && df ≠ pdom && df ∈ (c.node n).dominanceFrontier
  else .ok false

/-- `CFGStructurizer::block_is_ambiguous_switch_merge_block`. -/
def blockIsAmbiguousSwitchMergeBlock (fuel : Nat) (c : CFGStructurizer) (n : Nat) :
    Except Fault Bool := do
  if ← (c.node n).succ.anyM fun succ => c.dominates n succ then return false
  else
    (c.node n).postDominanceFrontier.anyM fun pdf =>
      -- broken out of a switch and back into it again
      if (c.node pdf).ir.terminator.type = .switch ∧ n ∈ (c.node pdf).dominanceFrontier then do
        let (c, pdom) ← findCommonPostDominator fuel c n pdf
        (c.node pdf).ir.terminator.cases.anyM fun k => c.labelEntersMerge n pdf pdom k.node
      else .ok false

/-- Whether a merge candidate lies on a breaking path or enters a switch sideways. -/
def isImpossibleMerge (fuel : Nat) (c : CFGStructurizer) (n : Nat) : Except Fault Bool := do
  if ← mergeCandidateIsOnBreakingPath fuel c n then return true
  else if 1 < (c.node n).pred.length then c.blockIsAmbiguousSwitchMergeBlock fuel n
  else return false

/-- Whether `duplicate_impossible_merge_constructs` selects a block. -/
def isDuplicateCandidate (fuel : Nat) (c : CFGStructurizer) (n : Nat) : Except Fault Bool := do
  -- never duplicate back edges
  if (c.node n).succBackEdge ≠ none then return false
  else if ← c.isImpossibleMerge fuel n then
    return (c.node n).ir.operations ≠ [] && !c.blockIsControlDependent n
  else return false

/-- The blocks that `duplicate_impossible_merge_constructs` selects, the first ones first. -/
def duplicateQueue (fuel : Nat) (c : CFGStructurizer) : Except Fault (List Nat) :=
  c.forwardPostVisitOrder.reverse.filterM (c.isDuplicateCandidate fuel)

/-- One selected block. -/
def duplicateSelected (fuel : Nat) (s : CFGStructurizer × SpirvModule) (node : Nat) :
    Except Fault (CFGStructurizer × SpirvModule) := do
  if ← s.1.canDuplicatePhis node then s.1.duplicateNode fuel s.2 node else return s

/-- `CFGStructurizer::duplicate_impossible_merge_constructs`. -/
def duplicateImpossibleMergeConstructs (fuel : Nat) (c : CFGStructurizer) (m : SpirvModule) :
    Except Fault (CFGStructurizer × SpirvModule) := do
  let queue ← c.duplicateQueue fuel
  if queue = [] then return (c, m)
  else
    let (c, m) ← queue.foldlM (duplicateSelected fuel) (c, m)
    return (← c.recomputeCfg fuel, m)

end CFGStructurizer

end DxilSpirv
