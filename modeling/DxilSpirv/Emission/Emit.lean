import DxilSpirv.Emission.Meaning
import DxilSpirv.Spirv.Builder

/-!
# Emitting a structured control flow graph

How the nodes of a structured graph become the blocks of a function, one node after the other in the
order of the traversal. A node with pseudo operations becomes several blocks, and so does a loop
header that branches into its body on both sides: the PHIs that name a node as the block that values
come from have to name the last of its blocks.

This is the emission without instrumentation, for devices that can demote invocations. Barriers
around operations, the simulation of 16-bit floats and the calls that demote on a condition are left
out.
-/

namespace DxilSpirv.Emission

open Spv (Builder)

/-- `MergeInfo`. -/
structure MergeInfo where
  mergeType : MergeType := .none
  mergeBlock : Option Nat := none
  continueBlock : Option Nat := none
  loopControlMask : Nat := 0
  selectionControlMask : Nat := 0
  deriving DecidableEq, Repr

/-- `SPIRVModule` while a function is emitted: the blocks by their labels and in their order, and
for each node the label of its first block, which is its `userdata`, and its `id`. -/
structure SpirvFunction where
  builder : Builder
  block : Nat → SpvBlock := fun _ => {}
  blocks : List Nat := []
  label : Nat → Nat := fun _ => 0
  id : Nat → Nat := fun _ => 0
  markError : Bool := false

/-- The entries of a PHI for one block are for another one. -/
def rewriteIncoming (fromId toId : Nat) (phi : PHI) : PHI :=
  { phi with incoming := phi.incoming.map fun i => if i.block = fromId
    then { i with block := toId } else i }

namespace SpirvFunction

variable (s : SpirvFunction)

/-- The label of a new block. -/
def newBlock : Nat := s.builder.uniqueId + 1

/-- The module after an id was drawn. -/
def drawId : SpirvFunction := { s with builder := s.builder.drawId }

/-- `addBlock`. -/
def addBlock (l : Nat) : SpirvFunction := { s with blocks := s.blocks ++ [l] }

/-- `addInstruction`. -/
def addInst (l : Nat) (i : Inst) : SpirvFunction :=
  { s with block := Function.update s.block l { s.block l with insts := (s.block l).insts ++ [i] } }

/-- `addInstruction`, of a PHI. -/
def addPhi (l : Nat) (phi : PHI) : SpirvFunction :=
  { s with block := Function.update s.block l { s.block l with phis := (s.block l).phis ++ [phi] } }

/-- `rewritePhiIncoming`. -/
def rewritePhiIncoming (l fromId toId : Nat) : SpirvFunction :=
  { s with block := Function.update s.block l { s.block l with
      phis := (s.block l).phis.map (rewriteIncoming fromId toId) } }

/-- `register_block`. -/
def registerBlock (node : Nat) : SpirvFunction :=
  if s.label node = 0 ∨ s.id node = 0 then
    { s.drawId.addBlock s.newBlock with
      label := Function.update s.label node s.newBlock
      id := Function.update s.id node s.newBlock }
  else s

/-- `makeReturn`, with the block that comes after it. -/
def makeReturn (l value : Nat) : SpirvFunction :=
  ((s.addInst l (.ret value)).addBlock s.newBlock).drawId

/-- A block that is never reached, to merge to. -/
def addUnreachable : SpirvFunction :=
  ((s.addInst s.newBlock .unreachable).addBlock s.newBlock).drawId

/-- The `emit_loop_header` of a node, at the end of the block `bb`. -/
def emitLoopHeader (info : MergeInfo) (node bb fake : Nat) (replacement : Option Nat) :
    SpirvFunction :=
  match info.mergeBlock, info.continueBlock with
  | some mergeBlock, some continueBlock =>
    s.addInst bb (.loopMerge (s.label mergeBlock) (replacement.getD (s.label continueBlock))
      info.loopControlMask)
  | some mergeBlock, none =>
    ((s.addBlock fake).addInst fake (.branch (s.label node))).addInst bb
      (.loopMerge (s.label mergeBlock) fake 0)
  | none, some continueBlock =>
    ((s.addBlock fake).addInst fake .unreachable).addInst bb
      (.loopMerge fake (replacement.getD (s.label continueBlock)) 0)
  | none, none => s

end SpirvFunction

/-- The emission of a node: the block that comes next, and the label that PHIs are to be rewritten
to, zero if none. -/
structure Emitting where
  module : SpirvFunction
  bb : Nat
  rewriteTo : Nat := 0
  implicitTerminator : Bool := false

/-- The node that is emitted, its merges, and the block that stands in for the merge or the continue
block of a loop that lacks one. -/
structure Place where
  node : Nat
  info : MergeInfo
  fake : Nat

namespace Emitting

variable (p : Place) (e : Emitting)

/-- A loop header ends before the first pseudo operation, and what follows goes into a block of its
own. A loop of one block continues there. -/
def leaveHeader : Emitting :=
  if p.info.mergeType = .loop ∧ e.rewriteTo = 0 then
    let direct := e.module.newBlock
    let replacement := if p.info.continueBlock.map e.module.label = some e.bb
      then some direct else none
    let s := e.module.drawId.emitLoopHeader p.info p.node e.bb p.fake replacement
    { e with
      module := (s.addBlock direct).addInst e.bb (.branch direct)
      bb := direct }
  else e

/-- What is under the mask of a pseudo operation, in the block `inner` that goes on to `merge`. -/
def emitInner (op : Operation) (inner merge : Nat) : SpirvFunction :=
  let s := e.module
  if op.op = pseudoOpReturnCond then s.makeReturn inner 0
  else if op.op = pseudoOpMaskedStore then
    (s.addInst inner (.op .opStore 0 0 op.arguments.dropLast)).addInst inner (.branch merge)
  else
    let innerId := s.newBlock
    let s := (s.drawId.addInst inner (.op .opLoad innerId op.typeId op.arguments.dropLast)).addInst
      inner (.branch merge)
    let (null, builder) := s.builder.makeNullConstant op.typeId
    { s with builder }.addPhi merge
      { id := op.id, typeId := op.typeId, incoming := [⟨inner, innerId⟩, ⟨e.bb, null⟩] }

/-- A pseudo operation: a selection with what is under its mask. -/
def emitMasked (op : Operation) : Emitting :=
  let e := e.leaveHeader p
  let inner := e.module.newBlock
  let merge := e.module.drawId.newBlock
  let s := (e.module.drawId.drawId.addBlock inner).addBlock merge
  let s := (s.addInst e.bb (.selectionMerge merge 0)).addInst e.bb
    (.branchConditional ((condition op.arguments).getD 0) inner merge)
  let s := emitInner { e with module := s } op inner merge
  { e with
    module := { s with id := Function.update s.id p.node merge }
    bb := merge
    rewriteTo := merge }

/-- The emission of an operation for a target that can demote, where no 16-bit floats are simulated.
Demotes and helper queries are then operations like others, and nothing is quantized. -/
def emitOperation (op : Operation) : Emitting :=
  if e.implicitTerminator then e
  else if op.op ∈ pseudoOps then e.emitMasked p op
  else if op.op ∈ dropped then e
  else
    { e with
      module := e.module.addInst e.bb (.op op.op op.id op.typeId op.arguments)
      implicitTerminator := op.op ∈ implicitTerminators }

/-- The structured merge of a node, where its header did not end before. -/
def emitMerge : SpirvFunction :=
  match p.info.mergeType, p.info.mergeBlock with
  | .selection, some mergeBlock =>
    e.module.addInst e.bb (.selectionMerge (e.module.label mergeBlock) p.info.selectionControlMask)
  | .selection, none => e.module.addUnreachable.addInst e.bb (.selectionMerge e.module.newBlock 0)
  | .loop, _ => if e.rewriteTo = 0 then e.module.emitLoopHeader p.info p.node e.bb p.fake none
      else e.module
  | .none, _ => e.module

/-- Let the PHIs of the blocks that a node branches to know the label of its last block. -/
def rewritePhis (s : SpirvFunction) (fromId toId : Nat) (targets : List Nat) : SpirvFunction :=
  if toId = 0 then s else targets.foldl (fun s t => s.rewritePhiIncoming (s.label t) fromId toId) s

/-- A loop header with both branches into the loop has to merge somewhere: it branches to a
selection of its own. -/
def splitsHeader (info : MergeInfo) (trueBlock falseBlock : Nat) : Prop :=
  info.mergeType = .loop ∧ info.mergeBlock ≠ some trueBlock ∧ info.continueBlock ≠ some trueBlock ∧
    info.mergeBlock ≠ some falseBlock ∧ info.continueBlock ≠ some falseBlock
  deriving Decidable

/-- The branches of a conditional terminator. -/
def emitCondition (conditionalId trueBlock falseBlock : Nat) : SpirvFunction :=
  let s := e.module
  let branch : Inst := .branchConditional conditionalId (s.label trueBlock) (s.label falseBlock)
  if splitsHeader p.info trueBlock falseBlock then
    if e.rewriteTo = 0 then
      let selection := s.newBlock
      let unreachable := s.drawId.newBlock
      let s := ((s.drawId.drawId.addBlock selection).addBlock unreachable).addInst e.bb
        (.branch selection)
      let s := (s.addInst selection (.selectionMerge unreachable 0)).addInst selection branch
      { s.addInst unreachable .unreachable with id := Function.update s.id p.node selection }
    else (s.addUnreachable.addInst e.bb (.selectionMerge s.newBlock 0)).addInst e.bb branch
  else s.addInst e.bb branch

/-- The terminator of a node, whose PHIs were named by the label `fromId`. -/
def emitTerminator (t : Terminator) (fromId : Nat) : Option SpirvFunction :=
  match t.type with
  | .unreachable => some (e.module.addInst e.bb .unreachable)
  | .branch => do
    let target ← t.directBlock
    some (rewritePhis (e.module.addInst e.bb (.branch (e.module.label target))) fromId
      e.rewriteTo [target])
  | .condition => do
    let trueBlock ← t.trueBlock
    let falseBlock ← t.falseBlock
    some (rewritePhis (e.emitCondition p t.conditionalId trueBlock falseBlock) fromId e.rewriteTo
      [trueBlock, falseBlock])
  | .switch => do
    let default ← t.cases.find? (·.isDefault)
    let labels := t.cases.filter fun c => !c.isDefault
    let s := rewritePhis e.module fromId e.rewriteTo (default.node :: labels.map (·.node))
    some (s.addInst e.bb (.switch t.conditionalId (s.id default.node) (labels.map fun c =>
      (c.value, s.id c.node))))
  | .kill => some (e.module.addInst e.bb .kill)
  | .ret => some (e.module.makeReturn e.bb t.returnValue)

end Emitting

namespace SpirvFunction

variable (s : SpirvFunction)

/-- `DecorationRelaxedPrecision`. -/
def decorationRelaxedPrecision : Nat := 0

/-- `addDecoration`, where a PHI is relaxed. -/
def relax (phi : PHI) : SpirvFunction :=
  if phi.relaxed
    then { s with builder := s.builder.addDecoration phi.id decorationRelaxedPrecision (-1) } else s

/-- The PHIs of a node. Where a loop lacks a continue block, values come from the block that stands
in for it too. -/
def emitPhi (p : Place) (phi : PHI) : SpirvFunction :=
  if phi.id = 0 then s
  else
    let incoming := phi.incoming.map fun i => ⟨s.id i.block, i.id⟩
    if p.fake ≠ 0 ∧ p.info.continueBlock = none then
      let s' := s.drawId.addInst p.fake (.undef s.newBlock phi.typeId)
      (s'.relax phi).addPhi (s.label p.node)
        { phi with incoming := incoming ++ [⟨p.fake, s.newBlock⟩] }
    else (s.relax phi).addPhi (s.label p.node) { phi with incoming }

/-- A loop that lacks either its merge or its continue block gets a block that stands in for it. -/
def needsFake (info : MergeInfo) : Prop :=
  info.mergeType = .loop ∧ info.mergeBlock.isSome ≠ info.continueBlock.isSome
  deriving Decidable

/-- `emit_basic_block`. -/
def emitBasicBlock (node : Nat) (ir : IRBlock) (info : MergeInfo) : Option SpirvFunction :=
  let p : Place := { node, info, fake := if needsFake info then s.newBlock else 0 }
  let s := if needsFake info then s.drawId else s
  let s := ir.phi.foldl (fun s phi => s.emitPhi p phi) s
  let e := ir.operations.foldl (Emitting.emitOperation p) { module := s, bb := s.label node }
  if e.implicitTerminator then
    let allowed := info.mergeType = .none ∧ ir.terminator.type ∈ [.unreachable, .ret]
    some { e.module with markError := e.module.markError || !allowed }
  else Emitting.emitTerminator p { e with module := e.emitMerge p } ir.terminator (s.id node)

/-- The merges of a node as the structurizer found them. -/
def mergeInfo (c : CFGStructurizer) (info : Nat → MergeInfo) (n : Nat) : MergeInfo :=
  match (c.node n).merge with
  | .selection =>
    { info n with mergeType := .selection, mergeBlock := (c.node n).selectionMergeBlock }
  | .loop =>
    { info n with
      mergeType := .loop, mergeBlock := (c.node n).loopMergeBlock, continueBlock :=
        (c.node n).predBackEdge }
  | .none => info n

/-- The merge and continue block of a node, as far as they are known to the module before it is
emitted. -/
def registerMerges (c : CFGStructurizer) (n : Nat) : SpirvFunction :=
  match (c.node n).merge with
  | .selection => (c.node n).selectionMergeBlock.toList.foldl registerBlock s
  | .loop =>
    ((c.node n).loopMergeBlock.toList ++ (c.node n).predBackEdge.toList).foldl registerBlock s
  | .none => s

/-- The nodes in the order of emission. -/
def order (c : CFGStructurizer) : List Nat := c.forwardPostVisitOrder.reverse

/-- `traverse`. -/
def traverse (c : CFGStructurizer) (info : Nat → MergeInfo) : Option SpirvFunction :=
  let s := (order c).foldl (fun s n => { s with id := Function.update s.id n 0 }.registerBlock n) s
  (order c).foldlM (fun s n =>
    (s.registerMerges c n).emitBasicBlock n (c.node n).ir (mergeInfo c info n)) s

/-- `emit_entry_point_function_body`, for a function with the entry block `entry`. -/
def emitFunctionBody (entry : Nat) (c : CFGStructurizer) (info : Nat → MergeInfo) :
    Option SpirvFunction := do
  let s ← s.traverse c info
  some (s.addInst entry (.branch (s.label c.entryBlock)))

end SpirvFunction

end DxilSpirv.Emission
