import DxilSpirv.Cfg.Node
import DxilSpirv.Convert.Values
import DxilSpirv.Graph.Dfs
import DxilSpirv.Graph.Orders
import Mathlib.Algebra.Ring.Nat

/-!
# The control flow graph of a function

Blocks get their nodes and branches in one traversal of the function, breadth first for entry points
and patch constant functions, depth first for callees; terminators and PHIs are filled in
afterwards, in the order of that traversal. A branch whose condition is known is a plain branch, and
the PHIs that are still to come leave out the predecessor on the other side.
-/

namespace DxilSpirv.Converter

open Graph

/-- A terminator of the LLVM function; blocks and values go by number. -/
inductive LlvmTerminator
  | br (dest : Nat)
  | condBr (condition ifTrue ifFalse : Nat)
  | switch (width condition default : Nat) (cases : List (Nat × Nat))
  | ret
  | unreachable
  deriving DecidableEq

/-- An LLVM function: blocks with PHIs and a terminator. -/
structure LlvmFunction where
  size : Nat
  entry : Nat
  terminator : Nat → LlvmTerminator
  phis : Nat → List PhiNode

/-- `physical_integer_bit_width`. -/
def physicalIntegerBitWidth (width : Nat) : Nat :=
  if width ∈ [1, 8, 16, 32, 64] then width else if width ≤ 32 then 32 else 64

/-- Whether a traversal is for an entry point or a patch constant function, or for a callee. -/
inductive FunctionRole
  | primary
  | callee
  deriving DecidableEq

/-- Why a conversion does not go on. -/
inductive ConvertError
  /-- The node of a block that has none is used. -/
  | nullBlock
  /-- PHI instruction has zero incoming blocks. -/
  | phiWithoutIncoming
  deriving DecidableEq

/-- The successors, one for each edge. -/
def LlvmTerminator.succs : LlvmTerminator → List Nat
  | br dest => [dest]
  | condBr _ ifTrue ifFalse => [ifTrue, ifFalse]
  | switch _ _ default cases => default :: cases.map (·.2)
  | ret => []
  | unreachable => []

/-- Where control goes; a selector is the number in the low bits of its register. -/
def LlvmTerminator.next (condition : Nat → Bool) (register : Nat → Nat) :
    LlvmTerminator → Option Nat
  | br dest => some dest
  | condBr c ifTrue ifFalse => some (if condition c then ifTrue else ifFalse)
  | switch width c default cases =>
    some (((cases.find? fun label => label.1 == register c % 2 ^ width).map (·.2)).getD default)
  | ret => none
  | unreachable => none

/-- Where control goes from a node. -/
def nextNode (condition : Nat → Bool) (register : Nat → Nat) (t : Terminator) : Option Nat :=
  match t.type with
  | .branch => t.directBlock
  | .condition => if condition t.conditionalId then t.trueBlock else t.falseBlock
  | .switch =>
    ((t.cases.find? fun c => !c.isDefault && c.value.toNat == register t.conditionalId).or
      (t.cases.find? fun c => c.isDefault)).map (·.node)
  | _ => none

-- `static` is `can_optimize_conditional_branch_to_static` on the conditions of the function.

variable (static : Nat → Option Bool) (F : LlvmFunction)

/-- The successors that a traversal visits. -/
def followed (b : Nat) : List Nat :=
  match F.terminator b with
  | .condBr c ifTrue ifFalse =>
    match static c with
    | some value => [if value then ifTrue else ifFalse]
    | none => [ifTrue, ifFalse]
  | t => t.succs

/-- The state of `build_function_bb_visit_order_legacy`. -/
structure VisitState where
  bbMap : List Nat
  toProcess : List Nat
  visitOrder : List Nat
  succ : Nat → List Nat

/-- `queue_visit_succ`. -/
def queueVisitSucc (block : Nat) (s : VisitState) (succ : Nat) : VisitState :=
  let s := if succ ∈ s.bbMap then s
    else { s with toProcess := s.toProcess ++ [succ], bbMap := s.bbMap ++ [succ] }
  { s with succ := Function.update s.succ block (addUnique (s.succ block) succ) }

/-- Visiting one of the blocks in `processing`. -/
def visitBlock (s : VisitState) (block : Nat) : VisitState :=
  (followed static F block).foldl (queueVisitSucc block)
    { s with visitOrder := s.visitOrder ++ [block] }

/-- The loop while there are blocks in `to_process`. -/
def visitRounds : Nat → VisitState → VisitState
  | 0, s => s
  | fuel + 1, s =>
    if s.toProcess = [] then s
    else visitRounds fuel (s.toProcess.foldl (visitBlock static F) { s with toProcess := [] })

/-- `build_function_bb_visit_order_legacy`. -/
def buildFunctionBbVisitOrderLegacy : VisitState :=
  visitRounds static F F.size ⟨[F.entry], [F.entry], [], fun _ => []⟩

/-- `build_function_bb_visit_order_analysis`. -/
def buildFunctionBbVisitOrderAnalysis : List Nat :=
  (postOrder (followed static F) (F.size + 1) ([], []) F.entry).2.reverse

/-- `bb_map[b]->node`; the node of a block goes by the number of the block. -/
def bbMapNode (bbMap : List Nat) (b : Nat) : Except ConvertError Nat :=
  if b ∈ bbMap then .ok b else .error .nullBlock

/-- The branches that `build_callee_functions` adds. -/
def calleeBranches (visitOrder : List Nat) : Except ConvertError (Nat → List Nat) :=
  visitOrder.foldlM (fun succ bb =>
    (F.terminator bb).succs.foldlM (fun succ s => do
      let node ← bbMapNode visitOrder s
      return Function.update succ bb (addUnique (succ bb) node)) succ) fun _ => []

/-- The incoming blocks and values of a PHI in `emit_phi_instruction`. A PHI with one is replaced
by its value. -/
def emitPhiIncoming (bbMap : List Nat) (skipPhiPreds : List (Nat × Nat)) (bb : Nat)
    (phi : PhiNode) : Except ConvertError (List (Nat × Nat)) :=
  match phi.incoming with
  | [p] => .ok [p]
  | incoming =>
    let kept := phiIncoming (fun b => decide (b ∈ bbMap)) skipPhiPreds bb incoming
    if kept = [] then .error .phiWithoutIncoming else .ok kept

/-- The terminator of a node in `convert_function`, and the pruned successor. -/
def convertTerminator (bbMap : List Nat) :
    LlvmTerminator → Except ConvertError (Terminator × Option Nat)
  | .br dest => do
    let node ← bbMapNode bbMap dest
    return ({ type := .branch, directBlock := some node }, none)
  | .condBr c ifTrue ifFalse =>
    match static c with
    | some value => do
      let node ← bbMapNode bbMap (if value then ifTrue else ifFalse)
      return ({ type := .branch, directBlock := some node },
        some (if value then ifFalse else ifTrue))
    | none => do
      let trueBlock ← bbMapNode bbMap ifTrue
      let falseBlock ← bbMapNode bbMap ifFalse
      return (
        { type := .condition
          conditionalId := c
          trueBlock := some trueBlock
          falseBlock := some falseBlock }, none)
  | .switch _ c default cases => do
    let defaultNode ← bbMapNode bbMap default
    let caseNodes ← cases.mapM fun label => do
      let node ← bbMapNode bbMap label.2
      return ({ node := node, value := BitVec.ofNat 32 label.1 } : TerminatorCase)
    return (
      { type := .switch
        conditionalId := c
        cases := { node := defaultNode, isDefault := true } :: caseNodes }, none)
  | .ret => return ({ type := .ret }, none)
  | .unreachable => return ({ type := .unreachable }, none)

/-- What `convert_function` has filled in. -/
structure ConvertState where
  skipPhiPreds : List (Nat × Nat)
  terminator : Nat → Terminator
  phi : Nat → List (List (Nat × Nat))

/-- A turn of the loop in `convert_function`: the PHIs of a block, then its terminator. -/
def convertBlock (bbMap : List Nat) (s : ConvertState) (bb : Nat) :
    Except ConvertError ConvertState := do
  let phi ← (F.phis bb).mapM (emitPhiIncoming bbMap s.skipPhiPreds bb)
  let t ← convertTerminator static bbMap (F.terminator bb)
  return ⟨s.skipPhiPreds ++ t.2.toList.map fun pruned => (bb, pruned),
    Function.update s.terminator bb t.1, Function.update s.phi bb phi⟩

/-- `convert_function`, for a traversal that registered the blocks it lists. -/
def convertFunction (visitOrder : List Nat) : Except ConvertError ConvertState :=
  visitOrder.foldlM (convertBlock static F visitOrder) ⟨[], fun _ => {}, fun _ => []⟩

/-- The nodes that go to the structurizer. -/
structure ConvertedFunction where
  blocks : List Nat
  succ : Nat → List Nat
  terminator : Nat → Terminator
  phi : Nat → List (List (Nat × Nat))

/-- The conversion of a function. -/
def convert : FunctionRole → Except ConvertError ConvertedFunction
  | .primary => do
    let visit := buildFunctionBbVisitOrderLegacy static F
    let s ← convertFunction static F visit.visitOrder
    return ⟨visit.visitOrder, visit.succ, s.terminator, s.phi⟩
  | .callee => do
    let visitOrder := buildFunctionBbVisitOrderAnalysis static F
    let succ ← calleeBranches F visitOrder
    let s ← convertFunction static F visitOrder
    return ⟨visitOrder, succ, s.terminator, s.phi⟩

/-- What the LLVM verifier asks of a function: blocks are in range, nothing branches to the entry, a
PHI has a value for each edge to its block, and the cases of a switch are different. -/
structure LlvmFunction.WellFormed : Prop where
  entry_lt : F.entry < F.size
  succ_lt : ∀ b < F.size, ∀ s ∈ (F.terminator b).succs, s < F.size
  entry_not_succ : ∀ b < F.size, F.entry ∉ (F.terminator b).succs
  entry_phis : F.phis F.entry = []
  phi_incoming : ∀ b < F.size, ∀ phi ∈ F.phis b, ∀ p < F.size,
    (phi.incoming.map (·.1)).count p = (F.terminator p).succs.count b
  phi_incoming_lt : ∀ b < F.size, ∀ phi ∈ F.phis b, ∀ p ∈ phi.incoming, p.1 < F.size
  cases : ∀ b < F.size, ∀ width c default cases, F.terminator b = .switch width c default cases →
    0 < width ∧ width ≤ 64 ∧ (∀ label ∈ cases, label.1 < 2 ^ width) ∧ (cases.map (·.1)).Nodup

/-- The nodes have the control flow of the blocks that the traversal found. -/
structure SameControlFlow (f : ConvertedFunction) : Prop where
  /-- The successors of a node are the targets of its terminator. -/
  targets : ∀ b ∈ f.blocks, ∀ x, x ∈ f.succ b ↔ x ∈ (f.terminator b).targets
  /-- Whatever the conditions and the registers of the selectors hold, control goes the same way. -/
  next : ∀ b ∈ f.blocks, ∀ (condition : Nat → Bool) (register : Nat → Nat),
    (∀ c value, static c = some value → condition c = value) →
    (∀ width c default cases, F.terminator b = .switch width c default cases →
      register c < 2 ^ physicalIntegerBitWidth width) →
    nextNode condition register (f.terminator b) = (F.terminator b).next condition register
  /-- A PHI has a value from a predecessor exactly when it has an edge to the block. -/
  phis : ∀ b ∈ f.blocks, ∀ kept ∈ f.phi b, ∀ p,
    p ∈ kept.map (·.1) ↔ p ∈ f.blocks ∧ b ∈ f.succ p

/-- The conversion succeeds, so that the node of every block it looks up exists, and keeps the
control flow. -/
def KeepsControlFlow (role : FunctionRole) : Prop :=
  ∃ f, convert static F role = .ok f ∧ SameControlFlow static F f

/-- A block that control can get to when the known conditions are taken as known. -/
def Reached (b : Nat) : Prop := Reaches (fun a b => b ∈ followed static F a) F.entry b

/-- The order in which blocks are converted: breadth first, or reverse post order. -/
def conversionOrder : FunctionRole → List Nat
  | .primary => breadthFirst (followed static F) F.size [F.entry] [F.entry]
  | .callee => (postOrder (followed static F) (F.size + 1) ([], []) F.entry).2.reverse

/-- A switch that 32 bits of the labels decide: either all labels go to the default block, or the
register has no further bits, labels from 2^32 on go to the default block and so does a later label
that has their low bits. -/
def SwitchFits (width default : Nat) (cases : List (Nat × Nat)) : Prop :=
  (∀ label ∈ cases, label.2 = default) ∨ physicalIntegerBitWidth width = width ∧
    ∀ before label after, cases = before ++ label :: after → 2 ^ 32 ≤ label.1 →
      label.2 = default ∧ ∀ later ∈ after, later.1 = label.1 % 2 ^ 32 → later.2 = default

/-- The functions whose conversion keeps the control flow. -/
structure Convertible (role : FunctionRole) : Prop where
  switches : ∀ b, Reached static F b → ∀ width c default cases,
    F.terminator b = .switch width c default cases → SwitchFits width default cases
  /-- In a callee both sides of a branch on a known condition are one block. -/
  callee : role = .callee → ∀ b, Reached static F b → ∀ c ifTrue ifFalse value,
    F.terminator b = .condBr c ifTrue ifFalse → static c = some value → ifTrue = ifFalse
  /-- A pruned side with PHIs that control still gets to is converted after the branch exactly when
  it is not the side that is taken, too. -/
  pruned : ∀ b, Reached static F b → ∀ c ifTrue ifFalse value,
    F.terminator b = .condBr c ifTrue ifFalse → static c = some value →
    let pruned := if value then ifFalse else ifTrue
    Reached static F pruned → F.phis pruned ≠ [] →
      (Precedes (conversionOrder static F role) b pruned ↔ ifTrue ≠ ifFalse)

end DxilSpirv.Converter
