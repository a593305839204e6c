import DxilSpirv.Program.Simulation
import DxilSpirv.Ssa.Machine

/-!
# Functions that are emitted

The blocks of a SPIR-V function by their labels, and how they are executed: an instruction at a
time, but for the PHIs of a block, which are all read when control comes to it.
-/

namespace DxilSpirv.Emission

/-- An instruction of a block that is no PHI. Blocks are named by their labels, and a return of zero
returns nothing. -/
inductive Inst where
  | op (op : SpvOp) (id typeId : Nat) (arguments : List Argument)
  | undef (id typeId : Nat)
  | selectionMerge (mergeBlock control : Nat)
  | loopMerge (mergeBlock continueBlock control : Nat)
  | branch (target : Nat)
  | branchConditional (condition trueLabel falseLabel : Nat)
  | switch (selector default : Nat) (cases : List (BitVec 32 × Nat))
  | unreachable
  | kill
  | ret (value : Nat)
  deriving DecidableEq, Repr

/-- A block after its label: its PHIs come first. -/
structure SpvBlock where
  phis : List PHI := []
  insts : List Inst := []
  deriving DecidableEq, Repr

/-- `PseudoOpReturnCond`. -/
def pseudoOpReturnCond : SpvOp := .other 0x100000

/-- `PseudoOpInstrumentExternallyVisibleStore`. -/
def pseudoOpInstrumentExternallyVisibleStore : SpvOp := .other 0x100001

/-- `PseudoOpMaskedLoad`. -/
def pseudoOpMaskedLoad : SpvOp := .other 0x100002

/-- `PseudoOpMaskedStore`. -/
def pseudoOpMaskedStore : SpvOp := .other 0x100003

/-- `OpAssumeTrueKHR`. -/
def opAssumeTrueKHR : SpvOp := .other 5630

/-- `OpTerminateRayKHR`, `OpIgnoreIntersectionKHR` and `OpEmitMeshTasksEXT`: nothing of a block
comes after them. -/
def implicitTerminators : List SpvOp := [.other 4449, .other 4448, .other 5294]

variable {V W : Type}

/-- How a function ends: in an operation that ends it, or in a terminator. -/
inductive Ending (V : Type) where
  | implicit
  | unreachable
  | kill
  | ret (value : Option V)

/-- What is left when a function has ended: how it ended, its memory and the operations it
executed. -/
structure Outcome (V W : Type) where
  ending : Ending V
  memory : W
  trace : List (Event V)

/-- The outcome of a function that ends here. -/
def outcome (s : Config V W) (ending : Ending V) : Outcome V W := ⟨ending, s.memory, s.trace⟩

/-- What is returned. -/
def returned (e : Env V) (value : Nat) : Option V := if value = 0 then none else some (e value)

/-- Where the execution of a function is: a block, its instructions that come next, and the
configuration. -/
structure At (V W : Type) where
  label : Nat
  rest : List Inst
  config : Config V W

/-- The start of a block, where control comes to it from another block. -/
def arrive (blocks : Nat → SpvBlock) (source label : Nat) (s : Config V W) : At V W :=
  { label
    rest := (blocks label).insts
    config := { s with env := enter source (blocks label).phis s.env } }

/-- Where a switch goes. -/
def switchTarget (word : BitVec 32) (default : Nat) (cases : List (BitVec 32 × Nat)) : Nat :=
  ((cases.find? fun c => c.1 == word).map Prod.snd).getD default

/-- Execute one instruction. A block that just ends is stuck, as if it had no next instruction for
good. -/
def step (m : Machine V W) (blocks : Nat → SpvBlock) (a : At V W) : At V W ⊕ Outcome V W :=
  match a.rest with
  | [] => .inl a
  | i :: rest =>
    match i with
    | .op op id typeId arguments =>
      let s := m.step a.config { op, id, typeId, arguments }
      if op ∈ implicitTerminators then .inr (outcome s .implicit)
        else .inl { a with rest, config := s }
    | .undef _ _ | .selectionMerge _ _ | .loopMerge _ _ _ => .inl { a with rest }
    | .branch target => .inl (arrive blocks a.label target a.config)
    | .branchConditional condition trueLabel falseLabel =>
      .inl (arrive blocks a.label (if m.truth (a.config.env condition) then trueLabel
        else falseLabel) a.config)
    | .switch selector default cases =>
      .inl (arrive blocks a.label
        (switchTarget (m.word (a.config.env selector)) default cases) a.config)
    | .unreachable => .inr (outcome a.config .unreachable)
    | .kill => .inr (outcome a.config .kill)
    | .ret value => .inr (outcome a.config (.ret (returned a.config.env value)))

end DxilSpirv.Emission
