import DxilSpirv.Cfg.Node
import DxilSpirv.Emission.Function

/-!
# The meaning of structured nodes

What the nodes of a control flow graph mean when they are emitted: a pseudo operation may end the
function, load or store, by the condition that is its last argument.
-/

namespace DxilSpirv.Emission

variable {V W : Type}

/-- The condition of a pseudo operation. -/
def condition (arguments : List Argument) : Option Nat := arguments.getLast?.bind Argument.id?

/-- The pseudo operations that branch. -/
def pseudoOps : List SpvOp := [pseudoOpReturnCond, pseudoOpMaskedLoad, pseudoOpMaskedStore]

/-- The operations that are left out where nothing is instrumented. -/
def dropped : List SpvOp := [.opNop, pseudoOpInstrumentExternallyVisibleStore, opAssumeTrueKHR]

/-- The operation under the mask of a pseudo operation. -/
def unmasked (op : Operation) (plain : SpvOp) (id typeId : Nat) : Operation :=
  { op := plain, id, typeId, arguments := op.arguments.dropLast }

/-- What an operation does, and how the function ends if it ends there. A load that is masked off
gives the null value of its type. -/
def execute (m : Machine V W) (null : Nat → V) (op : Operation) (s : Config V W) :
    Config V W × Option (Ending V) :=
  let holds := m.truth (s.env ((condition op.arguments).getD 0))
  if op.op = pseudoOpReturnCond then (s, if holds then some (.ret none) else none)
  else if op.op = pseudoOpMaskedLoad then
    (if holds then m.step s (unmasked op .opLoad op.id op.typeId)
      else { s with env := Function.update s.env op.id (null op.typeId) }, none)
  else if op.op = pseudoOpMaskedStore
    then (if holds then m.step s (unmasked op .opStore 0 0) else s, none)
  else if op.op ∈ dropped then (s, none)
  else (m.step s op, if op.op ∈ implicitTerminators then some .implicit else none)

/-- What operations do, up to the first one that ends the function. -/
def executeAll (m : Machine V W) (null : Nat → V) :
    List Operation → Config V W → Config V W × Option (Ending V)
  | [], s => (s, none)
  | op :: ops, s =>
    let r := execute m null op s
    if r.2.isSome then r else executeAll m null ops r.1

/-- How a terminator ends a function, if it does. -/
def endingOf (t : Terminator) (e : Env V) : Option (Ending V) :=
  match t.type with
  | .unreachable => some .unreachable
  | .kill => some .kill
  | .ret => some (.ret (returned e t.returnValue))
  | _ => none

/-- Execute a node, from its operations to the PHIs of the next one. -/
def stepNode (c : CFGStructurizer) (m : Machine V W) (null : Nat → V) (a : Nat × Config V W) :
    (Nat × Config V W) ⊕ Outcome V W :=
  let t := (c.node a.1).ir.terminator
  let r := executeAll m null (c.node a.1).ir.operations a.2
  match r.2.or (endingOf t r.1.env), m.next t r.1.env with
  | some ending, _ => .inr (outcome r.1 ending)
  | none, some n => .inl (n, { r.1 with env := enter a.1 (c.node n).ir.phi r.1.env })
  | none, none => .inl a

end DxilSpirv.Emission
