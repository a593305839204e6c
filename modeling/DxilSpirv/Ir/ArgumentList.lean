import DxilSpirv.Ir.WordBlock
import Mathlib.Logic.Function.Basic

/-!
# The arguments of an operation

An operation keeps the values of its arguments and a packed mask of the literal ones in one block of
words, the mask starting at the capacity. A mutation may move both to a larger block. What the block
stands for is a list of values with a flag each, and every mutation of the block is one of the list.
-/

namespace DxilSpirv.Ir

open WordBlock

/-- A value with whether it is a literal. -/
abbrev ArgumentList := List (BitVec 32 × Bool)

/-- The capacity of the buffer inside an operation. -/
def inlineArguments : Nat := 7

/-- The words of a mask with one bit for each argument, in 32-bit arithmetic. -/
def getLiteralWordCount (count : Nat) : Nat := (count + 31) % 2 ^ 32 / 32

/-- A SPIR-V operation with the block of its arguments. -/
structure Operation where
  /-- The opcode. -/
  op : BitVec 32
  /-- The id of the result. -/
  id : BitVec 32
  /-- The type of the result. -/
  typeId : BitVec 32
  /-- What the passes note on the operation. -/
  flags : BitVec 8
  /-- The block: the values, then the mask of the literals. -/
  arguments : List (BitVec 32)
  /-- The arguments in use. -/
  argumentCount : Nat
  /-- The values the block has room for, where the mask starts. -/
  argumentCapacity : Nat
  deriving DecidableEq, Repr

/-- One mutation of an operation. -/
inductive Mutation where
  | addId (arg : BitVec 32)
  | addLiteral (lit : BitVec 32)
  | addIds (args : List (BitVec 32))
  | reserveArguments (count : BitVec 32)
  | setArgument (index : BitVec 32) (value : BitVec 32)
  deriving DecidableEq, Repr

/-- One step of a program over named operations. -/
inductive Step (Name : Type) where
  | construct (x : Name) (op id typeId : BitVec 32)
  | mutate (x : Name) (mutation : Mutation)
  | copyConstruct (x y : Name)
  | copyAssign (x y : Name)

/-- `assert`, which a release build leaves out. -/
def assert (release : Bool) (p : Prop) [Decidable p] : Option Unit :=
  if release ∨ p then some () else none

variable (fresh : Nat → BitVec 32) (release : Bool)

/-- An operation without arguments; its buffer holds what the memory held. -/
def Operation.new (op id typeId : BitVec 32) : Operation where
  op := op
  id := id
  typeId := typeId
  flags := 0
  arguments := (List.range (inlineArguments + getLiteralWordCount inlineArguments)).map fresh
  argumentCount := 0
  argumentCapacity := inlineArguments

/-- The block grows to a capacity. -/
def Operation.reserveArguments (o : Operation) (count : Nat) : Option Operation :=
  if count ≤ o.argumentCapacity then some o
  else do
    let literalWordCount := getLiteralWordCount count
    let newValues := (List.range (count + literalWordCount)).map fresh
    let newValues ← memcpy newValues 0 o.arguments 0 o.argumentCount
    let newValues ← memset newValues count literalWordCount
    let newValues ← memcpy newValues count o.arguments o.argumentCapacity
      (getLiteralWordCount o.argumentCount)
    return { o with arguments := newValues, argumentCapacity := count }

/-- A value is appended, its bit of the mask set or cleared. -/
def Operation.addArgument (o : Operation) (value : BitVec 32) (literal : Bool) :
    Option Operation := do
  let o ← if o.argumentCount = o.argumentCapacity then
    o.reserveArguments fresh (o.argumentCapacity * 2 % 2 ^ 32) else some o
  let arguments ← store o.arguments o.argumentCount value
  let arguments ← writeBit arguments o.argumentCapacity o.argumentCount literal
  return { o with arguments := arguments, argumentCount := (o.argumentCount + 1) % 2 ^ 32 }

/-- An id is appended. -/
def Operation.addId (o : Operation) (arg : BitVec 32) : Option Operation := do
  assert release (arg ≠ 0)
  o.addArgument fresh arg false

/-- Ids are appended, with room for all of them made first. -/
def Operation.addIds (o : Operation) (args : List (BitVec 32)) : Option Operation := do
  let o ← o.reserveArguments fresh ((o.argumentCount + args.length) % 2 ^ 32)
  args.foldlM (fun o arg => do
    assert release (arg ≠ 0)
    o.addId fresh release arg) o

/-- A literal is appended. -/
def Operation.addLiteral (o : Operation) (lit : BitVec 32) : Option Operation :=
  o.addArgument fresh lit true

/-- The number of arguments. -/
def Operation.numArguments (o : Operation) : Nat := o.argumentCount

/-- The value of an argument. -/
def Operation.argument (o : Operation) (index : Nat) : Option (BitVec 32) :=
  if index < o.argumentCount then o.arguments[index]? else none

/-- Whether an argument is a literal. -/
def Operation.argumentIsLiteral (o : Operation) (index : Nat) : Option Bool :=
  if index < o.argumentCount then readBit o.arguments o.argumentCapacity index else none

/-- The value of an argument is replaced; it stays a literal or an id. -/
def Operation.setArgument (o : Operation) (index : Nat) (value : BitVec 32) :
    Option Operation :=
  if index < o.argumentCount then do
    assert release (o.argumentIsLiteral index = some true ∨ value ≠ 0)
    let arguments ← store o.arguments index value
    return { o with arguments := arguments }
  else none

/-- The operation becomes a copy of another. -/
def Operation.copyFrom (o other : Operation) : Option Operation := do
  let o := { o with op := other.op, id := other.id, typeId := other.typeId, flags := other.flags }
  let o ← o.reserveArguments fresh other.argumentCount
  let o := { o with argumentCount := other.argumentCount }
  let arguments ← memcpy o.arguments 0 other.arguments 0 o.argumentCount
  let arguments ← memcpy arguments o.argumentCapacity other.arguments other.argumentCapacity
    (getLiteralWordCount o.argumentCount)
  return { o with arguments := arguments }

/-- A mutation of an operation. -/
def Operation.mutate (o : Operation) : Mutation → Option Operation
  | .addId arg => o.addId fresh release arg
  | .addLiteral lit => o.addLiteral fresh lit
  | .addIds args => o.addIds fresh release args
  | .reserveArguments count => o.reserveArguments fresh count.toNat
  | .setArgument index value => o.setArgument release index.toNat value

variable {Name : Type} [DecidableEq Name]

/-- A step over named operations. -/
def step (ops : Name → Operation) : Step Name → Option (Name → Operation)
  | .construct x op id typeId => some (Function.update ops x (Operation.new fresh op id typeId))
  | .mutate x mutation => do
    let o ← (ops x).mutate fresh release mutation
    return Function.update ops x o
  | .copyConstruct x y => do
    let o ← (Operation.new fresh 0 0 0).copyFrom fresh (ops y)
    return Function.update ops x o
  | .copyAssign x y =>
    if x = y then some ops
    else do
      let o ← (ops x).copyFrom fresh (ops y)
      return Function.update ops x o

/-- The steps of a program, each with the contents of the memory it allocates. -/
def run (ops : Name → Operation) :
    List ((Nat → BitVec 32) × Step Name) → Option (Name → Operation)
  | [] => some ops
  | (fresh, s) :: steps => do
    let ops ← step fresh release ops s
    run ops steps

/-- Values appended as ids. -/
def ArgumentList.addIds (l : ArgumentList) (args : List (BitVec 32)) : Option ArgumentList := do
  -- the list is searched, not the type of its elements
  @assert release (∀ arg ∈ args, arg ≠ 0) (List.decidableBAll (· ≠ 0) args)
  return l ++ args.map (·, false)

/-- The value at a position is replaced and keeps its flag. -/
def ArgumentList.setArgument (l : ArgumentList) (index : Nat) (value : BitVec 32) :
    Option ArgumentList := do
  let old ← l[index]?
  assert release (old.2 = true ∨ value ≠ 0)
  return l.set index (value, old.2)

/-- A mutation of a list. -/
def ArgumentList.mutate (l : ArgumentList) : Mutation → Option ArgumentList
  | .addId arg => l.addIds release [arg]
  | .addLiteral lit => some (l ++ [(lit, true)])
  | .addIds args => l.addIds release args
  | .reserveArguments _ => some l
  | .setArgument index value => l.setArgument release index.toNat value

/-- A step over named lists. -/
def ArgumentList.step (lists : Name → ArgumentList) : Step Name → Option (Name → ArgumentList)
  | .construct x _ _ _ => some (Function.update lists x [])
  | .mutate x mutation => do
    let l ← (lists x).mutate release mutation
    return Function.update lists x l
  | .copyConstruct x y => some (Function.update lists x (lists y))
  | .copyAssign x y => some (Function.update lists x (lists y))

/-- The steps of a program over lists. -/
def ArgumentList.run (lists : Name → ArgumentList) :
    List (Step Name) → Option (Name → ArgumentList)
  | [] => some lists
  | s :: steps => do
    let lists ← ArgumentList.step release lists s
    ArgumentList.run lists steps

end DxilSpirv.Ir
