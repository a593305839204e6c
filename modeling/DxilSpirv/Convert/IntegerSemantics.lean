import DxilSpirv.Convert.IntegerLowering

/-!
# What integer instructions mean

The results of LLVM, with all ones for a division by zero, and when emitting an instruction keeps
them: the id that `value_map` has for the instruction is defined, and the low bits of its register
are the result, whatever the upper bits of the operands are.
-/

namespace DxilSpirv.LlvmBuiltins

open Spirv
open Converter (physicalIntegerBitWidth)

variable {n : Nat}

/-- The result of a binary operation, where LLVM defines one. -/
def BinaryOps.result (a b : BitVec n) : BinaryOps → Option (BitVec n)
  | add => some (a + b)
  | sub => some (a - b)
  | mul => some (a * b)
  | udiv => some (if b = 0 then BitVec.allOnes n else a / b)
  | urem => some (if b = 0 then BitVec.allOnes n else a % b)
  | sdiv =>
    if b = 0 then some (BitVec.allOnes n)
    else if a = BitVec.intMin n ∧ b = -1 then none else some (a.sdiv b)
  | srem =>
    if b = 0 then some (BitVec.allOnes n)
    else if a = BitVec.intMin n ∧ b = -1 then none else some (a.srem b)
  | shl => if b.toNat < n then some (a <<< b.toNat) else none
  | lshr => if b.toNat < n then some (a >>> b.toNat) else none
  | ashr => if b.toNat < n then some (a.sshiftRight b.toNat) else none
  | and => some (a &&& b)
  | or => some (a ||| b)
  | xor => some (a ^^^ b)

/-- The result of a cast. -/
def CastOps.result (m : Nat) (a : BitVec n) : CastOps → BitVec m
  | trunc => a.setWidth m
  | zext => a.setWidth m
  | sext => a.signExtend m

/-- The result of a comparison. -/
def Predicate.result (a b : BitVec n) : Predicate → Bool
  | eq => a == b
  | ne => a != b
  | ugt => b.ult a
  | uge => b.ule a
  | ult => a.ult b
  | ule => a.ule b
  | sgt => b.slt a
  | sge => b.sle a
  | slt => a.slt b
  | sle => a.sle b

/-- No instruction is its own operand, scalar constants are scalars and vector constants have an
element for each component. -/
def LlvmValue.WellFormed (result components : Nat) : LlvmValue n → Prop
  | register v _ => v ≠ result
  | constantInt _ => components = 1
  | constantDataVector elements => components ≠ 1 ∧ elements.length = components
  | constantAggregate elements => components ≠ 1 ∧ elements.length = components
  | constantAggregateZero => components ≠ 1
  | undef => True

/-- The elements of a constant. -/
def LlvmValue.element (i : Nat) : LlvmValue n → BitVec n
  | constantInt c => c
  | constantDataVector elements => elements.getD i 0
  | constantAggregate elements => elements.getD i 0
  | _ => 0

/-- What a register must hold for a value; its upper bits are left open. -/
def LlvmValue.Represented (T : Target) (s : Emitter) (env : Env) (components : Nat)
    (x : Nat → BitVec n) : LlvmValue n → Prop
  | register v _ => ∃ id r, s.valueMap v = some id ∧ env.get T id = some r ∧
      r.type = physicalType n components ∧ ∀ i < components, r.word n i = x i
  | undef => True
  | constant => ∀ i < components, x i = constant.element i

/-- An emitter that gets to an instruction: the block so far has run, the operands are there, and an
id that the instruction may have already is not defined yet. -/
structure Ready (T : Target) (s : Emitter) (env₀ env : Env) (result components : Nat)
    (operands : List (LlvmValue n)) (x : LlvmValue n → Nat → BitVec n) : Prop where
  run : run T s.operations env₀ = some env
  fresh : ∀ id, s.nextId ≤ id → env id = none
  own : ∀ id, s.valueMap result = some id → ∃ j < s.nextId, id = .result j ∧ env j = none
  operands : ∀ a ∈ operands, a.Represented T s env components (x a)

/-- Emitting an instruction fails, or defines the id of the instruction with the results of LLVM in
the low bits. Nothing is asked of the result for an undefined operand. -/
def Lowers {m : Nat} (emit : Emit SpvId) (result components : Nat) (operands : List (LlvmValue n))
    (llvm : (LlvmValue n → BitVec n) → Option (BitVec m)) : Prop :=
  ∀ u undef s env₀ env x, Ready (target u undef) s env₀ env result components operands x →
    (emit.run s).1 ≠ .null →
    ∃ id env' r, (emit.run s).2.valueMap result = some id ∧
      run (target u undef) (emit.run s).2.operations env₀ = some env' ∧
      env'.get (target u undef) id = some r ∧ r.type = physicalType m components ∧
      ((∀ a ∈ operands, instructionIsUndefinedValue a = false) →
        ∀ i < components, ∀ z, llvm (fun a => x a i) = some z → r.word m i = z)

/-- Constants of 8 bits have no id. -/
def LlvmValue.HasId : LlvmValue n → Prop
  | constantInt _ => n ≠ 8
  | constantDataVector _ => n ≠ 8
  | constantAggregate _ => n ≠ 8
  | _ => True

/-- A value whose upper bits may be anything. -/
def LlvmValue.IsRegister : LlvmValue n → Prop
  | register _ _ => True
  | _ => False

/-- The operands that the instruction for a binary operation has. -/
def BinaryInstruction.usedOperands (I : BinaryInstruction) : List (LlvmValue I.width) :=
  if canOptimizeToSnegate I then [I.operand1]
  else if I.opcode = .xor then
    match getBitwiseNotFromXor I.operand0 I.operand1 with
    | some notValue => [notValue]
    | none => [I.operand0, I.operand1]
  else [I.operand0, I.operand1]

/-- A divisor for which the upper bits of the dividend do not matter. -/
def HarmlessDivisor (opcode : BinaryOps) (d : BitVec n) : Prop :=
  d = 0 ∨ if opcode = .udiv then d = 1 else d.toNat ∣ 2 ^ n

/-- The values that a division or a left shift does not extend have no upper bits, or they do not
matter. -/
def BinaryInstruction.UpperBitsHarmless (I : BinaryInstruction) : Prop :=
  physicalIntegerBitWidth I.width = I.width ∨
    instructionIsUndefinedValue I.operand0 = true ∨ instructionIsUndefinedValue I.operand1 = true ∨
    ¬ I.operand1.IsRegister ∧ (I.opcode = .shl ∨ ¬ I.operand0.IsRegister ∨
      ∀ i < I.components, HarmlessDivisor I.opcode (I.operand1.element i))

/-- The divisions that are emitted: not by the constant zero, and there is no helper for 8 bits.
Nothing is emitted, and compilation fails, for 8 bits and the constant zero. -/
def BinaryInstruction.DivisorEmitted (I : BinaryInstruction) : Prop :=
  match I.operand1 with
  | .constantInt c => if c = 0 then I.width = 8 else I.width ≠ 8
  | _ => I.width ≠ 8

/-- The binary operations that are emitted right. -/
def BinaryInstruction.Lowerable (I : BinaryInstruction) : Prop :=
  match I.opcode with
  | .shl => (∀ a ∈ I.usedOperands, a.HasId) ∧ I.UpperBitsHarmless
  | .udiv | .urem => I.DivisorEmitted ∧ (I.width ≠ 8 → I.UpperBitsHarmless)
  | .sdiv | .srem => I.DivisorEmitted
  | _ => ∀ a ∈ I.usedOperands, a.HasId

/-- The instructions on integers. -/
inductive IntegerInstruction
  | binary (I : BinaryInstruction)
  | cast (I : CastInstruction)
  | compare (I : CmpInstruction)

namespace IntegerInstruction

/-- What LLVM asks of an instruction on integers of 2 to 64 bits; casts may be to or from
booleans. -/
def WellFormed : IntegerInstruction → Prop
  | binary I => 2 ≤ I.width ∧ I.width ≤ 64 ∧ 0 < I.components ∧
      I.operand0.WellFormed I.result I.components ∧ I.operand1.WellFormed I.result I.components
  | cast I => 1 ≤ I.inputWidth ∧ I.inputWidth ≤ 64 ∧ 1 ≤ I.outputWidth ∧ I.outputWidth ≤ 64 ∧
      0 < I.components ∧ I.operand.WellFormed I.result I.components ∧
      (if I.opcode = .trunc then I.outputWidth < I.inputWidth else I.inputWidth < I.outputWidth)
  | compare I => 2 ≤ I.width ∧ I.width ≤ 64 ∧ 0 < I.components ∧
      I.operand0.WellFormed I.result I.components ∧ I.operand1.WellFormed I.result I.components

/-- Emitting the instruction keeps its meaning. -/
def KeepsMeaning (expectAssume : Bool) : IntegerInstruction → Prop
  | binary I => Lowers (emitBinaryInstruction expectAssume I) I.result I.components
      [I.operand0, I.operand1] fun x => I.opcode.result (x I.operand0) (x I.operand1)
  | cast I => Lowers (emitCastInstruction I) I.result I.components [I.operand]
      fun x => some (I.opcode.result I.outputWidth (x I.operand))
  | compare I => Lowers (emitCompareInstruction I) I.result I.components [I.operand0, I.operand1]
      fun x => some (BitVec.ofBool (I.predicate.result (x I.operand0) (x I.operand1)))

/-- The instructions whose meaning is kept. -/
def Lowerable : IntegerInstruction → Prop
  | binary I => I.Lowerable
  | cast I => I.outputWidth = 1 ∨ I.operand.HasId
  | compare I => I.operand0.HasId ∧ I.operand1.HasId

end IntegerInstruction

end DxilSpirv.LlvmBuiltins
