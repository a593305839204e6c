import DxilSpirv.Convert.ControlFlow
import DxilSpirv.Spirv.StraightLine

/-!
# Integer instructions

An integer of `n` bits lives in a register of `physicalIntegerBitWidth n` bits whose upper bits are
anything. Binary operations, casts and comparisons are emitted one by one; `value_map` holds the id
of each value.
-/

namespace DxilSpirv.LlvmBuiltins

open Spirv
open Converter (physicalIntegerBitWidth)

/-- The binary operations on integers. -/
inductive BinaryOps
  | add | sub | mul | udiv | sdiv | urem | srem | shl | lshr | ashr | and | or | xor
  deriving DecidableEq

/-- The casts between integers. -/
inductive CastOps
  | trunc | zext | sext
  deriving DecidableEq

/-- The comparisons of integers. -/
inductive Predicate
  | eq | ne | ugt | uge | ult | ule | sgt | sge | slt | sle
  deriving DecidableEq

/-- A value of `n`-bit integers: an argument or an instruction, which may be one of undefined
values, or a constant. -/
inductive LlvmValue (n : Nat)
  | register (v : Nat) (isUndefined : Bool)
  | constantInt (c : BitVec n)
  | constantDataVector (elements : List (BitVec n))
  | constantAggregate (elements : List (BitVec n))
  | constantAggregateZero
  | undef

structure BinaryInstruction where
  width : Nat
  components : Nat
  result : Nat
  opcode : BinaryOps
  operand0 : LlvmValue width
  operand1 : LlvmValue width

structure CastInstruction where
  inputWidth : Nat
  outputWidth : Nat
  components : Nat
  result : Nat
  opcode : CastOps
  operand : LlvmValue inputWidth

structure CmpInstruction where
  width : Nat
  components : Nat
  result : Nat
  predicate : Predicate
  operand0 : LlvmValue width
  operand1 : LlvmValue width

/-- What is emitted to, and `value_map`. -/
structure Emitter where
  nextId : Nat
  valueMap : Nat → Option SpvId
  operations : List Instruction

abbrev Emit := StateM Emitter

/-- `allocate_id`. -/
def allocateId : Emit SpvId := do
  let s ← get
  set { s with nextId := s.nextId + 1 }
  return .result s.nextId

/-- `add`. -/
def add (op : Instruction) : Emit Unit :=
  modify fun s => { s with operations := s.operations ++ [op] }

/-- `rewrite_value`. -/
def rewriteValue (v : Nat) (id : SpvId) : Emit Unit :=
  modify fun s => { s with valueMap := Function.update s.valueMap v (some id) }

/-- The type of integers of a width, `get_type_id`. -/
def physicalType (n components : Nat) : RegisterType := ⟨physicalIntegerBitWidth n, components⟩

/-- `makeUintConstant`. -/
def makeUintConstant (value : Nat) : SpvId := .scalar 32 value

/-- `get_id_for_constant` on an integer. -/
def getIdForConstant (n value : Nat) : SpvId :=
  match physicalIntegerBitWidth n with
  | 1 => .scalar 1 (if value = 0 then 0 else 1)
  | 16 => .scalar 16 value
  | 32 => .scalar 32 value
  | 64 => .scalar 64 value
  | _ => .null

/-- The constituent that an id stands for. -/
def constituent : SpvId → Option Nat
  | .scalar _ value => some value
  | _ => none

/-- `makeCompositeConstant` on the elements of a vector. -/
def compositeConstant {n : Nat} (components : Nat) (elements : List (BitVec n)) : SpvId :=
  .composite (physicalType n components)
    (elements.map fun c => constituent (getIdForConstant n c.toNat))

/-- The id of a value that is no constant. -/
def getIdForRegister (v : Nat) : Emit SpvId := do
  match (← get).valueMap v with
  | some id => return id
  | none =>
    let id ← allocateId
    rewriteValue v id
    return id

/-- `get_id_for_value`. -/
def getIdForValue {n : Nat} (components : Nat) : LlvmValue n → Emit SpvId
  | .register v _ => getIdForRegister v
  | .constantInt c => return getIdForConstant n c.toNat
  | .constantDataVector elements => return compositeConstant components elements
  | .constantAggregate elements => return compositeConstant components elements
  | .constantAggregateZero => return .nullConstant (physicalType n components)
  | .undef => return .undef (physicalType n components)

/-- `allocate` for an intermediate result. -/
def allocate (opcode : Opcode) (type : RegisterType) : Emit Instruction := do
  return { opcode := opcode, id := ← allocateId, type := type }

/-- `allocate` for an instruction. -/
def allocateFor (opcode : Opcode) (result : Nat) (type : RegisterType) : Emit Instruction := do
  return { opcode := opcode, id := ← getIdForRegister result, type := type }

/-- `build_naturally_extended_value`. -/
def buildNaturallyExtendedValue {n : Nat} (components : Nat) (value : LlvmValue n) (bits : Nat)
    (isSigned : Bool) : Emit SpvId := do
  let id ← getIdForValue components value
  if bits = physicalIntegerBitWidth n then return id
  let maskOp ← allocate (if isSigned then .bitFieldSExtract else .bitFieldUExtract)
    (physicalType n components)
  add { maskOp with arguments := [id, makeUintConstant 0, makeUintConstant bits] }
  return maskOp.id

/-- The constant for a division by zero in `build_udiv_umod`. -/
def divisionByZero (width : Nat) : RegisterType × Nat :=
  if width = 16 then (⟨16, 1⟩, 2 ^ 16 - 1)
  else if width = 32 then (⟨32, 1⟩, 2 ^ 32 - 1)
  else (⟨64, 1⟩, 2 ^ 64 - 1)

variable (u : ∀ w, Undefined w) (undef : RegisterType → Nat → Nat)

/-- One round of the loop in `build_udiv_umod`: the PHI of a component, if its types fit. -/
def divisionPhi (op : Opcode) (width num den : Nat) : Option Nat :=
  if (divisionByZero width).1 = ⟨width, 1⟩ then
    match op with
    | .uDiv => some (phi (uDiv (u width)))
    | .uMod => some (phi (uMod (u width)))
    | .sDiv => some (phi (sDiv (u width)))
    | .sRem => some (phi (sRem (u width)))
    | _ => none
  else none
where
  phi (divide : BitVec width → BitVec width → BitVec width) : Nat :=
    if BitVec.ofNat width den = 0 then (divisionByZero width).2
    else (divide (BitVec.ofNat width num) (BitVec.ofNat width den)).toNat

/-- `build_udiv_umod`: a scalar is divided at once, the components of a vector one after the
other. -/
def buildUdivUmod (op : Opcode) (type : RegisterType) (num den : Register) : Option Register :=
  if type.components = 1 then
    (divisionPhi u op type.width (num.lane 0) (den.lane 0)).map fun value => ⟨type, fun _ => value⟩
  else
    (List.range type.components).foldlM (fun (result : Register) c => do
        let value ← divisionPhi u op type.width (num.lane c) (den.lane c)
        return ⟨type, Function.update result.lane c value⟩) ⟨type, undef type⟩

/-- The target, with the functions that the module has for divisions. -/
def target : Target := ⟨u, undef, buildUdivUmod u undef⟩

-- Whether divisors are asserted not to be zero, an option for debugging.

variable (expectAssume : Bool)

/-- An operand of a division. Signed division is width sensitive: odd widths are sign-extended
first. -/
def divisionOperandId {n : Nat} (components : Nat) (isSigned : Bool) (operand : LlvmValue n) :
    Emit SpvId :=
  if isSigned then buildNaturallyExtendedValue components operand n true
  else getIdForValue components operand

/-- The assertion that no component of a divisor is zero. -/
def emitAssumeNonZero {n : Nat} (components : Nat) (isSigned : Bool) (divisor : LlvmValue n) :
    Emit Unit := do
  let eq ← allocate .iNotEqual ⟨1, components⟩
  let den ← divisionOperandId components isSigned divisor
  add { eq with arguments := [den, .nullConstant (physicalType n components)] }
  if components > 1 then
    let all ← allocate .all ⟨1, 1⟩
    add { all with arguments := [eq.id] }
    add ⟨.assumeTrue, .null, ⟨0, 0⟩, [all.id, makeUintConstant 0]⟩
  else
    add ⟨.assumeTrue, .null, ⟨0, 0⟩, [eq.id, makeUintConstant 0]⟩

/-- `emit_integer_division_instruction`. -/
def emitIntegerDivisionInstruction (I : BinaryInstruction) (opcode : Opcode) : Emit SpvId :=
  let type := physicalType I.width I.components
  let isSigned := opcode == .sDiv || opcode == .sRem
  match I.operand1 with
  | .constantInt c =>
    if c.toNat ≠ 0 then do
      let op ← allocateFor opcode I.result type
      let num ← divisionOperandId I.components isSigned I.operand0
      let den ← divisionOperandId I.components isSigned I.operand1
      add { op with arguments := [num, den] }
      return op.id
    else
      match physicalIntegerBitWidth I.width with
      | 16 => return .scalar 16 (2 ^ 16 - 1)
      | 32 => return .scalar 32 (2 ^ 32 - 1)
      | 64 => return .scalar 64 (2 ^ 64 - 1)
      | _ => return .null
  | _ => do
    let call ← allocateFor (.functionCall opcode) I.result type
    if expectAssume then emitAssumeNonZero I.components isSigned I.operand1
    let num ← divisionOperandId I.components isSigned I.operand0
    let den ← divisionOperandId I.components isSigned I.operand1
    add { call with arguments := [num, den] }
    return call.id

/-- The mask of `constant_is_all_bits_set`. -/
def allBits (n : Nat) : Nat := if n = 64 then 2 ^ 64 - 1 else 2 ^ n - 1

/-- `constant_is_all_bits_set`. -/
def constantIsAllBitsSet {n : Nat} : LlvmValue n → Bool
  | .constantDataVector elements => elements.all fun c => c.toNat &&& allBits n == allBits n
  | .constantInt c => c.toNat &&& allBits n == allBits n
  | _ => false

/-- `get_bitwise_not_from_xor`. -/
def getBitwiseNotFromXor {n : Nat} (a b : LlvmValue n) : Option (LlvmValue n) :=
  if constantIsAllBitsSet a then some b else if constantIsAllBitsSet b then some a else none

/-- `can_optimize_to_snegate`. -/
def canOptimizeToSnegate (I : BinaryInstruction) : Bool :=
  match I.opcode, I.operand0 with
  | .sub, .constantInt c => c.toNat == 0
  | _, _ => false

/-- `instruction_is_undefined_value`. -/
def instructionIsUndefinedValue {n : Nat} : LlvmValue n → Bool
  | .undef => true
  | .register _ isUndefined => isUndefined
  | _ => false

/-- The end of `emit_binary_instruction_impl`: an undefined operand is left out, and operations that
depend on the width extend their operands. -/
def emitBinaryOperation (I : BinaryInstruction) (opcode : Opcode)
    (isWidthSensitive signedInput : Bool) :
    Emit SpvId := do
  let forwardValue ←
    if instructionIsUndefinedValue I.operand1 then getIdForValue I.components I.operand0
    else if instructionIsUndefinedValue I.operand0 then getIdForValue I.components I.operand1
    else pure SpvId.null
  if forwardValue ≠ .null then
    rewriteValue I.result forwardValue
    return forwardValue
  let op ← allocateFor opcode I.result (physicalType I.width I.components)
  let operandId (operand : LlvmValue I.width) : Emit SpvId :=
    if isWidthSensitive then buildNaturallyExtendedValue I.components operand I.width signedInput
    else getIdForValue I.components operand
  let id0 ← operandId I.operand0
  let id1 ← operandId I.operand1
  add { op with arguments := [id0, id1] }
  return op.id

/-- An instruction with one operand. -/
def emitUnaryOperation (I : BinaryInstruction) (opcode : Opcode) (operand : LlvmValue I.width) :
    Emit SpvId := do
  let op ← allocateFor opcode I.result (physicalType I.width I.components)
  let id ← getIdForValue I.components operand
  add { op with arguments := [id] }
  return op.id

/-- `emit_binary_instruction`. -/
def emitBinaryInstruction (I : BinaryInstruction) : Emit SpvId :=
  match I.opcode with
  | .add => emitBinaryOperation I .iAdd false false
  | .sub =>
    if canOptimizeToSnegate I then emitUnaryOperation I .sNegate I.operand1
    else emitBinaryOperation I .iSub false false
  | .mul => emitBinaryOperation I .iMul false false
  | .sdiv => emitIntegerDivisionInstruction expectAssume I .sDiv
  | .udiv => emitIntegerDivisionInstruction expectAssume I .uDiv
  | .shl => emitBinaryOperation I .shiftLeftLogical false false
  | .lshr => emitBinaryOperation I .shiftRightLogical true false
  | .ashr => emitBinaryOperation I .shiftRightArithmetic true true
  | .srem => emitIntegerDivisionInstruction expectAssume I .sRem
  | .urem => emitIntegerDivisionInstruction expectAssume I .uMod
  | .xor =>
    match getBitwiseNotFromXor I.operand0 I.operand1 with
    | some notValue => emitUnaryOperation I (if I.width = 1 then .logicalNot else .not) notValue
    | none =>
      emitBinaryOperation I (if I.width = 1 then .logicalNotEqual else .bitwiseXor) false false
  | .and => emitBinaryOperation I (if I.width = 1 then .logicalAnd else .bitwiseAnd) false false
  | .or => emitBinaryOperation I (if I.width = 1 then .logicalOr else .bitwiseOr) false false

/-- The integer constants of a physical width, as `makeUint16Constant` and its like make them. -/
def physicalConstant (width value : Nat) : Option SpvId :=
  if width ∈ [16, 32, 64] then some (.scalar width (value % 2 ^ width)) else none

/-- `build_splat_constant_vector`, for a vector. -/
def splatConstant (type : RegisterType) (constant : SpvId) : SpvId :=
  if type.components = 1 then constant
  else .composite type (List.replicate type.components (constituent constant))

/-- `emit_boolean_trunc_instruction`. -/
def emitBooleanTruncInstruction (I : CastInstruction) : Emit SpvId := do
  let type := physicalType I.inputWidth I.components
  match physicalConstant type.width 0, physicalConstant type.width 1 with
  | some const0, some const1 =>
    let mask ← allocate .bitwiseAnd type
    let id ← buildNaturallyExtendedValue I.components I.operand I.inputWidth false
    add { mask with arguments := [id, splatConstant type const1] }
    let op ← allocateFor .iNotEqual I.result (physicalType I.outputWidth I.components)
    add { op with arguments := [mask.id, splatConstant type const0] }
    return op.id
  | _, _ => return .null

/-- `emit_boolean_convert_instruction`, to an integer. -/
def emitBooleanConvertInstruction (I : CastInstruction) (isSigned : Bool) : Emit SpvId := do
  let type := physicalType I.outputWidth I.components
  match physicalConstant type.width 0,
      physicalConstant type.width (if isSigned then 2 ^ type.width - 1 else 1) with
  | some const0, some const1 =>
    let op ← allocateFor .select I.result type
    let id ← getIdForValue I.components I.operand
    add { op with arguments := [id, splatConstant type const1, splatConstant type const0] }
    return op.id
  | _, _ => return .null

/-- `emit_masked_cast_instruction`. -/
def emitMaskedCastInstruction (I : CastInstruction) (opcode : Opcode) : Emit SpvId := do
  let physicalOutputBits := physicalIntegerBitWidth I.outputWidth
  let physicalInputBits := physicalIntegerBitWidth I.inputWidth
  let logicalBits := min I.outputWidth I.inputWidth
  if physicalOutputBits = physicalInputBits then
    let extendedId ← buildNaturallyExtendedValue I.components I.operand logicalBits
      (opcode = .sConvert)
    rewriteValue I.result extendedId
    return extendedId
  else if physicalInputBits ≠ I.inputWidth then
    let maskOp ← allocateFor opcode I.result (physicalType I.outputWidth I.components)
    let id ← buildNaturallyExtendedValue I.components I.operand logicalBits (opcode = .sConvert)
    add { maskOp with arguments := [id] }
    return maskOp.id
  else return .null

/-- The rest of `emit_cast_instruction_impl` for a cast between integers. -/
def emitConvertInstruction (I : CastInstruction) (opcode : Opcode) (signedInput : Bool) :
    Emit SpvId := do
  let id ← emitMaskedCastInstruction I opcode
  if id ≠ .null then return id
  let op ← allocateFor opcode I.result (physicalType I.outputWidth I.components)
  let id ← buildNaturallyExtendedValue I.components I.operand I.inputWidth signedInput
  add { op with arguments := [id] }
  return op.id

/-- `emit_cast_instruction`. -/
def emitCastInstruction (I : CastInstruction) : Emit SpvId :=
  match I.opcode with
  | .sext =>
    if I.inputWidth = 1 then emitBooleanConvertInstruction I true
    else emitConvertInstruction I .sConvert true
  | .zext =>
    if I.inputWidth = 1 then emitBooleanConvertInstruction I false
    else emitConvertInstruction I .uConvert false
  | .trunc =>
    if I.outputWidth = 1 then emitBooleanTruncInstruction I
    else emitConvertInstruction I .uConvert false

/-- The instruction that a comparison becomes, and whether its operands are signed. -/
def compareOpcode (width : Nat) : Predicate → Opcode × Bool
  | .eq => (if width = 1 then .logicalEqual else .iEqual, false)
  | .ne => (if width = 1 then .logicalNotEqual else .iNotEqual, false)
  | .slt => (.sLessThan, true)
  | .sle => (.sLessThanEqual, true)
  | .sgt => (.sGreaterThan, true)
  | .sge => (.sGreaterThanEqual, true)
  | .ult => (.uLessThan, false)
  | .ule => (.uLessThanEqual, false)
  | .ugt => (.uGreaterThan, false)
  | .uge => (.uGreaterThanEqual, false)

/-- `emit_compare_instruction`. -/
def emitCompareInstruction (I : CmpInstruction) : Emit SpvId := do
  let (opcode, signedInput) := compareOpcode I.width I.predicate
  let op ← allocateFor opcode I.result ⟨1, I.components⟩
  let id0 ← buildNaturallyExtendedValue I.components I.operand0 I.width signedInput
  let id1 ← buildNaturallyExtendedValue I.components I.operand1 I.width signedInput
  add { op with arguments := [id0, id1] }
  return op.id

end DxilSpirv.LlvmBuiltins
