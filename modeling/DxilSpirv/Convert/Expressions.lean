import DxilSpirv.Convert.BitScan
import DxilSpirv.Program.Definitions
import Mathlib.Algebra.Group.Units.Equiv
import Mathlib.Data.Rat.Init
import Mathlib.Tactic.Linarith
import Mathlib.Tactic.NormNum

/-!
# Expressions and what they are lowered to

Floating point values are nonzero rational numbers, with `exp2` and `log2` any two functions that
are inverse to one another. Every instruction works on each component, and the components of a value
that has fewer repeat.
-/

namespace DxilSpirv.Peephole

open DxilSpirv.Spirv DxilSpirv.Convert

/-- Types, up to the number of components. -/
inductive ValueType
  | float
  | int (width : Nat)
  deriving DecidableEq

/-- A component of a value. -/
inductive Scalar
  | float (q : ℚˣ)
  | int (width : Nat) (bits : BitVec width)

namespace Scalar

/-- A component as a number. -/
def real : Scalar → ℚˣ
  | float q => q
  | int _ _ => 1

/-- A component as a word. -/
def word (w : Nat) : Scalar → BitVec w
  | float _ => 0
  | int _ bits => bits.setWidth w

@[simp] theorem real_float (q : ℚˣ) : (float q).real = q := rfl

@[simp] theorem word_int (w : Nat) (bits : BitVec w) : (int w bits).word w = bits :=
  BitVec.setWidth_eq bits

end Scalar

/-- A component at a type. -/
def ValueType.read : ValueType → Scalar → Scalar
  | float, s => .float s.real
  | int w, s => .int w (s.word w)

@[simp] theorem ValueType.read_read (type : ValueType) (s : Scalar) :
    type.read (type.read s) = type.read s := by
  cases type <;> simp [read]

/-- The components of a value. -/
abbrev Lanes := Nat → Scalar

/-- A value of the function. -/
inductive Value
  | instruction (index : Nat)
  | constantInt (width : Nat) (value : BitVec width)
  | constantDataVector (width : Nat) (first : BitVec width) (rest : List (BitVec width))
  /-- An argument or another constant. -/
  | leaf (id : Nat) (type : ValueType)
  deriving DecidableEq

/-- The opcodes of binary operators. -/
inductive BinaryOps
  | fAdd | fSub | fMul | fDiv | fRem
  | add | sub | mul | sDiv | uDiv | sRem | uRem | shl | lShr | aShr | and | or | xor
  deriving DecidableEq

/-- `BinaryOperator`. -/
structure BinaryOperator where
  opcode : BinaryOps
  isFast : Bool
  type : ValueType
  operand0 : Value
  operand1 : Value
  deriving DecidableEq

/-- The intrinsics of one floating point operand. -/
inductive UnaryOp
  | exp | log
  | other (id : Nat)
  deriving DecidableEq

/-- The intrinsics of two integer operands. -/
inductive BinaryOp
  | iMax
  | other (id : Nat)
  deriving DecidableEq

/-- The intrinsics that count leading bits. -/
inductive FirstbitOp
  | firstbitHi | firstbitSHi
  deriving DecidableEq

/-- The predicates of comparisons. -/
inductive Predicate
  | icmpEQ
  | other (id : Nat)
  deriving DecidableEq

/-- The instructions. -/
inductive Instruction
  | binary (op : BinaryOperator)
  | dxUnary (op : UnaryOp) (precise : Bool) (x : Value)
  | dxBinary (op : BinaryOp) (width : Nat) (x y : Value)
  | firstbit (op : FirstbitOp) (width : Nat) (x : Value)
  | cmp (predicate : Predicate) (type : ValueType) (x y : Value)
  | select (type : ValueType) (condition trueValue falseValue : Value)
  /-- Any other instruction. -/
  | other (id : Nat) (type : ValueType) (operands : List Value)
  deriving DecidableEq

/-- The floating point operators. -/
def BinaryOps.isFloat : BinaryOps → Bool
  | fAdd | fSub | fMul | fDiv | fRem => true
  | _ => false

namespace Instruction

/-- The type of the value. -/
def type : Instruction → ValueType
  | binary op => op.type
  | dxUnary _ _ _ => .float
  | dxBinary _ width _ _ => .int width
  | firstbit _ _ _ => .int 32
  | cmp _ _ _ _ => .int 1
  | select type _ _ _ => type
  | other _ type _ => type

/-- The operands that must have a certain type. -/
def typedOperands : Instruction → List (Value × ValueType)
  | binary op => [(op.operand0, op.type), (op.operand1, op.type)]
  | dxUnary _ _ x => [(x, .float)]
  | dxBinary _ width x y => [(x, .int width), (y, .int width)]
  | firstbit _ width x => [(x, .int width)]
  | cmp _ type x y => [(x, type), (y, type)]
  | select type c t f => [(c, .int 1), (t, type), (f, type)]
  | other _ _ _ => []

/-- The operands. -/
def operands : Instruction → List Value
  | other _ _ operands => operands
  | instruction => instruction.typedOperands.map Prod.fst

/-- What a type must be like for the opcode; no integer is wider than 64 bits. -/
def fits : Instruction → Bool
  | binary op => op.opcode.isFloat == (op.type == .float)
  | firstbit _ width _ => 0 < width && width ≤ 64
  | _ => true

end Instruction

/-- The type of a value. -/
def typeOf (instructions : List Instruction) : Value → Option ValueType
  | .instruction i => (instructions[i]?).map Instruction.type
  | .constantInt width _ => some (.int width)
  | .constantDataVector width _ _ => some (.int width)
  | .leaf _ type => some type

/-- The value is no instruction from `n` on. -/
def Value.isBefore (n : Nat) : Value → Bool
  | .instruction i => i < n
  | _ => true

/-- The operands come first and have the right types. -/
def Instruction.typedAt (instructions : List Instruction) (i : Nat) (instruction : Instruction) :
    Bool :=
  instruction.fits && (instruction.operands.all (·.isBefore i) &&
    instruction.typedOperands.all fun p => typeOf instructions p.1 == some p.2)

/-- The instructions of a function, in an order in which operands come first. -/
structure Function where
  instructions : List Instruction
  typed : (instructions.zipIdx.all fun p => p.1.typedAt instructions p.2) = true

/-- The unary instructions of the extended set. -/
inductive Std450Unary
  | exp2 | log2
  | other (id : Nat)
  deriving DecidableEq

/-- The binary instructions of the extended set. -/
inductive Std450Binary
  | sMax
  | other (id : Nat)
  deriving DecidableEq

/-- What is emitted for an instruction. -/
inductive Operation
  /-- `rewrite_value`: nothing but the id of another value. -/
  | rewriteValue (v : Value)
  | std450Unary (opcode : Std450Unary) (x : Value)
  | std450Binary (opcode : Std450Binary) (width : Nat) (x y : Value)
  | sAbs (width : Nat) (x : Value)
  /-- `emit_native_bitscan`. -/
  | nativeBitscan (opcode : GLSLstd450) (width : Nat) (x : Value)
  /-- `emit_find_high_bit_instruction`. -/
  | findHighBit (opcode : GLSLstd450) (width : Nat) (x : Value)
  | sNegate (type : ValueType) (x : Value)
  | not (type : ValueType) (x : Value)
  | logicalNot (type : ValueType) (x : Value)
  | binary (opcode : BinaryOps) (type : ValueType) (x y : Value)
  | compare (predicate : Predicate) (x y : Value)
  | select (type : ValueType) (condition trueValue falseValue : Value)
  | other (id : Nat) (type : ValueType) (operands : List Value)
  deriving DecidableEq

/-- What the rest of the program and of the target means. -/
structure Meaning where
  /-- `Exp2`, with `Log2` as its inverse. -/
  exp2 : Equiv.Perm ℚˣ
  unary : Nat → ℚˣ → ℚˣ
  binary : Nat → (w : Nat) → BitVec w → BitVec w → BitVec w
  operator : BinaryOps → Scalar → Scalar → Scalar
  compare : Predicate → Scalar → Scalar → Bool
  other : Nat → List Lanes → Lanes
  leaf : Nat → Lanes
  undefined : Undefined 32

variable (M : Meaning) (ρ : Nat → Lanes)

/-- The components of a value. -/
def Value.eval : Value → Lanes
  | .instruction i => ρ i
  | .constantInt width value => fun _ => .int width value
  | .constantDataVector width first rest => fun lane =>
    .int width ((first :: rest).getD (lane % (rest.length + 1)) first)
  | .leaf id type => fun lane => type.read (M.leaf id lane)

@[simp] theorem Value.eval_instruction (i : Nat) : (Value.instruction i).eval M ρ = ρ i := rfl

/-- A unary instruction of the extended set. -/
def Std450Unary.apply : Std450Unary → ℚˣ → ℚˣ
  | exp2 => M.exp2
  | log2 => M.exp2.symm
  | other id => M.unary id

/-- A binary instruction of the extended set. -/
def Std450Binary.apply (w : Nat) : Std450Binary → BitVec w → BitVec w → BitVec w
  | sMax => fun a b => if a.slt b then b else a
  | other id => M.binary id w

/-- A binary operator. -/
def BinaryOps.apply (type : ValueType) (a b : Scalar) : BinaryOps → Scalar
  | fMul => .float (a.real * b.real)
  | fDiv => .float (a.real / b.real)
  | sub =>
    match type with
    | .int w => .int w (a.word w - b.word w)
    | .float => .float (M.operator sub a b).real
  | xor =>
    match type with
    | .int w => .int w (a.word w ^^^ b.word w)
    | .float => .float (M.operator xor a b).real
  | opcode => type.read (M.operator opcode a b)

/-- A comparison. -/
def Predicate.apply (a b : Scalar) : Predicate → Bool
  | icmpEQ =>
    match a, b with
    | .int w a, b => a == b.word w
    | _, _ => M.compare icmpEQ a b
  | predicate => M.compare predicate a b

/-- A negation or a complement. -/
def ValueType.negate : ValueType → Scalar → Scalar
  | float, s => .float s.real
  | int w, s => .int w (-s.word w)

def ValueType.complement : ValueType → Scalar → Scalar
  | float, s => .float s.real
  | int w, s => .int w (~~~s.word w)

/-- The scan of one component. -/
def scanComponent {w : Nat} (opcode : GLSLstd450) (a : BitVec w) : BitVec 32 :=
  emitNativeBitscan M.undefined ⟨false, 1, fun _ => rfl, fun _ => a⟩ opcode ⟨0, Nat.one_pos⟩

/-- The count from the top of one component. -/
def countComponent {w : Nat} (opcode : GLSLstd450) (a : BitVec w) : BitVec 32 :=
  emitFindHighBitInstruction M.undefined ⟨false, 1, fun _ => rfl, fun _ => a⟩ opcode
    ⟨0, Nat.one_pos⟩

/-- The components that an operation defines. -/
def Operation.eval : Operation → Lanes
  | rewriteValue v => v.eval M ρ
  | std450Unary opcode x => fun lane => .float (opcode.apply M (x.eval M ρ lane).real)
  | std450Binary opcode w x y => fun lane =>
    .int w (opcode.apply M w ((x.eval M ρ lane).word w) ((y.eval M ρ lane).word w))
  | sAbs w x => fun lane =>
    let a := (x.eval M ρ lane).word w
    .int w (if a.slt 0 then -a else a)
  | nativeBitscan opcode w x => fun lane =>
    .int 32 (scanComponent M opcode ((x.eval M ρ lane).word w))
  | findHighBit opcode w x => fun lane =>
    .int 32 (countComponent M opcode ((x.eval M ρ lane).word w))
  | sNegate type x => fun lane => type.negate (x.eval M ρ lane)
  | not type x | logicalNot type x => fun lane => type.complement (x.eval M ρ lane)
  | binary opcode type x y => fun lane => opcode.apply M type (x.eval M ρ lane) (y.eval M ρ lane)
  | compare predicate x y => fun lane =>
    .int 1 (BitVec.ofBool (predicate.apply M (x.eval M ρ lane) (y.eval M ρ lane)))
  | select type c t f => fun lane =>
    type.read (if (c.eval M ρ lane).word 1 = 1 then t.eval M ρ lane else f.eval M ρ lane)
  | other id type operands => fun lane => type.read (M.other id (operands.map (·.eval M ρ)) lane)

end DxilSpirv.Peephole
