import DxilSpirv.Spirv.LowBits
import Mathlib.Logic.Function.Basic

/-!
# Straight-line code

Registers are scalars or vectors of words. An instruction defines the register of its id from the
registers of its arguments, component by component; it does not run when an argument is not defined
or the types do not fit.
-/

namespace DxilSpirv.Spirv

/-- A scalar or a vector of integers; booleans are integers of one bit. -/
structure RegisterType where
  width : Nat
  components : Nat
  deriving DecidableEq

/-- A register: the number in the low bits of each component. -/
structure Register where
  type : RegisterType
  lane : Nat → Nat

/-- The word of a component. -/
def Register.word (r : Register) (w i : Nat) : BitVec w := BitVec.ofNat w (r.lane i)

/-- An id: none, the result of an instruction, or a constant. -/
inductive SpvId
  | null
  | result (id : Nat)
  | scalar (width value : Nat)
  | composite (type : RegisterType) (constituents : List (Option Nat))
  | nullConstant (type : RegisterType)
  | undef (type : RegisterType)
  deriving DecidableEq

/-- The instructions. -/
inductive Opcode
  | iAdd | iSub | iMul | sNegate | not | logicalNot
  | uDiv | sDiv | uMod | sRem
  | shiftLeftLogical | shiftRightLogical | shiftRightArithmetic
  | bitwiseAnd | bitwiseOr | bitwiseXor | logicalAnd | logicalOr | logicalEqual | logicalNotEqual
  | iEqual | iNotEqual | uLessThan | uLessThanEqual | uGreaterThan | uGreaterThanEqual
  | sLessThan | sLessThanEqual | sGreaterThan | sGreaterThanEqual
  | bitFieldSExtract | bitFieldUExtract | sConvert | uConvert | select | all | assumeTrue
  /-- A call of the function that stands for an instruction. -/
  | functionCall (op : Opcode)
  deriving DecidableEq

/-- An instruction with its result. -/
structure Instruction where
  opcode : Opcode
  id : SpvId
  type : RegisterType
  arguments : List SpvId := []

/-- What comes out where nothing is defined, and the functions that stand for instructions. -/
structure Target where
  undefined : ∀ w, Undefined w
  undef : RegisterType → Nat → Nat
  function : Opcode → RegisterType → Register → Register → Option Register

/-- What is defined so far. -/
abbrev Env := Nat → Option Register

variable (T : Target)

/-- The register of an id. -/
def Env.get (env : Env) : SpvId → Option Register
  | .null => none
  | .result id => env id
  | .scalar width value => some ⟨⟨width, 1⟩, fun _ => value⟩
  | .composite type constituents =>
    if none ∈ constituents then none
    else some ⟨type, fun i => ((constituents[i]?).join).getD 0⟩
  | .nullConstant type => some ⟨type, fun _ => 0⟩
  | .undef type => some ⟨type, T.undef type⟩

/-- The instructions from words to a word. -/
def Opcode.word (w : Nat) : Opcode → Option (BitVec w → BitVec w → BitVec w)
  | .iAdd => some (· + ·)
  | .iSub => some (· - ·)
  | .iMul => some (· * ·)
  | .uDiv => some (Spirv.uDiv (T.undefined w))
  | .sDiv => some (Spirv.sDiv (T.undefined w))
  | .uMod => some (Spirv.uMod (T.undefined w))
  | .sRem => some (Spirv.sRem (T.undefined w))
  | .shiftLeftLogical => some (Spirv.shiftLeftLogical (T.undefined w))
  | .shiftRightLogical => some (Spirv.shiftRightLogical (T.undefined w))
  | .shiftRightArithmetic => some (Spirv.shiftRightArithmetic (T.undefined w))
  | .bitwiseAnd | .logicalAnd => some (· &&& ·)
  | .bitwiseOr | .logicalOr => some (· ||| ·)
  | .bitwiseXor | .logicalNotEqual => some (· ^^^ ·)
  | .logicalEqual => some fun a b => ~~~(a ^^^ b)
  | _ => none

/-- The instructions from words to a truth value. -/
def Opcode.relation (w : Nat) : Opcode → Option (BitVec w → BitVec w → Bool)
  | .iEqual => some fun a b => a == b
  | .iNotEqual => some fun a b => a != b
  | .uLessThan => some BitVec.ult
  | .uLessThanEqual => some BitVec.ule
  | .uGreaterThan => some fun a b => b.ult a
  | .uGreaterThanEqual => some fun a b => b.ule a
  | .sLessThan => some BitVec.slt
  | .sLessThanEqual => some BitVec.sle
  | .sGreaterThan => some fun a b => b.slt a
  | .sGreaterThanEqual => some fun a b => b.sle a
  | _ => none

/-- The instructions from one register. -/
def Opcode.unary (type : RegisterType) (a : Register) : Opcode → Option Register
  | .sNegate => if a.type = type then some ⟨type, fun i => (-a.word type.width i).toNat⟩ else none
  | .not | .logicalNot =>
    if a.type = type then some ⟨type, fun i => (~~~a.word type.width i).toNat⟩ else none
  | .uConvert =>
    if a.type.components = type.components ∧ a.type.width ≠ type.width then
      some ⟨type, fun i => ((a.word a.type.width i).setWidth type.width).toNat⟩
    else none
  | .sConvert =>
    if a.type.components = type.components ∧ a.type.width ≠ type.width then
      some ⟨type, fun i => ((a.word a.type.width i).signExtend type.width).toNat⟩
    else none
  | .all =>
    if a.type.width = 1 ∧ type = ⟨1, 1⟩ then
      some ⟨type, fun _ => if ∀ i < a.type.components, a.lane i % 2 = 1 then 1 else 0⟩
    else none
  | _ => none

/-- The result of an instruction. -/
def Instruction.value (op : Instruction) : List Register → Option Register
  | [a] => op.opcode.unary op.type a
  | [a, b] =>
    match op.opcode with
    | .functionCall function =>
      if a.type = op.type ∧ b.type = op.type then T.function function op.type a b else none
    | opcode =>
      match opcode.word T op.type.width with
      | some f =>
        if a.type = op.type ∧ b.type = op.type then
          some ⟨op.type, fun i => (f (a.word op.type.width i) (b.word op.type.width i)).toNat⟩
        else none
      | none =>
        (opcode.relation a.type.width).bind fun f =>
          if a.type = b.type ∧ op.type = ⟨1, a.type.components⟩ then
            some ⟨op.type, fun i =>
              (f (a.word a.type.width i) (b.word a.type.width i)).toNat⟩
          else none
  | [a, b, c] =>
    match op.opcode with
    | .bitFieldSExtract =>
      if a.type = op.type ∧ b.type = ⟨32, 1⟩ ∧ c.type = ⟨32, 1⟩ then
        some ⟨op.type,
          fun i => (bitFieldExtract (T.undefined op.type.width) true (a.word op.type.width i)
          (b.lane 0) (c.lane 0)).toNat⟩
      else none
    | .bitFieldUExtract =>
      if a.type = op.type ∧ b.type = ⟨32, 1⟩ ∧ c.type = ⟨32, 1⟩ then
        some ⟨op.type,
          fun i => (bitFieldExtract (T.undefined op.type.width) false (a.word op.type.width i)
          (b.lane 0) (c.lane 0)).toNat⟩
      else none
    | .select =>
      if a.type = ⟨1, op.type.components⟩ ∧ b.type = op.type ∧ c.type = op.type then
        some ⟨op.type, fun i => if a.lane i % 2 = 1 then b.lane i else c.lane i⟩
      else none
    | _ => none
  | _ => none

/-- An instruction defines its id, which nothing has defined before. -/
def step (env : Env) (op : Instruction) : Option Env := do
  let arguments ← op.arguments.mapM (env.get T)
  if op.opcode = .assumeTrue then return env
  let r ← op.value T arguments
  match op.id with
  | .result id => if env id = none then return Function.update env id (some r) else none
  | _ => none

/-- Running a block. -/
def run (ops : List Instruction) (env : Env) : Option Env := ops.foldlM (step T) env

variable {T} {env : Env}

theorem run_append (ops ops' : List Instruction) :
    run T (ops ++ ops') env = (run T ops env).bind (run T ops') :=
  List.foldlM_append

/-- Adding an instruction that defines a new id. -/
theorem run_append_step {ops : List Instruction} {op : Instruction} {env₀ : Env} {id : Nat}
    {registers : List Register} {r : Register} (hrun : run T ops env₀ = some env)
    (harguments : op.arguments.mapM (env.get T) = some registers)
    (hopcode : op.opcode ≠ .assumeTrue) (hvalue : op.value T registers = some r)
    (hid : op.id = .result id) (hnew : env id = none) :
    run T (ops ++ [op]) env₀ = some (Function.update env id (some r)) := by
  rw [run_append, hrun]
  have hstep : step T env op = some (Function.update env id (some r)) := by
    rw [step, harguments]
    simp [hopcode, hvalue, hid, hnew]
  simp [run, hstep]

/-- Adding an instruction with an argument that is not defined: the block does not run. -/
theorem run_append_of_argument {ops : List Instruction} {op : Instruction} {env₀ : Env}
    (hrun : run T ops env₀ = some env)
    (hargument : op.arguments.mapM (env.get T) = none) :
    run T (ops ++ [op]) env₀ = none := by
  rw [run_append, hrun]
  have hstep : step T env op = none := by
    rw [step, hargument]
    rfl
  simp [run, hstep]

/-- Adding an instruction whose types do not fit: the block does not run. -/
theorem run_append_of_value {ops : List Instruction} {op : Instruction} {env₀ : Env}
    {registers : List Register} (hrun : run T ops env₀ = some env)
    (harguments : op.arguments.mapM (env.get T) = some registers)
    (hopcode : op.opcode ≠ .assumeTrue) (hvalue : op.value T registers = none) :
    run T (ops ++ [op]) env₀ = none := by
  rw [run_append, hrun]
  have hstep : step T env op = none := by
    rw [step, harguments]
    simp [hopcode, hvalue]
  simp [run, hstep]

/-- The result of an instruction from words to a word. -/
theorem value_word {op : Instruction} {a b : Register}
    {f : BitVec op.type.width → BitVec op.type.width → BitVec op.type.width}
    (hword : op.opcode.word T op.type.width = some f) (ha : a.type = op.type)
    (hb : b.type = op.type) :
    op.value T [a, b] = some ⟨op.type, fun i =>
      (f (a.word op.type.width i) (b.word op.type.width i)).toNat⟩ := by
  obtain ⟨opcode, id, type, arguments⟩ := op
  cases opcode with
  | functionCall function => cases hword
  | _ =>
    simp only [Instruction.value] at hword ⊢
    simp only [hword]
    exact if_pos ⟨ha, hb⟩

/-- The result of an instruction from words to a truth value. -/
theorem value_relation {op : Instruction} {a b : Register} {type : RegisterType}
    {f : BitVec type.width → BitVec type.width → Bool}
    (hrelation : op.opcode.relation type.width = some f)
    (hword : op.opcode.word T op.type.width = none) (ha : a.type = type) (hb : b.type = type)
    (htype : op.type = ⟨1, type.components⟩) :
    op.value T [a, b] = some ⟨op.type, fun i =>
      (f (a.word type.width i) (b.word type.width i)).toNat⟩ := by
  subst ha
  obtain ⟨opcode, id, type, arguments⟩ := op
  cases opcode with
  | functionCall function => cases hrelation
  | _ =>
    simp only [Instruction.value] at hword hrelation ⊢
    simp only [hword, hrelation]
    exact if_pos ⟨hb.symm, htype⟩

/-- What is defined stays defined. -/
theorem get_update {id : Nat} {r r' : Register} {x : SpvId} (hnew : env id = none)
    (hx : env.get T x = some r) :
    Env.get T (Function.update env id (some r')) x = some r := by
  cases x with
  | result id' =>
    have hne : id' ≠ id := by
      rintro rfl
      rw [Env.get, hnew] at hx
      cases hx
    rw [Env.get, Function.update_of_ne hne]
    exact hx
  | null => exact hx
  | scalar width value => exact hx
  | composite type constituents => exact hx
  | nullConstant type => exact hx
  | undef type => exact hx

end DxilSpirv.Spirv
