import DxilSpirv.Bitcode.Types
import DxilSpirv.Program.Weakest

/-!
# Values and the parse context

Values are made once and referred to by address, which is their index in the list of all values. The
type of a value never changes, so a reference carries it. A forward reference is a proxy, which is
told apart from the values it stands for: no proxy and no value without a type is ever put into the
value list of a module.
-/

namespace DxilSpirv.Bitcode

open DxilSpirv.Program

/-- The address of a value that is not a proxy. -/
abbrev ValuePtr := Nat

/-- The address of a basic block. -/
abbrev BlockPtr := Nat

/-- A value as an operand refers to it. -/
inductive Value where
  | object (p : ValuePtr) (type : TypePtr)
  | proxy (p : Nat) (type : Option TypePtr)
  deriving DecidableEq, Repr

/-- `Value::getType`. -/
def Value.getType : Value → Option TypePtr
  | object _ type => some type
  | proxy _ type => type

/-- `BinaryOperator::BinaryOps`. -/
inductive BinaryOps where
  | invalidBinaryOp | add | fAdd | sub | fSub | mul | fMul | uDiv | sDiv | fDiv | uRem | sRem | fRem
  | shl | lShr | aShr | and | or | xor
  deriving DecidableEq, Repr

/-- `Instruction::CastOps`. -/
inductive CastOps where
  | invalidCastOp | trunc | zExt | sExt | fpToUI | fpToSI | uiToFP | siToFP | fpTrunc | fpExt
  | ptrToInt | intToPtr | bitCast | addrSpaceCast
  deriving DecidableEq, Repr

/-- `UnaryOperator::UnaryOps`. -/
inductive UnaryOps where
  | invalid | fNeg
  deriving DecidableEq, Repr

/-- `AtomicRMWInst::BinOp`. -/
inductive AtomicBinOps where
  | invalid | xchg | add | sub | and | nand | or | xor | max | min | uMax | uMin | fAdd | fSub
  deriving DecidableEq, Repr

/-- What `ConstantExpr` computes. -/
inductive ExprOps where
  | binary (op : BinaryOps)
  | cast (op : CastOps)
  | getElementPtr
  deriving DecidableEq, Repr

/-- The kind of an instruction, with what it refers to besides its operands. -/
inductive InstructionKind where
  | ret (value : Option Value)
  | unreachable
  | call (callee : ValuePtr)
  | unaryOperator (op : UnaryOps)
  | binaryOperator (op : BinaryOps) (fastMath : Bool)
  | cmp (isFloat : Bool) (pred : Nat)
  | phi (incoming : List (Value × BlockPtr))
  | atomicRMW (op : AtomicBinOps)
  | atomicCmpXchg
  | cast (op : CastOps)
  | select
  | extractValue (indices : List Nat)
  | branch (bbs : List BlockPtr) (cond : Option Value)
  | switch (cond : Value) (defaultBlock : BlockPtr) (cases : List (Value × BlockPtr))
  | alloca (arraySize : Value)
  | getElementPtr (inbounds : Bool)
  | load
  | store
  | shuffleVector (mask : List Int)
  | extractElement
  | insertElement
  deriving DecidableEq, Repr

namespace InstructionKind

/-- `Instruction::isTerminator`. -/
@[simp] def isTerminator : InstructionKind → Bool
  | ret _ | unreachable | branch .. | switch .. => true
  | _ => false

end InstructionKind

/-- A metadata operand. -/
inductive MDOperand where
  | none
  | namedNode (name : List Nat) (operands : List (Option MDOperand))
  | node (operands : List MDOperand)
  | constant (value : ValuePtr)
  | string (str : List Nat)

namespace MDOperand

/-- `dyn_cast<MDNode>`. -/
def asNode : MDOperand → Option MDOperand
  | node ops => some (node ops)
  | _ => Option.none

end MDOperand

/-- `GlobalVariable::LinkageTypes`. -/
inductive LinkageTypes where
  | externalLinkage | internalLinkage | appendingLinkage
  deriving DecidableEq, Repr

/-- What a value holds. -/
inductive Contents where
  | argument (argumentNumber : Nat)
  | function (functionType : TypePtr) (valueId : Nat) (attributes : List (List Nat × List Nat))
    (arguments : List ValuePtr) (basicBlocks : List BlockPtr)
  | globalVariable (linkage : LinkageTypes) (isConst : Bool) (initializer : Option ValuePtr)
  | constantInt (width value : Nat)
  | constantFP (value : Nat)
  | constantAggregateZero
  | constantPointerNull
  | undef
  | constantAggregate (elements : List (Option Value))
  | constantDataArray (elements : List ValuePtr)
  | constantDataVector (elements : List ValuePtr)
  | constantExpr (opcode : ExprOps) (elements : List (Option Value))
  | instruction (kind : InstructionKind) (operands : List (Option Value))
    (attachments : List (List Nat × MDOperand))

namespace Contents

/-- `Constant::is_base_of_value_kind`. -/
def isConstant : Contents → Bool
  | constantFP _ | constantInt .. | constantDataArray _ | constantDataVector _ | constantAggregate _
  | constantAggregateZero | undef | function .. | globalVariable .. | constantExpr .. => true
  | _ => false

end Contents

/-- `ValueProxy`: a forward reference. -/
structure ValueProxy where
  id : Nat := 0
  proxy : Option (ValuePtr × TypePtr) := none
  deriving DecidableEq, Repr

/-- A basic block. -/
structure BasicBlock where
  instructions : List ValuePtr := []
  succs : List BlockPtr := []
  deriving DecidableEq, Repr

/-- What the parser has put into the module. -/
structure Module where
  functions : List ValuePtr := []
  globals : List ValuePtr := []
  valueSymtab : List (Nat × List Nat) := []
  namedMetadata : List (List Nat × MDOperand) := []
  unnamedMetadata : List MDOperand := []

/-- `ModuleParseContext`, with all that was made in the context so far. -/
structure Context where
  heap : TypeHeap := {}
  objects : List Contents := []
  proxies : List ValueProxy := []
  blocks : List BasicBlock := []
  module : Module := {}
  function : Option ValuePtr := none
  basicBlocks : List BlockPtr := []
  values : List (ValuePtr × TypePtr) := []
  instructions : List ValuePtr := []
  types : List TypePtr := []
  functionsWithBodies : List ValuePtr := []
  metadata : List (Nat × MDOperand) := []
  metadataKindMap : List (Nat × List Nat) := []
  attributeLists : List (List (List Nat × List Nat)) := []
  attributeGroups : List (Nat × List (List Nat × List Nat)) := []
  constantType : Option TypePtr := none
  currentMetadataName : List Nat := []
  currentStructName : List Nat := []
  currentBb : Option BlockPtr := none
  basicBlockIndex : Nat := 0
  pendingForwardReferences : List Nat := []
  globalInitializations : List (ValuePtr × Nat) := []
  useRelativeId : Bool := true
  useStrtab : Bool := false
  seenFirstFunctionBody : Bool := false

/-- What a parser must not do. -/
inductive Misuse where
  | outOfBounds
  | nullPointer
  | badCast
  deriving DecidableEq, Repr

/-- How a parser stops: it returns `false`, or it does what it must not do. -/
inductive Stop where
  | returnFalse
  | misuse (m : Misuse)
  deriving DecidableEq, Repr

/-- The parser went wrong. -/
def Stop.IsMisuse : Stop → Prop
  | returnFalse => False
  | misuse _ => True

/-- A parser. -/
abbrev Parser := Stoppable Context Stop

namespace Context

variable (c : Context)

/-- The value at an address. -/
def object (p : ValuePtr) : Contents := c.objects.getD p Contents.undef

/-- The proxy at an address. -/
def valueProxy (p : Nat) : ValueProxy := c.proxies.getD p {}

/-- `Internal::resolve_proxy`: the value and its type. -/
def resolveProxy : Value → Option (ValuePtr × TypePtr)
  | .object p type => some (p, type)
  | .proxy p _ => (c.valueProxy p).proxy

/-- `ModuleParseContext::get_type`. -/
def getType (index : Nat) : Option TypePtr := c.types[index]?

/-- `ModuleParseContext::get_basic_block`. -/
def getBasicBlock (index : Nat) : Option BlockPtr := c.basicBlocks[index]?

/-- `ModuleParseContext::get_instruction`. -/
def getInstruction (index : Nat) : Option ValuePtr := c.instructions[index]?

/-- `ModuleParseContext::get_metadata`: a node of no kind when there is none. -/
def getMetadata (index : Nat) : MDOperand := (c.metadata.lookup index).getD .none

/-- `ModuleParseContext::get_metadata_kind`. -/
def getMetadataKind (index : Nat) : Option (List Nat) := c.metadataKindMap.lookup index

end Context

/-! ## Steps that may stop -/

/-- Return `false`. -/
def returnFalse {α : Type} : Parser α := Stoppable.stop .returnFalse

/-- Go wrong. -/
def misuse {α : Type} (m : Misuse) : Parser α := Stoppable.stop (.misuse m)

/-- Return `false` unless a condition holds. -/
def require (p : Prop) [Decidable p] : Parser Unit := if p then pure () else returnFalse

/-- Return `false` when a pointer is null. -/
def orFalse {α : Type} : Option α → Parser α
  | some a => pure a
  | none => returnFalse

/-- Follow a pointer. -/
def deref {α : Type} : Option α → Parser α
  | some a => pure a
  | none => misuse .nullPointer

/-- Index a vector of operands. -/
def opAt (ops : List Nat) (i : Nat) : Parser Nat :=
  match ops[i]? with
  | some op => pure op
  | none => misuse .outOfBounds

/-- The type behind a pointer. -/
def typeAt (t : Option TypePtr) : Parser IRType := do
  let p ← deref t
  return (← get).heap.lookup p

/-- `cast<FunctionType>`: the return type and the parameters. -/
def castFunctionType (t : Option TypePtr) : Parser (TypePtr × List (Option TypePtr)) := do
  match ← typeAt t with
  | .function returnType params => pure (returnType, params)
  | _ => misuse .badCast

/-- `cast<PointerType>`: the pointee and the address space. -/
def castPointerType (t : Option TypePtr) : Parser (TypePtr × Nat) := do
  match ← typeAt t with
  | .pointer pointee addressSpace => pure (pointee, addressSpace)
  | _ => misuse .badCast

/-- `cast<VectorType>`: the size and the element type. -/
def castVectorType (t : Option TypePtr) : Parser (Nat × TypePtr) := do
  match ← typeAt t with
  | .vector size element => pure (size, element)
  | _ => misuse .badCast

/-- The cached type with these contents. -/
def Context.makeType (c : Context) (t : IRType) : TypePtr × Context :=
  ((c.heap.get t).2, { c with heap := (c.heap.get t).1 })

/-- Make a value. -/
def Context.construct (c : Context) (v : Contents) : ValuePtr × Context :=
  (c.objects.length, { c with objects := c.objects ++ [v] })

/-- Make a proxy that is to be resolved. -/
def Context.constructProxy (c : Context) (type : Option TypePtr) (id : Nat) : Value × Context :=
  (.proxy c.proxies.length type, { c with
    proxies := c.proxies ++ [{ id := id }]
    pendingForwardReferences := c.pendingForwardReferences ++ [c.proxies.length] })

section Rules

open Stoppable

variable {c : Context}

@[simp] theorem not_isMisuse_returnFalse : ¬ Stop.returnFalse.IsMisuse := id

@[simp] theorem isMisuse_misuse (m : Misuse) : (Stop.misuse m).IsMisuse := trivial

@[simp] theorem safe_returnFalse {α : Type} {post : α → Context → Prop} :
    Safe Stop.IsMisuse returnFalse c post ↔ True := by
  simp [returnFalse]

@[simp] theorem safe_misuse {α : Type} (m : Misuse) {post : α → Context → Prop} :
    Safe Stop.IsMisuse (misuse m) c post ↔ False := by
  simp [misuse]

/-- What is required holds for the rest. -/
@[simp] theorem safe_require (p : Prop) [Decidable p] {post : Unit → Context → Prop} :
    Safe Stop.IsMisuse (require p) c post ↔ (p → post () c) := by
  simp [require]

/-- The rest is run on a pointer that is not null. -/
@[simp] theorem safe_orFalse {α : Type} (o : Option α) {post : α → Context → Prop} :
    Safe Stop.IsMisuse (orFalse o) c post ↔ ∀ a, o = some a → post a c := by
  cases o <;> simp [orFalse]

/-- A pointer that is followed must not be null. -/
@[simp] theorem safe_deref {α : Type} (o : Option α) {post : α → Context → Prop} :
    Safe Stop.IsMisuse (deref o) c post ↔ ∃ a, o = some a ∧ post a c := by
  cases o <;> simp [deref]

/-- An operand that is read has to be there. -/
@[simp] theorem safe_opAt (ops : List Nat) (i : Nat) {post : Nat → Context → Prop} :
    Safe Stop.IsMisuse (opAt ops i) c post ↔ ∃ h : i < ops.length, post ops[i] c := by
  unfold opAt
  by_cases hi : i < ops.length
  · simp [hi]
  · simp [hi]

/-- A type that is looked at has to be there. -/
@[simp] theorem safe_typeAt (t : Option TypePtr) {post : IRType → Context → Prop} :
    Safe Stop.IsMisuse (typeAt t) c post ↔ ∃ p, t = some p ∧ post (c.heap.lookup p) c := by
  simp [typeAt]

/-- A cast to a function type needs one. -/
@[simp] theorem safe_castFunctionType (t : Option TypePtr)
    {post : TypePtr × List (Option TypePtr) → Context → Prop} :
    Safe Stop.IsMisuse (castFunctionType t) c post ↔ ∃ p r ps, t = some p ∧
      c.heap.lookup p = .function r ps ∧ post (r, ps) c := by
  cases t with
  | none => simp [castFunctionType]
  | some p => cases h : c.heap.lookup p <;> simp [castFunctionType, h]

/-- A cast to a pointer type needs one. -/
@[simp] theorem safe_castPointerType (t : Option TypePtr)
    {post : TypePtr × Nat → Context → Prop} :
    Safe Stop.IsMisuse (castPointerType t) c post ↔ ∃ p e a, t = some p ∧
      c.heap.lookup p = .pointer e a ∧ post (e, a) c := by
  cases t with
  | none => simp [castPointerType]
  | some p => cases h : c.heap.lookup p <;> simp [castPointerType, h]

/-- A cast to a vector type needs one. -/
@[simp] theorem safe_castVectorType (t : Option TypePtr)
    {post : Nat × TypePtr → Context → Prop} :
    Safe Stop.IsMisuse (castVectorType t) c post ↔ ∃ p n e, t = some p ∧
      c.heap.lookup p = .vector n e ∧ post (n, e) c := by
  cases t with
  | none => simp [castVectorType]
  | some p => cases h : c.heap.lookup p <;> simp [castVectorType, h]

variable {c' : Context} {α : Type} {a : α}

/-- A requirement goes on when it holds, and changes nothing. -/
theorem require_runs {p : Prop} [Decidable p] {u : Unit} :
    require p c = .ok (u, c') ↔ p ∧ c = c' := by
  unfold require
  by_cases hp : p
  · simp [hp, pure_runs]
  · simp [hp, returnFalse, stop_runs]

/-- A pointer that is not null goes on, and changes nothing. -/
theorem orFalse_runs {o : Option α} : orFalse o c = .ok (a, c') ↔ o = some a ∧ c = c' := by
  cases o with
  | none => simp [orFalse, returnFalse, stop_runs]
  | some b => simp [orFalse, pure_runs]

/-- Following a pointer changes nothing. -/
theorem deref_runs {o : Option α} : deref o c = .ok (a, c') ↔ o = some a ∧ c = c' := by
  cases o with
  | none => simp [deref, misuse, stop_runs]
  | some b => simp [deref, pure_runs]

/-- Looking at a type changes nothing. -/
theorem typeAt_runs {t : Option TypePtr} {x : IRType} :
    typeAt t c = .ok (x, c') ↔ ∃ p, t = some p ∧ c.heap.lookup p = x ∧ c = c' := by
  unfold typeAt
  rw [bind_runs]
  constructor
  · rintro ⟨p, c₁, h₁, h⟩
    obtain ⟨rfl, rfl⟩ := deref_runs.mp h₁
    rw [bind_runs] at h
    obtain ⟨c₂, c₃, h₂, h⟩ := h
    obtain ⟨rfl, rfl⟩ := get_runs.mp h₂
    obtain ⟨hx, rfl⟩ := pure_runs.mp h
    exact ⟨p, rfl, hx, rfl⟩
  · rintro ⟨p, rfl, rfl, rfl⟩
    exact ⟨p, c, rfl, rfl⟩

/-- A cast to a vector type changes nothing. -/
theorem castVectorType_runs {t : Option TypePtr} {r : Nat × TypePtr} :
    castVectorType t c = .ok (r, c') ↔
      ∃ p, t = some p ∧ c.heap.lookup p = .vector r.1 r.2 ∧ c = c' := by
  unfold castVectorType
  rw [bind_runs]
  constructor
  · rintro ⟨x, c₁, h₁, h⟩
    obtain ⟨p, rfl, hp, rfl⟩ := typeAt_runs.mp h₁
    cases x with
    | vector n e =>
      obtain ⟨rfl, rfl⟩ := pure_runs.mp h
      exact ⟨p, rfl, hp, rfl⟩
    | _ => exact absurd (stop_runs.mp h) id
  · rintro ⟨p, rfl, hp, rfl⟩
    exact ⟨.vector r.1 r.2, c, typeAt_runs.mpr ⟨p, rfl, hp, rfl⟩, rfl⟩

end Rules

end DxilSpirv.Bitcode
