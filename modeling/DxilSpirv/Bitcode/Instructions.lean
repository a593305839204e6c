import DxilSpirv.Bitcode.Constants

/-!
# Instructions

The records of a function body. Every record makes one instruction, which gets an id when it has a
value.
-/

namespace DxilSpirv.Bitcode

open DxilSpirv.Program

/-- `FunctionRecord`, as far as it is handled. -/
inductive FunctionRecord where
  | declareBlocks | instBinop | instCast | instSelect | instExtractElt | instInsertElt
  | instShuffleVec | instCmp | instRet | instBr | instSwitch | instUnreachable | instPhi
  | instAlloca | instLoad | instExtractVal | instCall | instAtomicRMW | instGep | instStore
  | instCmpxchg | instUnop
  deriving DecidableEq, Repr

/-- The record with an id. -/
def FunctionRecord.ofId : Nat → Option FunctionRecord
  | 1 => some declareBlocks
  | 2 => some instBinop
  | 3 => some instCast
  | 5 | 29 => some instSelect
  | 6 => some instExtractElt
  | 7 => some instInsertElt
  | 8 => some instShuffleVec
  | 9 | 28 => some instCmp
  | 10 => some instRet
  | 11 => some instBr
  | 12 => some instSwitch
  | 15 => some instUnreachable
  | 16 => some instPhi
  | 19 => some instAlloca
  | 20 => some instLoad
  | 26 => some instExtractVal
  | 34 => some instCall
  | 38 => some instAtomicRMW
  | 43 => some instGep
  | 44 => some instStore
  | 46 => some instCmpxchg
  | 56 => some instUnop
  | _ => none

/-- `translate_uop`. -/
def translateUop (op : Nat) (type : Option TypePtr) : Parser UnaryOps := do
  let type ← typeAt type
  return if op % 2 ^ 32 = 0 ∧ type.isFloatingPointTy then .fNeg else .invalid

/-- `translate_atomic_binop`. -/
def translateAtomicBinop (op : Nat) : AtomicBinOps :=
  [AtomicBinOps.xchg, .add, .sub, .and, .nand, .or, .xor, .max, .min, .uMax, .uMin, .fAdd,
    .fSub].getD (op % 2 ^ 32) .invalid

/-- The parameters of a function type. -/
def IRType.params : IRType → List (Option TypePtr)
  | .function _ params => params
  | _ => []

/-- The return type of a function type. -/
def IRType.returnType : IRType → Option TypePtr
  | .function returnType _ => some returnType
  | _ => none

/-- `dyn_cast<Function>` of a value that was looked up: the function and its type. -/
def functionOf (value : Option Value) : Parser (ValuePtr × TypePtr) := do
  let value ← orFalse value
  let c ← get
  let p ← deref (c.resolveProxy value)
  match c.object p.1 with
  | .function functionType .. => return (p.1, functionType)
  | _ => returnFalse

/-- The arguments of a call, each with the type of its parameter. -/
def callArguments : List (Nat × Option TypePtr) → Parser (List Value)
  | [] => pure []
  | (op, t) :: rest => do
    let arg ← modifyGet (·.getValue op t)
    let arg ← orFalse arg
    let args ← callArguments rest
    return arg :: args

/-- The pairs of a value and a block in the operands of a PHI. -/
def phiIncoming (type : Option TypePtr) : List Nat → Parser (List (Value × BlockPtr))
  | v :: b :: rest => do
    let value ← if (← get).useRelativeId then modifyGet (·.getValueSigned v type)
      else modifyGet (·.getValue v type)
    let value ← orFalse value
    let bb ← orFalse ((← get).getBasicBlock b)
    let incoming ← phiIncoming type rest
    return (value, bb) :: incoming
  | _ => pure []

/-- The type of an element of an aggregate. -/
def extractType (type : Option TypePtr) : List Nat → Parser (Option TypePtr)
  | [] => pure type
  | op :: ops => do
    match ← typeAt type with
    | .struct members _ =>
      match members[op % 2 ^ 32]? with
      | none => returnFalse
      | some member => extractType member ops
    | .array element _ => extractType (some element) ops
    | .vector _ element => extractType (some element) ops
    | _ => returnFalse

/-- The pairs of a value and a block in the operands of a switch. -/
def switchCases (type : TypePtr) : List Nat → Parser (List (Value × BlockPtr))
  | v :: b :: rest => do
    let value ← modifyGet (·.getValue v (some type) true)
    let value ← orFalse value
    let bb ← orFalse ((← get).getBasicBlock b)
    addSuccessor bb
    let cases ← switchCases type rest
    return (value, bb) :: cases
  | _ => pure []

/-- The arguments of an address computation, each with its type if it is a forward reference. -/
def gepArguments (ops : List Nat) (index : Nat) : Nat → Parser (List Value)
  | 0 => pure []
  | fuel + 1 =>
    if index < ops.length then do
      let value ← modifyGet (·.getValueAndType ops index)
      let arg ← orFalse value.first
      let args ← gepArguments ops value.index fuel
      return arg :: args
    else pure []

/-- `APInt::getSExtValue`. -/
def getSExtValue (width value : Nat) : Int :=
  let v := value % 2 ^ width
  if 2 ^ (width - 1) ≤ v then (v : Int) - 2 ^ width else v

/-- A 64-bit integer that is kept as an `int`. -/
def toInt32 (v : Int) : Int := (v + 2 ^ 31) % 2 ^ 32 - 2 ^ 31

/-- A shuffle mask element, extended with its sign. -/
def maskElement (c : Context) (element : ValuePtr) : Parser Int :=
  match c.object element with
  | .constantInt width value => pure (toInt32 (getSExtValue width value))
  | _ => misuse .badCast

/-- The elements of a shuffle mask. -/
def maskElements (c : Context) : List ValuePtr → Parser (List Int)
  | [] => pure []
  | element :: rest => do
    let value ← maskElement c element
    let values ← maskElements c rest
    return value :: values

/-- The mask that the constructor of `ShuffleVectorInst` reads. -/
def shuffleMask (shuf : Value) : Parser (List Int) := do
  let vector ← castVectorType shuf.getType
  let c ← get
  let p ← deref (c.resolveProxy shuf)
  match c.object p.1 with
  | .constantDataVector elements => maskElements c elements
  | _ => return List.replicate vector.1 0

/-- The case `DECLAREBLOCKS` of `parse_record`. -/
def parseDeclareBlocks (ops : List Nat) : Parser Unit := do
  require (1 ≤ ops.length)
  let count ← opAt ops 0
  modify fun c => { c with
    blocks := c.blocks ++ List.replicate count {}
    basicBlocks := List.range' c.blocks.length count
    basicBlockIndex := 0 }
  -- `front` of a vector that must not be empty
  match (← get).basicBlocks with
  | [] => misuse .outOfBounds
  | bb :: _ => modify fun c => { c with currentBb := some bb }

/-- The index after the calling convention of a call, which fast math flags may follow. -/
def callIndex (ops : List Nat) (ccInfo : Nat) : Parser Nat :=
  if ccInfo.testBit 17 then do
    require (2 < ops.length)
    return 3
  else pure 2

/-- The function type that a call may give. -/
def callExplicitType (ops : List Nat) (ccInfo index : Nat) : Parser (Option TypePtr) :=
  if ccInfo.testBit 15 then do
    require (index < ops.length)
    let t ← opAt ops index
    let type := (← get).getType t
    let _ ← castFunctionType type
    return type
  else pure none

/-- The callee of a call, and its arguments. -/
def callCallee (ops : List Nat) (explicitType : Option TypePtr) (index : Nat) : Parser Unit := do
  require (index < ops.length)
  let id ← opAt ops index
  let callee ← modifyGet (·.getValue id)
  let callee ← functionOf callee
  let functionType := (← get).heap.lookup (explicitType.getD callee.2)
  require (ops.length = index + 1 + functionType.params.length)
  let params ← callArguments ((ops.drop (index + 1)).zip functionType.params)
  require ((← addInstruction functionType.returnType (.call callee.1) params) = true)

def parseCall (ops : List Nat) : Parser Unit := do
  require (1 < ops.length)
  let ccInfo ← opAt ops 1
  let index ← callIndex ops ccInfo
  let explicitType ← callExplicitType ops ccInfo index
  callCallee ops explicitType (if ccInfo.testBit 15 then index + 1 else index)

def parseRet (ops : List Nat) : Parser Unit := do
  let returnVal ← match ops with
    | [] => pure none
    | op :: _ => modifyGet (·.getValue op)
  require ((← addInstruction (returnVal.bind Value.getType) (.ret returnVal) []) = true)

def parseUnreachable : Parser Unit := do
  require ((← addInstruction none .unreachable []) = true)

def parseUnop (ops : List Nat) : Parser Unit := do
  let val ← modifyGet (·.getValueAndType ops 0)
  let first ← orFalse val.first
  require (val.index ≠ ops.length)
  let op ← opAt ops val.index
  let op ← translateUop op val.second
  require ((← addInstruction first.getType (.unaryOperator op) [first]) = true)

/-- `get_cmp_result_type`. -/
def cmpResultType (type : Option TypePtr) : Parser TypePtr := do
  let t ← typeAt type
  let boolType ← modifyGet (·.makeType (.integer 1))
  match t with
  | .vector size _ => modifyGet (·.makeType (.vector size boolType))
  | _ => pure boolType

def parseCmp (ops : List Nat) : Parser Unit := do
  let lhs ← modifyGet (·.getValueAndType ops 0)
  let first ← orFalse lhs.first
  let rhs ← modifyGet (·.getNextValue ops lhs.index lhs.second)
  require (rhs.2 ≠ ops.length)
  let pred ← opAt ops rhs.2
  let right ← orFalse rhs.1
  let type ← typeAt lhs.second
  let result ← cmpResultType first.getType
  require ((← addInstruction (some result) (.cmp type.isFloatingPointTy pred) [first, right]) =
    true)

def parsePhi (ops : List Nat) : Parser Unit := do
  require (1 ≤ ops.length)
  let t ← opAt ops 0
  let type := (← get).getType t
  let incoming ← phiIncoming type (ops.drop 1)
  require ((← addInstruction type (.phi incoming) []) = true)

def parseBinop (ops : List Nat) : Parser Unit := do
  let lhs ← modifyGet (·.getValueAndType ops 0)
  let first ← orFalse lhs.first
  let rhs ← modifyGet (·.getNextValue ops lhs.index lhs.second)
  let right ← orFalse rhs.1
  require (rhs.2 ≠ ops.length)
  let op ← opAt ops rhs.2
  let op ← translateBinop op lhs.second
  let fast := (ops[rhs.2 + 1]?.getD 0).testBit 0 || (ops[rhs.2 + 1]?.getD 0).testBit 5
  require ((← addInstruction first.getType (.binaryOperator op fast) [first, right]) = true)

def parseAtomicRMW (ops : List Nat) : Parser Unit := do
  let ptr ← modifyGet (·.getValueAndType ops 0)
  let first ← orFalse ptr.first
  let type ← typeAt ptr.second
  let pointee ← match type with
    | .pointer pointee _ => pure pointee
    | _ => returnFalse
  let val ← modifyGet (·.getNextValue ops ptr.index (some pointee))
  let value ← orFalse val.1
  require (val.2 ≠ ops.length)
  let op ← opAt ops val.2
  require ((← addInstruction value.getType (.atomicRMW (translateAtomicBinop op))
    [first, value]) = true)

def parseCmpxchg (ops : List Nat) : Parser Unit := do
  let ptr ← modifyGet (·.getValueAndType ops 0)
  let cmp ← modifyGet (·.getValueAndType ops ptr.index)
  let first ← orFalse ptr.first
  let compare ← orFalse cmp.first
  let type ← typeAt ptr.second
  require type.isPointer
  let new ← modifyGet (·.getNextValue ops cmp.index cmp.second)
  -- the constructor follows the new value and its type
  let newValue ← deref new.1
  let newType ← deref newValue.getType
  let boolType ← modifyGet (·.makeType (.integer 1))
  let result ← modifyGet (·.makeType (.struct [some newType, some boolType] []))
  require ((← addInstruction (some result) .atomicCmpXchg [first, newValue, compare]) = true)

def parseCast (ops : List Nat) : Parser Unit := do
  let input ← modifyGet (·.getValueAndType ops 0)
  let first ← orFalse input.first
  require (input.index + 2 ≤ ops.length)
  let t ← opAt ops input.index
  let type ← orFalse ((← get).getType t)
  let op ← opAt ops (input.index + 1)
  require ((← addInstruction (some type) (.cast (translateCastop op)) [first]) = true)

def parseSelect (ops : List Nat) : Parser Unit := do
  let trueValue ← modifyGet (·.getValueAndType ops 0)
  let first ← orFalse trueValue.first
  require (trueValue.index + 2 ≤ ops.length)
  let op ← opAt ops trueValue.index
  let falseValue ← modifyGet (·.getValue op trueValue.second)
  let cond ← modifyGet (·.getValueAndType ops (trueValue.index + 1))
  let second ← orFalse falseValue
  let condType ← deref cond.second
  let scalarType := match (← get).heap.lookup condType with
    | .vector _ element => element
    | _ => condType
  let boolType ← modifyGet (·.makeType (.integer 1))
  require (scalarType = boolType)
  require ((← addInstruction first.getType .select (cond.first.toList ++ [first, second])) = true)

def parseExtractVal (ops : List Nat) : Parser Unit := do
  let aggregate ← modifyGet (·.getValueAndType ops 0)
  let first ← orFalse aggregate.first
  require (aggregate.index ≠ ops.length)
  let indices := ops.drop aggregate.index
  let type ← extractType aggregate.second indices
  require ((← addInstruction type (.extractValue (indices.map (· % 2 ^ 32))) [first]) = true)

def parseBr (ops : List Nat) : Parser Unit := do
  require (1 ≤ ops.length)
  let t ← opAt ops 0
  let trueBlock ← orFalse ((← get).getBasicBlock t)
  addSuccessor trueBlock
  if ops.length = 1 then
    require ((← addInstruction none (.branch [trueBlock] none) []) = true)
  else if ops.length = 3 then
    let f ← opAt ops 1
    let falseBlock ← orFalse ((← get).getBasicBlock f)
    addSuccessor falseBlock
    let op ← opAt ops 2
    let boolType ← modifyGet (·.makeType (.integer 1))
    let cond ← modifyGet (·.getValue op (some boolType))
    require ((← addInstruction none (.branch [trueBlock, falseBlock] cond) []) = true)
  else returnFalse

def parseSwitch (ops : List Nat) : Parser Unit := do
  require (3 ≤ ops.length)
  let t ← opAt ops 0
  let x ← opAt ops 1
  let d ← opAt ops 2
  let cond ← modifyGet (·.getValue x)
  let type ← orFalse ((← get).getType t)
  let cond ← orFalse cond
  let defaultBlock ← orFalse ((← get).getBasicBlock d)
  addSuccessor defaultBlock
  -- the constructor follows the type of the condition
  let _ ← deref cond.getType
  let voidType ← modifyGet (·.makeType .void)
  let cases ← switchCases type (ops.drop 3)
  require ((← addInstruction (some voidType) (.switch cond defaultBlock cases) []) = true)

def parseAlloca (ops : List Nat) : Parser Unit := do
  require (3 ≤ ops.length)
  let a ← opAt ops 0
  let t ← opAt ops 1
  let s ← opAt ops 2
  let allocatedType ← orFalse ((← get).getType a)
  let _ ← orFalse ((← get).getType t)
  let size ← modifyGet (·.getValue s none true)
  let size ← orFalse size
  let ptrType ← modifyGet (·.makeType (.pointer allocatedType 0))
  require ((← addInstruction (some ptrType) (.alloca size) []) = true)

def parseGep (ops : List Nat) : Parser Unit := do
  require (3 ≤ ops.length)
  let inbounds ← opAt ops 0
  let t ← opAt ops 1
  let type := (← get).getType t
  let args ← gepArguments ops 2 ops.length
  let resolved ← resolveGepElementType type ((args.drop 2).map some)
  let resolved ← orFalse resolved
  let first ← deref args.head?
  let pointer ← castPointerType first.getType
  let result ← modifyGet (·.makeType (.pointer resolved pointer.2))
  require ((← addInstruction (some result) (.getElementPtr (inbounds ≠ 0)) args) = true)

def parseLoad (ops : List Nat) : Parser Unit := do
  let ptr ← modifyGet (·.getValueAndType ops 0)
  require (ptr.index + 2 = ops.length ∨ ptr.index + 3 = ops.length)
  let first ← orFalse ptr.first
  let type ← typeAt ptr.second
  let pointee ← match type with
    | .pointer pointee _ => pure pointee
    | _ => returnFalse
  let loadedType ← if ptr.index + 3 = ops.length then do
      let t ← opAt ops ptr.index
      pure ((← get).getType t)
    else pure (some pointee)
  -- the result of `add_instruction` is not looked at
  let _ ← addInstruction loadedType .load [first]

def parseStore (ops : List Nat) : Parser Unit := do
  let ptr ← modifyGet (·.getValueAndType ops 0)
  let val ← modifyGet (·.getValueAndType ops ptr.index)
  let first ← orFalse ptr.first
  let value ← orFalse val.first
  require (val.index + 2 = ops.length)
  -- the constructor follows the type of the pointer
  let _ ← deref first.getType
  let voidType ← modifyGet (·.makeType .void)
  require ((← addInstruction (some voidType) .store [value, first]) = true)

def parseShuffleVec (ops : List Nat) : Parser Unit := do
  let a ← modifyGet (·.getValueAndType ops 0)
  let b ← modifyGet (·.getNextValue ops a.index a.second)
  let shuf ← modifyGet (·.getValueAndType ops b.2)
  let first ← orFalse a.first
  let second ← orFalse b.1
  let mask ← orFalse shuf.first
  let type ← typeAt a.second
  let element ← match type with
    | .vector _ element => pure element
    | _ => returnFalse
  let vector ← castVectorType mask.getType
  let result ← modifyGet (·.makeType (.vector vector.1 element))
  let elements ← shuffleMask mask
  require ((← addInstruction (some result) (.shuffleVector elements) [first, second]) = true)

def parseExtractElt (ops : List Nat) : Parser Unit := do
  let vec ← modifyGet (·.getValueAndType ops 0)
  let first ← orFalse vec.first
  let type ← typeAt vec.second
  let element ← match type with
    | .vector _ element => pure element
    | _ => returnFalse
  let index ← modifyGet (·.getValueAndType ops vec.index)
  let second ← orFalse index.first
  require ((← addInstruction (some element) .extractElement [first, second]) = true)

def parseInsertElt (ops : List Nat) : Parser Unit := do
  let vec ← modifyGet (·.getValueAndType ops 0)
  let first ← orFalse vec.first
  let type ← typeAt vec.second
  let element ← match type with
    | .vector _ element => pure element
    | _ => returnFalse
  let value ← modifyGet (·.getNextValue ops vec.index (some element))
  let index ← modifyGet (·.getValueAndType ops value.2)
  let second ← orFalse value.1
  let third ← orFalse index.first
  require ((← addInstruction first.getType .insertElement [first, second, third]) = true)

/-- `ModuleParseContext::parse_record`. -/
def parseRecord (entry : BlockOrRecord) : Parser Unit :=
  match FunctionRecord.ofId entry.id with
  | some .declareBlocks => parseDeclareBlocks entry.ops
  | some .instCall => parseCall entry.ops
  | some .instRet => parseRet entry.ops
  | some .instUnreachable => parseUnreachable
  | some .instUnop => parseUnop entry.ops
  | some .instCmp => parseCmp entry.ops
  | some .instPhi => parsePhi entry.ops
  | some .instBinop => parseBinop entry.ops
  | some .instAtomicRMW => parseAtomicRMW entry.ops
  | some .instCmpxchg => parseCmpxchg entry.ops
  | some .instCast => parseCast entry.ops
  | some .instSelect => parseSelect entry.ops
  | some .instExtractVal => parseExtractVal entry.ops
  | some .instBr => parseBr entry.ops
  | some .instSwitch => parseSwitch entry.ops
  | some .instAlloca => parseAlloca entry.ops
  | some .instGep => parseGep entry.ops
  | some .instLoad => parseLoad entry.ops
  | some .instStore => parseStore entry.ops
  | some .instShuffleVec => parseShuffleVec entry.ops
  | some .instExtractElt => parseExtractElt entry.ops
  | some .instInsertElt => parseInsertElt entry.ops
  | none => returnFalse

end DxilSpirv.Bitcode
