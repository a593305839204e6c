import DxilSpirv.Bitcode.References

/-!
# Constants

The records of a constants block. Every record but the one that sets the type adds a value.
-/

namespace DxilSpirv.Bitcode

open DxilSpirv.Program

/-- `ConstantsRecord`, as far as it is handled. -/
inductive ConstantsRecord where
  | setType | constNull | undef | integer | float | aggregate | binop | ceCast | data | gep
  | inboundsGep | gepWithInrangeIndex
  deriving DecidableEq, Repr

/-- The record with an id. -/
def ConstantsRecord.ofId : Nat → Option ConstantsRecord
  | 1 => some setType
  | 2 => some constNull
  | 3 => some undef
  | 4 => some integer
  | 6 => some float
  | 7 => some aggregate
  | 10 => some binop
  | 11 => some ceCast
  | 12 => some gep
  | 20 => some inboundsGep
  | 22 => some data
  | 24 => some gepWithInrangeIndex
  | _ => none

/-- `translate_binop`. -/
def translateBinop (op : Nat) (type : Option TypePtr) : Parser BinaryOps := do
  let type ← typeAt type
  let c ← get
  let scalar := match type with
    | .vector _ element => c.heap.lookup element
    | type => type
  let ops : List BinaryOps :=
    if scalar.isFloatingPointTy then
      [.fAdd, .fSub, .fMul, .invalidBinaryOp, .fDiv, .invalidBinaryOp, .fRem]
    else
      [.add, .sub, .mul, .uDiv, .sDiv, .uRem, .sRem, .shl, .lShr, .aShr, .and, .or, .xor]
  return ops.getD (op % 2 ^ 32) .invalidBinaryOp

/-- `translate_castop`. -/
def translateCastop (op : Nat) : CastOps :=
  [CastOps.trunc, .zExt, .sExt, .fpToUI, .fpToSI, .uiToFP, .siToFP, .fpTrunc, .fpExt, .ptrToInt,
    .intToPtr, .bitCast, .addrSpaceCast].getD (op % 2 ^ 32) .invalidCastOp

/-- The value of `dyn_cast<ConstantInt>`, extended with zeros. -/
def constantIndex (arg : Option Value) : Parser (Option Nat) :=
  match arg with
  | none => pure none
  | some v => do
    let c ← get
    let p ← deref (c.resolveProxy v)
    match c.object p.1 with
    | .constantInt width value => return some (value % 2 ^ width)
    | _ => return none

/-- `resolve_gep_element_type`, for the arguments from the third on. -/
def resolveGepElementType (type : Option TypePtr) : List (Option Value) → Parser (Option TypePtr)
  | [] => pure type
  | arg :: args => do
    match ← typeAt type with
    | .struct members _ => do
      match ← constantIndex arg with
      | none => return none
      | some index =>
        match members[index % 2 ^ 32]? with
        | none => return none
        | some member => resolveGepElementType member args
    | .array element _ => resolveGepElementType (some element) args
    | .vector _ element => resolveGepElementType (some element) args
    | _ => return none

/-- `ModuleParseContext::get_constant_type`. -/
def Context.getConstantType (c : Context) : TypePtr × Context :=
  match c.constantType with
  | some t => (t, c)
  | none => c.makeType (.integer 32)

/-- The elements of an aggregate, each with its expected type. -/
def Context.getElements (c : Context) : List (Nat × Option TypePtr) → List (Option Value) × Context
  | [] => ([], c)
  | (op, t) :: rest =>
    let r := c.getValue op t true
    let rs := r.2.getElements rest
    (r.1 :: rs.1, rs.2)

/-- Make several values. -/
def Context.constructAll (c : Context) (vs : List Contents) : List ValuePtr × Context :=
  (List.range' c.objects.length vs.length, { c with objects := c.objects ++ vs })

/-- Make a value and put it into the value list. -/
def pushConstant (type : TypePtr) (contents : Contents) : Parser Unit := do
  let value ← modifyGet (·.construct contents)
  modify fun c => { c with values := c.values ++ [(value, type)] }

def parseSetType (ops : List Nat) : Parser Unit := do
  require (1 ≤ ops.length)
  let op ← opAt ops 0
  modify fun c => { c with constantType := c.getType op }

def parseConstNull : Parser Unit := do
  let type ← modifyGet Context.getConstantType
  match (← get).heap.lookup type with
  | .integer width => pushConstant type (.constantInt width 0)
  | .half | .float | .double => pushConstant type (.constantFP 0)
  | .array .. | .struct .. | .vector .. => pushConstant type .constantAggregateZero
  | .pointer .. => pushConstant type .constantPointerNull
  | _ => returnFalse

def parseUndef : Parser Unit := do
  let type ← modifyGet Context.getConstantType
  pushConstant type .undef

def parseInteger (ops : List Nat) : Parser Unit := do
  require (1 ≤ ops.length)
  let type ← modifyGet Context.getConstantType
  match (← get).heap.lookup type with
  | .integer width =>
    let literal ← opAt ops 0
    pushConstant type (.constantInt width (decodeSignRotatedValue literal % 2 ^ 64).toNat)
  | _ => returnFalse

def parseFloat (ops : List Nat) : Parser Unit := do
  require (1 ≤ ops.length)
  let type ← modifyGet Context.getConstantType
  require ((← get).heap.lookup type).isFloatingPointTy
  let literal ← opAt ops 0
  pushConstant type (.constantFP literal)

def parseAggregate (ops : List Nat) : Parser Unit := do
  let type ← modifyGet Context.getConstantType
  match (← get).heap.lookup type with
  | .struct members _ =>
    require (ops.length = members.length)
    let constants ← modifyGet (·.getElements (ops.zip members))
    pushConstant type (.constantAggregate constants)
  | .array element _ | .vector _ element =>
    let constants ← modifyGet (·.getElements (ops.map fun op => (op, some element)))
    pushConstant type (.constantAggregate constants)
  | _ => pushConstant type .undef

def parseBinopExpr (ops : List Nat) : Parser Unit := do
  let type ← modifyGet Context.getConstantType
  let op ← translateBinop (← opAt ops 0) (some type)
  let x ← opAt ops 1
  let a ← modifyGet (·.getValue x (some type) true)
  let y ← opAt ops 2
  let b ← modifyGet (·.getValue y (some type) true)
  pushConstant type (.constantExpr (.binary op) [a, b])

def parseCeCast (ops : List Nat) : Parser Unit := do
  let op := translateCastop (← opAt ops 0)
  let type ← modifyGet Context.getConstantType
  let t ← opAt ops 1
  let inputValueType ← orFalse ((← get).getType t)
  let x ← opAt ops 2
  let inputValue ← modifyGet (·.getValue x (some inputValueType) true)
  pushConstant type (.constantExpr (.cast op) [inputValue])

def parseData (ops : List Nat) : Parser Unit := do
  let type ← modifyGet Context.getConstantType
  let heap := (← get).heap
  let vector := (heap.lookup type).isVector
  let element ← match heap.lookup type with
    | .array element _ | .vector _ element => pure element
    | _ => returnFalse
  let contents : Nat → Contents ← match heap.lookup element with
    | .half | .float | .double => pure Contents.constantFP
    | .integer width => pure (Contents.constantInt width)
    | _ => returnFalse
  let constants ← modifyGet (·.constructAll (ops.map contents))
  pushConstant type (if vector then .constantDataVector constants else .constantDataArray constants)

/-- The pairs of a type and an id in the operands of an address computation. -/
def gepElements : List Nat → Parser (List (Option Value))
  | [] => pure []
  | [_] => misuse .outOfBounds
  | t :: op :: rest => do
    let value ← modifyGet fun c => c.getValue op (c.getType t) true
    let values ← gepElements rest
    return value :: values

/-- The pointee type that an address computation gives. -/
def gepExplicitType (explicit : Bool) (ops : List Nat) : Parser (Option TypePtr) :=
  if explicit then do
    let t ← opAt ops 0
    return (← get).getType t
  else pure none

/-- The pointee type of an address computation: the one that it gives, or the one of its base. -/
def gepPointeeType (explicitType : Option TypePtr) (base : Option Value) : Parser TypePtr :=
  match explicitType with
  | some t => pure t
  | none => do
    let first ← deref base
    let pointer ← castPointerType first.getType
    return pointer.1

def parseGepExpr (inrange : Bool) (ops : List Nat) : Parser Unit := do
  require (2 ≤ ops.length)
  let explicit : Bool := inrange || ops.length % 2 = 1
  let explicitType ← gepExplicitType explicit ops
  let index := (if explicit then 1 else 0) + if inrange then 1 else 0
  let elements ← gepElements (ops.drop index)
  require (2 ≤ elements.length)
  let base := elements.head?.join
  let pointee ← gepPointeeType explicitType base
  let resolved ← resolveGepElementType (some pointee) (elements.drop 2)
  let resolved ← orFalse resolved
  let first ← deref base
  let pointer ← castPointerType first.getType
  let type ← modifyGet (·.makeType (.pointer resolved pointer.2))
  pushConstant type (.constantExpr .getElementPtr elements)

/-- `ModuleParseContext::parse_constants_record`. -/
def parseConstantsRecord (entry : BlockOrRecord) : Parser Unit :=
  if entry.isBlock then pure ()
  else
    match ConstantsRecord.ofId entry.id with
    | some .setType => parseSetType entry.ops
    | some .constNull => parseConstNull
    | some .undef => parseUndef
    | some .integer => parseInteger entry.ops
    | some .float => parseFloat entry.ops
    | some .aggregate => parseAggregate entry.ops
    | some .binop => parseBinopExpr entry.ops
    | some .ceCast => parseCeCast entry.ops
    | some .data => parseData entry.ops
    | some .gep | some .inboundsGep => parseGepExpr false entry.ops
    | some .gepWithInrangeIndex => parseGepExpr true entry.ops
    | none => returnFalse

/-- `ModuleParseContext::parse_constants_block`. -/
def parseConstantsBlock (entry : BlockOrRecord) : Parser Unit := do
  modify fun c => { c with constantType := none }
  entry.children.forM parseConstantsRecord

end DxilSpirv.Bitcode
