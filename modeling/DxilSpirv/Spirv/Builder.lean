import DxilSpirv.Spirv.BlockOrder
import Mathlib.Data.Finset.Insert
import Mathlib.Logic.Function.Basic

/-!
# The builder of a module

Types and constants of a module under construction. Most of them are looked up before they are made,
so that what is asked for twice is made once. All that is declared goes into one list, in the order
in which it is made.
-/

namespace DxilSpirv.Spv

/-- `Dim`. -/
inductive Dim where
  | dim1D
  | dim2D
  | dim3D
  | cube
  | rect
  | buffer
  | subpassData
  deriving DecidableEq, Repr

/-- The operand of a dimension. -/
def Dim.toNat : Dim → Nat
  | .dim1D => 0
  | .dim2D => 1
  | .dim3D => 2
  | .cube => 3
  | .rect => 4
  | .buffer => 5
  | .subpassData => 6

/-- `ScopeSubgroup`. -/
def ScopeSubgroup : Nat := 3

/-- `StorageClassFunction`. -/
def StorageClassFunction : Nat := 7

/-- `DecorationArrayStride`. -/
def DecorationArrayStride : Nat := 6

/-- `DecorationMax`. -/
def DecorationMax : Nat := 0x7fffffff

/-- The bytes of a string. -/
def bytesOf (s : String) : List UInt8 := s.toUTF8.data.toList

/-- `Builder`. `ownType` has `acceleration_structure_type`, `ray_query_type`, `hit_object_nv_type`
and `hit_object_type`, by their operations. -/
structure Builder where
  source : Nat := 0
  sourceVersion : Nat := 0
  sourceFileStringId : Id := 0
  sourceText : List UInt8 := []
  extensions : Finset (List UInt8) := ∅
  sourceExtensions : List (List UInt8) := []
  moduleProcesses : List (List UInt8) := []
  addressModel : Nat := 0
  memoryModel : Nat := 1
  capabilities : Finset Capability := ∅
  builderNumber : Nat := 0
  module : Module :=
    { block := fun _ => { instructions := [] }, blockOf := fun _ => none, functions := [] }
  buildPoint : BlockPtr := 0
  uniqueId : Id := 0
  strings : List Instruction := []
  imports : List Instruction := []
  entryPoints : List Instruction := []
  executionModes : List Instruction := []
  names : List Instruction := []
  lines : List Instruction := []
  decorations : List Instruction := []
  constantsTypesGlobals : List Instruction := []
  externals : List Instruction := []
  groupedConstants : Op → List Instruction := fun _ => []
  groupedTypes : Op → List Instruction := fun _ => []
  coopmatConstants : List Instruction := []
  coopmatTypes : List Instruction := []
  ownType : Op → Option Instruction := fun _ => none
  importIDCache : List (List UInt8 × Id) := []

/-- `mapInstruction`. -/
def Module.mapInstruction (m : Module) (i : Instruction) : Module :=
  { m with idToInstruction := Function.update m.idToInstruction i.resultId (some i) }

/-- `getInstruction`. -/
def Module.getInstruction (m : Module) (id : Id) : Option Instruction := m.idToInstruction id

namespace Builder

variable (b : Builder)

/-- The builder after `getUniqueId`: the id is the last one that was drawn. -/
def drawId : Builder := { b with uniqueId := b.uniqueId + 1 }

/-- `addCapability`. -/
def addCapability (cap : Capability) : Builder :=
  { b with capabilities := insert cap b.capabilities }

/-- `addExtension`. -/
def addExtension (ext : String) : Builder :=
  { b with extensions := insert (bytesOf ext) b.extensions }

/-- `addName`. -/
def addName (id : Id) (string : List UInt8) : Builder :=
  { b with names := b.names ++ [(Instruction.addIdOperand { opCode := .name } id).addStringOperand
    string] }

/-- `addDecoration`. -/
def addDecoration (id : Id) (decoration : Nat) (num : Int) : Builder :=
  if decoration = DecorationMax then b
  else
    { b with
      decorations := b.decorations ++
        [{ opCode := .decorate
           operands := [id, decoration] ++ if 0 ≤ num then [num.toNat] else [] }] }

/-- `removeDecorations`. -/
def removeDecorations (ids : List Id) : Builder :=
  { b with decorations := b.decorations.filter fun i => ¬ (i.opCode = .decorate ∧
    i.getIdOperand 0 ∈ ids) }

/-- `hasDecoration`. -/
def hasDecoration (id : Id) (decoration : Nat) : Bool :=
  b.decorations.any fun dec => dec.getIdOperand 0 = id ∧ dec.getIdOperand 1 = decoration

/-- What is made goes to the end of the list, and is known by its result. -/
def declare (i : Instruction) : Builder :=
  { b with
    constantsTypesGlobals := b.constantsTypesGlobals ++ [i]
    module := b.module.mapInstruction i }

/-- `mapOpToGroupIndex`. -/
def mapOpToGroupIndex (op : Op) : Op := if op = .typeUntypedPointerKHR then .constant else op

/-- A type goes into its group. -/
def groupType (i : Instruction) : Builder :=
  { b with
    groupedTypes := Function.update b.groupedTypes (mapOpToGroupIndex i.opCode)
      (b.groupedTypes (mapOpToGroupIndex i.opCode) ++ [i]) }

/-- A constant goes into the group of the class of its type. Cooperative matrices have their own
list. -/
def groupConstant (typeClass : Op) (i : Instruction) : Builder :=
  if typeClass =
    .typeCooperativeMatrixKHR then { b with coopmatConstants := b.coopmatConstants ++ [i] }
  else
    { b with
      groupedConstants := Function.update b.groupedConstants
        typeClass (b.groupedConstants typeClass ++ [i]) }

/-- A new type of a group. -/
def makeType (opCode : Op) (operands : List Nat) : Id × Builder :=
  let i : Instruction := { opCode, resultId := b.uniqueId + 1, operands }
  (i.resultId, (b.drawId.groupType i).declare i)

/-- The first type of a group that is as wanted, or a new one with these operands, and what it asks
for. -/
def findType (opCode : Op) (wanted : Instruction → Bool) (operands : List Nat)
    (ask : Builder → Builder) :
    Id × Builder :=
  match (b.groupedTypes (mapOpToGroupIndex opCode)).find? wanted with
  | some type => (type.resultId, b)
  | none => ((b.makeType opCode operands).1, ask (b.makeType opCode operands).2)

/-- A new constant of a group. -/
def makeConstant (typeClass opCode : Op) (typeId : Id) (operands : List Nat) : Id × Builder :=
  let c : Instruction := { opCode, resultId := b.uniqueId + 1, typeId, operands }
  (c.resultId, (b.drawId.groupConstant typeClass c).declare c)

/-- The types of a group that has one type at most. -/
def makeOnlyType (opCode : Op) : Id × Builder :=
  match (b.groupedTypes opCode).getLast? with
  | some type => (type.resultId, b)
  | none => b.makeType opCode []

/-- `makeVoidType`. -/
def makeVoidType : Id × Builder := b.makeOnlyType .typeVoid

/-- `makeBoolType`. -/
def makeBoolType : Id × Builder := b.makeOnlyType .typeBool

/-- `makeSamplerType`. -/
def makeSamplerType : Id × Builder := b.makeOnlyType .typeSampler

/-- A type without operands that is kept in a field of its own. -/
def makeOwnType (opCode : Op) : Id × Builder :=
  match b.ownType opCode with
  | some type => (type.resultId, b)
  | none =>
    let type : Instruction := { opCode, resultId := b.uniqueId + 1 }
    (type.resultId, { b.drawId with ownType := Function.update b.ownType opCode (some type)
      }.declare type)

/-- `makeAccelerationStructureType`. -/
def makeAccelerationStructureType : Id × Builder := b.makeOwnType .typeAccelerationStructureKHR

/-- `makeRayQueryType`. -/
def makeRayQueryType : Id × Builder := b.makeOwnType .typeRayQueryKHR

/-- `makeHitObjectNVType`. -/
def makeHitObjectNVType : Id × Builder := b.makeOwnType .typeHitObjectNV

/-- `makeHitObjectType`. -/
def makeHitObjectType : Id × Builder := b.makeOwnType .typeHitObjectEXT

/-- `makePointer`. -/
def makePointer (storageClass : Nat) (pointee : Id) : Id × Builder :=
  b.findType .typePointer (fun type => type.getIdOperand 0 =
    storageClass ∧ type.getIdOperand 1 = pointee)
    [storageClass, pointee] id

/-- `makeUntypedPointer`. -/
def makeUntypedPointer (storageClass : Nat) : Id × Builder :=
  b.findType .typeUntypedPointerKHR (fun type =>
    type.getIdOperand 0 = storageClass) [storageClass] id

/-- The capability that integers of a width ask for. -/
def integerCapability (b : Builder) : Nat → Builder
  | 8 => b.addCapability .int8
  | 16 => b.addCapability .int16
  | 64 => b.addCapability .int64
  | _ => b

/-- `makeIntegerType`: only a new type asks for its capability. -/
def makeIntegerType (width : Nat) (hasSign : Bool) : Id × Builder :=
  b.findType .typeInt (fun type => type.getIdOperand 0 = width ∧ type.getIdOperand 1 =
    hasSign.toNat) [width, hasSign.toNat] (integerCapability · width)

/-- What floats of a width and an encoding ask for. Eight bits without an encoding are not legal,
and ask for nothing. -/
def floatCapability (b : Builder) (encoding : Option Nat) : Nat → Builder
  | 8 =>
    if encoding.isSome then
      ((b.addExtension "SPV_EXT_float8").addCapability .float8EXT).addCapability
        .float8CooperativeMatrixEXT
    else b
  | 16 => b.addCapability .float16
  | 64 => b.addCapability .float64
  | _ => b

/-- `makeFloatType`: there is no encoding where the source has a negative one. -/
def makeFloatType (width : Nat) (encoding : Option Nat) : Id × Builder :=
  b.findType .typeFloat
    (fun type => match encoding with
      | some encoding =>
        type.operands.length = 2 ∧ type.getIdOperand 0 = width ∧ type.getIdOperand 1 = encoding
      | none => type.operands.length = 1 ∧ type.getIdOperand 0 = width)
    (width :: encoding.toList) (floatCapability · encoding width)

/-- `makeStructType`: structs are never looked up. -/
def makeStructType (members : List Id) (name : List UInt8) : Id × Builder :=
  let made := b.makeType .typeStruct members
  (made.1, made.2.addName made.1 name)

/-- `makeStructResultType`. -/
def makeStructResultType (type0 type1 : Id) : Id × Builder :=
  match (b.groupedTypes .typeStruct).find? fun type =>
      type.operands.length = 2 ∧ type.getIdOperand 0 = type0 ∧ type.getIdOperand 1 = type1 with
  | some type => (type.resultId, b)
  | none => b.makeStructType [type0, type1] (bytesOf "ResType")

/-- `makeVectorType`: a long vector asks for its capability every time. -/
def makeVectorType (component : Id) (size : Nat) : Id × Builder :=
  let b := if size = 1 ∨ size > 4 then
    (b.addExtension "SPV_EXT_long_vector").addCapability .longVectorEXT else b
  b.findType .typeVector (fun type => type.getIdOperand 0 = component ∧ type.getIdOperand 1 = size)
    [component, size] id

/-- `makeMatrixType`. -/
def makeMatrixType (component : Id) (cols rows : Nat) : Id × Builder :=
  let column := b.makeVectorType component rows
  column.2.findType .typeMatrix (fun type =>
    type.getIdOperand 0 = column.1 ∧ type.getIdOperand 1 = cols)
    [column.1, cols] id

/-- `makeArrayType`: arrays with a stride are never looked up, nor found. -/
def makeArrayType (element sizeId : Id) (stride : Nat) : Id × Builder :=
  if stride = 0 then
    b.findType .typeArray
      (fun type => type.getIdOperand 0 = element ∧ type.getIdOperand 1 = sizeId ∧
        ¬ b.hasDecoration type.resultId DecorationArrayStride)
      [element, sizeId] id
  else b.makeType .typeArray [element, sizeId]

/-- `makeRuntimeArray`: no group keeps it. -/
def makeRuntimeArray (element : Id) : Id × Builder :=
  let type : Instruction := { opCode := .typeRuntimeArray, resultId := b.uniqueId + 1, operands :=
    [element] }
  (type.resultId, b.drawId.declare type)

/-- `makeFunctionType`. -/
def makeFunctionType (returnType : Id) (paramTypes : List Id) : Id × Builder :=
  b.findType .typeFunction (fun type => type.operands = returnType :: paramTypes) (returnType ::
    paramTypes) id

/-- What an image asks for. -/
def imageCapability (b : Builder) (dim : Dim) (arrayed ms : Bool) (sampled : Nat) : Builder :=
  let b := match dim with
    | .buffer => b.addCapability (if sampled = 1 then .sampledBuffer else .imageBuffer)
    | .dim1D => b.addCapability (if sampled = 1 then .sampled1D else .image1D)
    | .cube =>
      if arrayed then
        b.addCapability (if sampled = 1 then .sampledCubeArray else .imageCubeArray)
      else b
    | .rect => b.addCapability (if sampled = 1 then .sampledRect else .imageRect)
    | .subpassData => b.addCapability .inputAttachment
    | _ => b
  if ms ∧ sampled = 2 then
    let b := if dim ≠ .subpassData then b.addCapability .storageImageMultisample else b
    if arrayed then b.addCapability .imageMSArray else b
  else b

/-- `makeImageType`. -/
def makeImageType (sampledType : Id) (dim : Dim) (depth arrayed ms : Bool) (sampled format : Nat) :
    Id × Builder :=
  b.findType .typeImage
    (fun type =>
      type.getIdOperand 0 = sampledType ∧ type.getIdOperand 1 = dim.toNat ∧ type.getIdOperand 2 =
        depth.toNat ∧
        type.getIdOperand 3 = arrayed.toNat ∧ type.getIdOperand 4 = ms.toNat ∧
          type.getIdOperand 5 = sampled ∧
        type.getIdOperand 6 = format)
    [sampledType, dim.toNat, depth.toNat, arrayed.toNat, ms.toNat, sampled, format]
    (imageCapability · dim arrayed ms sampled)

/-- `makeSampledImageType`. -/
def makeSampledImageType (imageType : Id) : Id × Builder :=
  b.findType .typeSampledImage (fun type => type.getIdOperand 0 = imageType) [imageType] id

/-- `findScalarConstant`, of one value or two: the result of the constant, or zero. -/
def findScalarConstant (typeClass opcode : Op) (typeId : Id) (values : List Nat) : Id :=
  (((b.groupedConstants typeClass).find? fun constant =>
    constant.opCode = opcode ∧ constant.typeId =
      typeId ∧ constant.operands.take values.length = values).map
      (·.resultId)).getD 0

/-- The constant that was made already, unless it is to be specialized, or a new one. -/
def findOrMakeScalar (typeClass : Op) (typeId : Id) (values : List Nat) (specConstant : Bool) :
    Id × Builder :=
  let opcode : Op := if specConstant then .specConstant else .constant
  let existing := if specConstant then 0 else b.findScalarConstant typeClass opcode typeId values
  if existing ≠ 0 then (existing, b) else b.makeConstant typeClass opcode typeId values

/-- `makeNullConstant`. -/
def makeNullConstant (typeId : Id) : Id × Builder :=
  let c : Instruction := { opCode := .constantNull, resultId := b.uniqueId + 1, typeId }
  (c.resultId, b.drawId.declare c)

/-- `makeBoolConstant`: the last one that was made. -/
def makeBoolConstant (value specConstant : Bool) : Id × Builder :=
  let type := b.makeBoolType
  let opcode : Op :=
    if specConstant then (if value then .specConstantTrue else .specConstantFalse)
    else if value then .constantTrue else .constantFalse
  let existing :=
    if specConstant then 0
    else (((type.2.groupedConstants .typeBool).filter fun constant =>
      constant.typeId = type.1 ∧ constant.opCode = opcode).getLast?.map (·.resultId)).getD 0
  if existing ≠ 0 then (existing, type.2) else type.2.makeConstant .typeBool opcode type.1 []

/-- `makeIntConstant`, of a type. -/
def makeIntConstantOf (typeId : Id) (value : Nat) (specConstant : Bool) : Id × Builder :=
  b.findOrMakeScalar .typeInt typeId [value] specConstant

/-- `makeInt64Constant`, of a type. -/
def makeInt64ConstantOf (typeId : Id) (value : Nat) (specConstant : Bool) : Id × Builder :=
  b.findOrMakeScalar .typeInt typeId [value &&& 0xFFFFFFFF, value >>> 32] specConstant

/-- A constant of an integer type of less than 64 bits. -/
def makeIntegerConstant (width : Nat) (hasSign : Bool) (value : Nat) (specConstant : Bool) :
    Id × Builder :=
  let type := b.makeIntegerType width hasSign
  type.2.makeIntConstantOf type.1 value specConstant

/-- The unsigned word that an integer is converted to. -/
def toUnsigned (i : Int) : Nat := (BitVec.ofInt 32 i).toNat

/-- `makeIntConstant`. -/
def makeIntConstant (i : BitVec 32) (specConstant : Bool) : Id × Builder :=
  b.makeIntegerConstant 32 true (toUnsigned i.toInt) specConstant

/-- `makeUintConstant`. -/
def makeUintConstant (u : BitVec 32) (specConstant : Bool) : Id × Builder :=
  b.makeIntegerConstant 32 false u.toNat specConstant

/-- `makeInt16Constant`. -/
def makeInt16Constant (i : BitVec 16) (specConstant : Bool) : Id × Builder :=
  b.makeIntegerConstant 16 true (toUnsigned i.toInt) specConstant

/-- `makeUint16Constant`. -/
def makeUint16Constant (u : BitVec 16) (specConstant : Bool) : Id × Builder :=
  b.makeIntegerConstant 16 false u.toNat specConstant

/-- `makeInt8Constant`. -/
def makeInt8Constant (i : BitVec 8) (specConstant : Bool) : Id × Builder :=
  b.makeIntegerConstant 8 true (toUnsigned i.toInt) specConstant

/-- `makeUint8Constant`. -/
def makeUint8Constant (u : BitVec 8) (specConstant : Bool) : Id × Builder :=
  b.makeIntegerConstant 8 false u.toNat specConstant

/-- `makeInt64Constant` and `makeUint64Constant`. -/
def makeWideConstant (hasSign : Bool) (value : BitVec 64) (specConstant : Bool) : Id × Builder :=
  let type := b.makeIntegerType 64 hasSign
  type.2.makeInt64ConstantOf type.1 value.toNat specConstant

/-- `makeFloatConstant`, of the bits of the value. -/
def makeFloatConstant (f : BitVec 32) (specConstant : Bool) : Id × Builder :=
  let type := b.makeFloatType 32 none
  type.2.findOrMakeScalar .typeFloat type.1 [f.toNat] specConstant

/-- `makeDoubleConstant`, of the bits of the value. -/
def makeDoubleConstant (d : BitVec 64) (specConstant : Bool) : Id × Builder :=
  let type := b.makeFloatType 64 none
  type.2.findOrMakeScalar .typeFloat type.1 [d.toNat &&& 0xFFFFFFFF, d.toNat >>> 32] specConstant

/-- `makeFloat16Constant`. -/
def makeFloat16Constant (f16 : BitVec 16) (specConstant : Bool) : Id × Builder :=
  let type := b.makeFloatType 16 none
  type.2.findOrMakeScalar .typeFloat type.1 [f16.toNat] specConstant

/-- `makeFloat8Constant`. -/
def makeFloat8Constant (f8 : BitVec 8) (encoding : Option Nat) (specConstant : Bool) :
    Id × Builder :=
  let type := b.makeFloatType 8 encoding
  type.2.findOrMakeScalar .typeFloat type.1 [f8.toNat] specConstant

/-- `makeCooperativeMatrixType`: the scope of a type that is found is not looked at. -/
def makeCooperativeMatrixType (scalarType rows cols use : Id) : Id × Builder :=
  match b.coopmatTypes.find? fun type =>
      type.getIdOperand 0 = scalarType ∧ type.getIdOperand 2 = rows ∧ type.getIdOperand 3 = cols ∧
        type.getIdOperand 4 = use with
  | some type => (type.resultId, b)
  | none =>
    let b := (b.addExtension "SPV_KHR_cooperative_matrix").addCapability .cooperativeMatrixKHR
    let resultId := b.uniqueId + 1
    -- The type has its id before the scope is made, and is declared after it.
    let scope := b.drawId.makeUintConstant (BitVec.ofNat 32 ScopeSubgroup) false
    let type : Instruction :=
      { opCode := .typeCooperativeMatrixKHR, resultId, operands :=
        [scalarType, scope.1, rows, cols, use] }
    (type.resultId, { scope.2 with coopmatTypes := scope.2.coopmatTypes ++ [type] }.declare type)

/-- `findCompositeConstant`: the type of a constant is not looked at, and of a matrix only the first
component. -/
def findCompositeConstant (typeClass : Op) (comps : List Id) : Id :=
  if typeClass = .typeCooperativeMatrixKHR then
    ((b.coopmatConstants.find? fun constant => constant.getIdOperand 0 = comps.headD 0).map
      (·.resultId)).getD 0
  else (((b.groupedConstants typeClass).find? fun constant => constant.operands =
    comps).map (·.resultId)).getD 0

/-- `getTypeClass`, of a type that is known. -/
def getTypeClass (typeId : Id) : Option Op := (b.module.getInstruction typeId).map (·.opCode)

/-- The classes of the types of composites. -/
def compositeClasses : List Op :=
  [.typeVector, .typeArray, .typeStruct, .typeMatrix, .typeCooperativeMatrixKHR]

/-- `makeCompositeConstant`. -/
def makeCompositeConstant (typeId : Id) (members : List Id) (specConstant : Bool) :
    Option (Id × Builder) := do
  let opcode : Op := if specConstant then .specConstantComposite else .constantComposite
  let typeClass ← b.getTypeClass typeId
  if typeClass ∈ compositeClasses then
    let existing := if specConstant then 0 else b.findCompositeConstant typeClass members
    if existing ≠ 0 then some (existing, b) else
      some (b.makeConstant typeClass opcode typeId members)
  else some (b.makeFloatConstant 0 false)

/-- `createUndefinedConstant`. -/
def createUndefinedConstant (type : Id) : Id × Builder :=
  let i : Instruction := { opCode := .undef, resultId := b.uniqueId + 1, typeId := type }
  (i.resultId, b.drawId.declare i)

/-- What is not declared in the module is known by the id that it draws. -/
def drawInstruction (i : Instruction) : Builder :=
  { b.drawId with module := b.module.mapInstruction i }

/-- The name of an id, if it is given one. -/
def addNameOf (id : Id) : Option (List UInt8) → Builder
  | some name => b.addName id name
  | none => b

/-- `addLocalVariable`: into the first block of the function that instructions go to. There is none
before a function is made. -/
def addLocalVariable (i : Instruction) : Option Builder := do
  let f ← b.module.functions.find? fun f => b.buildPoint ∈ f.blocks
  let entry ← f.blocks.head?
  let block := b.module.block entry
  let m : Module :=
    { b.module with
      block := Function.update b.module.block entry
        { block with localVariables := block.localVariables ++ [i] } }
  some { b with module := m.mapInstruction i }

/-- The variables of a function are not declared in the module. -/
def addVariable (storageClass : Nat) (i : Instruction) : Option Builder :=
  if storageClass = StorageClassFunction then b.addLocalVariable i else some (b.declare i)

/-- `createVariableWithInitializer`. -/
def createVariable (storageClass : Nat) (type initializer : Id) (name : Option (List UInt8)) :
    Option (Id × Builder) := do
  let pointer := b.makePointer storageClass type
  let i : Instruction :=
    { opCode := .variable, resultId := pointer.2.uniqueId + 1, typeId := pointer.1
      operands := storageClass :: if initializer = 0 then [] else [initializer] }
  let b ← pointer.2.drawId.addVariable storageClass i
  some (i.resultId, b.addNameOf i.resultId name)

/-- The parameters of a function, of these types. They draw their ids one after the other. -/
def addParameters : List Id → Builder → List Instruction × Builder
  | [], b => ([], b)
  | typeId :: typeIds, b =>
    let param : Instruction := { opCode := .functionParameter, resultId := b.uniqueId + 1, typeId }
    let rest := addParameters typeIds (b.drawInstruction param)
    (param :: rest.1, rest.2)

/-- The decorations of the parameters, which follow one another from the first one on. -/
def decorateParameters (firstParamId : Id) (decorations : List (List Nat)) : Builder :=
  decorations.zipIdx.foldl (fun b (ds, p) =>
    ds.foldl (fun b d => b.addDecoration (firstParamId + p) d (-1)) b) b

/-- A block that begins with its label becomes the one that instructions go to. It stands at the
address of its id. -/
def addEntryBlock : Builder :=
  let label : Instruction := { opCode := .label, resultId := b.uniqueId + 1 }
  let m : Module :=
    { b.module with
      block := Function.update b.module.block label.resultId { instructions := [label] }
      blockOf := Function.update b.module.blockOf label.resultId (some label.resultId) }
  { b.drawId with
    module := m.mapInstruction label
    buildPoint := label.resultId }

/-- `makeFunctionEntry`: the parameters draw their ids before the function does, and the block that
is asked for draws its own after it. -/
def makeFunctionEntry (precision : Nat) (returnType : Id) (name : Option (List UInt8))
    (paramTypes : List Id) (decorations : List (List Nat)) (entry : Bool) : Id × Builder :=
  let type := b.makeFunctionType returnType paramTypes
  let firstParamId := if paramTypes = [] then 0 else type.2.uniqueId + 1
  let params := addParameters paramTypes type.2
  let function : Instruction :=
    { opCode := .function, resultId := params.2.uniqueId + 1, typeId := returnType, operands :=
      [0, type.1] }
  let b := (params.2.drawInstruction function).addDecoration function.resultId precision (-1)
  let b := b.decorateParameters firstParamId decorations
  let f : Function :=
    { blocks := if entry then [b.uniqueId + 1] else []
      functionInstruction := function
      parameterInstructions := params.1 }
  let b := (if entry then b.addEntryBlock else b).addNameOf function.resultId name
  (function.resultId, { b with module := { b.module with functions := b.module.functions ++ [f] } })

/-- `addInstruction`, of an operation with a result and all its operands. -/
def addInstruction (opCode : Op) (typeId : Id) (operands : List Nat) : Id × Builder :=
  let i : Instruction := { opCode, resultId := b.uniqueId + 1, typeId, operands }
  let block := b.module.block b.buildPoint
  let m : Module :=
    { b.module with
      block := Function.update b.module.block b.buildPoint { block
        with instructions := block.instructions ++ [i] }
      blockOf := Function.update b.module.blockOf i.resultId (some b.buildPoint) }
  (i.resultId, { b.drawId with module := m.mapInstruction i })

end Builder

end DxilSpirv.Spv
