import DxilSpirv.Bitcode.Functions

/-!
# The module

The blocks and records at the top level: types, attributes, metadata, global variables, functions
and constants, and the function bodies.
-/

namespace DxilSpirv.Bitcode

open DxilSpirv.Program

/-- `TypeRecord`, as far as it is handled. -/
inductive TypeRecord where
  | numEntry | voidType | float | double | label | opaqueType | integer | pointer | half | array
  | vector | metadata | structAnon | structName | structNamed | function
  deriving DecidableEq, Repr

/-- The record with an id. -/
def TypeRecord.ofId : Nat → Option TypeRecord
  | 1 => some numEntry
  | 2 => some voidType
  | 3 => some float
  | 4 => some double
  | 5 => some label
  | 6 => some opaqueType
  | 7 => some integer
  | 8 => some pointer
  | 10 => some half
  | 11 => some array
  | 12 => some vector
  | 16 => some metadata
  | 18 => some structAnon
  | 19 => some structName
  | 20 => some structNamed
  | 21 => some function
  | _ => none

/-- `ModuleParseContext::add_type`. -/
def addType (p : TypePtr) : Parser Unit := modify fun c => { c with types := c.types ++ [p] }

/-- Add the cached type with these contents. -/
def addCachedType (t : IRType) : Parser Unit := do
  let p ← modifyGet (·.makeType t)
  addType p

def parsePointerType (ops : List Nat) : Parser Unit := do
  require (2 ≤ ops.length)
  let t ← opAt ops 0
  let pointee ← orFalse ((← get).getType t)
  let addressSpace ← opAt ops 1
  addCachedType (.pointer pointee (addressSpace % 2 ^ 32))

def parseArrayType (ops : List Nat) : Parser Unit := do
  require (2 ≤ ops.length)
  let t ← opAt ops 1
  let element ← orFalse ((← get).getType t)
  let elements ← opAt ops 0
  addCachedType (.array element elements)

def parseIntegerType (ops : List Nat) : Parser Unit := do
  require (1 ≤ ops.length)
  let width ← opAt ops 0
  require (width ≤ 64)
  addCachedType (.integer width)

def parseStructType (named : Bool) (ops : List Nat) : Parser Unit := do
  require (1 ≤ ops.length)
  let c ← get
  addCachedType (.struct ((ops.drop 1).map c.getType) (if named then c.currentStructName else []))

def parseVectorType (ops : List Nat) : Parser Unit := do
  require (2 ≤ ops.length)
  let t ← opAt ops 1
  let element ← orFalse ((← get).getType t)
  let size ← opAt ops 0
  addCachedType (.vector (size % 2 ^ 32) element)

/-- Function types are made anew for each record. -/
def parseFunctionType (ops : List Nat) : Parser Unit := do
  require (2 ≤ ops.length)
  let t ← opAt ops 1
  let c ← get
  let returnType ← orFalse (c.getType t)
  let (heap, p) := c.heap.construct (.function returnType ((ops.drop 2).map c.getType))
  set { c with heap := heap }
  addType p

/-- `ModuleParseContext::parse_type`. -/
def parseType (entry : BlockOrRecord) : Parser Unit :=
  match TypeRecord.ofId entry.id with
  | some .numEntry => pure ()
  | some .structName => modify fun c => { c with currentStructName := entry.getString }
  | some .voidType => addCachedType .void
  | some .half => addCachedType .half
  | some .float => addCachedType .float
  | some .double => addCachedType .double
  | some .pointer => parsePointerType entry.ops
  | some .array => parseArrayType entry.ops
  | some .integer => parseIntegerType entry.ops
  | some .structNamed => parseStructType true entry.ops
  | some .structAnon => parseStructType false entry.ops
  | some .vector => parseVectorType entry.ops
  | some .function => parseFunctionType entry.ops
  | some .label => addCachedType .label
  | some .metadata => addCachedType .metadata
  | some .opaqueType => addCachedType .opaqueType
  | none => returnFalse

/-- `ModuleParseContext::parse_types`. -/
def parseTypes (entry : BlockOrRecord) : Parser Unit := entry.children.forM parseType

/-- The entries of `parse_value_symtab`. -/
def parseSymtabEntry (entry : BlockOrRecord) : Parser Unit :=
  if entry.id = 1 then do
    require (1 ≤ entry.ops.length)
    let id ← opAt entry.ops 0
    modify fun c => { c with module := { c.module with
      valueSymtab := (id, entry.getString 1) :: c.module.valueSymtab } }
  else pure ()

/-- `ModuleParseContext::parse_value_symtab`. -/
def parseValueSymtab (entry : BlockOrRecord) : Parser Unit := entry.children.forM parseSymtabEntry

/-- `MetaDataRecord`, as far as it is handled. -/
inductive MetaDataRecord where
  | stringOld | value | node | name | kind | namedNode
  deriving DecidableEq, Repr

/-- The record with an id; distinct nodes are nodes. -/
def MetaDataRecord.ofId : Nat → Option MetaDataRecord
  | 1 => some stringOld
  | 2 => some value
  | 3 | 5 => some node
  | 4 => some name
  | 6 => some kind
  | 10 => some namedNode
  | _ => none

/-- Metadata is kept by the index of its record. -/
def addMetadata (index : Nat) (md : MDOperand) : Parser Unit :=
  modify fun c => { c with metadata := (index, md) :: c.metadata }

def parseMetadataValue (ops : List Nat) (index : Nat) : Parser Unit := do
  require (2 ≤ ops.length)
  let op ← opAt ops 1
  let value ← modifyGet (·.getValue op none true)
  let value ← orFalse value
  let c ← get
  let p ← deref (c.resolveProxy value)
  require (c.object p.1).isConstant
  addMetadata index (.constant p.1)

def parseMetadataKind (entry : BlockOrRecord) : Parser Unit := do
  require (1 ≤ entry.ops.length)
  let id ← opAt entry.ops 0
  modify fun c => { c with metadataKindMap := (id, entry.getString 1) :: c.metadataKindMap }

/-- `ModuleParseContext::parse_metadata_record`. -/
def parseMetadataRecord (entry : BlockOrRecord) (index : Nat) : Parser Unit :=
  match MetaDataRecord.ofId entry.id with
  | some .name => modify fun c => { c with currentMetadataName := entry.getString }
  | some .namedNode => do
    let c ← get
    let node := MDOperand.namedNode c.currentMetadataName
      (entry.ops.map fun op => (c.getMetadata op).asNode)
    modify fun c => { c with module := { c.module with
      namedMetadata := (c.currentMetadataName, node) :: c.module.namedMetadata } }
    addMetadata index node
  | some .node => do
    let c ← get
    -- here metadata is indexed from one
    let node := MDOperand.node
      (entry.ops.map fun op => c.getMetadata ((op + (2 ^ 64 - 1)) % 2 ^ 64))
    modify fun c => { c with module := { c.module with
      unnamedMetadata := c.module.unnamedMetadata ++ [node] } }
    addMetadata index node
  | some .stringOld => addMetadata index (.string entry.getString)
  | some .value => parseMetadataValue entry.ops index
  | some .kind => parseMetadataKind entry
  | none => pure ()

/-- `ModuleParseContext::parse_metadata_block`. -/
def parseMetadataBlock (entry : BlockOrRecord) : Parser Unit :=
  (entry.children.zip (List.range entry.children.length)).forM fun x =>
    parseMetadataRecord x.1 x.2

/-- The groups of an attribute list; a group that is missing is made. -/
def Context.attributeGroup (c : Context) (group : Nat) : List (List Nat × List Nat) × Context :=
  match c.attributeGroups.lookup group with
  | some attributes => (attributes, c)
  | none => ([], { c with attributeGroups := (group, []) :: c.attributeGroups })

/-- The attributes of several groups. -/
def Context.attributePairs (c : Context) : List Nat → List (List Nat × List Nat) × Context
  | [] => ([], c)
  | group :: groups =>
    let r := c.attributeGroup group
    let rs := r.2.attributePairs groups
    (r.1 ++ rs.1, rs.2)

/-- One record of `parse_paramattr_block`. -/
def parseParamattr (entry : BlockOrRecord) : Parser Unit :=
  if entry.isBlock then pure ()
  else do
    require (entry.id = 2)
    let pairs ← modifyGet (·.attributePairs entry.ops)
    modify fun c => { c with attributeLists := c.attributeLists ++ [pairs] }

/-- `ModuleParseContext::parse_paramattr_block`. -/
def parseParamattrBlock (entry : BlockOrRecord) : Parser Unit := entry.children.forM parseParamattr

/-- A string that a zero ends, and the operands after the zero. The operand is read before its index
is compared with their number. -/
def readString : List Nat → Parser (List Nat × List Nat)
  | [] => misuse .outOfBounds
  | op :: ops =>
    if op = 0 then pure ([], ops)
    else do
      let r ← readString ops
      return (op % 2 ^ 8 :: r.1, r.2)

/-- Whether an integer attribute has a value. -/
def attributeHasValue (code : Nat) : Bool := code % 2 ^ 32 ∈ [1, 25, 51, 41, 42]

/-- The attributes of a group. Every attribute takes an operand at least. -/
def groupAttributes : Nat → List Nat → Parser (List (List Nat × List Nat))
  | 0, _ => pure []
  | _, [] => pure []
  | fuel + 1, form :: ops =>
    if form = 0 then
      match ops with
      | [] => returnFalse
      | _ :: rest => groupAttributes fuel rest
    else if form = 1 then
      match ops with
      | [] => returnFalse
      | code :: rest =>
        if attributeHasValue code then
          match rest with
          | [] => returnFalse
          | _ :: rest => groupAttributes fuel rest
        else groupAttributes fuel rest
    else if form = 3 ∨ form = 4 then do
      let kind ← readString ops
      let value ← if form = 4 then readString kind.2 else pure ([], kind.2)
      let attributes ← groupAttributes fuel value.2
      return (kind.1, value.1) :: attributes
    else if form = 5 ∨ form = 6 then
      match ops with
      | [] => returnFalse
      | code :: rest =>
        if code % 2 ^ 32 = 3 ∧ form = 6 then
          match rest with
          | [] => returnFalse
          | _ :: rest => groupAttributes fuel rest
        else groupAttributes fuel rest
    else returnFalse

/-- One record of `parse_paramattr_group_block`. -/
def parseParamattrGroup (entry : BlockOrRecord) : Parser Unit :=
  if entry.isBlock ∨ entry.id ≠ 3 then pure ()
  else do
    require (3 ≤ entry.ops.length)
    let group ← opAt entry.ops 0
    let index ← opAt entry.ops 1
    -- only attributes of the function matter
    if index ≠ 2 ^ 32 - 1 then pure ()
    else
      let old ← modifyGet (·.attributeGroup group)
      let attributes ← groupAttributes entry.ops.length (entry.ops.drop 2)
      modify fun c => { c with attributeGroups := (group, old ++ attributes) :: c.attributeGroups }

/-- `ModuleParseContext::parse_paramattr_group_block`. -/
def parseParamattrGroupBlock (entry : BlockOrRecord) : Parser Unit := do
  require ((← get).attributeGroups.isEmpty)
  entry.children.forM parseParamattrGroup

/-- `decode_linkage`. -/
def decodeLinkage (v : Nat) : LinkageTypes :=
  if v ∈ [0, 5, 6, 15] then .externalLinkage
  else if v = 2 then .appendingLinkage
  else .internalLinkage

/-- `ModuleParseContext::parse_global_variable_record`. -/
def parseGlobalVariableRecord (entry : BlockOrRecord) : Parser Unit := do
  require (¬ (← get).useStrtab)
  require (4 ≤ entry.ops.length)
  let t ← opAt entry.ops 0
  let flags ← opAt entry.ops 1
  let init ← opAt entry.ops 2
  let linkage ← opAt entry.ops 3
  let type := (← get).getType t
  let (type, addressSpace) ← if flags.testBit 1 then pure (type, flags / 4 % 2 ^ 32)
    else do
      let pointer ← castPointerType type
      pure (some pointer.1, pointer.2)
  let type ← orFalse type
  let pointer ← modifyGet (·.makeType (.pointer type addressSpace))
  let value ← modifyGet
    (·.construct (.globalVariable (decodeLinkage linkage) (flags.testBit 0) none))
  modify fun c => { c with module := { c.module with globals := c.module.globals ++ [value] } }
  addValue value (some pointer)
  if init ≠ 0 then
    modify fun c =>
      { c with globalInitializations := c.globalInitializations ++ [(value, init - 1)] }
  else pure ()

/-- The function type of a function record: the type itself or what it points to. -/
def recordFunctionType (type : TypePtr) : Parser TypePtr := do
  match (← get).heap.lookup type with
  | .function .. => pure type
  | _ => do
    let pointer ← castPointerType (some type)
    let _ ← castFunctionType (some pointer.1)
    pure pointer.1

/-- `ModuleParseContext::parse_function_record`. -/
def parseFunctionRecord (entry : BlockOrRecord) : Parser Unit := do
  require (¬ (← get).useStrtab)
  require (3 ≤ entry.ops.length)
  let t ← opAt entry.ops 0
  let isProto ← opAt entry.ops 2
  let type ← orFalse ((← get).getType t)
  let functionType ← recordFunctionType type
  let c ← get
  let attributes := match entry.ops[4]? with
    | some a => if a ≠ 0 then (c.attributeLists[a - 1]?).getD [] else []
    | none => []
  let func ← modifyGet (·.construct (.function functionType c.values.length attributes [] []))
  modify fun c => { c with values := c.values ++ [(func, functionType)] }
  if isProto = 0 then
    modify fun c => { c with functionsWithBodies := c.functionsWithBodies ++ [func] }
  else pure ()

/-- `ModuleParseContext::parse_version_record`. -/
def parseVersionRecord (entry : BlockOrRecord) : Parser Unit := do
  require (1 ≤ entry.ops.length)
  let op ← opAt entry.ops 0
  let version := op % 2 ^ 32
  modify fun c => { c with useRelativeId := 1 ≤ version, useStrtab := 2 ≤ version }

/-- The blocks and records at the top level of `parseIR`. -/
def parseModuleChild (entry : BlockOrRecord) : Parser Unit :=
  if entry.isBlock then
    match entry.id with
    | 14 => parseValueSymtab entry
    | 12 => parseFunctionBody entry
    | 17 => parseTypes entry
    | 11 => parseConstantsBlock entry
    | 15 => parseMetadataBlock entry
    | 9 => parseParamattrBlock entry
    | 10 => parseParamattrGroupBlock entry
    | _ => pure ()
  else
    match entry.id with
    | 1 => parseVersionRecord entry
    | 8 => parseFunctionRecord entry
    | 7 => parseGlobalVariableRecord entry
    | _ => pure ()

/-- `parseIR`, for the top-level block that was read. -/
def parseIR (toplevel : BlockOrRecord) : Parser Unit := do
  require (toplevel.id = 8)
  toplevel.children.forM parseModuleChild

end DxilSpirv.Bitcode
