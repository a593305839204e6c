import DxilSpirv.Bitcode.Instructions

/-!
# Function bodies

A function body puts its arguments, constants and instructions behind the values of the module. At
its end the forward references are resolved, and the value list is what it was.
-/

namespace DxilSpirv.Bitcode

open DxilSpirv.Program

/-- The value an operand stands for. -/
def Context.resolveOperand (c : Context) (v : Option Value) : Option Value :=
  v.bind fun v => (c.resolveProxy v).map fun p => .object p.1 p.2

/-- Replace a value. -/
def Context.setObject (c : Context) (p : ValuePtr) (v : Contents) : Context :=
  { c with objects := c.objects.set p v }

/-- `ValueProxy::resolve`. The value list has no proxies, so one step is enough. -/
def resolveReference (ref : Nat) : Parser Unit := do
  let c ← get
  if (c.valueProxy ref).proxy.isSome then pure ()
  else
    let target ← orFalse c.values[(c.valueProxy ref).id]?
    modify fun c => { c with
      proxies := c.proxies.modify ref fun x => { x with proxy := some target } }

/-- `PHINode::resolve_proxy_values_incoming`. -/
def Context.resolveIncoming (c : Context) :
    List (Value × BlockPtr) → Parser (List (Value × BlockPtr))
  | [] => pure []
  | (v, bb) :: rest => do
    let value ← orFalse (c.resolveOperand (some v))
    let incoming ← c.resolveIncoming rest
    return (value, bb) :: incoming

/-- `Instruction::resolve_proxy_values`. -/
def resolveProxyValues (inst : ValuePtr) : Parser Unit := do
  let c ← get
  match c.object inst with
  | .instruction (.phi incoming) operands attachments =>
    let incoming ← c.resolveIncoming incoming
    modify (·.setObject inst
      (.instruction (.phi incoming) (operands.map c.resolveOperand) attachments))
  | .instruction kind operands attachments =>
    modify (·.setObject inst (.instruction kind (operands.map c.resolveOperand) attachments))
  | _ => pure ()

/-- The instructions of all basic blocks of the function. -/
def Context.blockInstructions (c : Context) : List ValuePtr :=
  c.basicBlocks.flatMap fun bb => (c.blocks.getD bb {}).instructions

/-- `ModuleParseContext::resolve_forward_references`. -/
def resolveForwardReferences : Parser Unit := do
  (← get).pendingForwardReferences.forM resolveReference
  modify fun c => { c with pendingForwardReferences := [] }
  (← get).blockInstructions.forM resolveProxyValues

/-- Set the initializer of one global variable. -/
def resolveInitialization (ref : ValuePtr × Nat) : Parser Unit := do
  let value ← modifyGet (·.getValue ref.2 none true)
  let value ← orFalse value
  let c ← get
  let p ← deref (c.resolveProxy value)
  require (c.object p.1).isConstant
  match c.object ref.1 with
  | .globalVariable linkage isConst _ =>
    modify (·.setObject ref.1 (.globalVariable linkage isConst (some p.1)))
  | _ => pure ()

/-- `ModuleParseContext::resolve_global_initializations`. -/
def resolveGlobalInitializations : Parser Unit := do
  (← get).globalInitializations.forM resolveInitialization
  modify fun c => { c with globalInitializations := [] }

/-- The pairs of a kind and a node that are attached to an instruction. -/
def attachMetadata (inst : ValuePtr) : List Nat → Parser Unit
  | k :: m :: rest => do
    let c ← get
    let kind ← orFalse (c.getMetadataKind k)
    let node ← orFalse (c.getMetadata m).asNode
    match c.object inst with
    | .instruction instKind operands attachments =>
      modify (·.setObject inst (.instruction instKind operands ((kind, node) :: attachments)))
    | _ => pure ()
    attachMetadata inst rest
  | _ => pure ()

/-- `ModuleParseContext::parse_metadata_attachment_record`. -/
def parseMetadataAttachmentRecord (entry : BlockOrRecord) : Parser Unit :=
  if entry.id ≠ 11 then pure ()
  else do
    require (1 ≤ entry.ops.length)
    let op ← opAt entry.ops 0
    let inst ← orFalse ((← get).getInstruction op)
    attachMetadata inst (entry.ops.drop 1)

/-- `ModuleParseContext::parse_function_child_block`. -/
def parseFunctionChildBlock (entry : BlockOrRecord) : Parser Unit :=
  match entry.id with
  | 11 => entry.children.forM parseConstantsRecord
  | 16 => entry.children.forM parseMetadataAttachmentRecord
  | _ => pure ()

/-- The blocks and records of a function body. -/
def parseFunctionChild (entry : BlockOrRecord) : Parser Unit :=
  if entry.isBlock then parseFunctionChildBlock entry else parseRecord entry

/-- Make one argument of a function. -/
def addArgument (function : ValuePtr) (param : Option TypePtr × Nat) : Parser Unit := do
  let arg ← modifyGet (·.construct (.argument param.2))
  let c ← get
  match c.object function with
  | .function functionType id attributes arguments blocks =>
    modify (·.setObject function (.function functionType id attributes (arguments ++ [arg]) blocks))
  | _ => pure ()
  addValue arg param.1

/-- The type of a function. -/
def Context.functionType (c : Context) (function : ValuePtr) : IRType :=
  match c.object function with
  | .function functionType .. => c.heap.lookup functionType
  | _ => .void

/-- The next function that has a body. -/
def takeFunction : Parser ValuePtr := do
  modify fun c =>
    if c.seenFirstFunctionBody then c
    else { c with
      functionsWithBodies := c.functionsWithBodies.reverse, seenFirstFunctionBody := true }
  let function ← orFalse (← get).functionsWithBodies.getLast?
  modify fun c => { c with
    function := some function, functionsWithBodies := c.functionsWithBodies.dropLast }
  return function

/-- What `parse_function_body` leaves behind. -/
def Context.finishFunction (c : Context) (function : ValuePtr)
    (globalValues : List (ValuePtr × TypePtr)) : Context :=
  let c := match c.object function with
    | .function functionType id attributes arguments _ =>
      c.setObject function (.function functionType id attributes arguments c.basicBlocks)
    | _ => c
  { c with
    basicBlocks := []
    basicBlockIndex := 0
    module := { c.module with functions := c.module.functions ++ [function] }
    values := globalValues
    instructions := [] }

/-- `ModuleParseContext::parse_function_body`. -/
def parseFunctionBody (entry : BlockOrRecord) : Parser Unit := do
  let globalValues := (← get).values
  let function ← takeFunction
  let params := ((← get).functionType function).params
  (params.zip (List.range params.length)).forM (addArgument function)
  entry.children.forM parseFunctionChild
  resolveForwardReferences
  resolveGlobalInitializations
  modify (·.finishFunction function globalValues)

end DxilSpirv.Bitcode
