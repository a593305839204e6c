import DxilSpirv.Bitcode.Context

/-!
# References to values

A record refers to values by ids, relative to the number of values so far or absolute. An id that is
not in use yet becomes a proxy, for which the type has to be known.
-/

namespace DxilSpirv.Bitcode

open DxilSpirv.Program

/-- A relative id as an absolute one: the difference in 32 bits. -/
def relativeId (size op : Nat) : Nat := (((size : Int) - op) % 2 ^ 32).toNat

/-- `decode_sign_rotated_value`. -/
def decodeSignRotatedValue (v : Nat) : Int :=
  if v % 2 = 1 then
    if v / 2 ≠ 0 then -((v / 2 : Nat) : Int) else -2 ^ 63
  else ((v / 2 : Nat) : Int)

namespace Context

variable (c : Context)

/-- A pointer to a function and a function do match. -/
def matchedType (expectedType : Option TypePtr) : Option TypePtr :=
  match expectedType.map c.heap.lookup with
  | some (.pointer pointee _) =>
    match c.heap.lookup pointee with
    | .function .. => some pointee
    | _ => expectedType
  | _ => expectedType

/-- `ModuleParseContext::get_value` for an absolute id. -/
def getAbsolute (op : Nat) (expectedType : Option TypePtr) : Option Value × Context :=
  match c.values[op]? with
  | none =>
    match expectedType with
    | none => (none, c)
    | some _ => ((some (c.constructProxy expectedType op).1), (c.constructProxy expectedType op).2)
  | some p =>
    if c.matchedType expectedType = none ∨ c.matchedType expectedType = some p.2 then
      (some (.object p.1 p.2), c)
    else (none, c)

/-- `ModuleParseContext::get_value`. -/
def getValue (op : Nat) (expectedType : Option TypePtr := none) (forceAbsolute : Bool := false) :
    Option Value × Context :=
  if !forceAbsolute && c.useRelativeId
    then c.getAbsolute (relativeId c.values.length op) expectedType
  else c.getAbsolute op expectedType

/-- `ModuleParseContext::get_value` for the next operand: the value and the index after it. -/
def getNextValue (ops : List Nat) (index : Nat) (expectedType : Option TypePtr) :
    (Option Value × Nat) × Context :=
  match ops[index]? with
  | none => ((none, index), c)
  | some op => (((c.getValue op expectedType).1, index + 1), (c.getValue op expectedType).2)

/-- What `get_value_and_type` returns, and the index after it. -/
structure TypedValue where
  first : Option Value := none
  second : Option TypePtr := none
  index : Nat
  deriving DecidableEq, Repr

/-- `ModuleParseContext::get_value_and_type`. -/
def getValueAndType (ops : List Nat) (index : Nat) : TypedValue × Context :=
  match ops[index]? with
  | none => ({ index := index }, c)
  | some op =>
    let op := if c.useRelativeId then relativeId c.values.length op else op
    match c.values[op]? with
    | some p => ({ first := some (.object p.1 p.2), second := some p.2, index := index + 1 }, c)
    | none =>
      -- a forward reference, the type is encoded in the next element
      match ops[index + 1]? with
      | none => ({ index := index + 1 }, c)
      | some t =>
        ({ first := some (c.constructProxy (c.getType t) op).1, second := c.getType t,
           index := index + 2 }, (c.constructProxy (c.getType t) op).2)

/-- `ModuleParseContext::get_value_signed`. -/
def getValueSigned (op : Nat) (expectedType : Option TypePtr := none) : Option Value × Context :=
  let signedOp := decodeSignRotatedValue op
  let signedOp := if c.useRelativeId then (c.values.length : Int) - signedOp else signedOp
  let op := (signedOp % 2 ^ 64).toNat
  match c.values[op]? with
  | none =>
    match expectedType with
    | none => (none, c)
    | some _ => ((some (c.constructProxy expectedType op).1), (c.constructProxy expectedType op).2)
  | some p => (some (.object p.1 p.2), c)

/-- Change a basic block. -/
def mapBlock (b : BlockPtr) (f : BasicBlock → BasicBlock) : Context :=
  { c with blocks := c.blocks.modify b f }

/-- `ModuleParseContext::finish_basic_block`. -/
def finishBasicBlock : Context :=
  let index := c.basicBlockIndex + 1
  { c with basicBlockIndex := index, currentBb := c.basicBlocks[index]? }

end Context

/-- `ModuleParseContext::add_successor`. -/
def addSuccessor (bb : BlockPtr) : Parser Unit := do
  let current ← orFalse (← get).currentBb
  modify (·.mapBlock current fun b =>
    { b with succs := if bb ∈ b.succs then b.succs else b.succs ++ [bb] })

/-- `ModuleParseContext::add_value`, for a value of the type. -/
def addValue (value : ValuePtr) (type : Option TypePtr) : Parser Unit := do
  let t ← deref type
  if (← get).heap.lookup t ≠ .void then
    modify fun c => { c with values := c.values ++ [(value, t)] }
  else pure ()

/-- Make an instruction and `ModuleParseContext::add_instruction`. -/
def addInstruction (type : Option TypePtr) (kind : InstructionKind) (operands : List Value) :
    Parser Bool := do
  let inst ← modifyGet (·.construct (.instruction kind (operands.map some) []))
  modify fun c => { c with instructions := c.instructions ++ [inst] }
  match (← get).currentBb with
  | none => return false
  | some bb =>
    modify (·.mapBlock bb fun b => { b with instructions := b.instructions ++ [inst] })
    if kind.isTerminator then
      modify Context.finishBasicBlock
    else addValue inst type
    return true

/-! ## What looking up a value leaves alone -/

/-- Only proxies were made. -/
structure ProxiesOnly (c c' : Context) : Prop where
  eq : c' = { c with
    proxies := c'.proxies, pendingForwardReferences := c'.pendingForwardReferences }

namespace ProxiesOnly

variable {c c' c'' : Context}

/-- Nothing changes. -/
theorem refl (c : Context) : ProxiesOnly c c := ⟨rfl⟩

/-- One change after another. -/
theorem trans (h : ProxiesOnly c c') (h' : ProxiesOnly c' c'') : ProxiesOnly c c'' := by
  constructor
  rw [h'.eq, h.eq]

/-- A new reference changes only the references. -/
theorem constructProxy (c : Context) (type : Option TypePtr) (id : Nat) :
    ProxiesOnly c (c.constructProxy type id).2 := ⟨rfl⟩

theorem heap (h : ProxiesOnly c c') : c'.heap = c.heap := by rw [h.eq]

theorem objects (h : ProxiesOnly c c') : c'.objects = c.objects := by rw [h.eq]

theorem values (h : ProxiesOnly c c') : c'.values = c.values := by rw [h.eq]

theorem types (h : ProxiesOnly c c') : c'.types = c.types := by rw [h.eq]

theorem useRelativeId (h : ProxiesOnly c c') : c'.useRelativeId = c.useRelativeId := by rw [h.eq]

theorem currentBb (h : ProxiesOnly c c') : c'.currentBb = c.currentBb := by rw [h.eq]

/-- A look-up by number changes only the references. -/
theorem getAbsolute (c : Context) (op : Nat) (t : Option TypePtr) :
    ProxiesOnly c (c.getAbsolute op t).2 := by
  unfold Context.getAbsolute
  split
  · split
    · exact .refl c
    · exact .constructProxy c none _
  · split <;> exact .refl c

/-- A look-up of a value changes only the references. -/
theorem getValue (c : Context) (op : Nat) (t : Option TypePtr) (force : Bool) :
    ProxiesOnly c (c.getValue op t force).2 := by
  unfold Context.getValue
  split <;> exact .getAbsolute c _ _

/-- A look-up of the next operand changes only the references. -/
theorem getNextValue (c : Context) (ops : List Nat) (index : Nat) (t : Option TypePtr) :
    ProxiesOnly c (c.getNextValue ops index t).2 := by
  unfold Context.getNextValue
  split
  · exact .refl c
  · exact .getValue c _ _ _

/-- A look-up of an operand with its type changes only the references. -/
theorem getValueAndType (c : Context) (ops : List Nat) (index : Nat) :
    ProxiesOnly c (c.getValueAndType ops index).2 := by
  unfold Context.getValueAndType
  split
  · exact .refl c
  · dsimp only
    split
    · exact .refl c
    · split
      · exact .refl c
      · exact .constructProxy c none _

end ProxiesOnly

end DxilSpirv.Bitcode
