import DxilSpirv.Nvapi.State

/-!
# The operations of a block

An operation is a doorbell, stores of its arguments and then either the mark of a UAV or fetches of
its outputs and calls. What it asks for is read off the arguments that are stored in the end. A
block is handled correctly when each operation gets what it asks for and analysis goes through the
states of emission.
-/

namespace DxilSpirv.Nvapi

/-- A store to an argument of the magic UAV: its first slot, its mask and its values. -/
structure ArgumentStore where
  slot : Nat
  mask : Nat
  values : Nat → Value
  slot_lt : slot < argumentCount

/-- The fetch of an output: the next one by IncrementCounter, or one by a read of the destination
slots. -/
inductive Fetch where
  | incrementCounter (instruction : Nat)
  | read (instruction output : Nat)
  deriving DecidableEq, Repr

/-- What follows the stores of an operation. -/
inductive Body where
  | mark (uav : Nat) (offset : Value) (values : Nat → Value) (mask : Value)
  | outputs (fetches : List Fetch) (calls : List Call)

/-- An operation as a shader spells it. -/
structure Operation where
  doorbell : Nat
  stores : List ArgumentStore
  body : Body

/-- The store as an instruction. -/
def ArgumentStore.event (doorbell : Nat) (store : ArgumentStore) : Event :=
  .store {
    handle := .magic
    index := .instruction doorbell
    offset := .constant (4 * store.slot)
    values := store.values
    mask := .constant store.mask }

/-- The fetch as an instruction. -/
def Fetch.event (doorbell : Nat) : Fetch → Event
  | .incrementCounter instruction => .updateCounter instruction .magic
  | .read instruction output =>
    .load {
      instruction := instruction
      handle := .magic
      index := .instruction doorbell
      offset := .constant (4 * (argumentDst0u + output)) }

/-- The instructions after the stores. -/
def Body.events (doorbell : Nat) : Body → List Event
  | .mark uav offset values mask =>
    [.store { handle := .resource uav, index := .instruction doorbell, offset, values, mask }]
  | .outputs fetches calls => fetches.map (Fetch.event doorbell) ++ calls.map Event.call

/-- The instructions of an operation. -/
def Operation.events (o : Operation) : List Event :=
  .updateCounter o.doorbell .magic ::
    (o.stores.map (ArgumentStore.event o.doorbell) ++ o.body.events o.doorbell)

/-- The instructions of a block. -/
def events (ops : List Operation) : List Event := ops.flatMap Operation.events

/-- All slots of a store exist. -/
def ArgumentStore.InRange (store : ArgumentStore) : Prop :=
  ∀ i < 4, store.mask.testBit i → store.slot + i < argumentCount

/-- The arguments after a store. -/
def ArgumentStore.apply (store : ArgumentStore) (inputs : Arguments) : Arguments := fun slot =>
  if store.slot ≤ slot ∧ slot < store.slot + 4 ∧ store.mask.testBit (slot - store.slot) then
    some (store.values (slot - store.slot))
  else inputs slot

/-- The arguments that stores leave. -/
def storedArguments (stores : List ArgumentStore) : Arguments :=
  stores.foldl (fun inputs store => store.apply inputs) fun _ => none

/-- What can be done with arguments: nothing yet, wait for a call, or what the emitter does. -/
inductive Commit where
  | incomplete
  | deferred (op : NVExtnOp)
  | emitted (op : NVExtnOp) (emission : Emission) (outputs : List Nat)
  | refused (op : NVExtnOp)
  | nullValue
  deriving DecidableEq, Repr

/-- What is emitted. -/
def Commit.emissions : Commit → List Emission
  | .emitted _ emission _ => [emission]
  | _ => []

/-- Something is emitted. -/
def Commit.isEmitted (k : Commit) : Bool := !k.emissions.isEmpty

/-- A call is waited for. -/
def Commit.isDeferred : Commit → Bool
  | .deferred _ => true
  | _ => false

/-- What can be done with the arguments of an operation. -/
def commit (env : Env) (markedUav : Option Handle) (inputs : Arguments) : Commit :=
  if canCommitOpcode inputs markedUav then
    match opcode inputs with
    | none => .incomplete
    | some op =>
      match emitter env inputs markedUav op with
      | none => .deferred op
      | some (.emitted emission outputs) => .emitted op emission outputs
      | some .refused => .refused op
      | some .nullValue => .nullValue
  else .incomplete

/-- The values that are fetched, each with the number of its output; IncrementCounter counts from
`k`. -/
def fetched : Nat → List Fetch → List (Nat × Nat)
  | _, [] => []
  | k, .incrementCounter instruction :: fetches => (instruction, k) :: fetched (k + 1) fetches
  | k, .read instruction output :: fetches => (instruction, output) :: fetched k fetches

/-- The hit object that a deferred operation makes, and the handle of its call. -/
def deferredHandles : NVExtnOp → List Fetch → Option (List Nat × Nat)
  | .hitObjectTraceRay, [.incrementCounter hitObject, .incrementCounter handle]
  | .hitObjectMakeHit, [.incrementCounter hitObject, .incrementCounter handle]
  | .hitObjectMakeHitWithRecordIndex, [.incrementCounter hitObject, .incrementCounter handle] =>
    some ([hitObject], handle)
  | .hitObjectInvoke, [.incrementCounter handle] | .hitObjectGetAttributes,
      [.incrementCounter handle] =>
    some ([], handle)
  | _, _ => none

/-- What a call with the handle of a deferred operation does for it. -/
inductive CallEffect where
  | other
  | attributes (data : Value)
  | completes (outcome : Outcome)

/-- The attributes of a hit come by CallShader, those of a hit object go by CallShader, and every
other deferred operation is done by TraceRay. -/
def callEffect (op : NVExtnOp) (inputs : Arguments) (attributes : Option Value) : Call → CallEffect
  | .callShader handle data =>
    match op with
    | .hitObjectMakeHit | .hitObjectMakeHitWithRecordIndex => .attributes data
    | .hitObjectGetAttributes =>
      .completes (emitHitObjectGetAttributes inputs (.callShader handle data))
    | _ => .other
  | .traceRay handle payload ray =>
    match op with
    | .hitObjectTraceRay => .completes (emitHitObjectTraceRay inputs (.traceRay handle payload ray))
    | .hitObjectMakeHit =>
      .completes (emitHitObjectMakeHit inputs attributes (.traceRay handle payload ray) false)
    | .hitObjectMakeHitWithRecordIndex =>
      .completes (emitHitObjectMakeHit inputs attributes (.traceRay handle payload ray) true)
    | .hitObjectInvoke => .completes (emitHitObjectInvoke inputs (.traceRay handle payload ray))
    | _ => .other

/-- The emission of a deferred operation, by the first call with its handle that does it. -/
def completion (op : NVExtnOp) (inputs : Arguments) (handle : Nat) :
    Option Value → List Call → Option Emission
  | _, [] => none
  | attributes, call :: calls =>
    if call.handle = .instruction handle then
      match callEffect op inputs attributes call with
      | .other => completion op inputs handle attributes calls
      | .attributes data => completion op inputs handle (some data) calls
      | .completes (.emitted emission _) => some emission
      | .completes _ => none
    else completion op inputs handle attributes calls

/-- What an operation asks for: an emission, which output of it replaces which value, and the UAV
that is marked afterwards. -/
structure Answer where
  emitted : List Emission
  rewritten : List (Nat × Nat)
  markedUav : Option Handle
  deriving DecidableEq, Repr

/-- What an operation asks for, if it can be emitted at all. -/
def Operation.answer (env : Env) (markedUav : Option Handle) (o : Operation) : Option Answer :=
  let inputs := storedArguments o.stores
  match o.body with
  | .mark uav _ _ _ =>
    if inputs argumentMarkUavRef = some (.constant 1)
      then some ⟨[], [], some (.resource uav)⟩ else none
  | .outputs fetches calls =>
    match commit env markedUav inputs with
    | .emitted _ emission outputs =>
      if (fetched 0 fetches).all fun output => output.2 < outputs.length then
        some ⟨[emission], fetched 0 fetches, markedUav⟩
      else none
    | .deferred op =>
      match deferredHandles op fetches with
      | none => none
      | some (hitObjects, handle) =>
        (completion op inputs handle none calls).map fun emission =>
          ⟨[emission], hitObjects.map fun hitObject => (hitObject, 0), markedUav⟩
    | _ => none

/-- The UAV that is marked after an operation. -/
def Operation.marks (o : Operation) (markedUav : Option Handle) : Option Handle :=
  match o.body with
  | .mark uav _ _ _ => some (.resource uav)
  | .outputs _ _ => markedUav

/-- The machine at the start of a block. -/
def NVAPIState.start (markedUav : Option Handle) : NVAPIState := { markedUav }

/-- The values that replace others, when the emission has the number `n`. -/
def Answer.rewrites (n : Nat) (answer : Answer) : List (Option Value × Option Id) :=
  answer.rewritten.map fun output =>
    (some (.instruction output.1), answer.emitted.head?.bind (·.result n output.2))

/-- One operation is handled correctly: its doorbell begins a new operation, with nothing left of
those before it; it is emitted once, in full, and its outputs replace what is fetched; and the
conversion fails when it cannot be emitted. -/
structure Served (env : Env) (c : Converter) (o : Operation) : Prop where
  fresh : ∃ c', emitInstruction env c (.updateCounter o.doorbell .magic) = .ok c' ∧
    c'.nvapi = { NVAPIState.start c.nvapi.markedUav with doorbell := some o.doorbell }
  answered : ∀ answer, o.answer env c.nvapi.markedUav = some answer →
    ∃ c', run (emitInstruction env) c o.events = .ok c' ∧ c'.emitted = c.emitted ++ answer.emitted ∧
      c'.rewritten = c.rewritten ++ answer.rewrites c.emitted.length ∧
        c'.nvapi.markedUav = answer.markedUav
  fails : o.answer env c.nvapi.markedUav = none →
    run (emitInstruction env) c o.events = .error .failed

/-- The part of the state that both passes have: ids and attributes are for emission alone. -/
def NVAPIState.shared (s : NVAPIState) : NVAPIState :=
  { s with
    fakeDoorbellOutputs := fun _ => none
    fakeDoorbellIntermediates :=
      Function.update s.fakeDoorbellIntermediates intermediateAttributes none }

/-- A block is handled correctly: every operation that is reached is served, and analysis is in the
state of emission after each instruction that is reached. Analysis comes to the block with its own
marked UAV: emission starts with the last one that analysis marked. -/
structure Handled (env : Env) (analysedUav markedUav : Option Handle) (ops : List Operation) :
    Prop where
  served : ∀ before o after, ops = before ++ o :: after → ∀ c,
    run (emitInstruction env) { nvapi := .start markedUav } (events before) = .ok c → Served env c o
  agrees : ∀ before after, events ops = before ++ after → ∀ c,
    run (emitInstruction env) { nvapi := .start markedUav } before = .ok c →
    ∃ a, run (analyzeInstruction env) { nvapi := .start analysedUav } before = .ok a ∧
      a.nvapi.shared = c.nvapi.shared

/-- The stores stay in range, and none comes after the arguments that it completes: before the last
store nothing can be emitted, no null pointer is used and no UAV is to be marked. -/
structure RegularStores (env : Env) (markedUav : Option Handle)
    (stores : List ArgumentStore) : Prop where
  inRange : ∀ store ∈ stores, store.InRange
  quiet : ∀ first, first <+: stores → first ≠ stores →
    (commit env markedUav (storedArguments first)).isEmitted = false ∧
      commit env markedUav (storedArguments first) ≠ .nullValue
  unmarked : ∀ first, first <+: stores → first ≠ stores →
    storedArguments first argumentMarkUavRef ≠ some (.constant 1)

/-- The fetch is an IncrementCounter. -/
def Fetch.isClocked : Fetch → Bool
  | .incrementCounter _ => true
  | .read _ _ => false

/-- The outputs are fetched as the opcode delivers them: those of atomics by reads, all others by
IncrementCounter, and then no other opcode waits for a call. -/
structure RegularFetches (env : Env) (markedUav : Option Handle) (stores : List ArgumentStore)
    (op : NVExtnOp) (fetches : List Fetch) : Prop where
  delivered : ∀ fetch ∈ fetches, fetch.isClocked = !op.isAtomic
  waits : op.isDeferred = false → (∃ fetch ∈ fetches, fetch.isClocked) → ∀ first, first <+: stores →
    first ≠ stores → (commit env markedUav (storedArguments first)).isDeferred = false

/-- An operation that the machine handles. -/
structure Operation.Regular (env : Env) (markedUav : Option Handle) (o : Operation) : Prop where
  stores : RegularStores env markedUav o.stores
  answered : (o.answer env markedUav).isSome
  body : match o.body with
    | .mark _ _ _ _ =>
      (commit env markedUav (storedArguments o.stores)).isEmitted = false ∧
        commit env markedUav (storedArguments o.stores) ≠ .nullValue
    | .outputs fetches _ => ∀ op, opcode (storedArguments o.stores) = some op →
      RegularFetches env markedUav o.stores op fetches

/-- All outputs that are clocked out are fetched. -/
def Operation.Drained (o : Operation) : Prop :=
  match o.body with
  | .mark _ _ _ _ => True
  | .outputs fetches _ => ∀ op, opcode (storedArguments o.stores) = some op →
    fetches.countP Fetch.isClocked = numExpectedClockOutputs op

/-- A block that the machine handles: all operations are regular, and all outputs of those before
another one are fetched. -/
def RegularBlock (env : Env) (markedUav : Option Handle) (ops : List Operation) : Prop :=
  ∀ before o after, ops = before ++ o :: after →
    o.Regular env (before.foldl (fun uav o => o.marks uav) markedUav) ∧ (after ≠ [] → o.Drained)

end DxilSpirv.Nvapi
