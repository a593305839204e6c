import DxilSpirv.Nvapi.Opcodes

/-!
# The NVAPI state machine

The doorbell, the arguments, the deferred opcode and the outputs of the operation that is under way
are one state. Analysis and emission drive it over the instructions of a block. What the machine
does not take goes on to the ordinary lowering, which leaves the machine alone and does not fail for
the 32-bit words that are accessed here.
-/

namespace DxilSpirv.Nvapi

/-- An id: output number `k` of emission number `n`. An output slot without one holds zero. -/
abbrev Id := Nat × Nat

/-- The id of output `k`, when this is emitted as number `n`. `OpReorderThreadWithHitObjectNV` and
`OpReorderThreadWithHintNV` are allocated without a result, so their id is zero. -/
def Emission.result (emission : Emission) (n k : Nat) : Option Id :=
  if emission.op = .hitObjectReorderThread then none else some (n, k)

/-- `NVAPIState`, as far as operations change it. -/
structure NVAPIState where
  doorbell : Option Nat := none
  fakeDoorbellInputs : Arguments := fun _ => none
  fakeDoorbellIntermediates : Nat → Option Value := fun _ => none
  fakeDoorbellOutputs : Nat → Option Id := fun _ => none
  markedUav : Option Handle := none
  deferredOpcode : Option NVExtnOp := none
  clockOutputIndex : Nat := 0
  numExpectedClockOutputs : Nat := 0

/-- `reset`: the marked UAV persists. -/
def NVAPIState.reset (s : NVAPIState) : NVAPIState := { markedUav := s.markedUav }

/-- The converter as the machine uses it: what was emitted and which values were rewritten to which
ids. -/
structure Converter where
  nvapi : NVAPIState
  emitted : List Emission := []
  rewritten : List (Option Value × Option Id) := []

/-- What stops a conversion: an index out of range, a null pointer that is used, or a clean
failure. -/
inductive Abort where
  | outOfRange
  | nullValue
  | failed
  deriving DecidableEq, Repr

namespace Converter

/-- `reset` within the converter. -/
def reset (c : Converter) : Converter := { c with nvapi := c.nvapi.reset }

/-- `rewrite_value`. -/
def rewriteValue (c : Converter) (value : Option Value) (id : Option Id) : Converter :=
  { c with rewritten := c.rewritten ++ [(value, id)] }

/-- An emitter adds its operation and leaves the ids of its outputs. -/
def emit (c : Converter) (emission : Emission) (outputs : List Nat) : Converter :=
  { c with
    emitted := c.emitted ++ [emission]
    nvapi := { c.nvapi with
      fakeDoorbellOutputs := fun slot =>
        if slot ∈ outputs then emission.result c.emitted.length (outputs.idxOf slot)
        else c.nvapi.fakeDoorbellOutputs slot } }

/-- One output is clocked out. -/
def clockOutput (c : Converter) (instruction : Nat) (analysis : Bool) : Except Abort Converter :=
  let index := c.nvapi.clockOutputIndex
  match c.nvapi.deferredOpcode with
  | some _ =>
    if index < intermediateCount then
      .ok { c with nvapi := { c.nvapi with
        fakeDoorbellIntermediates :=
          Function.update c.nvapi.fakeDoorbellIntermediates index (some (.instruction instruction))
        clockOutputIndex := index + 1 } }
    else .error .outOfRange
  | none =>
    let c := if analysis then c else c.rewriteValue (some (.instruction instruction))
      (c.nvapi.fakeDoorbellOutputs index)
    .ok { c with nvapi := { c.nvapi with clockOutputIndex := index + 1 } }

/-- `notify_doorbell`. -/
def notifyDoorbell (c : Converter) (instruction : Nat) (analysis : Bool) : Except Abort Converter :=
  if c.nvapi.numExpectedClockOutputs = 0 then
    .ok { c with nvapi := { c.nvapi.reset with doorbell := some instruction } }
  else
    match if c.nvapi.clockOutputIndex < c.nvapi.numExpectedClockOutputs
      then c.clockOutput instruction analysis else .ok c with
    | .error abort => .error abort
    | .ok c =>
      if c.nvapi.clockOutputIndex ≥ c.nvapi.numExpectedClockOutputs ∧
          c.nvapi.deferredOpcode = none then
        .ok c.reset
      else .ok c

/-- `commit_opcode`. -/
def commitOpcode (env : Env) (c : Converter) (analysis : Bool) : Except Abort (Bool × Converter) :=
  match opcode c.nvapi.fakeDoorbellInputs with
  | none => .ok (false, c)
  | some op =>
    let c :=
      { c with nvapi := { c.nvapi with numExpectedClockOutputs := numExpectedClockOutputs op } }
    match emitter env c.nvapi.fakeDoorbellInputs c.nvapi.markedUav op with
    | none => .ok (true, { c with nvapi := { c.nvapi with deferredOpcode := some op } })
    | some outcome =>
      if analysis then .ok (true, c)
      else
        match outcome with
        | .emitted emission outputs => .ok (true, c.emit emission outputs)
        | .refused => .ok (false, c)
        | .nullValue => .error .nullValue

end Converter

/-- `get_constant_operand`, a constant of 32 bits. -/
def getConstantOperand : Value → Option Nat
  | .constant n => some (n % 2 ^ 32)
  | .instruction _ => none

/-- A store to a UAV: its handle, the first coordinate, the second one, four values and a mask. -/
structure Store where
  handle : Handle
  index : Value
  offset : Value
  values : Nat → Value
  mask : Value

/-- A load from a UAV. -/
structure Load where
  instruction : Nat
  handle : Handle
  index : Value
  offset : Value

/-- One component is stored when the mask has it. The slot of a component is not compared to the
count. -/
def writeInput (values : Nat → Value) (mask slot : Nat) (inputs : Arguments) (i : Nat) :
    Except Abort Arguments :=
  if mask.testBit i then
    if slot + i < argumentCount then .ok (Function.update inputs (slot + i) (some (values i)))
    else .error .outOfRange
  else .ok inputs

/-- The four components of a store. -/
def writeInputs (values : Nat → Value) (mask slot : Nat) (inputs : Arguments) :
    Except Abort Arguments :=
  match writeInput values mask slot inputs 0 with
  | .error abort => .error abort
  | .ok inputs =>
    match writeInput values mask slot inputs 1 with
    | .error abort => .error abort
    | .ok inputs =>
      match writeInput values mask slot inputs 2 with
      | .error abort => .error abort
      | .ok inputs => writeInput values mask slot inputs 3

namespace Converter

/-- After a store, `commit_opcode` runs whenever it can, and what it returns is dropped. -/
def commitArguments (env : Env) (c : Converter) (analysis : Bool) : Except Abort Converter :=
  if canCommitOpcode c.nvapi.fakeDoorbellInputs c.nvapi.markedUav then
    match c.commitOpcode env analysis with
    | .error abort => .error abort
    | .ok result => .ok result.2
  else .ok c

/-- `write_arguments_from_store`. -/
def writeArgumentsFromStore (env : Env) (c : Converter) (store : Store) (analysis : Bool) :
    Except Abort (Bool × Converter) :=
  match getConstantOperand store.offset, getConstantOperand store.mask with
  | some offset, some mask =>
    if offset % 4 ≠ 0 then .ok (false, c)
    else if offset / 4 ≥ argumentCount then .ok (false, c)
    else
      match writeInputs store.values mask (offset / 4) c.nvapi.fakeDoorbellInputs with
      | .error abort => .error abort
      | .ok inputs =>
        match commitArguments env { c with nvapi := { c.nvapi with fakeDoorbellInputs := inputs } }
            analysis with
        | .error abort => .error abort
        | .ok c => .ok (true, c)
  | _, _ => .ok (false, c)

/-- `mark_uav_write`. -/
def markUavWrite (c : Converter) (handle : Handle) : Bool × Converter :=
  if c.nvapi.fakeDoorbellInputs argumentMarkUavRef = some (.constant 1) then
    (true, { c with nvapi := { c.nvapi.reset with markedUav := some handle } })
  else (false, c)

/-- The value is the doorbell of the operation that is under way. -/
def isDoorbell (c : Converter) (index : Value) : Prop :=
  c.nvapi.doorbell.map .instruction = some index

instance (c : Converter) (index : Value) : Decidable (c.isDoorbell index) :=
  inferInstanceAs (Decidable (_ = _))

/-- `emit_nvapi_buffer_store`. -/
def emitNvapiBufferStore (env : Env) (c : Converter) (store : Store) :
    Except Abort (Bool × Converter) :=
  if c.isDoorbell store.index then
    if store.handle = .magic then c.writeArgumentsFromStore env store false
    else .ok (c.markUavWrite store.handle)
  else .ok (false, c)

/-- `analyze_nvapi_buffer_store`: a write with the doorbell value is taken for one to the magic
UAV. -/
def analyzeNvapiBufferStore (env : Env) (c : Converter) (store : Store) : Except Abort Converter :=
  if c.isDoorbell store.index then
    match c.markUavWrite store.handle with
    | (true, c) => .ok c
    | (false, c) =>
      match c.writeArgumentsFromStore env store true with
      | .error abort => .error abort
      | .ok result => .ok result.2
  else .ok c

/-- `emit_nvapi_buffer_load`. -/
def emitNvapiBufferLoad (c : Converter) (load : Load) : Bool × Converter :=
  if load.handle = .magic ∧ c.isDoorbell load.index then
    match getConstantOperand load.offset with
    | none => (false, c)
    | some offset =>
      if offset % 4 ≠ 0 then (false, c)
      else if offset / 4 ≥ argumentCount then (false, c)
      else
        match c.nvapi.fakeDoorbellOutputs (offset / 4) with
        | none => (false, c)
        | some id => (true, c.rewriteValue (some (.instruction load.instruction)) (some id))
  else (false, c)

/-- `get_nvapi_trace_handle`. -/
def getNvapiTraceHandle (c : Converter) : Option Value :=
  match c.nvapi.deferredOpcode with
  | some .hitObjectTraceRay | some .hitObjectMakeHit | some .hitObjectMakeHitWithRecordIndex =>
    c.nvapi.fakeDoorbellIntermediates intermediateHandle1
  | some .hitObjectInvoke | some .hitObjectGetAttributes =>
    c.nvapi.fakeDoorbellIntermediates intermediateHandle0
  | _ => none

/-- `analyze_nvapi_call_shader`. -/
def analyzeNvapiCallShader (c : Converter) (handle : Value) : Bool × Converter :=
  if c.getNvapiTraceHandle = some handle then
    match c.nvapi.deferredOpcode with
    | some .hitObjectMakeHit | some .hitObjectMakeHitWithRecordIndex => (true, c)
    | some .hitObjectGetAttributes => (true, c.reset)
    | _ => (false, c)
  else (false, c)

/-- `analyze_nvapi_trace_ray`. -/
def analyzeNvapiTraceRay (c : Converter) (handle : Value) : Bool × Converter :=
  if c.getNvapiTraceHandle = some handle then
    match c.nvapi.deferredOpcode with
    | some .hitObjectTraceRay | some .hitObjectMakeHit | some .hitObjectMakeHitWithRecordIndex
    | some .hitObjectInvoke => (true, c.reset)
    | _ => (false, c)
  else (false, c)

/-- A deferred emitter has run: a hit object replaces its handle, and the machine is reset. -/
def complete (c : Converter) (hitObjects : List (Option Value)) :
    Outcome → Except Abort (Bool × Converter)
  | .emitted emission _ =>
    .ok (true, {
      nvapi := c.nvapi.reset
      emitted := c.emitted ++ [emission]
      rewritten := c.rewritten ++
        hitObjects.map fun value => (value, emission.result c.emitted.length 0) })
  | .refused => .ok (false, c)
  | .nullValue => .error .nullValue

/-- `emit_nvapi_call_shader`. -/
def emitNvapiCallShader (c : Converter) (handle data : Value) : Except Abort (Bool × Converter) :=
  if c.getNvapiTraceHandle = some handle then
    match c.nvapi.deferredOpcode with
    | some .hitObjectMakeHit | some .hitObjectMakeHitWithRecordIndex =>
      .ok (true, { c with nvapi := { c.nvapi with
        fakeDoorbellIntermediates :=
          Function.update c.nvapi.fakeDoorbellIntermediates intermediateAttributes (some data) } })
    | some .hitObjectGetAttributes =>
      c.complete []
        (emitHitObjectGetAttributes c.nvapi.fakeDoorbellInputs (.callShader handle data))
    | _ => .ok (false, c)
  else .ok (false, c)

/-- `emit_nvapi_trace_ray`. -/
def emitNvapiTraceRay (c : Converter) (handle payload : Value) (ray : List Value) :
    Except Abort (Bool × Converter) :=
  let call := Call.traceRay handle payload ray
  let hitObject := c.nvapi.fakeDoorbellIntermediates intermediateHandle0
  let attributes := c.nvapi.fakeDoorbellIntermediates intermediateAttributes
  let inputs := c.nvapi.fakeDoorbellInputs
  if c.getNvapiTraceHandle = some handle then
    match c.nvapi.deferredOpcode with
    | some .hitObjectTraceRay => c.complete [hitObject] (emitHitObjectTraceRay inputs call)
    | some .hitObjectMakeHit =>
      c.complete [hitObject] (emitHitObjectMakeHit inputs attributes call false)
    | some .hitObjectMakeHitWithRecordIndex =>
      c.complete [hitObject] (emitHitObjectMakeHit inputs attributes call true)
    | some .hitObjectInvoke => c.complete [] (emitHitObjectInvoke inputs call)
    | _ => .ok (false, c)
  else .ok (false, c)

end Converter

/-- The instructions of a block that may concern the machine. -/
inductive Event where
  | updateCounter (instruction : Nat) (handle : Handle)
  | store (store : Store)
  | load (load : Load)
  | call (call : Call)

/-- What emission does to the machine at an instruction. -/
def emitInstruction (env : Env) (c : Converter) : Event → Except Abort Converter
  | .updateCounter instruction handle =>
    if handle = .magic then c.notifyDoorbell instruction false else .ok c
  | .store store => (c.emitNvapiBufferStore env store).map Prod.snd
  | .load load => .ok (c.emitNvapiBufferLoad load).2
  | .call (.callShader handle data) => (c.emitNvapiCallShader handle data).map Prod.snd
  | .call (.traceRay handle payload ray) => (c.emitNvapiTraceRay handle payload ray).map Prod.snd

/-- What analysis does to the machine at an instruction. -/
def analyzeInstruction (env : Env) (c : Converter) : Event → Except Abort Converter
  | .updateCounter instruction handle =>
    if handle = .magic then c.notifyDoorbell instruction true else .ok c
  | .store store => c.analyzeNvapiBufferStore env store
  | .load _ => .ok c
  | .call (.callShader handle _) => .ok (c.analyzeNvapiCallShader handle).2
  | .call (.traceRay handle _ _) => .ok (c.analyzeNvapiTraceRay handle).2

/-- The instruction concerns the machine. -/
def Concerns (c : Converter) : Event → Prop
  | .updateCounter _ handle => handle = .magic
  | .store store => c.isDoorbell store.index
  | .load load => load.handle = .magic ∧ c.isDoorbell load.index
  | .call call => c.getNvapiTraceHandle = some call.handle

/-- All other instructions of a block leave the machine alone in both passes. -/
theorem instruction_of_not_concerns {env : Env} {c : Converter} {event : Event}
    (h : ¬ Concerns c event) :
    emitInstruction env c event = .ok c ∧ analyzeInstruction env c event = .ok c := by
  cases event with
  | updateCounter instruction handle => exact ⟨if_neg h, if_neg h⟩
  | store store =>
    have hindex : ¬ c.isDoorbell store.index := h
    rw [emitInstruction, Converter.emitNvapiBufferStore, if_neg hindex, analyzeInstruction,
      Converter.analyzeNvapiBufferStore, if_neg hindex]
    exact ⟨rfl, rfl⟩
  | load load =>
    have hread : ¬ (load.handle = .magic ∧ c.isDoorbell load.index) := h
    rw [emitInstruction, Converter.emitNvapiBufferLoad, if_neg hread]
    exact ⟨rfl, rfl⟩
  | call call =>
    cases call with
    | callShader handle data =>
      have hhandle : c.getNvapiTraceHandle ≠ some handle := h
      rw [emitInstruction, Converter.emitNvapiCallShader, if_neg hhandle, analyzeInstruction,
        Converter.analyzeNvapiCallShader, if_neg hhandle]
      exact ⟨rfl, rfl⟩
    | traceRay handle payload ray =>
      have hhandle : c.getNvapiTraceHandle ≠ some handle := h
      simp only [emitInstruction, Converter.emitNvapiTraceRay]
      rw [if_neg hhandle, analyzeInstruction, Converter.analyzeNvapiTraceRay, if_neg hhandle]
      exact ⟨rfl, rfl⟩

/-- A pass over the instructions of a block. -/
def run (step : Converter → Event → Except Abort Converter) (c : Converter) :
    List Event → Except Abort Converter
  | [] => .ok c
  | event :: events =>
    match step c event with
    | .error abort => .error abort
    | .ok c => run step c events

variable {step : Converter → Event → Except Abort Converter} {c : Converter}
  {events rest : List Event}

@[simp] theorem run_nil : run step c [] = .ok c := rfl

/-- A pass that does not stop at an instruction goes on after it. -/
theorem run_cons {event : Event} {c' : Converter} (h : step c event = .ok c') :
    run step c (event :: events) = run step c' events := by
  rw [run, h]

/-- What a pass that does not stop does at its first instruction. -/
theorem run_cons_eq_ok {event : Event} {c' : Converter} :
    run step c (event :: events) = .ok c' ↔
      ∃ c₁, step c event = .ok c₁ ∧ run step c₁ events = .ok c' := by
  rw [run]
  cases h : step c event with
  | error abort => simp
  | ok c₁ => simp

theorem run_append {c' : Converter} (h : run step c events = .ok c') :
    run step c (events ++ rest) = run step c' rest := by
  induction events generalizing c with
  | nil =>
    cases h
    rfl
  | cons event events ih =>
    obtain ⟨c₁, hstep, hrun⟩ := run_cons_eq_ok.mp h
    rw [List.cons_append, run_cons hstep, ih hrun]

/-- A pass over two lists is one over the first and then one over the second. -/
theorem run_append_eq_ok {c' : Converter} :
    run step c (events ++ rest) = .ok c' ↔
      ∃ c₁, run step c events = .ok c₁ ∧ run step c₁ rest = .ok c' := by
  induction events generalizing c with
  | nil => simp
  | cons event events ih =>
    simp only [List.cons_append, run_cons_eq_ok, ih]
    constructor
    · rintro ⟨c₁, hstep, c₂, hevents, hrest⟩
      exact ⟨c₂, ⟨c₁, hstep, hevents⟩, hrest⟩
    · rintro ⟨c₂, ⟨c₁, hstep, hevents⟩, hrest⟩
      exact ⟨c₁, hstep, c₂, hevents, hrest⟩

/-- What every step keeps, a pass keeps. -/
theorem run_invariant {p : Converter → Prop} (hstep : ∀ c event c', event ∈ events → p c →
    step c event = .ok c' → p c') {c' : Converter} (hc : p c) (h : run step c events = .ok c') :
      p c' := by
  induction events generalizing c with
  | nil =>
    cases h
    exact hc
  | cons event events ih =>
    obtain ⟨c₁, hfirst, hrun⟩ := run_cons_eq_ok.mp h
    exact ih (fun c e c' he => hstep c e c' (List.mem_cons_of_mem _ he))
      (hstep c event c₁ List.mem_cons_self hc hfirst) hrun

end DxilSpirv.Nvapi
