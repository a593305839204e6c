import DxilSpirv.Nvapi.Stores

/-!
# The outputs of an operation

What was emitted at the last store is fetched by IncrementCounter or by reads. What waits for a call
is emitted by the first call with its handle that does it.
-/

namespace DxilSpirv.Nvapi

variable {env : Env} {m : Option Handle} {inputs : Arguments} {op : NVExtnOp} {emission : Emission}
  {outputs : List Nat}

/-- The slots of the outputs: those of atomics are read, all others are clocked out in order. -/
def outputSlots (op : NVExtnOp) : List Nat :=
  if op.isAtomic then [argumentDst0u] else List.range (numExpectedClockOutputs op)

/-- The outputs of an operation of arguments are the ones it is emitted with. -/
theorem outputs_emitArguments {slots outputs' : List Nat}
    (h : emitArguments op slots outputs inputs = .emitted emission outputs') :
    outputs' = outputs := by
  unfold emitArguments at h
  split at h
  · exact (Outcome.emitted.inj h).2.symm
  · cases h

/-- An atomic operation has one output. -/
theorem outputs_emitAtomic {subOpcodes : List Nat}
    (h : emitAtomic env op subOpcodes inputs m = .emitted emission outputs) :
    outputs = [argumentDst0u] := by
  unfold emitAtomic at h
  split at h
  · split at h
    · cases h
    · split at h
      · cases h
      · split_ifs at h
        exact (Outcome.emitted.inj h).2.symm
  · cases h

/-- A special value is the first output. -/
theorem outputs_emitGetSpecial (h : emitGetSpecial inputs = .emitted emission outputs) :
    outputs = [0] := by
  unfold emitGetSpecial at h
  split at h
  · split_ifs at h
    exact (Outcome.emitted.inj h).2.symm
  · cases h

/-- The reordering of threads clocks out one output. -/
theorem outputs_emitHitObjectReorderThread
    (h : emitHitObjectReorderThread inputs = .emitted emission outputs) : outputs = [0] := by
  unfold emitHitObjectReorderThread at h
  split at h
  · exact outputs_emitArguments h
  · cases h

/-- The cluster id is the first output. -/
theorem outputs_emitRtGetIntersectionClusterId
    (h : emitRtGetIntersectionClusterId env op inputs = .emitted emission outputs) :
    outputs = [0] := by
  unfold emitRtGetIntersectionClusterId at h
  split at h
  · split_ifs at h
    exact (Outcome.emitted.inj h).2.symm
  · cases h

/-- Every emitter leaves its outputs where they are looked for. -/
theorem outputs_emitter (h : emitter env inputs m op = some (.emitted emission outputs)) :
    outputs = outputSlots op := by
  cases op
  all_goals first
    | exact outputs_emitArguments (Option.some.inj h)
    | exact outputs_emitAtomic (Option.some.inj h)
    | exact outputs_emitGetSpecial (Option.some.inj h)
    | exact outputs_emitHitObjectReorderThread (Option.some.inj h)
    | exact outputs_emitRtGetIntersectionClusterId (Option.some.inj h)
    | cases h

/-- An atomic operation is emitted as what it is. -/
theorem op_emitAtomic {subOpcodes : List Nat}
    (h : emitAtomic env op subOpcodes inputs m = .emitted emission outputs) : emission.op = op := by
  unfold emitAtomic at h
  split at h
  · split at h
    · cases h
    · split at h
      · cases h
      · split_ifs at h
        rw [← (Outcome.emitted.inj h).1]
  · cases h

/-- The output of an atomic operation has an id. -/
theorem result_of_isAtomic (h : emitter env inputs m op = some (.emitted emission outputs))
    (hatomic : op.isAtomic = true) (n k : Nat) : emission.result n k = some (n, k) := by
  have hop : emission.op = op := by
    cases op
    all_goals first
      | exact op_emitAtomic (Option.some.inj h)
      | cases hatomic
  refine if_neg ?_
  rw [hop]
  rintro rfl
  cases hatomic

/-- Only a deferred opcode has no emitter. -/
theorem emitter_eq_none : emitter env inputs m op = none ↔ op.isDeferred = true := by
  cases op <;> simp [emitter, NVExtnOp.isDeferred]

/-- What is emitted at a store. -/
theorem of_commit_emitted (h : commit env m inputs = .emitted op emission outputs) :
    opcode inputs = some op ∧ op.isDeferred = false ∧ outputs = outputSlots op ∧
      (op.isAtomic = true → ∀ n k, emission.result n k = some (n, k)) := by
  unfold commit at h
  split at h
  · cases hop : opcode inputs with
    | none => simp [hop] at h
    | some op' =>
      simp only [hop] at h
      cases hemit : emitter env inputs m op' with
      | none => simp [hemit] at h
      | some outcome =>
        simp only [hemit] at h
        cases outcome with
        | emitted emission' outputs' =>
          obtain ⟨rfl, rfl, rfl⟩ := Commit.emitted.inj h
          refine ⟨rfl, ?_, outputs_emitter hemit, result_of_isAtomic hemit⟩
          rw [← Bool.not_eq_true, ← @emitter_eq_none env m inputs, hemit]
          exact Option.some_ne_none _
        | refused => cases h
        | nullValue => cases h
  · cases h

/-- What waits for a call after a store. -/
theorem of_commit_deferred (h : commit env m inputs = .deferred op) :
    opcode inputs = some op ∧ op.isDeferred = true := by
  unfold commit at h
  split at h
  · cases hop : opcode inputs with
    | none => simp [hop] at h
    | some op' =>
      simp only [hop] at h
      cases hemit : emitter env inputs m op' with
      | none =>
        simp only [hemit] at h
        obtain rfl := Commit.deferred.inj h
        exact ⟨rfl, emitter_eq_none.mp hemit⟩
      | some outcome => cases outcome <;> simp [hemit] at h
  · cases h

/-- Without arguments there is no opcode. -/
theorem ne_nil_of_opcode {stores : List ArgumentStore}
    (h : opcode (storedArguments stores) = some op) :
    stores ≠ [] := by
  rintro rfl
  cases h

/-- Only the atomics clock nothing out. -/
theorem numExpectedClockOutputs_eq_zero : numExpectedClockOutputs op = 0 ↔ op.isAtomic = true := by
  cases op <;> simp [numExpectedClockOutputs, NVExtnOp.isAtomic]

/-- No opcode clocks out more than eight outputs. -/
theorem numExpectedClockOutputs_le : numExpectedClockOutputs op ≤ 8 := by
  cases op <;> decide

/-- No opcode has more than eight outputs. -/
theorem length_outputSlots_le : (outputSlots op).length ≤ 8 := by
  unfold outputSlots
  split
  · decide
  · rw [List.length_range]
    exact numExpectedClockOutputs_le

variable {k n : Nat} {fetches : List Fetch}

/-- Every fetch gets a value. -/
theorem length_fetched : (fetched k fetches).length = fetches.length := by
  induction fetches generalizing k with
  | nil => rfl
  | cons fetch fetches ih => cases fetch <;> simp [fetched, ih]

/-- A read of an output that there is. -/
theorem lt_of_read_mem (h : ∀ output ∈ fetched k fetches, output.2 < n) {instruction output : Nat}
    (hmem : Fetch.read instruction output ∈ fetches) : output < n := by
  induction fetches generalizing k with
  | nil => cases hmem
  | cons fetch fetches ih =>
    cases fetch with
    | incrementCounter i =>
      refine ih (fun o ho => h o (List.mem_cons_of_mem _ ho)) ?_
      simpa using hmem
    | read i o =>
      rcases List.mem_cons.mp hmem with heq | hmem
      · obtain ⟨rfl, rfl⟩ := Fetch.read.inj heq
        exact h _ List.mem_cons_self
      · exact ih (fun o ho => h o (List.mem_cons_of_mem _ ho)) hmem

/-- Outputs that are all clocked out are counted from the first. -/
theorem add_length_le (hn : k ≤ n) (h : ∀ output ∈ fetched k fetches, output.2 < n)
    (hclocked : ∀ fetch ∈ fetches, fetch.isClocked = true) : k + fetches.length ≤ n := by
  induction fetches generalizing k with
  | nil => exact hn
  | cons fetch fetches ih =>
    cases fetch with
    | incrementCounter i =>
      have hk : k < n := h (i, k) List.mem_cons_self
      have := ih hk (fun o ho => h o (List.mem_cons_of_mem _ ho))
        (fun f hf => hclocked f (List.mem_cons_of_mem _ hf))
      rw [List.length_cons]
      omega
    | read i o => cases hclocked _ List.mem_cons_self

variable {c c' : Converter} {d : Nat}

/-- One output has been clocked out. -/
def Converter.advance (c : Converter) (instruction : Nat) (analysis : Bool) : Converter :=
  { nvapi := { c.nvapi with clockOutputIndex := c.nvapi.clockOutputIndex + 1 }
    emitted := c.emitted
    rewritten := if analysis then c.rewritten else
      c.rewritten ++
        [(some (.instruction instruction), c.nvapi.fakeDoorbellOutputs c.nvapi.clockOutputIndex)] }

@[simp] theorem advance_clockOutputIndex {instruction : Nat} {analysis : Bool} :
    (c.advance instruction analysis).nvapi.clockOutputIndex = c.nvapi.clockOutputIndex + 1 := rfl

@[simp] theorem advance_numExpectedClockOutputs {instruction : Nat} {analysis : Bool} :
    (c.advance instruction analysis).nvapi.numExpectedClockOutputs =
      c.nvapi.numExpectedClockOutputs := rfl

/-- IncrementCounter when outputs are expected that are not deferred. -/
theorem notifyDoorbell_clocked {instruction : Nat} {analysis : Bool}
    (hdeferred : c.nvapi.deferredOpcode = none)
    (hindex : c.nvapi.clockOutputIndex < c.nvapi.numExpectedClockOutputs) :
    c.notifyDoorbell instruction analysis =
      .ok (if c.nvapi.clockOutputIndex + 1 = c.nvapi.numExpectedClockOutputs then
        (c.advance instruction analysis).reset else c.advance instruction analysis) := by
  have hclock : c.clockOutput instruction analysis = .ok (c.advance instruction analysis) := by
    unfold Converter.clockOutput
    split
    · next heq => rw [hdeferred] at heq; cases heq
    · cases analysis <;> rfl
  unfold Converter.notifyDoorbell
  rw [if_neg (by omega), if_pos hindex, hclock]
  simp only
  by_cases hlast : c.nvapi.clockOutputIndex + 1 = c.nvapi.numExpectedClockOutputs
  · rw [if_pos hlast, if_pos ⟨Nat.le_of_eq hlast.symm, hdeferred⟩]
  · rw [if_neg hlast, if_neg]
    rintro ⟨hle, -⟩
    change c.nvapi.clockOutputIndex + 1 ≥ c.nvapi.numExpectedClockOutputs at hle
    omega

/-- Outputs that are clocked out replace the values of IncrementCounter in order; the last one
resets the machine. -/
theorem run_clocked (env : Env) (d : Nat) (hdeferred : c.nvapi.deferredOpcode = none)
    (hpos : 0 < c.nvapi.numExpectedClockOutputs)
    (hclocked : ∀ fetch ∈ fetches, fetch.isClocked = true)
    (hlen : c.nvapi.clockOutputIndex + fetches.length ≤ c.nvapi.numExpectedClockOutputs) :
    ∃ c', run (emitInstruction env) c (fetches.map (Fetch.event d)) = .ok c' ∧
      c'.emitted = c.emitted ∧
      c'.rewritten = c.rewritten ++ (fetched c.nvapi.clockOutputIndex fetches).map (fun output =>
        (some (.instruction output.1), c.nvapi.fakeDoorbellOutputs output.2)) ∧
      c'.nvapi.markedUav = c.nvapi.markedUav ∧ c'.nvapi.deferredOpcode = none ∧
      (c'.nvapi.numExpectedClockOutputs = 0 ↔ fetches ≠ [] ∧
        c.nvapi.clockOutputIndex + fetches.length = c.nvapi.numExpectedClockOutputs) := by
  induction fetches generalizing c with
  | nil =>
    refine ⟨c, rfl, rfl, (List.append_nil _).symm, rfl, hdeferred, ?_⟩
    simp
    omega
  | cons fetch fetches ih =>
    cases fetch with
    | read instruction output => cases hclocked _ List.mem_cons_self
    | incrementCounter instruction =>
      rw [List.length_cons] at hlen
      have hstep : emitInstruction env c (Fetch.event d (.incrementCounter instruction)) = _ :=
        notifyDoorbell_clocked hdeferred (by omega)
      rw [List.map_cons]
      by_cases hlast : c.nvapi.clockOutputIndex + 1 = c.nvapi.numExpectedClockOutputs
      · have hnil : fetches = [] := List.eq_nil_of_length_eq_zero (by omega)
        subst hnil
        rw [if_pos hlast] at hstep
        refine ⟨_, (run_cons hstep).trans rfl, rfl, rfl, rfl, rfl, ?_⟩
        simp [Converter.reset, NVAPIState.reset, hlast]
      · rw [if_neg hlast] at hstep
        obtain ⟨c', hrun, hemitted, hrewritten, hmarked, hnone, hzero⟩ := ih
          (c := c.advance instruction false) hdeferred hpos
              (fun f hf => hclocked f (List.mem_cons_of_mem _ hf)) (by
            rw [advance_clockOutputIndex, advance_numExpectedClockOutputs]
            omega)
        refine ⟨c', (run_cons hstep).trans hrun, hemitted, ?_, hmarked, hnone, ?_⟩
        · rw [hrewritten, fetched, List.map_cons]
          exact List.append_assoc ..
        · rw [hzero, advance_clockOutputIndex, advance_numExpectedClockOutputs, List.length_cons]
          constructor
          · rintro ⟨-, h⟩
            exact ⟨List.cons_ne_nil _ _, by omega⟩
          · rintro ⟨-, h⟩
            refine ⟨?_, by omega⟩
            rintro rfl
            exact hlast h

/-- A read of a slot with an id. -/
theorem emitNvapiBufferLoad_read {instruction output : Nat} {id : Id}
    (hd : c.nvapi.doorbell = some d)
    (hid : c.nvapi.fakeDoorbellOutputs (argumentDst0u + output) = some id)
    (hlt : argumentDst0u + output < argumentCount) :
    emitInstruction env c (Fetch.event d (.read instruction output)) =
      .ok (c.rewriteValue (some (.instruction instruction)) (some id)) := by
  have hmod : 4 * (argumentDst0u + output) % 2 ^ 32 = 4 * (argumentDst0u + output) :=
    Nat.mod_eq_of_lt (by unfold argumentCount at hlt; omega)
  simp only [emitInstruction, Fetch.event, Converter.emitNvapiBufferLoad, getConstantOperand, hmod]
  rw [if_pos ⟨trivial, (isDoorbell_iff hd).mpr rfl⟩, if_neg (by omega),
    Nat.mul_div_cancel_left _ (by omega), if_neg (by omega), hid]

/-- Reads of the only output of an atomic. -/
theorem run_read (env : Env) (d : Nat) {id : Id} (hd : c.nvapi.doorbell = some d)
    (hid : c.nvapi.fakeDoorbellOutputs argumentDst0u = some id)
    (hread : ∀ fetch ∈ fetches, fetch.isClocked = false)
    (hlt : ∀ output ∈ fetched k fetches, output.2 < 1) :
    ∃ c', run (emitInstruction env) c (fetches.map (Fetch.event d)) = .ok c' ∧
      c'.emitted = c.emitted ∧ c'.rewritten = c.rewritten ++ (fetched k fetches).map (fun output =>
        (some (.instruction output.1), some id)) ∧ c'.nvapi = c.nvapi := by
  induction fetches generalizing c with
  | nil => exact ⟨c, rfl, rfl, (List.append_nil _).symm, rfl⟩
  | cons fetch fetches ih =>
    cases fetch with
    | incrementCounter instruction => cases hread _ List.mem_cons_self
    | read instruction output =>
      have hzero : output = 0 := Nat.lt_one_iff.mp (hlt (instruction, output) List.mem_cons_self)
      subst hzero
      have hstep : emitInstruction env c (Fetch.event d (.read instruction 0)) = _ :=
        emitNvapiBufferLoad_read hd hid (by decide)
      obtain ⟨c', hrun, hemitted, hrewritten, hnvapi⟩ := ih
        (c := c.rewriteValue (some (.instruction instruction)) (some id)) hd hid
        (fun f hf => hread f (List.mem_cons_of_mem _ hf))
          (fun o ho => hlt o (List.mem_cons_of_mem _ ho))
      refine ⟨c', (run_cons hstep).trans hrun, hemitted, ?_, hnvapi⟩
      rw [hrewritten, fetched, List.map_cons]
      exact List.append_assoc ..

variable {handle : Nat} {calls : List Call} {attributes : Option Value}

/-- The deferred opcodes that make a hit object. -/
def makesHitObject : NVExtnOp → Bool
  | .hitObjectTraceRay | .hitObjectMakeHit | .hitObjectMakeHitWithRecordIndex => true
  | _ => false

/-- The hit object that is replaced when a deferred opcode is done. -/
def Converter.hitObjects (c : Converter) (op : NVExtnOp) : List (Option Value) :=
  if makesHitObject op then [c.nvapi.fakeDoorbellIntermediates intermediateHandle0] else []

/-- The attributes of a hit are kept for its TraceRay. -/
def Converter.withAttributes (c : Converter) (data : Value) : Converter :=
  { c with nvapi := { c.nvapi with
    fakeDoorbellIntermediates :=
      Function.update c.nvapi.fakeDoorbellIntermediates intermediateAttributes (some data) } }

/-- Attributes are no handle. -/
theorem getNvapiTraceHandle_withAttributes {data : Value} :
    (c.withAttributes data).getNvapiTraceHandle = c.getNvapiTraceHandle := by
  unfold Converter.getNvapiTraceHandle Converter.withAttributes
  simp only [Function.update_of_ne (show intermediateHandle0 ≠ intermediateAttributes by decide),
    Function.update_of_ne (show intermediateHandle1 ≠ intermediateAttributes by decide)]

/-- What emission does at a call, by what the call does for the deferred operation. -/
def Converter.called (c : Converter) (op : NVExtnOp) : CallEffect → Except Abort Converter
  | .other => .ok c
  | .attributes data => .ok (c.withAttributes data)
  | .completes outcome => (c.complete (c.hitObjects op) outcome).map Prod.snd

/-- A call while an operation waits for one. -/
theorem emitInstruction_call {call : Call} (hop : c.nvapi.deferredOpcode = some op) :
    emitInstruction env c (.call call) =
      if c.getNvapiTraceHandle = some call.handle then
        c.called op (callEffect op c.nvapi.fakeDoorbellInputs
          (c.nvapi.fakeDoorbellIntermediates intermediateAttributes) call)
      else .ok c := by
  cases call with
  | callShader h data =>
    change _ = if c.getNvapiTraceHandle = some h then _ else _
    rw [emitInstruction, Converter.emitNvapiCallShader]
    split_ifs
    · obtain ⟨⟨doorbell, inputs, intermediates, outputs, uav, deferred, index, count⟩, emitted,
        rewritten⟩ := c
      obtain rfl : deferred = some op := hop
      cases op <;> rfl
    · rfl
  | traceRay h payload ray =>
    change _ = if c.getNvapiTraceHandle = some h then _ else _
    rw [emitInstruction, Converter.emitNvapiTraceRay]
    split_ifs
    · obtain ⟨⟨doorbell, inputs, intermediates, outputs, uav, deferred, index, count⟩, emitted,
        rewritten⟩ := c
      obtain rfl : deferred = some op := hop
      cases op <;> rfl
    · rfl

/-- There is no handle when no operation waits for a call. -/
theorem getNvapiTraceHandle_of_none (hop : c.nvapi.deferredOpcode = none) :
    c.getNvapiTraceHandle = none := by
  rw [Converter.getNvapiTraceHandle, hop]

/-- There is no handle before one is fetched. -/
theorem getNvapiTraceHandle_of_empty (h : c.nvapi.fakeDoorbellIntermediates = fun _ => none) :
    c.getNvapiTraceHandle = none := by
  rw [Converter.getNvapiTraceHandle, h]
  split <;> rfl

/-- A call while there is no handle. -/
theorem not_concerns_call {call : Call} (hnone : c.getNvapiTraceHandle = none) :
    ¬ Concerns c (.call call) := by
  rw [Concerns, hnone]
  simp

/-- Without a trace handle an instruction does nothing. -/
theorem emitInstruction_call_none {call : Call} (hnone : c.getNvapiTraceHandle = none) :
    emitInstruction env c (.call call) = .ok c :=
  (instruction_of_not_concerns (not_concerns_call hnone)).1

/-- Without a trace handle a run does nothing. -/
theorem run_call_none (h : c.getNvapiTraceHandle = none) :
    run (emitInstruction env) c (calls.map Event.call) = .ok c := by
  induction calls with
  | nil => rfl
  | cons call calls ih => rw [List.map_cons, run_cons (emitInstruction_call_none h), ih]

/-- The calls of a deferred operation: the first one that does it emits it, and the others go by. -/
theorem run_call (env : Env) (hop : c.nvapi.deferredOpcode = some op)
    (hhandle : c.getNvapiTraceHandle = some (.instruction handle))
    (hattributes : c.nvapi.fakeDoorbellIntermediates intermediateAttributes = attributes)
    (h : completion op c.nvapi.fakeDoorbellInputs handle attributes calls = some emission) :
    run (emitInstruction env) c (calls.map Event.call) = .ok {
      nvapi := c.nvapi.reset
      emitted := c.emitted ++ [emission]
      rewritten := c.rewritten ++ (c.hitObjects op).map fun value =>
          (value, emission.result c.emitted.length 0) } := by
  induction calls generalizing c attributes with
  | nil => cases h
  | cons call calls ih =>
    have hstep : emitInstruction env c (.call call) = _ := emitInstruction_call hop
    rw [completion] at h
    rw [List.map_cons]
    by_cases hcall : call.handle = .instruction handle
    · rw [if_pos hcall] at h
      rw [hhandle, if_pos (by rw [hcall]), hattributes] at hstep
      cases heffect : callEffect op c.nvapi.fakeDoorbellInputs attributes call with
      | other =>
        rw [heffect] at h hstep
        rw [run_cons hstep]
        exact ih hop hhandle hattributes h
      | attributes data =>
        rw [heffect] at h hstep
        have hkept : (c.withAttributes data).nvapi.fakeDoorbellIntermediates
            intermediateAttributes = some data := by
          simp [Converter.withAttributes]
        rw [run_cons hstep, ih (c := c.withAttributes data) hop
          (getNvapiTraceHandle_withAttributes.trans hhandle) hkept h]
        rfl
      | completes outcome =>
        rw [heffect] at h hstep
        cases outcome with
        | emitted e outputs =>
          obtain rfl := Option.some.inj h
          rw [run_cons hstep, run_call_none (getNvapiTraceHandle_of_none rfl)]
        | refused => cases h
        | nullValue => cases h
    · rw [if_neg hcall] at h
      rw [hhandle, if_neg (by simpa using fun heq => hcall heq.symm)] at hstep
      rw [run_cons hstep]
      exact ih hop hhandle hattributes h

variable {instruction : Nat} {hitObjects : List Nat}

/-- The handle of the call that is waited for. -/
theorem getNvapiTraceHandle_eq (hop : c.nvapi.deferredOpcode = some op) :
    c.getNvapiTraceHandle =
      if makesHitObject op then c.nvapi.fakeDoorbellIntermediates intermediateHandle1
      else if op.isDeferred then c.nvapi.fakeDoorbellIntermediates intermediateHandle0
        else none := by
  rw [Converter.getNvapiTraceHandle, hop]
  cases op <;> rfl

/-- The next handle of a deferred operation is kept. -/
def Converter.hold (c : Converter) (instruction : Nat) : Converter :=
  { c with nvapi := { c.nvapi with
    fakeDoorbellIntermediates := Function.update c.nvapi.fakeDoorbellIntermediates
      c.nvapi.clockOutputIndex (some (.instruction instruction))
    clockOutputIndex := c.nvapi.clockOutputIndex + 1 } }

/-- IncrementCounter when a deferred operation expects handles. -/
theorem notifyDoorbell_waiting {analysis : Bool} (hop : c.nvapi.deferredOpcode = some op)
    (hindex : c.nvapi.clockOutputIndex < c.nvapi.numExpectedClockOutputs)
    (hcount : c.nvapi.clockOutputIndex < intermediateCount) :
    c.notifyDoorbell instruction analysis = .ok (c.hold instruction) := by
  have hclock : c.clockOutput instruction analysis = .ok (c.hold instruction) := by
    unfold Converter.clockOutput
    split
    · rw [if_pos hcount]
      rfl
    · next heq => rw [hop] at heq; cases heq
  unfold Converter.notifyDoorbell
  rw [if_neg (by omega), if_pos hindex, hclock]
  simp only
  rw [if_neg]
  rintro ⟨-, hnone⟩
  rw [show (c.hold instruction).nvapi.deferredOpcode = some op from hop] at hnone
  cases hnone

/-- The deferred operations: two outputs and a hit object, or one output. -/
theorem deferredHandles_cases (h : deferredHandles op fetches = some (hitObjects, handle)) :
    (makesHitObject op = true ∧ numExpectedClockOutputs op = 2 ∧
        ∃ hitObject, fetches = [.incrementCounter hitObject, .incrementCounter handle] ∧
          hitObjects = [hitObject]) ∨
      ((op = .hitObjectInvoke ∨ op = .hitObjectGetAttributes) ∧
        fetches = [.incrementCounter handle] ∧ hitObjects = []) := by
  unfold deferredHandles at h
  split at h
  · obtain ⟨rfl, rfl⟩ := Prod.mk.inj (Option.some.inj h)
    exact Or.inl ⟨rfl, rfl, _, rfl, rfl⟩
  · obtain ⟨rfl, rfl⟩ := Prod.mk.inj (Option.some.inj h)
    exact Or.inl ⟨rfl, rfl, _, rfl, rfl⟩
  · obtain ⟨rfl, rfl⟩ := Prod.mk.inj (Option.some.inj h)
    exact Or.inl ⟨rfl, rfl, _, rfl, rfl⟩
  · obtain ⟨rfl, rfl⟩ := Prod.mk.inj (Option.some.inj h)
    exact Or.inr ⟨Or.inl rfl, rfl, rfl⟩
  · obtain ⟨rfl, rfl⟩ := Prod.mk.inj (Option.some.inj h)
    exact Or.inr ⟨Or.inr rfl, rfl, rfl⟩
  · cases h

/-- The handles of a deferred operation are fetched. -/
theorem run_handles (env : Env) (d : Nat) (hop : c.nvapi.deferredOpcode = some op)
    (hcount : c.nvapi.numExpectedClockOutputs = numExpectedClockOutputs op)
    (hindex : c.nvapi.clockOutputIndex = 0)
    (hnone : c.nvapi.fakeDoorbellIntermediates = fun _ => none)
    (h : deferredHandles op fetches = some (hitObjects, handle)) :
    ∃ c', run (emitInstruction env) c (fetches.map (Fetch.event d)) = .ok c' ∧
      c'.emitted = c.emitted ∧ c'.rewritten = c.rewritten ∧ c'.nvapi.markedUav = c.nvapi.markedUav ∧
      c'.nvapi.fakeDoorbellInputs = c.nvapi.fakeDoorbellInputs ∧ c'.nvapi.deferredOpcode = some op ∧
      c'.getNvapiTraceHandle = some (.instruction handle) ∧
      c'.nvapi.fakeDoorbellIntermediates intermediateAttributes = none ∧
      c'.hitObjects op = hitObjects.map fun hitObject => some (.instruction hitObject) := by
  rcases deferredHandles_cases h with ⟨hmakes, htwo, hitObject, rfl, rfl⟩ | ⟨hinvoke, rfl, rfl⟩
  · have hfirst : emitInstruction env c (Fetch.event d (.incrementCounter hitObject)) = _ :=
      notifyDoorbell_waiting hop (by omega) (by rw [hindex]; decide)
    have hsecond : emitInstruction env (c.hold hitObject)
        (Fetch.event d (.incrementCounter handle)) = _ :=
      notifyDoorbell_waiting hop (by simp only [Converter.hold]; omega)
        (by simp only [Converter.hold, hindex]; decide)
    have hop' : ((c.hold hitObject).hold handle).nvapi.deferredOpcode = some op := hop
    refine ⟨(c.hold hitObject).hold handle, ?_, rfl, rfl, rfl, rfl, hop', ?_, ?_, ?_⟩
    · rw [List.map_cons, List.map_singleton, run_cons hfirst, run_cons hsecond, run_nil]
    · rw [getNvapiTraceHandle_eq hop', if_pos hmakes]
      simp [Converter.hold, hindex]
    · simp [Converter.hold, hindex, hnone]
    · simp [Converter.hitObjects, hmakes, Converter.hold, hindex]
  · have hone : numExpectedClockOutputs op = 1 := by rcases hinvoke with rfl | rfl <;> rfl
    have hstep : emitInstruction env c (Fetch.event d (.incrementCounter handle)) = _ :=
      notifyDoorbell_waiting hop (by omega) (by rw [hindex]; decide)
    have hop' : (c.hold handle).nvapi.deferredOpcode = some op := hop
    refine ⟨c.hold handle, ?_, rfl, rfl, rfl, rfl, hop', ?_, ?_, ?_⟩
    · rw [List.map_singleton, run_cons hstep, run_nil]
    · rw [getNvapiTraceHandle_eq hop',
        if_neg (by rcases hinvoke with rfl | rfl <;> simp [makesHitObject]),
        if_pos (by rcases hinvoke with rfl | rfl <;> rfl)]
      simp [Converter.hold, hindex]
    · simp [Converter.hold, hindex, hnone]
    · rcases hinvoke with rfl | rfl <;> rfl

/-- All that IncrementCounter can do to the machine. -/
theorem notifyDoorbell_cases {instruction : Nat} (h : c.notifyDoorbell instruction false = .ok c') :
    (c.nvapi.numExpectedClockOutputs = 0 ∧
        c' = { c with nvapi := { c.nvapi.reset with doorbell := some instruction } }) ∨
      (c.nvapi.numExpectedClockOutputs ≠ 0 ∧
        ((c.nvapi.deferredOpcode = none ∧
            (c' = c.advance instruction false ∨ c' = (c.advance instruction false).reset)) ∨
          (c.nvapi.deferredOpcode ≠ none ∧ (c' = c.hold instruction ∨ c' = c)) ∨
          (c.nvapi.deferredOpcode = none ∧ c' = c.reset))) := by
  by_cases hzero : c.nvapi.numExpectedClockOutputs = 0
  · rw [Converter.notifyDoorbell, if_pos hzero] at h
    exact Or.inl ⟨hzero, (Except.ok.inj h).symm⟩
  refine Or.inr ⟨hzero, ?_⟩
  by_cases hindex : c.nvapi.clockOutputIndex < c.nvapi.numExpectedClockOutputs
  · cases hop : c.nvapi.deferredOpcode with
    | none =>
      rw [notifyDoorbell_clocked hop hindex] at h
      split_ifs at h
      · exact Or.inl ⟨rfl, Or.inr (Except.ok.inj h).symm⟩
      · exact Or.inl ⟨rfl, Or.inl (Except.ok.inj h).symm⟩
    | some op =>
      refine Or.inr (Or.inl ⟨Option.some_ne_none _, ?_⟩)
      by_cases hcount : c.nvapi.clockOutputIndex < intermediateCount
      · rw [notifyDoorbell_waiting hop hindex hcount] at h
        exact Or.inl (Except.ok.inj h).symm
      · have hclock : c.clockOutput instruction false = .error .outOfRange := by
          unfold Converter.clockOutput
          simp only [hop, if_neg hcount]
        rw [Converter.notifyDoorbell, if_neg hzero, if_pos hindex, hclock] at h
        cases h
  · rw [Converter.notifyDoorbell, if_neg hzero, if_neg hindex] at h
    simp only at h
    split_ifs at h with hreset
    · exact Or.inr (Or.inr ⟨hreset.2, (Except.ok.inj h).symm⟩)
    · have hop : c.nvapi.deferredOpcode ≠ none := fun hnone => hreset ⟨by omega, hnone⟩
      exact Or.inr (Or.inl ⟨hop, Or.inr (Except.ok.inj h).symm⟩)

/-- All that a read can do. -/
theorem emitNvapiBufferLoad_cases (load : Load) :
    (c.emitNvapiBufferLoad load).2 = c ∨
      ∃ id, c.nvapi.fakeDoorbellOutputs (((getConstantOperand load.offset).getD 0) / 4) = some id ∧
        (c.emitNvapiBufferLoad load).2 = c.rewriteValue (some (.instruction load.instruction))
          (some id) := by
  unfold Converter.emitNvapiBufferLoad
  split_ifs
  · split
    · exact Or.inl rfl
    · next offset hoffset =>
      split_ifs
      · exact Or.inl rfl
      · exact Or.inl rfl
      · split
        · exact Or.inl rfl
        · next id hid => exact Or.inr ⟨id, by rw [hoffset]; exact hid, rfl⟩
  · exact Or.inl rfl

/-- Fetches emit nothing. -/
theorem emitted_fetch {fetch : Fetch} (h : emitInstruction env c (fetch.event d) = .ok c') :
    c'.emitted = c.emitted := by
  cases fetch with
  | incrementCounter instruction =>
    rcases notifyDoorbell_cases h with ⟨-, rfl⟩ | ⟨-, ⟨-, rfl | rfl⟩ | ⟨-, rfl | rfl⟩ | ⟨-, rfl⟩⟩
    all_goals rfl
  | read instruction output =>
    obtain rfl := Except.ok.inj h
    rcases emitNvapiBufferLoad_cases (c := c) _ with heq | ⟨id, -, heq⟩
    · rw [heq]
    · rw [heq]
      rfl

/-- Of fetches of two kinds, where one kind replaces nothing while the machine is as it is, at most
the others replace a value. -/
theorem run_fetch_le {p : Fetch → Bool} {I : Converter → Prop}
    (hstep : ∀ c c' fetch, fetch ∈ fetches → I c → emitInstruction env c (fetch.event d) = .ok c' →
      I c' ∧ c'.rewritten.length ≤ c.rewritten.length + if p fetch then 1 else 0) (hc : I c)
    (h : run (emitInstruction env) c (fetches.map (Fetch.event d)) = .ok c') :
    c'.emitted = c.emitted ∧ c'.rewritten.length ≤ c.rewritten.length + fetches.countP p := by
  induction fetches generalizing c with
  | nil =>
    cases h
    simp
  | cons fetch fetches ih =>
    obtain ⟨c₁, hfirst, hrun⟩ := run_cons_eq_ok.mp h
    obtain ⟨hc₁, hle⟩ := hstep c c₁ fetch List.mem_cons_self hc hfirst
    obtain ⟨hemitted, hrest⟩ :=
      ih (fun c c' f hf => hstep c c' f (List.mem_cons_of_mem _ hf)) hc₁ hrun
    refine ⟨hemitted.trans (emitted_fetch hfirst), ?_⟩
    rw [List.countP_cons]
    omega

/-- While nothing lies in the slots of the destination, reads replace nothing. -/
theorem fetch_without_destination
    (hread : ∀ instruction output, .read instruction output ∈ fetches → output < 8)
    (hc : ∀ slot, argumentDst0u ≤ slot → c.nvapi.fakeDoorbellOutputs slot = none)
    (h : run (emitInstruction env) c (fetches.map (Fetch.event d)) = .ok c') :
    c'.emitted = c.emitted ∧ c'.rewritten.length ≤
      c.rewritten.length + fetches.countP Fetch.isClocked := by
  refine run_fetch_le (I := fun c => ∀ slot,
    argumentDst0u ≤ slot → c.nvapi.fakeDoorbellOutputs slot = none)
    ?_ hc h
  intro c c' fetch hmem hc hstep
  cases fetch with
  | incrementCounter instruction =>
    rcases notifyDoorbell_cases hstep with
      ⟨-, rfl⟩ | ⟨-, ⟨-, rfl | rfl⟩ | ⟨-, rfl | rfl⟩ | ⟨-, rfl⟩⟩
    · exact ⟨fun _ _ => rfl, Nat.le_add_right ..⟩
    · exact ⟨hc, by simp [Fetch.isClocked, Converter.advance]⟩
    · exact ⟨fun _ _ => rfl, by simp [Fetch.isClocked, Converter.advance, Converter.reset]⟩
    · exact ⟨hc, Nat.le_add_right ..⟩
    · exact ⟨hc, Nat.le_add_right ..⟩
    · exact ⟨fun _ _ => rfl, Nat.le_add_right ..⟩
  | read instruction output =>
    obtain rfl := Except.ok.inj hstep
    rcases emitNvapiBufferLoad_cases (c := c) _ with heq | ⟨id, hid, -⟩
    · rw [heq]
      exact ⟨hc, Nat.le_add_right ..⟩
    · have hlt := hread instruction output hmem
      have hmod : 4 * (argumentDst0u + output) % 2 ^ 32 / 4 = argumentDst0u + output := by
        rw [Nat.mod_eq_of_lt (by unfold argumentDst0u; omega), Nat.mul_div_cancel_left _ (by omega)]
      rw [getConstantOperand, Option.getD_some, hmod, hc _ (by omega)] at hid
      cases hid

/-- While another opcode waits for its call, IncrementCounter replaces nothing. -/
theorem fetch_while_waiting (hop : c.nvapi.deferredOpcode ≠ none)
    (hcount : c.nvapi.numExpectedClockOutputs ≠ 0)
    (h : run (emitInstruction env) c (fetches.map (Fetch.event d)) = .ok c') :
    c'.emitted = c.emitted ∧ c'.rewritten.length ≤
      c.rewritten.length + fetches.countP (!·.isClocked) := by
  refine run_fetch_le (I := fun c => c.nvapi.deferredOpcode ≠ none ∧
    c.nvapi.numExpectedClockOutputs ≠ 0) ?_ ⟨hop, hcount⟩ h
  rintro c c' fetch - ⟨hop, hcount⟩ hstep
  cases fetch with
  | incrementCounter instruction =>
    rcases notifyDoorbell_cases hstep
      with ⟨hzero, -⟩ | ⟨-, ⟨hnone, -⟩ | ⟨-, rfl | rfl⟩ | ⟨hnone, -⟩⟩
    · exact absurd hzero hcount
    · exact absurd hnone hop
    · exact ⟨⟨hop, hcount⟩, Nat.le_add_right ..⟩
    · exact ⟨⟨hop, hcount⟩, Nat.le_add_right ..⟩
    · exact absurd hnone hop
  | read instruction output =>
    obtain rfl := Except.ok.inj hstep
    rcases emitNvapiBufferLoad_cases (c := c) _ with heq | ⟨id, -, heq⟩
    · rw [heq]
      exact ⟨⟨hop, hcount⟩, Nat.le_add_right ..⟩
    · rw [heq]
      exact ⟨⟨hop, hcount⟩, by simp [Converter.rewriteValue, Fetch.isClocked]⟩

/-- While no output is expected, IncrementCounter is another doorbell. -/
theorem fetch_without_expected (hcount : c.nvapi.numExpectedClockOutputs = 0)
    (h : run (emitInstruction env) c (fetches.map (Fetch.event d)) = .ok c') :
    c'.emitted = c.emitted ∧ c'.rewritten.length ≤
      c.rewritten.length + fetches.countP (!·.isClocked) := by
  refine run_fetch_le (I := fun c => c.nvapi.numExpectedClockOutputs = 0) ?_ hcount h
  rintro c c' fetch - hcount hstep
  cases fetch with
  | incrementCounter instruction =>
    rcases notifyDoorbell_cases hstep with ⟨-, rfl⟩ | ⟨hne, -⟩
    · exact ⟨rfl, Nat.le_add_right ..⟩
    · exact absurd hcount hne
  | read instruction output =>
    obtain rfl := Except.ok.inj hstep
    rcases emitNvapiBufferLoad_cases (c := c) _ with heq | ⟨id, -, heq⟩
    · rw [heq]
      exact ⟨hcount, Nat.le_add_right ..⟩
    · rw [heq]
      exact ⟨hcount, by simp [Converter.rewriteValue, Fetch.isClocked]⟩

/-- A call that replaces a value emits as well. -/
theorem run_call_le (h : run (emitInstruction env) c (calls.map Event.call) = .ok c') :
    ∃ n, c'.emitted.length = c.emitted.length + n ∧
      c'.rewritten.length ≤ c.rewritten.length + n := by
  induction calls generalizing c with
  | nil =>
    cases h
    exact ⟨0, rfl, Nat.le_refl _⟩
  | cons call calls ih =>
    obtain ⟨c₁, hstep, hrun⟩ := run_cons_eq_ok.mp h
    obtain ⟨n, hemitted, hrewritten⟩ := ih hrun
    have hfirst : ∃ k, c₁.emitted.length = c.emitted.length + k ∧
        c₁.rewritten.length ≤ c.rewritten.length + k := by
      cases hop : c.nvapi.deferredOpcode with
      | none =>
        rw [emitInstruction_call_none (getNvapiTraceHandle_of_none hop)] at hstep
        cases hstep
        exact ⟨0, rfl, Nat.le_refl _⟩
      | some op =>
        rw [emitInstruction_call hop] at hstep
        split_ifs at hstep
        · cases heffect : callEffect op c.nvapi.fakeDoorbellInputs
              (c.nvapi.fakeDoorbellIntermediates intermediateAttributes) call with
          | other =>
            rw [heffect] at hstep
            cases hstep
            exact ⟨0, rfl, Nat.le_refl _⟩
          | attributes data =>
            rw [heffect] at hstep
            cases hstep
            exact ⟨0, rfl, Nat.le_refl _⟩
          | completes outcome =>
            rw [heffect] at hstep
            cases outcome with
            | emitted emission outputs =>
              cases hstep
              refine ⟨1, by simp, ?_⟩
              simp only [List.length_append, List.length_map, Converter.hitObjects]
              split <;> simp
            | refused =>
              cases hstep
              exact ⟨0, rfl, Nat.le_refl _⟩
            | nullValue => cases hstep
        · cases hstep
          exact ⟨0, rfl, Nat.le_refl _⟩
    obtain ⟨k, hk, hle⟩ := hfirst
    exact ⟨n + k, by omega, by omega⟩

end DxilSpirv.Nvapi
