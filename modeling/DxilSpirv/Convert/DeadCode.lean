import DxilSpirv.Convert.VisitOrder

/-!
# Dead code elimination

The analysis marks every value that an instruction, a PHI or a terminator reads, in all functions
that are converted. An instruction without side effects whose value is not marked is not emitted.
Which DXIL operations have side effects is a list that is kept by hand.
-/

namespace DxilSpirv.DeadCode

open DxilSpirv.Graph DxilSpirv.Converter DxilSpirv.VisitOrder

/-- What can be observed of an instruction other than its value. -/
inductive Effect
  | store
  | atomic
  | allocation
  | barrier
  | discard
  | output
  | nodeRecordCounter
  /-- A ray is traced, a hit is reported or a shader is invoked. -/
  | ray
  /-- The state of a ray query or of a hit object changes. -/
  | rayObject
  /-- Another function runs. -/
  | call
  deriving DecidableEq

/-- The operations of `DXIL::Op` that do more than to compute a value. -/
inductive Op
  | storeOutput
  | textureStore
  | bufferStore
  | bufferUpdateCounter
  | atomicBinOp
  | atomicCompareExchange
  | barrier
  | discard
  | emitStream
  | cutStream
  | emitThenCutStream
  | storePatchConstant
  | rawBufferStore
  | rawBufferVectorStore
  | ignoreHit
  | acceptHitAndEndSearch
  | traceRay
  | reportHit
  | callShader
  | setMeshOutputCounts
  | emitIndices
  | storeVertexOutput
  | storePrimitiveOutput
  | dispatchMesh
  | writeSamplerFeedback
  | writeSamplerFeedbackBias
  | writeSamplerFeedbackLevel
  | writeSamplerFeedbackGrad
  | rayQueryTraceRayInline
  | rayQueryProceed
  | rayQueryAbort
  | rayQueryCommitNonOpaqueTriangleHit
  | rayQueryCommitProceduralPrimitiveHit
  | textureStoreSample
  | allocateNodeOutputRecords
  | incrementOutputCount
  | finishedCrossGroupSharing
  | barrierByMemoryType
  | barrierByMemoryHandle
  | barrierByNodeRecordHandle
  | hitObjectTraceRay
  | hitObjectInvoke
  | maybeReorderThread
  | hitObjectSetShaderTableIndex
  | hitObjectAttributes
  /-- An operation that computes a value, or does nothing. -/
  | other (opcode : Nat) (void : Bool)
  deriving DecidableEq

/-- The operation returns nothing. -/
def Op.returnsVoid : Op → Bool
  | bufferUpdateCounter => false
  | atomicBinOp => false
  | atomicCompareExchange => false
  | reportHit => false
  | rayQueryProceed => false
  | allocateNodeOutputRecords => false
  | finishedCrossGroupSharing => false
  | hitObjectTraceRay => false
  | hitObjectSetShaderTableIndex => false
  | other _ void => void
  | _ => true

/-- What the code that is emitted for an operation does. -/
def Op.effect : Op → Option Effect
  | storeOutput => some .output
  | textureStore => some .store
  | bufferStore => some .store
  | bufferUpdateCounter => some .atomic
  | atomicBinOp => some .atomic
  | atomicCompareExchange => some .atomic
  | barrier => some .barrier
  | discard => some .discard
  | emitStream => some .output
  | cutStream => some .output
  | emitThenCutStream => some .output
  | storePatchConstant => some .output
  | rawBufferStore => some .store
  | rawBufferVectorStore => some .store
  | ignoreHit => some .ray
  | acceptHitAndEndSearch => some .ray
  | traceRay => some .ray
  | reportHit => some .ray
  | callShader => some .ray
  | setMeshOutputCounts => some .output
  | emitIndices => some .output
  | storeVertexOutput => some .output
  | storePrimitiveOutput => some .output
  | dispatchMesh => some .output
  | writeSamplerFeedback => some .store
  | writeSamplerFeedbackBias => some .store
  | writeSamplerFeedbackLevel => some .store
  | writeSamplerFeedbackGrad => some .store
  | rayQueryTraceRayInline => some .rayObject
  | rayQueryProceed => some .rayObject
  | rayQueryAbort => some .rayObject
  | rayQueryCommitNonOpaqueTriangleHit => some .rayObject
  | rayQueryCommitProceduralPrimitiveHit => some .rayObject
  | textureStoreSample => some .store
  -- The helper functions add to the counters of the records.
  | allocateNodeOutputRecords => some .allocation
  | incrementOutputCount => some .nodeRecordCounter
  | finishedCrossGroupSharing => some .nodeRecordCounter
  | barrierByMemoryType => some .barrier
  | barrierByMemoryHandle => some .barrier
  | barrierByNodeRecordHandle => some .barrier
  | hitObjectTraceRay => some .ray
  | hitObjectInvoke => some .ray
  | maybeReorderThread => some .ray
  | hitObjectSetShaderTableIndex => some .rayObject
  | hitObjectAttributes => some .store
  | other _ _ => none

/-- The operations that `dxil_instruction_has_side_effects` lists. -/
def Op.listed : Op → Bool
  | storeOutput => true
  | textureStore => true
  | bufferStore => true
  | bufferUpdateCounter => true
  | atomicBinOp => true
  | atomicCompareExchange => true
  | barrier => true
  | discard => true
  | emitStream => true
  | cutStream => true
  | emitThenCutStream => true
  | storePatchConstant => true
  | rawBufferStore => true
  | rawBufferVectorStore => true
  | ignoreHit => true
  | acceptHitAndEndSearch => true
  | traceRay => true
  | reportHit => true
  | callShader => true
  | setMeshOutputCounts => true
  | emitIndices => true
  | storeVertexOutput => true
  | storePrimitiveOutput => true
  | dispatchMesh => true
  | writeSamplerFeedback => true
  | writeSamplerFeedbackBias => true
  | writeSamplerFeedbackLevel => true
  | writeSamplerFeedbackGrad => true
  | rayQueryTraceRayInline => true
  | rayQueryProceed => true
  | rayQueryAbort => true
  | rayQueryCommitNonOpaqueTriangleHit => true
  | rayQueryCommitProceduralPrimitiveHit => true
  | textureStoreSample => true
  | hitObjectTraceRay => true
  | hitObjectSetShaderTableIndex => true
  | _ => false

/-- What an instruction is, as far as its side effects depend on it. -/
inductive Operation
  | store
  | atomicCmpXchg
  | atomicRmw
  /-- A call of a function whose name starts with dx.op; there may be no constant for the opcode. -/
  | dxOp (op : Option Op)
  /-- A call of a function whose name starts with llvm, a marker of a lifetime. -/
  | llvmIntrinsic
  | call (callee : Nat)
  /-- An instruction that computes a value. -/
  | value
  deriving DecidableEq

/-- What can be observed of an instruction. -/
def Operation.effect : Operation → Option Effect
  | store => some .store
  | atomicCmpXchg => some .atomic
  | atomicRmw => some .atomic
  | dxOp (some op) => op.effect
  | dxOp none => none
  | llvmIntrinsic => none
  | call _ => some .call
  | value => none

/-- `dxil_instruction_has_side_effects`. -/
def dxilInstructionHasSideEffects : Option Op → Bool
  | none => false
  | some op => if op.returnsVoid then true else op.listed

/-- `instruction_has_side_effects`. -/
def instructionHasSideEffects : Operation → Bool
  | .store => true
  | .atomicCmpXchg => true
  | .atomicRmw => true
  | .dxOp op => dxilInstructionHasSideEffects op
  | .llvmIntrinsic => true
  | .call _ => true
  | .value => false

/-- The operations that have an effect and a value and are not listed. -/
def Operation.Unlisted (o : Operation) : Prop :=
  o = .dxOp (some .allocateNodeOutputRecords) ∨ o = .dxOp (some .finishedCrossGroupSharing)

/-- There are no other effects of instructions without side effects. -/
theorem effect_and_noSideEffects {o : Operation} :
    (o.effect ≠ none ∧ instructionHasSideEffects o = false) ↔ o.Unlisted := by
  constructor
  · rintro ⟨heffect, hside⟩
    cases o with
    | dxOp op =>
      cases op with
      | none => exact absurd rfl heffect
      | some op =>
        cases op with
        | allocateNodeOutputRecords => exact Or.inl rfl
        | finishedCrossGroupSharing => exact Or.inr rfl
        | other opcode void => exact absurd rfl heffect
        | _ => exact Bool.noConfusion hside
    | llvmIntrinsic => exact absurd rfl heffect
    | value => exact absurd rfl heffect
    | _ => exact Bool.noConfusion hside
  · rintro (rfl | rfl) <;> decide

/-- A function with what its instructions do. -/
structure Procedure extends VisitOrder.Function where
  operation : Nat → Operation

/-- The functions of a module; functions and values go by number. -/
structure Program where
  size : Nat
  function : Nat → Procedure
  /-- The value is an `llvm::Constant`. -/
  constant : Nat → Bool
  entry : Option Nat
  patchConstantFunction : Option Nat

variable (static : Nat → Option Bool) (P : Program)

/-- The functions that a function calls. -/
def Program.calls (caller : Nat) : List Nat :=
  (List.range (P.function caller).size).flatMap fun b =>
      ((P.function caller).body b).filterMap fun op =>
    match (P.function caller).operation op.value with
    | .call callee => some callee
    | _ => none

/-- `gather_function_dependencies`. -/
def gatherFunctionDependencies : Nat → List Nat → Nat → List Nat
  | 0, funcs, _ => funcs
  | fuel + 1, funcs, caller =>
    if caller ∈ funcs then funcs
    else
      let gathered := (P.calls caller).foldl (gatherFunctionDependencies fuel) (funcs ++ [caller])
      gathered.erase caller ++ [caller]

/-- The functions that are gathered from the entry point and from the patch constant function. -/
def callees : List Nat :=
  (P.entry.toList ++ P.patchConstantFunction.toList).foldl
    (gatherFunctionDependencies P (P.size + 1)) []

/-- The functions that `analyze_instructions` is run for. -/
def analysedFunctions : List Nat :=
  P.entry.toList ++ (callees P).filter fun f => decide (P.entry ≠ some f)

/-- The functions that are converted. -/
def convertedFunctions : List (Nat × FunctionRole) :=
  (P.entry.toList ++ P.patchConstantFunction.toList).map (·, .primary) ++
    ((callees P).filter fun f => decide (P.entry ≠ some f ∧ P.patchConstantFunction ≠ some f)).map
      (·, .callee)

/-- `mark_used_value`. -/
def markUsedValue (used : Finset Nat) (v : Nat) : Finset Nat :=
  if P.constant v then used else insert v used

/-- `mark_used_values` of a PHI; a PHI does not keep itself alive. -/
def markUsedPhi (used : Finset Nat) (phi : PhiNode) : Finset Nat :=
  (phi.incoming.map (·.2)).foldl
    (fun used v => if v ≠ phi.value then markUsedValue P used v else used) used

/-- `mark_used_values` of an instruction that is neither a PHI nor a terminator. -/
def markUsedOperands (used : Finset Nat) (op : Instruction) : Finset Nat :=
  op.operands.foldl (markUsedValue P) used

/-- What the analysis of a block marks. -/
def markBlock (F : Procedure) (used : Finset Nat) (b : Nat) : Finset Nat :=
  let used := (terminatorOperands F.toFunction b).foldl (markUsedValue P) used
  (F.body b).foldl (markUsedOperands P) ((F.phis b).foldl (markUsedPhi P) used)

/-- What the analysis of a function marks. -/
def markFunction (used : Finset Nat) (f : Nat) : Finset Nat :=
  (buildFunctionBbVisitOrderAnalysis static (P.function f).toLlvmFunction).foldl
    (markBlock P (P.function f)) used

/-- `llvm_used_ssa_values` when code is emitted. -/
def llvmUsedSsaValues : Finset Nat := (analysedFunctions P).foldl (markFunction static P) ∅

/-- The order in which the blocks of a function are emitted. -/
def blockOrder (F : Procedure) : FunctionRole → List Nat
  | .primary => (buildFunctionBbVisitOrderLegacy static F.toLlvmFunction).visitOrder
  | .callee => buildFunctionBbVisitOrderAnalysis static F.toLlvmFunction

/-- `emit_instruction` skips an instruction. -/
def skips (eliminateDeadCode : Bool) (F : Procedure) : Event → Bool
  | .phi value => eliminateDeadCode && !decide (value ∈ llvmUsedSsaValues static P)
  | .instruction op => eliminateDeadCode && !instructionHasSideEffects (F.operation op.value) &&
      !decide (op.value ∈ llvmUsedSsaValues static P)
  | .terminator _ => false

/-- What `emit_instruction` is called for, and the terminators. -/
def visited (sinkHandles : Bool) (F : Procedure) (role : FunctionRole) : List Event :=
  emission sinkHandles static F.toFunction (blockOrder static F role)

/-- What is emitted. -/
def emitted (eliminateDeadCode sinkHandles : Bool) (F : Procedure) (role : FunctionRole) :
    List Event :=
  (visited static sinkHandles F role).filter fun event => !skips static P eliminateDeadCode F event

/-- The value that an emitted event produces; nothing is emitted for a marker. -/
def produced (F : Procedure) : Event → Option Nat
  | .phi value => some value
  | .instruction op => if F.operation op.value = .llvmIntrinsic then none else some op.value
  | .terminator _ => none

/-- What can be observed of an event. -/
def effect (F : Procedure) : Event → Option Effect
  | .instruction op => (F.operation op.value).effect
  | _ => none

variable (F : Procedure)

/-- Something in a block reads a value. -/
def ReadIn (b v : Nat) : Prop :=
  (∃ phi ∈ F.phis b, ∃ p ∈ phi.incoming, p.2 = v) ∨ (∃ op ∈ F.body b, v ∈ op.operands) ∨
    v ∈ terminatorOperands F.toFunction b

/-- Something in a block, other than a PHI that defines it, reads a value. -/
def MarkedIn (b v : Nat) : Prop :=
  (∃ phi ∈ F.phis b, phi.value ≠ v ∧ ∃ p ∈ phi.incoming, p.2 = v) ∨
    (∃ op ∈ F.body b, v ∈ op.operands) ∨ v ∈ terminatorOperands F.toFunction b

/-- A function that the LLVM verifier accepts: static single assignment form, for PHIs, too;
constants are no instructions, and markers have no value. -/
structure Procedure.WellFormed : Prop where
  ssa : SsaForm F.toFunction
  incoming : ∀ b < F.size, ∀ phi ∈ F.phis b, ∀ p ∈ phi.incoming, ∀ a < F.size,
    p.2 ∈ definedIn F.toFunction a → Dominates (Branches F.toFunction) F.entry a p.1
  constant : ∀ b < F.size, ∀ v ∈ definedIn F.toFunction b, P.constant v = false
  intrinsic : ∀ b < F.size, ∀ op ∈ F.body b, F.operation op.value = .llvmIntrinsic →
    ∀ c < F.size, ¬ ReadIn F c op.value

/-- All functions that are analysed are well formed. -/
def Program.WellFormed : Prop := ∀ f ∈ analysedFunctions P, (P.function f).WellFormed P

/-- The values whose ids an event needs: the operands, for a PHI those from blocks that are
converted, and the operands of instructions that define such values. -/
inductive Consumes (order : List Nat) (event : Event) : Nat → Prop
  | operand {v : Nat} (hv : v ∈ event.operands F.toFunction) : Consumes order event v
  | incoming {b : Nat} {phi : PhiNode} {skip kept : List (Nat × Nat)} {p : Nat × Nat}
      (hevent : event = .phi phi.value) (hb : b ∈ order) (hphi : phi ∈ F.phis b)
      (hkept : emitPhiIncoming order skip b phi = .ok kept) (hp : p ∈ kept) :
      Consumes order event p.2
  | nested {w b v : Nat} {op : Instruction} (hw : Consumes order event w) (hb : b < F.size)
      (hop : op ∈ F.body b) (hvalue : op.value = w) (hv : v ∈ op.operands) : Consumes order event v

/-- Whatever is not emitted has no effect, and whatever is needed is emitted. -/
structure EliminationSound (eliminateDeadCode sinkHandles : Bool) : Prop where
  skipped : ∀ f role, (f, role) ∈ convertedFunctions P →
    ∀ event ∈ visited static sinkHandles (P.function f) role,
      skips static P eliminateDeadCode (P.function f) event = true →
        effect (P.function f) event = none
  produced : ∀ f role, (f, role) ∈ convertedFunctions P →
    ∀ event ∈ emitted static P eliminateDeadCode sinkHandles (P.function f) role,
      ∀ v, Consumes (P.function f) (blockOrder static (P.function f) role) event v →
        (∃ a < (P.function f).size, v ∈ definedIn (P.function f).toFunction a) →
        ∃ d ∈ emitted static P eliminateDeadCode sinkHandles (P.function f) role,
          produced (P.function f) d = some v

/-- A call of one of the two operations that are not listed has a result that is read. -/
def UnlistedRead : Prop :=
  ∀ f role, (f, role) ∈ convertedFunctions P → ∀ b, Reached static (P.function f).toLlvmFunction b →
    ∀ op ∈ (P.function f).body b, ((P.function f).operation op.value).Unlisted →
      ∃ g ∈ analysedFunctions P, ∃ c, Reached static (P.function g).toLlvmFunction c ∧
        MarkedIn (P.function g) c op.value

variable {static P} {used : Finset Nat} {v : Nat}

/-- What a fold adds when each of its turns adds something. -/
theorem mem_foldl_of_step {α : Type} {step : Finset Nat → α → Finset Nat} {Q : α → Prop}
    (hstep : ∀ used a, v ∈ step used a ↔ v ∈ used ∨ Q a) (l : List α) :
    v ∈ l.foldl step used ↔ v ∈ used ∨ ∃ a ∈ l, Q a := by
  induction l generalizing used with
  | nil => simp
  | cons a l ih =>
    rw [List.foldl_cons, ih, hstep]
    simp only [List.mem_cons, exists_eq_or_imp, or_assoc]

theorem mem_markUsedValue {w : Nat} :
    v ∈ markUsedValue P used w ↔ v ∈ used ∨ (P.constant v = false ∧ w = v) := by
  unfold markUsedValue
  split
  · rename_i hconstant
    refine ⟨Or.inl, ?_⟩
    rintro (h | ⟨hv, rfl⟩)
    · exact h
    · rw [hconstant] at hv
      cases hv
  · rename_i hconstant
    rw [Finset.mem_insert]
    constructor
    · rintro (rfl | h)
      · exact Or.inr ⟨Bool.eq_false_iff.mpr hconstant, rfl⟩
      · exact Or.inl h
    · rintro (h | ⟨-, rfl⟩)
      · exact Or.inr h
      · exact Or.inl rfl

theorem mem_foldl_markUsedValue (l : List Nat) :
    v ∈ l.foldl (markUsedValue P) used ↔ v ∈ used ∨ (P.constant v = false ∧ v ∈ l) := by
  have hstep : ∀ used w, v ∈ markUsedValue P used w ↔ v ∈ used ∨ (P.constant v = false ∧ w = v) :=
    fun _ _ => mem_markUsedValue
  rw [mem_foldl_of_step hstep]
  refine or_congr Iff.rfl ⟨?_, ?_⟩
  · rintro ⟨w, hw, hconstant, rfl⟩
    exact ⟨hconstant, hw⟩
  · rintro ⟨hconstant, hv⟩
    exact ⟨v, hv, hconstant, rfl⟩

theorem mem_markUsedPhi {phi : PhiNode} : v ∈ markUsedPhi P used phi ↔
    v ∈ used ∨ (P.constant v = false ∧ phi.value ≠ v ∧ ∃ p ∈ phi.incoming, p.2 = v) := by
  have hstep : ∀ (used : Finset Nat) w,
      (v ∈ if w ≠ phi.value then markUsedValue P used w else used) ↔
        v ∈ used ∨ (P.constant v = false ∧ phi.value ≠ v ∧ w = v) := by
    intro used w
    by_cases hself : w ≠ phi.value
    · rw [if_pos hself, mem_markUsedValue]
      refine or_congr Iff.rfl (and_congr_right fun _ => ⟨?_, And.right⟩)
      rintro rfl
      exact ⟨hself.symm, rfl⟩
    · rw [if_neg hself]
      refine ⟨Or.inl, ?_⟩
      rintro (h | ⟨-, hne, rfl⟩)
      · exact h
      · exact absurd hne.symm hself
  rw [markUsedPhi, mem_foldl_of_step hstep]
  refine or_congr Iff.rfl ⟨?_, ?_⟩
  · rintro ⟨w, hw, hconstant, hne, rfl⟩
    exact ⟨hconstant, hne, List.mem_map.mp hw⟩
  · rintro ⟨hconstant, hne, p, hp, rfl⟩
    exact ⟨p.2, List.mem_map_of_mem hp, hconstant, hne, rfl⟩

theorem mem_markBlock {F : Procedure} {b : Nat} :
    v ∈ markBlock P F used b ↔ v ∈ used ∨ (P.constant v = false ∧ MarkedIn F b v) := by
  have hbody : ∀ (used : Finset Nat) (op : Instruction), v ∈ markUsedOperands P used op ↔
      v ∈ used ∨ (P.constant v = false ∧ v ∈ op.operands) := fun used op =>
    mem_foldl_markUsedValue op.operands
  have hphis : ∀ used phi, v ∈ markUsedPhi P used phi ↔
      v ∈ used ∨ (P.constant v = false ∧ phi.value ≠ v ∧ ∃ p ∈ phi.incoming, p.2 = v) :=
    fun _ _ => mem_markUsedPhi
  show v ∈ (F.body b).foldl (markUsedOperands P) _ ↔ _
  rw [mem_foldl_of_step hbody, mem_foldl_of_step hphis, mem_foldl_markUsedValue, MarkedIn]
  constructor
  · rintro (((h | ⟨hc, h⟩) | ⟨phi, hphi, hc, h⟩) | ⟨op, hop, hc, h⟩)
    · exact Or.inl h
    · exact Or.inr ⟨hc, Or.inr (Or.inr h)⟩
    · exact Or.inr ⟨hc, Or.inl ⟨phi, hphi, h⟩⟩
    · exact Or.inr ⟨hc, Or.inr (Or.inl ⟨op, hop, h⟩)⟩
  · rintro (h | ⟨hc, ⟨phi, hphi, h⟩ | ⟨op, hop, h⟩ | h⟩)
    · exact Or.inl (Or.inl (Or.inl h))
    · exact Or.inl (Or.inr ⟨phi, hphi, hc, h⟩)
    · exact Or.inr ⟨op, hop, hc, h⟩
    · exact Or.inl (Or.inl (Or.inr ⟨hc, h⟩))

/-- The values that are marked: those that an analysed block reads. -/
theorem mem_llvmUsedSsaValues (hP : P.WellFormed) : v ∈ llvmUsedSsaValues static P ↔
    P.constant v = false ∧ ∃ g ∈ analysedFunctions P, ∃ c,
      Reached static (P.function g).toLlvmFunction c ∧ MarkedIn (P.function g) c v := by
  have hblock : ∀ F used b, v ∈ markBlock P F used b ↔
      v ∈ used ∨ (P.constant v = false ∧ MarkedIn F b v) := fun _ _ _ => mem_markBlock
  have hfunction : ∀ (used : Finset Nat) f, v ∈ markFunction static P used f ↔ v ∈ used ∨
      ∃ b ∈ buildFunctionBbVisitOrderAnalysis static (P.function f).toLlvmFunction,
        P.constant v = false ∧ MarkedIn (P.function f) b v := fun used f =>
    mem_foldl_of_step (hblock (P.function f)) _
  have horder : ∀ f ∈ analysedFunctions P, IsVisitOrder static (P.function f).toFunction
      (buildFunctionBbVisitOrderAnalysis static (P.function f).toLlvmFunction) := fun f hf =>
    isVisitOrder_conversionOrder (hP f hf).ssa.wellFormed .callee
  rw [llvmUsedSsaValues, mem_foldl_of_step hfunction]
  constructor
  · rintro (h | ⟨f, hf, b, hb, hconstant, hmarked⟩)
    · simp at h
    · exact ⟨hconstant, f, hf, b, ((horder f hf).mem b).mp hb, hmarked⟩
  · rintro ⟨hconstant, f, hf, b, hb, hmarked⟩
    exact Or.inr ⟨f, hf, b, ((horder f hf).mem b).mpr hb, hconstant, hmarked⟩

variable {f : Nat} {role : FunctionRole}

/-- A function is gathered with its dependencies. -/
theorem mem_gatherFunctionDependencies {fuel : Nat} {funcs : List Nat} :
    f ∈ gatherFunctionDependencies P (fuel + 1) funcs f := by
  unfold gatherFunctionDependencies
  split
  · assumption
  · exact List.mem_append_right _ (List.mem_singleton.mpr rfl)

/-- The patch constant function is one of the functions that are gathered. -/
theorem patchConstantFunction_mem_callees (h : P.patchConstantFunction = some f) :
    f ∈ callees P := by
  rw [callees, h, List.foldl_append]
  exact mem_gatherFunctionDependencies

/-- Whatever is converted was analysed. -/
theorem analysed_of_converted (h : (f, role) ∈ convertedFunctions P) : f ∈ analysedFunctions P := by
  rcases List.mem_append.mp h with h | h
  · obtain ⟨g, hg, hpair⟩ := List.mem_map.mp h
    obtain rfl : g = f := congrArg Prod.fst hpair
    rcases List.mem_append.mp hg with hg | hg
    · exact List.mem_append_left _ hg
    · by_cases hentry : P.entry = some g
      · exact List.mem_append_left _ (Option.mem_toList.mpr hentry)
      · refine List.mem_append_right _ (List.mem_filter.mpr ⟨?_, by simpa using hentry⟩)
        exact patchConstantFunction_mem_callees (Option.mem_toList.mp hg)
  · obtain ⟨g, hg, hpair⟩ := List.mem_map.mp h
    obtain rfl : g = f := congrArg Prod.fst hpair
    obtain ⟨hg, hne⟩ := List.mem_filter.mp hg
    exact List.mem_append_right
      _ (List.mem_filter.mpr ⟨hg, by simpa using (of_decide_eq_true hne).1⟩)

variable {F} {sinkHandles : Bool} {event : Event} {a : Nat}

theorem isVisitOrder_blockOrder (hF : SsaForm F.toFunction) :
    IsVisitOrder static F.toFunction (blockOrder static F role) := by
  cases role with
  | primary =>
    have hlegacy := (@legacy_spec static F.toLlvmFunction hF.wellFormed).1
    rw [blockOrder, hlegacy]
    exact isVisitOrder_conversionOrder hF.wellFormed .primary
  | callee => exact isVisitOrder_conversionOrder hF.wellFormed .callee

/-- What is visited stands in a block that is converted. -/
theorem of_mem_visited (hF : SsaForm F.toFunction) (h : event ∈ visited static sinkHandles F role) :
    ∃ b ∈ blockOrder static F role, (∃ op ∈ F.body b, event = .instruction op) ∨
      (∃ phi ∈ F.phis b, event = .phi phi.value) ∨ event = .terminator b := by
  have hanalysis : IsVisitOrder static F.toFunction
      (buildFunctionBbVisitOrderAnalysis static F.toLlvmFunction) :=
    isVisitOrder_conversionOrder hF.wellFormed .callee
  have horder : IsVisitOrder static F.toFunction (blockOrder static F role) :=
    isVisitOrder_blockOrder hF
  have hfit := (sinksFit_analyzeSinks hF hanalysis sinkHandles).of_same_blocks fun b =>
    (hanalysis.mem b).trans (horder.mem b).symm
  obtain ⟨before, after, hsplit⟩ := List.append_of_mem h
  obtain ⟨first, rest, hevents, -⟩ := emitEvents_split hsplit
  obtain ⟨b, hb, hblock⟩ := List.mem_flatMap.mp (show event ∈ _ by rw [hevents]; simp)
  rcases List.mem_append.mp hblock with hsink | hblock
  · obtain ⟨g, hg, rfl⟩ := List.mem_map.mp hsink
    obtain ⟨-, -, c, hc, -, hbody, -⟩ := hfit.sunk b g hg
    exact ⟨c, hc, Or.inl ⟨g, hbody, rfl⟩⟩
  refine ⟨b, hb, ?_⟩
  rcases List.mem_append.mp hblock with hblock | hblock
  · rcases List.mem_append.mp hblock with hblock | hblock
    · obtain ⟨phi, hphi, rfl⟩ := List.mem_map.mp hblock
      exact Or.inr (Or.inl ⟨phi, hphi, rfl⟩)
    · obtain ⟨op, hop, rfl⟩ := List.mem_map.mp hblock
      exact Or.inl ⟨op, hop, rfl⟩
  · exact Or.inr (Or.inr (List.mem_singleton.mp hblock))

/-- Whatever a converted block defines is visited, there or as a sink. -/
theorem exists_visited (hF : SsaForm F.toFunction) (ha : a ∈ blockOrder static F role)
    (hv : v ∈ definedIn F.toFunction a) :
    ∃ d ∈ visited static sinkHandles F role, d.value = some v := by
  have hanalysis : IsVisitOrder static F.toFunction
      (buildFunctionBbVisitOrderAnalysis static F.toLlvmFunction) :=
    isVisitOrder_conversionOrder hF.wellFormed .callee
  have horder : IsVisitOrder static F.toFunction (blockOrder static F role) :=
    isVisitOrder_blockOrder hF
  have hfit := (sinksFit_analyzeSinks hF hanalysis sinkHandles).of_same_blocks fun b =>
    (hanalysis.mem b).trans (horder.mem b).symm
  by_cases hneed : v ∈ (analyzeSinks sinkHandles F.toFunction
      (buildFunctionBbVisitOrderAnalysis static F.toLlvmFunction)).needingSink
  · obtain ⟨c, h, hh, rfl⟩ := exists_sink hF hanalysis hneed
    obtain ⟨first, last, hsplit⟩ := List.append_of_mem (hfit.sunk c h hh).1
    refine ⟨.instruction h, ?_, rfl⟩
    rw [visited, emission, hsplit, List.flatMap_append]
    refine mem_emitEvents_sink horder hfit hsplit hh (List.mem_flatMap.mpr ⟨c, by simp, ?_⟩)
    exact List.mem_append_left _ (List.mem_map_of_mem hh)
  · obtain ⟨d, hd, hvalue⟩ := exists_event_of_definedIn hv
    refine ⟨d, mem_emitEvents (List.mem_flatMap.mpr ⟨a, ha, mem_blockEvents hd⟩) ?_, hvalue⟩
    rintro op rfl - hin
    obtain rfl : op.value = v := Option.some.inj hvalue
    exact hneed hin

variable {order : List Nat}

theorem MarkedIn.readIn {b : Nat} (h : MarkedIn F b v) : ReadIn F b v := by
  rcases h with ⟨phi, hphi, -, hp⟩ | h
  · exact Or.inl ⟨phi, hphi, hp⟩
  · exact Or.inr h

/-- A value that is read where another definition is available comes from a converted block. -/
theorem mem_order_of_available (hF : SsaForm F.toFunction)
    (horder : IsVisitOrder static F.toFunction order) {b : Nat} {before : List Instruction}
    (hb : b ∈ order) (hbefore : ∀ op ∈ before, op ∈ F.body b)
    (hv : Available F.toFunction b before v) (ha : a < F.size)
    (hdefined : v ∈ definedIn F.toFunction a) :
    a ∈ order := by
  have hsize : b < F.size := horder.lt hF.wellFormed hb
  obtain ⟨first, last, hsplit⟩ := List.append_of_mem hb
  rcases hv with hnone | hphi | hbody | ⟨c, hc, hne, hin, hdom⟩
  · exact absurd hdefined (hnone a ha)
  · rw [hF.unique a ha b hsize v hdefined (List.mem_append_left _ hphi)]
    exact hb
  · obtain ⟨op, hop, rfl⟩ := List.mem_map.mp hbody
    rw [hF.unique a ha b hsize op.value hdefined (mem_definedIn_of_body (hbefore op hop))]
    exact hb
  · rw [hF.unique a ha c hc v hdefined hin, hsplit]
    exact List.mem_append_left _ (horder.branches_first hsplit hne hdom)

/-- The loop over the incoming values keeps registered ones. -/
theorem of_mem_phiIncoming {registered : Nat → Bool} {skip : List (Nat × Nat)} {bb : Nat}
    {incoming : List (Nat × Nat)} {p : Nat × Nat}
    (h : p ∈ phiIncoming registered skip bb incoming) :
    p ∈ incoming ∧ registered p.1 = true := by
  induction incoming using List.reverseRecOn with
  | nil => cases h
  | append_singleton incoming q ih =>
    rw [phiIncoming, List.foldl_append, List.foldl_cons, List.foldl_nil, ← phiIncoming] at h
    have hold : p ∈ phiIncoming registered skip bb incoming →
        p ∈ incoming ++ [q] ∧ registered p.1 = true := fun h =>
      ⟨List.mem_append_left _ (ih h).1, (ih h).2⟩
    split at h
    · exact hold h
    · split at h
      · rename_i hkeep
        rcases List.mem_append.mp h with h | h
        · exact hold h
        · obtain rfl := List.mem_singleton.mp h
          exact ⟨List.mem_append_right _ (List.mem_singleton.mpr rfl), hkeep.1⟩
      · exact hold h

/-- The values of a PHI that are read come from converted blocks. -/
theorem incoming_mem_order (hF : F.toLlvmFunction.WellFormed)
    (horder : IsVisitOrder static F.toFunction order) {b : Nat} {phi : PhiNode}
    {skip kept : List (Nat × Nat)} {p : Nat × Nat} (hb : b ∈ order) (hphi : phi ∈ F.phis b)
    (hkept : emitPhiIncoming order skip b phi = .ok kept) (hp : p ∈ kept) :
    p ∈ phi.incoming ∧ p.1 ∈ order := by
  rw [emitPhiIncoming_eq] at hkept
  split at hkept
  · cases hkept
  obtain rfl := Except.ok.inj hkept
  unfold keptOf at hp
  split at hp
  · -- The only value comes from the block that control comes from.
    rename_i q hincoming
    obtain rfl := List.mem_singleton.mp hp
    have hreached := (horder.mem b).mp hb
    obtain ⟨parent, hparent, hstep⟩ := hreached.parent_of_phi hF hphi
    have hmem := (mem_incoming_iff hF (hreached.lt hF) hphi).mpr
      ⟨hparent.lt hF, followed_subset hstep⟩
    rw [hincoming, List.map_singleton, List.mem_singleton] at hmem
    rw [hincoming]
    exact ⟨List.mem_singleton.mpr rfl, (horder.mem p.1).mpr (hmem ▸ hparent)⟩
  · obtain ⟨hin, hregistered⟩ := of_mem_phiIncoming hp
    exact ⟨hin, of_decide_eq_true hregistered⟩

/-- What an event of a converted block needs is defined in a converted block, and is read in one, or
the event is the PHI that defines it. -/
theorem Consumes.mem_order {sinkHandles : Bool} (hF : F.WellFormed P)
    (hevent : event ∈ visited static sinkHandles F role)
    (hv : Consumes F (blockOrder static F role) event v) (ha : a < F.size)
    (hdefined : v ∈ definedIn F.toFunction a) :
    a ∈ blockOrder static F role ∧ ∃ b ∈ blockOrder static F role, ReadIn F b v ∧
      (event = .phi v ∨ MarkedIn F b v) := by
  have horder : IsVisitOrder static F.toFunction (blockOrder static F role) :=
    isVisitOrder_blockOrder hF.ssa
  -- An operand of an instruction of a converted block.
  have hoperand : ∀ b ∈ blockOrder static F role, ∀ op ∈ F.body b, ∀ v ∈ op.operands, ∀ a < F.size,
      v ∈ definedIn F.toFunction a → a ∈ blockOrder static F role ∧ MarkedIn F b v := by
    intro b hb op hop v hv a ha hdefined
    obtain ⟨before, after, hbody⟩ := List.append_of_mem hop
    have hbefore : ∀ op ∈ before, op ∈ F.body b := fun op hop => by
      rw [hbody]
      exact List.mem_append_left _ hop
    have havailable := hF.ssa.available b
      (horder.lt hF.ssa.wellFormed hb) before op after hbody v hv
    exact ⟨mem_order_of_available hF.ssa horder hb hbefore havailable ha hdefined,
      Or.inr (Or.inl ⟨op, hop, hv⟩)⟩
  induction hv generalizing a with
  | @operand v hv =>
    obtain ⟨b, hb, ⟨op, hop, rfl⟩ | ⟨phi, -, rfl⟩ | rfl⟩ := of_mem_visited hF.ssa hevent
    · obtain ⟨hmem, hmarked⟩ := hoperand b hb op hop v hv a ha hdefined
      exact ⟨hmem, b, hb, hmarked.readIn, Or.inr hmarked⟩
    · cases hv
    · have havailable := hF.ssa.available_terminator b (horder.lt hF.ssa.wellFormed hb) v hv
      have hmarked : MarkedIn F b v := Or.inr (Or.inr hv)
      exact ⟨mem_order_of_available hF.ssa horder hb (fun _ h => h) havailable ha hdefined, b, hb,
        hmarked.readIn, Or.inr hmarked⟩
  | @incoming b phi skip kept p hphiEvent hb hphi hkept hp =>
    obtain ⟨hin, hpred⟩ := incoming_mem_order hF.ssa.wellFormed horder hb hphi hkept hp
    have hdom := hF.incoming b (horder.lt hF.ssa.wellFormed hb) phi hphi p hin a ha hdefined
    refine ⟨?_, b, hb, Or.inl ⟨phi, hphi, p, hin, rfl⟩, ?_⟩
    · by_cases hsame : a = p.1
      · exact hsame ▸ hpred
      · obtain ⟨first, last, hsplit⟩ := List.append_of_mem hpred
        have hfirst := horder.branches_first hsplit hsame hdom
        rw [hsplit]
        exact List.mem_append_left _ hfirst
    · by_cases hself : phi.value = p.2
      · exact Or.inl (hself ▸ hphiEvent)
      · exact Or.inr (Or.inl ⟨phi, hphi, hself, p, hin, rfl⟩)
  | @nested w b v op hw hb hop hvalue hv ih =>
    have hdefinedOp : w ∈ definedIn F.toFunction b := hvalue ▸ mem_definedIn_of_body hop
    obtain ⟨hmem, hmarked⟩ := hoperand b (ih hb hdefinedOp).1 op hop v hv a ha hdefined
    exact ⟨hmem, b, (ih hb hdefinedOp).1, hmarked.readIn, Or.inr hmarked⟩

/-- An event without effect is skipped only; those that are skipped in spite of an effect are calls
of the two operations. -/
theorem skips_and_effect {F : Procedure} {event : Event} :
    (skips static P true F event = true ∧ effect F event ≠ none) ↔
      ∃ op, event = .instruction op ∧ (F.operation op.value).Unlisted ∧
        op.value ∉ llvmUsedSsaValues static P := by
  constructor
  · rintro ⟨hskips, heffect⟩
    cases event with
    | phi value => exact absurd rfl heffect
    | terminator b => exact absurd rfl heffect
    | instruction op =>
      simp only [skips, Bool.true_and, Bool.and_eq_true, Bool.not_eq_true', decide_eq_false_iff_not]
        at hskips
      exact ⟨op, rfl, effect_and_noSideEffects.mp ⟨heffect, hskips.1⟩, hskips.2⟩
  · rintro ⟨op, rfl, hunlisted, hused⟩
    obtain ⟨heffect, hside⟩ := effect_and_noSideEffects.mpr hunlisted
    exact ⟨by simp [skips, hside, hused], heffect⟩

/-- Whatever is needed is emitted, with the result of a skipped instruction needed nowhere. -/
theorem exists_emitted (hP : P.WellFormed) (hf : (f, role) ∈ convertedFunctions P) {event : Event}
    (hevent : event ∈ emitted static P true sinkHandles (P.function f) role) {v : Nat}
    (hv : Consumes (P.function f) (blockOrder static (P.function f) role) event v)
    (hdefined : ∃ a < (P.function f).size, v ∈ definedIn (P.function f).toFunction a) :
    ∃ d ∈ emitted static P true sinkHandles (P.function f) role,
      produced (P.function f) d = some v := by
  have hanalysed := analysed_of_converted hf
  have hF := hP f hanalysed
  have horder : IsVisitOrder static (P.function f).toFunction
      (blockOrder static (P.function f) role) :=
    isVisitOrder_blockOrder hF.ssa
  obtain ⟨a, ha, hdefined⟩ := hdefined
  obtain ⟨hmem, b, hb, hread, hself | hmarked⟩ :=
    hv.mem_order hF (List.mem_filter.mp hevent).1 ha hdefined
  · subst hself
    exact ⟨.phi v, hevent, rfl⟩
  have hused : v ∈ llvmUsedSsaValues static P := (mem_llvmUsedSsaValues hP).mpr
    ⟨hF.constant a ha v hdefined, f, hanalysed, b, (horder.mem b).mp hb, hmarked⟩
  have hvisited : ∃ d ∈ visited static sinkHandles (P.function f) role, d.value = some v :=
    exists_visited hF.ssa hmem hdefined
  obtain ⟨d, hd, hvalue⟩ := hvisited
  refine ⟨d, List.mem_filter.mpr ⟨hd, ?_⟩, ?_⟩
  · cases d with
    | phi value =>
      obtain rfl : value = v := Option.some.inj hvalue
      simp [skips, hused]
    | instruction op =>
      obtain rfl : op.value = v := Option.some.inj hvalue
      simp [skips, hused]
    | terminator c => cases hvalue
  · cases d with
    | phi value => exact hvalue
    | instruction op =>
      obtain rfl : op.value = v := Option.some.inj hvalue
      obtain ⟨c, hc, ⟨g, hg, hsame⟩ | ⟨phi, -, hphi⟩ | hterminator⟩ := of_mem_visited hF.ssa hd
      · obtain rfl : op = g := Event.instruction.inj hsame
        refine if_neg fun hintrinsic => ?_
        exact hF.intrinsic c (horder.lt hF.ssa.wellFormed hc) op hg hintrinsic b
          (horder.lt hF.ssa.wellFormed hb) hread
      · cases hphi
      · cases hterminator
    | terminator c => cases hvalue

/-- Dead code elimination is sound if and only if every call of the two operations that are not
listed has a result that something analysed reads. -/
theorem eliminationSound_iff (static : Nat → Option Bool) (P : Program) (sinkHandles : Bool)
    (hP : P.WellFormed) : EliminationSound static P true sinkHandles ↔ UnlistedRead static P := by
  constructor
  · intro hsound f role hf b hb op hop hunlisted
    have hF := hP f (analysed_of_converted hf)
    have horder : IsVisitOrder static (P.function f).toFunction
        (blockOrder static (P.function f) role) := isVisitOrder_blockOrder hF.ssa
    have hmem := (horder.mem b).mpr hb
    by_contra hread
    have hused : op.value ∉ llvmUsedSsaValues static P := fun h =>
      hread ((mem_llvmUsedSsaValues hP).mp h).2
    have hvisited : ∃ d ∈ visited static sinkHandles (P.function f) role, d.value = some op.value :=
      exists_visited hF.ssa hmem (mem_definedIn_of_body hop)
    obtain ⟨d, hd, hvalue⟩ := hvisited
    obtain ⟨c, hc, ⟨g, hg, rfl⟩ | ⟨phi, hphi, rfl⟩ | rfl⟩ := of_mem_visited hF.ssa hd
    · have hsame : g.value = op.value := Option.some.inj hvalue
      have hboth : skips static P true (P.function f) (.instruction g) = true ∧
          effect (P.function f) (.instruction g) ≠ none :=
        skips_and_effect.mpr ⟨g, rfl, hsame ▸ hunlisted, hsame ▸ hused⟩
      obtain ⟨hskips, heffect⟩ := hboth
      exact heffect (hsound.skipped f role hf _ hd hskips)
    · -- A PHI and an instruction define different values.
      have hsame : phi.value = op.value := Option.some.inj hvalue
      have hlt : ∀ {x}, x ∈ blockOrder static (P.function f) role → x < (P.function f).size :=
        horder.lt hF.ssa.wellFormed
      have hphiValue : phi.value ∈ ((P.function f).phis c).map (·.value) := List.mem_map_of_mem hphi
      obtain rfl := hF.ssa.unique c (hlt hc) b (hlt hmem) phi.value
        (List.mem_append_left _ hphiValue) (hsame ▸ mem_definedIn_of_body hop)
      exact (List.nodup_append.mp (hF.ssa.nodup c (hlt hc))).2.2 _ hphiValue _
        (List.mem_map_of_mem hop) hsame
    · cases hvalue
  · intro hread
    refine ⟨fun f role hf event hevent hskips => ?_, fun f role hf event hevent v hv hdefined =>
      exists_emitted hP hf hevent hv hdefined⟩
    by_contra heffect
    obtain ⟨op, rfl, hunlisted, hused⟩ := skips_and_effect.mp ⟨hskips, heffect⟩
    have hF := hP f (analysed_of_converted hf)
    have horder : IsVisitOrder static (P.function f).toFunction
        (blockOrder static (P.function f) role) := isVisitOrder_blockOrder hF.ssa
    obtain ⟨c, hc, ⟨g, hg, hsame⟩ | ⟨phi, -, hphi⟩ | hterminator⟩ := of_mem_visited hF.ssa hevent
    · obtain rfl : op = g := Event.instruction.inj hsame
      have hreached := (horder.mem c).mp hc
      exact hused ((mem_llvmUsedSsaValues hP).mpr
        ⟨hF.constant c (hreached.lt hF.ssa.wellFormed) op.value (mem_definedIn_of_body hg),
          hread f role hf c hreached op hg hunlisted⟩)
    · cases hphi
    · cases hterminator

/-- A node that counts down the shared cookie of its record, and may return the result. -/
def finishedNode (result : Option Nat) : Program where
  size := 1
  function _ :=
    { size := 1
      entry := 0
      terminator := fun _ => .ret
      phis := fun _ => []
      body := fun _ => [⟨0, [], .handle⟩, ⟨1, [0], .dxOp⟩]
      returnValue := fun _ => result
      operation := fun v => .dxOp
        (some (if v = 0 then .other 250 false else .finishedCrossGroupSharing)) }
  constant _ := false
  entry := some 0
  patchConstantFunction := none

theorem wellFormed_finishedNode {result : Option Nat} (hresult : ∀ v ∈ result, v = 1) :
    (finishedNode result).WellFormed := by
  intro f _
  constructor
  · constructor
    · exact
        { entry_lt := Nat.zero_lt_one
          succ_lt := fun b _ s hs => by cases hs
          entry_not_succ := fun b _ hs => by cases hs
          entry_phis := rfl
          phi_incoming := fun b _ phi hphi => by cases hphi
          phi_incoming_lt := fun b _ phi hphi => by cases hphi
          cases := fun b _ width c default cases h => by cases h }
    · intro b _
      show [0, 1].Nodup
      decide
    · intro a ha b hb v _ _
      have ha : a < 1 := ha
      have hb : b < 1 := hb
      omega
    · intro b _ before op after h v hv
      have h : [⟨0, [], .handle⟩, ⟨1, [0], .dxOp⟩] = before ++ op :: after := h
      cases before with
      | nil =>
        obtain ⟨rfl, -⟩ := List.cons.inj h
        cases hv
      | cons first before =>
        obtain ⟨hfirst, hrest⟩ := List.cons.inj h
        cases before with
        | nil =>
          obtain ⟨rfl, -⟩ := List.cons.inj hrest
          rw [← hfirst]
          exact Or.inr (Or.inr (Or.inl hv))
        | cons second before =>
          have := congrArg List.length (List.cons.inj hrest).2
          simp at this
    · intro b _ v hv
      obtain rfl := hresult v (Option.mem_toList.mp hv)
      exact Or.inr (Or.inr (Or.inl (by show 1 ∈ [0, 1]; decide)))
  · intro b _ phi hphi
    cases hphi
  · exact fun _ _ _ _ => rfl
  · intro b _ op _ h
    cases h

/-- The counter is not written when the result is not used. -/
theorem finishedNode_not_sound :
    (finishedNode none).WellFormed ∧
      ¬ EliminationSound (fun _ => none) (finishedNode none) true false := by
  refine ⟨wellFormed_finishedNode (fun v hv => by cases hv), fun h => ?_⟩
  have hmem : Event.instruction ⟨1, [0], .dxOp⟩ ∈
      visited (fun _ => none) false ((finishedNode none).function 0) .primary := by
    show _ ∈ [Event.instruction ⟨0, [], .handle⟩, .instruction ⟨1, [0], .dxOp⟩, .terminator 0]
    simp
  have heffect := h.skipped 0 .primary (by decide) _ hmem (by decide)
  cases heffect

/-- It is written when the result is returned. -/
theorem eliminationSound_iff_finishedNode :
    EliminationSound (fun _ => none) (finishedNode (some 1)) true true := by
  refine (eliminationSound_iff (fun _ => none) (finishedNode (some 1)) true
    (wellFormed_finishedNode (fun v hv => (Option.mem_some_iff.mp hv).symm))).mpr ?_
  intro f role hf b hb op hop hunlisted
  refine ⟨f, analysed_of_converted hf, b, hb, Or.inr (Or.inr ?_)⟩
  rcases List.mem_cons.mp hop with rfl | hop
  · rcases hunlisted with h | h <;> cases h
  · rw [List.mem_singleton.mp hop]
    exact List.mem_singleton.mpr rfl

end DxilSpirv.DeadCode
