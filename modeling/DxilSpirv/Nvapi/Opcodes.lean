import Mathlib.Algebra.Ring.Nat
import Mathlib.Logic.Function.Basic
import Mathlib.Data.List.Basic

/-!
# What NVAPI operations read and leave

An NVAPI operation is spelled as stores of its arguments to one magic UAV. Each opcode wants some
argument slots, its emitter reads them and leaves ids in output slots. Some opcodes are emitted only
by a later call.
-/

namespace DxilSpirv.Nvapi

/-- `NVAPI_ARGUMENT_OPCODE`. -/
abbrev argumentOpcode : Nat := 0

/-- `NVAPI_ARGUMENT_SRC0U`. -/
abbrev argumentSrc0u : Nat := 19

/-- `NVAPI_ARGUMENT_SRC1U`. -/
abbrev argumentSrc1u : Nat := 23

/-- `NVAPI_ARGUMENT_SRC2U`. -/
abbrev argumentSrc2u : Nat := 27

/-- `NVAPI_ARGUMENT_DST0U`. -/
abbrev argumentDst0u : Nat := 31

/-- `NVAPI_ARGUMENT_MARK_UAV_REF`. -/
abbrev argumentMarkUavRef : Nat := 35

/-- `NVAPI_ARGUMENT_NUM_OUTPUTS_FOR_INC_COUNTER`. -/
abbrev argumentNumOutputsForIncCounter : Nat := 36

/-- `NVAPI_ARGUMENT_COUNT`. -/
abbrev argumentCount : Nat := 37

/-- `NVAPI_INTERMEDIATE_HANDLE_0`. -/
abbrev intermediateHandle0 : Nat := 0

/-- `NVAPI_INTERMEDIATE_HANDLE_1`. -/
abbrev intermediateHandle1 : Nat := 1

/-- `NVAPI_INTERMEDIATE_ATTRIBUTES`. -/
abbrev intermediateAttributes : Nat := 2

/-- `NVAPI_INTERMEDIATE_COUNT`. -/
abbrev intermediateCount : Nat := 3

/-- An operand: a constant integer, or anything else by its number. -/
inductive Value where
  | constant (n : Nat)
  | instruction (id : Nat)
  deriving DecidableEq, Repr

/-- The handle of a resource: one of the magic UAV, or another by its number. -/
inductive Handle where
  | magic
  | resource (id : Nat)
  deriving DecidableEq, Repr

/-- The opcodes of `NVExtnOp` that `commit_opcode` has a case for. -/
inductive NVExtnOp where
  | shfl | fp16Atomic | fp32Atomic | getSpecial
  | hitObjectTraceRay | hitObjectMakeHit | hitObjectMakeHitWithRecordIndex | hitObjectMakeMiss
  | hitObjectReorderThread | hitObjectInvoke | hitObjectIsMiss | hitObjectGetInstanceId
  | hitObjectGetInstanceIndex | hitObjectGetPrimitiveIndex | hitObjectGetGeometryIndex
  | hitObjectGetHitKind | hitObjectGetRayDesc | hitObjectGetAttributes
  | hitObjectGetShaderTableIndex | hitObjectLoadLocalRootTableConstant
  | hitObjectIsHit | hitObjectIsNop | hitObjectMakeNop
  | rtGetClusterId | rtGetCandidateClusterId | rtGetCommittedClusterId | hitObjectGetClusterId
  deriving DecidableEq, Repr

/-- The opcode of a number; all others are not supported. -/
def NVExtnOp.ofNumber : Nat → Option NVExtnOp
  | 1 => some .shfl
  | 12 => some .fp16Atomic
  | 13 => some .fp32Atomic
  | 19 => some .getSpecial
  | 67 => some .hitObjectTraceRay
  | 68 => some .hitObjectMakeHit
  | 69 => some .hitObjectMakeHitWithRecordIndex
  | 70 => some .hitObjectMakeMiss
  | 71 => some .hitObjectReorderThread
  | 72 => some .hitObjectInvoke
  | 73 => some .hitObjectIsMiss
  | 74 => some .hitObjectGetInstanceId
  | 75 => some .hitObjectGetInstanceIndex
  | 76 => some .hitObjectGetPrimitiveIndex
  | 77 => some .hitObjectGetGeometryIndex
  | 78 => some .hitObjectGetHitKind
  | 79 => some .hitObjectGetRayDesc
  | 80 => some .hitObjectGetAttributes
  | 81 => some .hitObjectGetShaderTableIndex
  | 82 => some .hitObjectLoadLocalRootTableConstant
  | 83 => some .hitObjectIsHit
  | 84 => some .hitObjectIsNop
  | 85 => some .hitObjectMakeNop
  | 93 => some .rtGetClusterId
  | 94 => some .rtGetCandidateClusterId
  | 95 => some .rtGetCommittedClusterId
  | 96 => some .hitObjectGetClusterId
  | _ => none

/-- `fake_doorbell_inputs`, where nothing stands for a null pointer. -/
abbrev Arguments := Nat → Option Value

/-- The opcode that is stored, when it is a supported constant. -/
def opcode (inputs : Arguments) : Option NVExtnOp :=
  match inputs argumentOpcode with
  | some (.constant n) => NVExtnOp.ofNumber (n % 2 ^ 32)
  | _ => none

/-- The slots that `can_commit_opcode` wants. -/
def requiredArguments : NVExtnOp → List Nat
  | .shfl => [argumentSrc0u, argumentSrc0u + 1, argumentSrc0u + 2]
  | .fp16Atomic | .fp32Atomic => [argumentSrc0u, argumentSrc1u, argumentSrc2u]
  | .hitObjectTraceRay => [argumentNumOutputsForIncCounter, argumentSrc0u]
  | .hitObjectMakeHit =>
    [argumentNumOutputsForIncCounter, argumentSrc0u, argumentSrc0u + 1, argumentSrc0u + 2,
      argumentSrc0u + 3, argumentSrc1u, argumentSrc1u + 1]
  | .hitObjectMakeHitWithRecordIndex =>
    [argumentNumOutputsForIncCounter, argumentSrc0u, argumentSrc0u + 1, argumentSrc0u + 2,
      argumentSrc0u + 3, argumentSrc1u]
  | .hitObjectMakeMiss =>
    [argumentSrc0u, argumentSrc0u + 1, argumentSrc0u + 2, argumentSrc1u, argumentSrc1u + 1,
      argumentSrc1u + 2, argumentSrc2u, argumentSrc2u + 1, argumentSrc2u + 2]
  | .hitObjectReorderThread =>
    [argumentSrc0u, argumentSrc0u + 1, argumentSrc0u + 2, argumentSrc0u + 3]
  | .hitObjectLoadLocalRootTableConstant => [argumentSrc0u, argumentSrc0u + 1]
  | .hitObjectMakeNop | .rtGetClusterId => []
  | _ => [argumentSrc0u]

/-- The atomics work on the UAV that was marked. -/
def NVExtnOp.isAtomic : NVExtnOp → Bool
  | .fp16Atomic | .fp32Atomic => true
  | _ => false

/-- `can_commit_opcode`. -/
def canCommitOpcode (inputs : Arguments) (markedUav : Option Handle) : Bool :=
  match opcode inputs with
  | some op => (!op.isAtomic || markedUav.isSome) && (requiredArguments op).all fun slot =>
    (inputs slot).isSome
  | none => false

/-- How many outputs `commit_opcode` expects to be clocked out by IncrementCounter. -/
def numExpectedClockOutputs : NVExtnOp → Nat
  | .fp16Atomic | .fp32Atomic => 0
  | .hitObjectTraceRay | .hitObjectMakeHit | .hitObjectMakeHitWithRecordIndex => 2
  | .hitObjectGetRayDesc => 8
  | _ => 1

/-- The opcodes that a later CallShader or TraceRay emits. -/
def NVExtnOp.isDeferred : NVExtnOp → Bool
  | .hitObjectTraceRay | .hitObjectMakeHit | .hitObjectMakeHitWithRecordIndex | .hitObjectInvoke
  | .hitObjectGetAttributes => true
  | _ => false

/-- A call that may be meant for a deferred opcode, with what it passes as a handle. -/
inductive Call where
  | callShader (handle data : Value)
  | traceRay (handle payload : Value) (ray : List Value)
  deriving DecidableEq, Repr

/-- What the call passes as a handle. -/
def Call.handle : Call → Value
  | .callShader handle _ => handle
  | .traceRay handle _ _ => handle

/-- One operation that is emitted: its opcode, the arguments it was given, the UAV of an atomic, the
call of a deferred opcode and the attributes of a hit. -/
structure Emission where
  op : NVExtnOp
  arguments : List Value
  uav : Option Handle := none
  call : Option Call := none
  attributes : Option Value := none
  deriving DecidableEq, Repr

/-- What an emitter does: it emits and leaves ids in slots, it returns false, or it uses a null
pointer. -/
inductive Outcome where
  | emitted (emission : Emission) (outputs : List Nat)
  | refused
  | nullValue
  deriving DecidableEq, Repr

/-- The kinds of textures that atomics tell apart. -/
inductive TextureKind where
  | texture1D | texture2D | texture3D | other
  deriving DecidableEq, Repr

/-- How the resource of a handle is stored. -/
inductive Storage where
  | storageBuffer
  | uniformConstant (kind : TextureKind)
  | other
  deriving DecidableEq, Repr

/-- What the emitters ask of the converter: the meta of a handle, and whether a value is a call. -/
structure Env where
  storage : Handle → Storage
  isCall : Value → Bool

/-- Emitters that read slots and leave their ids. -/
def emitArguments (op : NVExtnOp) (slots outputs : List Nat) (inputs : Arguments) : Outcome :=
  match slots.mapM inputs with
  | some arguments => .emitted { op, arguments } outputs
  | none => .nullValue

/-- `emit_nvapi_extn_op_shuffle`, which leaves the third argument alone. -/
def emitShuffle : Arguments → Outcome :=
  emitArguments .shfl [argumentSrc0u, argumentSrc0u + 1] [0]

/-- The slots of the address of an atomic. -/
def atomicAddress : Storage → Option (List Nat)
  | .storageBuffer | .uniformConstant .texture1D => some [argumentSrc0u]
  | .uniformConstant .texture2D => some [argumentSrc0u, argumentSrc0u + 1]
  | .uniformConstant .texture3D => some [argumentSrc0u, argumentSrc0u + 1, argumentSrc0u + 2]
  | _ => none

/-- Both atomics: they differ in the atomic operations that they know. -/
def emitAtomic (env : Env) (op : NVExtnOp) (subOpcodes : List Nat) (inputs : Arguments)
    (markedUav : Option Handle) : Outcome :=
  match markedUav, inputs argumentSrc2u with
  | some uav, some (.constant subOpcode) =>
    match atomicAddress (env.storage uav) with
    | none => .refused
    | some address =>
      match (address ++ [argumentSrc1u]).mapM inputs with
      | none => .nullValue
      | some arguments =>
        if subOpcode % 2 ^ 32 ∈ subOpcodes then
          .emitted { op, arguments := arguments ++ [.constant subOpcode], uav := some uav }
            [argumentDst0u]
        else .refused
  | _, _ => .refused

/-- `emit_nvapi_extn_op_fp16x2_atomic`: addition, maximum and minimum. -/
def emitFp16x2Atomic (env : Env) : Arguments → Option Handle → Outcome :=
  emitAtomic env .fp16Atomic [3, 6, 7]

/-- `emit_nvapi_extn_op_fp32_atomic`: addition only. -/
def emitFp32Atomic (env : Env) : Arguments → Option Handle → Outcome :=
  emitAtomic env .fp32Atomic [3]

/-- `emit_nvapi_extn_op_get_special`: the two halves of the timer. -/
def emitGetSpecial (inputs : Arguments) : Outcome :=
  match inputs argumentSrc0u with
  | some (.constant subOpcode) =>
    if subOpcode % 2 ^ 32 ∈ [9, 10] then
      .emitted { op := .getSpecial, arguments := [.constant subOpcode] } [0]
    else .refused
  | _ => .refused

/-- `emit_nvapi_extn_op_hit_object_make_miss`. -/
def emitHitObjectMakeMiss : Arguments → Outcome :=
  emitArguments .hitObjectMakeMiss
    [argumentSrc0u, argumentSrc0u + 1, argumentSrc0u + 2, argumentSrc1u, argumentSrc2u,
      argumentSrc1u + 1, argumentSrc2u + 1, argumentSrc1u + 2, argumentSrc2u + 2] [0]

/-- `emit_nvapi_extn_op_hit_object_reorder_thread`. Slot 0 gets the id of the instruction, as with
the others. -/
def emitHitObjectReorderThread (inputs : Arguments) : Outcome :=
  match inputs argumentSrc0u with
  | some (.constant _) =>
    emitArguments .hitObjectReorderThread
      [argumentSrc0u, argumentSrc0u + 1, argumentSrc0u + 2, argumentSrc0u + 3] [0] inputs
  | _ => .refused

/-- `emit_nvapi_extn_op_hit_object_get_bool`. -/
def emitHitObjectGetBool (op : NVExtnOp) : Arguments → Outcome :=
  emitArguments op [argumentSrc0u] [0]

/-- `emit_nvapi_extn_op_hit_object_get_uint`. -/
def emitHitObjectGetUint (op : NVExtnOp) : Arguments → Outcome :=
  emitArguments op [argumentSrc0u] [0]

/-- `emit_nvapi_extn_op_hit_object_get_ray_desc`. -/
def emitHitObjectGetRayDesc : Arguments → Outcome :=
  emitArguments .hitObjectGetRayDesc [argumentSrc0u] [0, 1, 2, 3, 4, 5, 6, 7]

/-- `emit_nvapi_extn_op_hit_object_load_local_root_table_constant`. -/
def emitHitObjectLoadLocalRootTableConstant : Arguments → Outcome :=
  emitArguments .hitObjectLoadLocalRootTableConstant [argumentSrc0u, argumentSrc0u + 1] [0]

/-- `emit_nvapi_extn_op_hit_object_make_nop`. -/
def emitHitObjectMakeNop : Arguments → Outcome := emitArguments .hitObjectMakeNop [] [0]

/-- `emit_nvapi_extn_op_rt_get_cluster_id`. -/
def emitRtGetClusterId : Arguments → Outcome := emitArguments .rtGetClusterId [] [0]

/-- `emit_nvapi_extn_op_rt_get_intersection_cluster_id`: the flags have to be a call. -/
def emitRtGetIntersectionClusterId (env : Env) (op : NVExtnOp) (inputs : Arguments) : Outcome :=
  match inputs argumentSrc0u with
  | some rayFlags =>
    if env.isCall rayFlags then .emitted { op, arguments := [rayFlags] } [0] else .refused
  | none => .refused

/-- The emitter that `commit_opcode` calls; the deferred opcodes have none. -/
def emitter (env : Env) (inputs : Arguments) (markedUav : Option Handle) : NVExtnOp → Option Outcome
  | .shfl => some (emitShuffle inputs)
  | .fp16Atomic => some (emitFp16x2Atomic env inputs markedUav)
  | .fp32Atomic => some (emitFp32Atomic env inputs markedUav)
  | .getSpecial => some (emitGetSpecial inputs)
  | .hitObjectTraceRay | .hitObjectMakeHit | .hitObjectMakeHitWithRecordIndex | .hitObjectInvoke
  | .hitObjectGetAttributes => none
  | .hitObjectMakeMiss => some (emitHitObjectMakeMiss inputs)
  | .hitObjectReorderThread => some (emitHitObjectReorderThread inputs)
  | .hitObjectIsMiss => some (emitHitObjectGetBool .hitObjectIsMiss inputs)
  | .hitObjectIsHit => some (emitHitObjectGetBool .hitObjectIsHit inputs)
  | .hitObjectIsNop => some (emitHitObjectGetBool .hitObjectIsNop inputs)
  | .hitObjectGetInstanceId => some (emitHitObjectGetUint .hitObjectGetInstanceId inputs)
  | .hitObjectGetInstanceIndex => some (emitHitObjectGetUint .hitObjectGetInstanceIndex inputs)
  | .hitObjectGetPrimitiveIndex => some (emitHitObjectGetUint .hitObjectGetPrimitiveIndex inputs)
  | .hitObjectGetGeometryIndex => some (emitHitObjectGetUint .hitObjectGetGeometryIndex inputs)
  | .hitObjectGetHitKind => some (emitHitObjectGetUint .hitObjectGetHitKind inputs)
  | .hitObjectGetShaderTableIndex =>
    some (emitHitObjectGetUint .hitObjectGetShaderTableIndex inputs)
  | .hitObjectGetClusterId => some (emitHitObjectGetUint .hitObjectGetClusterId inputs)
  | .hitObjectGetRayDesc => some (emitHitObjectGetRayDesc inputs)
  | .hitObjectLoadLocalRootTableConstant => some (emitHitObjectLoadLocalRootTableConstant inputs)
  | .hitObjectMakeNop => some (emitHitObjectMakeNop inputs)
  | .rtGetClusterId => some (emitRtGetClusterId inputs)
  | .rtGetCandidateClusterId =>
    some (emitRtGetIntersectionClusterId env .rtGetCandidateClusterId inputs)
  | .rtGetCommittedClusterId =>
    some (emitRtGetIntersectionClusterId env .rtGetCommittedClusterId inputs)

/-- Deferred emitters that read slots and the operands of the call. -/
def emitCall (op : NVExtnOp) (slots : List Nat) (inputs : Arguments) (call : Call) : Outcome :=
  match slots.mapM inputs with
  | some arguments => .emitted { op, arguments, call := some call } []
  | none => .nullValue

/-- `emit_nvapi_extn_op_hit_object_trace_ray`. -/
def emitHitObjectTraceRay : Arguments → Call → Outcome :=
  emitCall .hitObjectTraceRay [argumentSrc0u]

/-- `emit_nvapi_extn_op_hit_object_make_hit`: without the attributes of a CallShader it uses a null
pointer. -/
def emitHitObjectMakeHit (inputs : Arguments) (attributes : Option Value) (call : Call)
    (withIndex : Bool) : Outcome :=
  let op := if withIndex then NVExtnOp.hitObjectMakeHitWithRecordIndex else .hitObjectMakeHit
  let contribution := if withIndex then [argumentSrc1u] else [argumentSrc1u, argumentSrc1u + 1]
  match ([argumentSrc0u, argumentSrc0u + 1, argumentSrc0u + 2, argumentSrc0u + 3] ++
    contribution).mapM inputs, attributes with
  | some arguments, some data =>
    .emitted { op, arguments, call := some call, attributes := some data } []
  | _, _ => .nullValue

/-- `emit_nvapi_extn_op_hit_object_invoke`. -/
def emitHitObjectInvoke : Arguments → Call → Outcome := emitCall .hitObjectInvoke [argumentSrc0u]

/-- `emit_nvapi_extn_op_hit_object_get_attributes`. -/
def emitHitObjectGetAttributes : Arguments → Call → Outcome :=
  emitCall .hitObjectGetAttributes [argumentSrc0u]

end DxilSpirv.Nvapi
