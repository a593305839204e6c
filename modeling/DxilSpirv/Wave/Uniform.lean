import DxilSpirv.Spirv.Lockstep
import DxilSpirv.Wave.Helpers
import Mathlib

/-!
# Values that are statically wave-uniform

A shader as a graph of instructions that lanes run in lockstep, and the check that decides whether
a read of the first lane can be dropped or an allocation can skip its waterfall. A value that passes
is built from constants, read-only memory and results that a wave operation gives to all lanes that
run it; it is the same in all lanes that ran those operations together. A fragment shader that keeps
helper lanes out of wave operations reads from the first lane that is no helper, so there a read can
only be dropped where such a lane runs it.
-/

namespace DxilSpirv

open Spirv DxilSpirv.Graph

/-- What an instruction refers to. -/
inductive Operand (V : Type)
  /-- A constant; an undefined value counts as one. -/
  | const (value : V)
  | inst (node : Nat)
  deriving DecidableEq

/-- The wave operations whose result is common to the lanes that run them. -/
inductive UniformWaveOp
  | activeOp (kind : Nat)
  | activeAllEqual
  | activeBit (kind : Nat)
  | activeBallot
  | anyTrue
  | allTrue
  | readLaneFirst

/-- The predicates of a comparison, as far as the analysis tells them apart. -/
inductive Predicate
  | icmpEq
  | icmpNe
  | other (code : Nat)
  deriving DecidableEq

inductive ResourceType
  | srv
  | uav
  | cbv
  | sampler
  deriving DecidableEq

/-- The storage classes that matter to the check. -/
inductive StorageClass
  | physicalStorageBuffer
  | storageBuffer
  | uniform
  | other
  deriving DecidableEq

/-- What a handle refers to. -/
structure ResourceReference where
  resource : Nat
  resourceType : ResourceType
  localRootSignatureEntry : Int
  baseResourceIsArray : Bool

/-- A resource handle with what is recorded for it. -/
structure ResourceHandle where
  hasPointer : Bool
  isRootConstant : Bool
  storage : StorageClass
  reference : Option ResourceReference

/-- `resource_handle_is_uniform_readonly_descriptor`. -/
def ResourceHandle.isUniformReadonlyDescriptor (h : ResourceHandle) : Bool :=
  if !h.hasPointer then false
  else if h.isRootConstant then true
  else if h.storage = .other then false
  else
    match h.reference with
    | none => false
    | some r =>
      if r.resourceType ≠ .srv ∧ r.resourceType ≠ .cbv then false
      else if 0 ≤ r.localRootSignatureEntry then false
      else if r.baseResourceIsArray then false
      else true

/-- The instructions of a shader, as far as the check looks at them. -/
inductive ShaderInst (V : Type)
  | unary (op : Nat) (a : Operand V)
  | binary (op : Nat) (a b : Operand V)
  | compare (predicate : Predicate) (a b : Operand V)
  | extractValue (index : Nat) (aggregate : Operand V)
  | createNodeOutputHandle (metadata : Nat)
  | annotateNodeHandle (node : Operand V)
  | indexNodeHandle (handle index : Operand V)
  | wave (op : UniformWaveOp) (value : Operand V)
  | groupId (component : Nat)
  /-- `CBufferLoadLegacy` or `CBufferLoad`. -/
  | cbufferLoad (handle : ResourceHandle) (index : Operand V)
  /-- `BufferLoad` or `RawBufferLoad`. -/
  | bufferLoad (handle : ResourceHandle) (index offset : Operand V)
  | allocateNodeOutputRecords (node count : Operand V) (perThread : Bool)
  /-- Any other instruction. -/
  | other

/-- Where control goes after an instruction. -/
inductive Follow (V : Type)
  | goto (node : Nat)
  | br (condition : Operand V) (ifTrue ifFalse : Nat)
  | switch (condition : Operand V) (cases : List (Nat × Nat)) (default : Nat)
  | ret

/-- What decides whether helper lanes take part in wave operations. -/
structure WaveOptions where
  isFragment : Bool
  strictHelperLaneWaveops : Bool := true
  waveopsIncludeHelperLanes : Bool := false

/-- `wave_op_needs_helper_lane_masking`. -/
def WaveOptions.needsHelperLaneMasking (o : WaveOptions) : Bool :=
  o.isFragment && o.strictHelperLaneWaveops && !o.waveopsIncludeHelperLanes

/-- A function whose nodes are instructions; the nodes from `size` on are not part of it. -/
structure Shader (V : Type) where
  options : WaveOptions
  size : Nat
  entry : Nat
  inst : Nat → ShaderInst V
  follow : Nat → Follow V

/-- The meaning of the operations on values, and of the memory that a launch cannot change. A wave
operation sees the values of the active lanes in order, and which of these lanes are helpers. -/
structure Interp (n : Nat) (V : Type) where
  unary : Nat → V → V
  binary : Nat → V → V → V
  compare : Predicate → V → V → V
  extract : Nat → V → V
  wave : UniformWaveOp → List (V × Bool) → V
  /-- Whether a lane is a helper in a turn; a demoted lane becomes one. -/
  isHelper : Nat → Fin n → Bool
  /-- The bits of a ballot that no lane votes for have no defined lowest one. -/
  undefLsb : BitVec 32
  /-- What a shuffle from an inactive lane gives. -/
  undef : V
  /-- The null constant. -/
  null : V
  groupId : Nat → V
  nodeIndex : Nat → V
  indexNode : V → V → V
  rootConstants : List V → V
  memory : Nat → List V → V
  truth : V → Bool
  label : V → Nat
  /-- What any other instruction gives a lane in a turn. -/
  other : Nat → Nat → Fin n → V

/-- The memory that a handle reads for all lanes: the root constants, or a read-only resource that
is not one of an array or of a local root signature. -/
def Interp.memoryOf {n : Nat} {V : Type} (I : Interp n V) (h : ResourceHandle) :
    Option (List V → V) :=
  if h.isRootConstant then some I.rootConstants
  else
    match h.reference with
    | none => none
    | some r =>
      if (r.resourceType = .srv ∨ r.resourceType = .cbv) ∧ r.localRootSignatureEntry < 0 ∧
          r.baseResourceIsArray = false then some (I.memory r.resource)
      else none

namespace Shader

variable {n : Nat} {V : Type} (sh : Shader V)

/-- An `extractvalue` is looked through. -/
def aggregateOperand (v : Operand V) : Operand V :=
  match v with
  | .const _ => v
  | .inst q =>
    match sh.inst q with
    | .extractValue _ a => a
    | _ => v

/-- The last part of the check: constants, wave operations and loads. -/
def leafIsUniform (rec : Operand V → Bool) (v : Operand V) : Bool :=
  match sh.aggregateOperand v with
  | .const _ => true
  | .inst q =>
    match sh.inst q with
    | .wave _ _ => true
    | .groupId _ => true
    | .cbufferLoad h i => rec i && h.isUniformReadonlyDescriptor
    | .bufferLoad h i o => rec i && rec o && h.isUniformReadonlyDescriptor
    | _ => false

/-- `value_is_statically_wave_uniform`, to a depth. -/
def valueIsStaticallyWaveUniform : Nat → Operand V → Bool
  | 0, _ => false
  | _ + 1, .const _ => true
  | fuel + 1, .inst q =>
    match sh.inst q with
    | .unary _ a => valueIsStaticallyWaveUniform fuel a
    | .binary _ a b => valueIsStaticallyWaveUniform fuel a && valueIsStaticallyWaveUniform fuel b
    | .annotateNodeHandle (.inst r) =>
      match sh.inst r with
      | .indexNodeHandle _ i => sh.leafIsUniform (valueIsStaticallyWaveUniform fuel) i
      | _ => true
    | .annotateNodeHandle (.const _) => true
    | _ => sh.leafIsUniform (valueIsStaticallyWaveUniform fuel) (.inst q)

/-- The wave operations behind the last part of the check. -/
def leafOps (rec : Operand V → List Nat) (v : Operand V) : List Nat :=
  match sh.aggregateOperand v with
  | .const _ => []
  | .inst q =>
    match sh.inst q with
    | .wave _ _ => [q]
    | .cbufferLoad _ i => rec i
    | .bufferLoad _ i o => rec i ++ rec o
    | _ => []

/-- The wave operations that the check relies on for a value. -/
def waveOps : Nat → Operand V → List Nat
  | 0, _ => []
  | _ + 1, .const _ => []
  | fuel + 1, .inst q =>
    match sh.inst q with
    | .unary _ a => waveOps fuel a
    | .binary _ a b => waveOps fuel a ++ waveOps fuel b
    | .annotateNodeHandle (.inst r) =>
      match sh.inst r with
      | .indexNodeHandle _ i => sh.leafOps (waveOps fuel) i
      | _ => []
    | .annotateNodeHandle (.const _) => []
    | _ => sh.leafOps (waveOps fuel) (.inst q)

/-- The operand of a read of the first lane. -/
def readFirstOperand : Operand V → Option (Operand V)
  | .const _ => none
  | .inst q =>
    match sh.inst q with
    | .wave .readLaneFirst v => some v
    | _ => none

variable [DecidableEq V]

/-- `analyze_compare_instruction`: the read of the first lane that is compared with its own operand,
which has to see the helper lanes. -/
def analyzeCompareInstruction : ShaderInst V → Option Nat
  | .compare predicate a b =>
    if predicate ≠ .icmpEq ∧ predicate ≠ .icmpNe then none
    else
      let (op0, op1) := if (sh.readFirstOperand b).isSome then (b, a) else (a, b)
      match op0, sh.readFirstOperand op0, sh.readFirstOperand op1 with
      | .inst call, some v, none => if v = op1 then some call else none
      | _, _, _ => none
  | _ => none

/-- `wave_op_forced_helper_lanes`. -/
def waveOpForcedHelperLanes : List Nat :=
  (List.range sh.size).filterMap fun q => sh.analyzeCompareInstruction (sh.inst q)

/-- Whether the read of the first lane at a node leaves the helper lanes out. -/
def readsMasked (q : Nat) : Bool :=
  sh.options.needsHelperLaneMasking && decide (q ∉ sh.waveOpForcedHelperLanes)

end Shader

namespace Operand

variable {V : Type}

/-- The value of an operand among those of a lane. -/
def value (env : Nat → V) : Operand V → V
  | const v => v
  | inst q => env q

/-- The node an operand is computed at. -/
def node? : Operand V → Option Nat
  | const _ => none
  | inst q => some q

end Operand

namespace ShaderInst

variable {V : Type}

/-- The operands of an instruction. -/
def operands : ShaderInst V → List (Operand V)
  | unary _ a => [a]
  | binary _ a b => [a, b]
  | compare _ a b => [a, b]
  | extractValue _ a => [a]
  | createNodeOutputHandle _ => []
  | annotateNodeHandle node => [node]
  | indexNodeHandle h i => [h, i]
  | wave _ v => [v]
  | groupId _ => []
  | cbufferLoad _ i => [i]
  | bufferLoad _ i o => [i, o]
  | allocateNodeOutputRecords node count _ => [node, count]
  | other => []

end ShaderInst

variable {n : Nat} {V : Type} {I : Interp n V} {sh : Shader V}

/-- What the active lanes compute at a node. With `elided`, a read of the first lane of a value
that passes the check is the lane's own value. -/
def evalShader [DecidableEq V] (I : Interp n V) (sh : Shader V) (elided : Option Nat)
    (clock q : Nat) (active : Finset (Fin n)) (env : Fin n → Nat → V) (lane : Fin n) : V :=
  match sh.inst q with
  | .unary op a => I.unary op (a.value (env lane))
  | .binary op a b => I.binary op (a.value (env lane)) (b.value (env lane))
  | .compare predicate a b => I.compare predicate (a.value (env lane)) (b.value (env lane))
  | .extractValue i a => I.extract i (a.value (env lane))
  | .createNodeOutputHandle metadata => I.nodeIndex metadata
  | .annotateNodeHandle node => node.value (env lane)
  | .indexNodeHandle h i => I.indexNode (h.value (env lane)) (i.value (env lane))
  | .wave .readLaneFirst v =>
    if elided.any fun fuel => sh.valueIsStaticallyWaveUniform fuel v then v.value (env lane)
    else if sh.readsMasked q then
      waveReadFirstLane (I.isHelper clock) I.undefLsb I.undef I.null
        (fun lane => v.value (env lane)) active
    else broadcastFirst active (fun lane => v.value (env lane)) lane
  | .wave op v => I.wave op <|
    (activeLanes active).map fun lane => (v.value (env lane), I.isHelper clock lane)
  | .groupId c => I.groupId c
  | .cbufferLoad h i => ((I.memoryOf h).map fun load =>
      load [i.value (env lane)]).getD (I.other clock q lane)
  | .bufferLoad h i o => ((I.memoryOf h).map fun load =>
      load [i.value (env lane), o.value (env lane)]).getD (I.other clock q lane)
  | .allocateNodeOutputRecords _ _ _ => I.other clock q lane
  | .other => I.other clock q lane

/-- Where a lane goes after a node. -/
def nextNode (I : Interp n V) (sh : Shader V) (q : Nat) (env : Nat → V) : Option Nat :=
  match sh.follow q with
  | .goto b => some b
  | .br c t f => some (if I.truth (c.value env) then t else f)
  | .switch c cases default =>
    some (((cases.find? fun p => p.1 == I.label (c.value env)).map (·.2)).getD default)
  | .ret => none

/-- The machine that runs the shader. -/
def shaderMachine [DecidableEq V] (I : Interp n V) (sh : Shader V) (elided : Option Nat) :
    Lockstep n V :=
  ⟨sh.entry, evalShader I sh elided, nextNode I sh⟩

/-- The nodes of the operands. -/
def ShaderInst.operandNodes (inst : ShaderInst V) : List Nat := inst.operands.filterMap (·.node?)

/-- The instructions whose result is a function of the lane's own operands. -/
def Interp.pure (I : Interp n V) : ShaderInst V → Option ((Nat → V) → V)
  | .unary op a => some fun env => I.unary op (a.value env)
  | .binary op a b => some fun env => I.binary op (a.value env) (b.value env)
  | .compare predicate a b => some fun env => I.compare predicate (a.value env) (b.value env)
  | .extractValue i a => some fun env => I.extract i (a.value env)
  | .createNodeOutputHandle metadata => some fun _ => I.nodeIndex metadata
  | .annotateNodeHandle node => some fun env => node.value env
  | .indexNodeHandle h i => some fun env => I.indexNode (h.value env) (i.value env)
  | .wave _ _ => none
  | .groupId c => some fun _ => I.groupId c
  | .cbufferLoad h i => (I.memoryOf h).map fun load env => load [i.value env]
  | .bufferLoad h i o => (I.memoryOf h).map fun load env => load [i.value env, o.value env]
  | .allocateNodeOutputRecords _ _ _ => none
  | .other => none

theorem value_congr {v : Operand V} {env env' : Nat → V} {nodes : List Nat}
    (h : ∀ a ∈ nodes, env a = env' a) (hv : ∀ q, v.node? = some q → q ∈ nodes) :
    v.value env = v.value env' := by
  cases v with
  | const v => rfl
  | inst q => exact h q (hv q rfl)

theorem mem_operandNodes {inst : ShaderInst V} {v : Operand V} (hv : v ∈ inst.operands) {q : Nat}
    (hq : v.node? = some q) : q ∈ inst.operandNodes := List.mem_filterMap.mpr ⟨v, hv, hq⟩

/-- A handle that passes the check reads the same memory for all lanes. -/
theorem exists_memoryOf {h : ResourceHandle} (hu : h.isUniformReadonlyDescriptor = true) :
    ∃ load, I.memoryOf h = some load := by
  unfold ResourceHandle.isUniformReadonlyDescriptor at hu
  unfold Interp.memoryOf
  by_cases hroot : h.isRootConstant = true
  · exact ⟨I.rootConstants, if_pos hroot⟩
  · rw [if_neg hroot] at hu ⊢
    split at hu
    · cases hu
    · split at hu
      · cases hu
      · cases href : h.reference with
        | none =>
          rw [href] at hu
          cases hu
        | some r =>
          rw [href] at hu
          simp only at hu ⊢
          split at hu
          · cases hu
          · split at hu
            · cases hu
            · split at hu
              · cases hu
              · rename_i htype hlocal harray
                refine ⟨I.memory r.resource, if_pos ⟨?_, by omega, by simpa using harray⟩⟩
                by_contra hno
                exact htype (not_or.mp hno)

variable [DecidableEq V]

/-- What the module is known to satisfy: operands are computed before they are used, and the chain
of a node handle starts at the declaration of a node output. -/
structure Shader.WellFormed (I : Interp n V) (sh : Shader V) : Prop where
  ssa : ∀ q, ∀ a ∈ (sh.inst q).operandNodes, (shaderMachine I sh none).StrictlyDominates a q
  annotated : ∀ q node, sh.inst q = .annotateNodeHandle node → ∃ r, node = .inst r ∧
    ((∃ metadata, sh.inst r = .createNodeOutputHandle metadata) ∨
      ∃ h i, sh.inst r = .indexNodeHandle h i)
  indexed : ∀ q h i, sh.inst q = .indexNodeHandle h i → ∃ r c metadata, h = .inst r ∧
    sh.inst r = .annotateNodeHandle (.inst c) ∧ sh.inst c = .createNodeOutputHandle metadata

theorem pureAt (wf : sh.WellFormed I) {q : Nat} {f : (Nat → V) → V}
    (h : I.pure (sh.inst q) = some f) :
    (shaderMachine I sh none).PureAt q (sh.inst q).operandNodes f where
  eval_eq clock active env lane := by
    change evalShader I sh none clock q active env lane = f (env lane)
    unfold evalShader
    revert h
    cases sh.inst q with
    | wave op v => exact fun h => by cases h
    | allocateNodeOutputRecords node count perThread => exact fun h => by cases h
    | other => exact fun h => by cases h
    | cbufferLoad handle i =>
      intro h
      obtain ⟨load, hload, rfl⟩ := Option.map_eq_some_iff.mp h
      simp only [hload, Option.map_some, Option.getD_some]
    | bufferLoad handle i o =>
      intro h
      obtain ⟨load, hload, rfl⟩ := Option.map_eq_some_iff.mp h
      simp only [hload, Option.map_some, Option.getD_some]
    | _ =>
      intro h
      obtain rfl := Option.some.inj h
      rfl
  congr env env' henv := by
    have hvalue : ∀ v ∈ (sh.inst q).operands, v.value env = v.value env' := fun v hv =>
      value_congr henv fun r hr => mem_operandNodes hv hr
    revert h hvalue
    cases sh.inst q with
    | wave op v => exact fun h => by cases h
    | allocateNodeOutputRecords node count perThread => exact fun h => by cases h
    | other => exact fun h => by cases h
    | cbufferLoad handle i =>
      intro h hvalue
      obtain ⟨load, hload, rfl⟩ := Option.map_eq_some_iff.mp h
      simp only [hvalue i (by simp [ShaderInst.operands])]
    | bufferLoad handle i o =>
      intro h hvalue
      obtain ⟨load, hload, rfl⟩ := Option.map_eq_some_iff.mp h
      simp only [hvalue i (by simp [ShaderInst.operands]),
        hvalue o (by simp [ShaderInst.operands])]
    | _ =>
      intro h hvalue
      obtain rfl := Option.some.inj h
      simp only [ShaderInst.operands, List.mem_cons, List.not_mem_nil, or_false, forall_eq_or_imp,
        forall_eq] at hvalue
      simp [hvalue]
  dominates := wf.ssa q

/-- A wave operation gives the lanes that run it one value. -/
theorem commonAt_wave {q : Nat} {op : UniformWaveOp} {v : Operand V}
    (h : sh.inst q = .wave op v) : (shaderMachine I sh none).CommonAt q := by
  intro clock active env lane hlane lane' hlane'
  change evalShader I sh none clock q active env lane =
    evalShader I sh none clock q active env lane'
  obtain ⟨f, hf⟩ := exists_firstLane hlane
  unfold evalShader
  rw [h]
  cases op with
  | readLaneFirst =>
    simp only [Option.any_none, Bool.false_eq_true, if_false]
    split
    · rfl
    · rw [broadcastFirst_eq hf, broadcastFirst_eq hf]
  | _ => rfl

section Soundness

variable {s : Lockstep.State n V} {p : Nat} {lane lane' : Fin n}

/-- The operand is computed before the node is run. -/
def ComputedBefore (I : Interp n V) (sh : Shader V) (v : Operand V) (p : Nat) : Prop :=
  ∀ q, v.node? = some q → (shaderMachine I sh none).StrictlyDominates q p

/-- The lanes last ran every one of the nodes together. -/
def RanTogether (s : Lockstep.State n V) (lane lane' : Fin n) (nodes : List Nat) : Prop :=
  ∀ q ∈ nodes, s.instance? lane q = s.instance? lane' q

/-- Two lanes of a run that are at the same node. -/
structure Meet (I : Interp n V) (sh : Shader V) (s : Lockstep.State n V) (p : Nat)
    (lane lane' : Fin n) : Prop where
  reachable : (shaderMachine I sh none).Reachable s
  pos : s.pos lane = some p
  pos' : s.pos lane' = some p

variable (wf : sh.WellFormed I) (hmeet : Meet I sh s p lane lane')

include wf hmeet

/-- A pure node is what its operands give now, in both lanes. -/
theorem Meet.pure {q : Nat} {f : (Nat → V) → V} (hf : I.pure (sh.inst q) = some f)
    (hq : (shaderMachine I sh none).StrictlyDominates q p) :
    s.env lane q = f (s.env lane) ∧ s.env lane' q = f (s.env lane') :=
  ⟨hmeet.reachable.pure (pureAt wf hf) hmeet.pos hq,
    hmeet.reachable.pure (pureAt wf hf) hmeet.pos' hq⟩

/-- Operands of a node that is computed before are computed before. -/
theorem Meet.operand {q : Nat} {v : Operand V} (hv : v ∈ (sh.inst q).operands)
    (hq : (shaderMachine I sh none).StrictlyDominates q p) : ComputedBefore I sh v p := by
  intro r hr
  exact (wf.ssa q r (mem_operandNodes hv hr)).trans hq
    (hmeet.reachable.placed.reaches lane p hmeet.pos)

/-- A pure node is equal in both lanes when its operands are. -/
theorem Meet.pure_eq {q : Nat} {f : (Nat → V) → V} (hf : I.pure (sh.inst q) = some f)
    (hq : (shaderMachine I sh none).StrictlyDominates q p)
    (hops : f (s.env lane) = f (s.env lane')) : s.env lane q = s.env lane' q := by
  obtain ⟨h, h'⟩ := hmeet.pure wf hf hq
  rw [h, h', hops]

variable {rec : Operand V → Bool} {ops : Operand V → List Nat}

/-- The last part of the check is sound when the recursive calls are. -/
theorem Meet.leaf (hrec : ∀ v, ComputedBefore I sh v p → rec v = true →
      RanTogether s lane lane' (ops v) → v.value (s.env lane) = v.value (s.env lane'))
    {v : Operand V} (hv : ComputedBefore I sh v p) (hcheck : sh.leafIsUniform rec v = true)
    (hran : RanTogether s lane lane' (sh.leafOps ops v)) :
    v.value (s.env lane) = v.value (s.env lane') := by
  -- What the leaf has in common is shared by the aggregate that is looked through.
  have hleaf : ∀ w, ComputedBefore I sh w p → sh.aggregateOperand v = w →
      w.value (s.env lane) = w.value (s.env lane') := by
    intro w hw hagg
    unfold Shader.leafIsUniform at hcheck
    unfold Shader.leafOps at hran
    rw [hagg] at hcheck hran
    cases w with
    | const w => rfl
    | inst q =>
      have hq := hw q rfl
      simp only at hcheck hran
      change s.env lane q = s.env lane' q
      cases hinst : sh.inst q with
      | wave op a =>
        rw [hinst] at hran
        exact hmeet.reachable.common (commonAt_wave hinst) (hran q (List.mem_singleton_self _))
          (hmeet.reachable.executed hmeet.pos hq)
      | groupId c =>
        exact hmeet.pure_eq wf (f := fun _ => I.groupId c) (by rw [hinst]; rfl) hq rfl
      | cbufferLoad handle i =>
        rw [hinst] at hcheck hran
        obtain ⟨hi, hhandle⟩ := Bool.and_eq_true_iff.mp hcheck
        obtain ⟨load, hload⟩ := exists_memoryOf (I := I) hhandle
        have hi' := hrec i (hmeet.operand wf (q := q)
          (by rw [hinst]; simp [ShaderInst.operands]) hq) hi hran
        apply hmeet.pure_eq wf (f := fun env => load [i.value env]) _ hq
        · rw [hi']
        · rw [hinst, Interp.pure, hload, Option.map_some]
      | bufferLoad handle i o =>
        rw [hinst] at hcheck hran
        obtain ⟨hio, hhandle⟩ := Bool.and_eq_true_iff.mp hcheck
        obtain ⟨hi, ho⟩ := Bool.and_eq_true_iff.mp hio
        obtain ⟨load, hload⟩ := exists_memoryOf (I := I) hhandle
        have hi' := hrec i (hmeet.operand wf (q := q)
          (by rw [hinst]; simp [ShaderInst.operands]) hq) hi
          fun r hr => hran r (List.mem_append_left _ hr)
        have ho' := hrec o (hmeet.operand wf (q := q)
          (by rw [hinst]; simp [ShaderInst.operands]) hq) ho
          fun r hr => hran r (List.mem_append_right _ hr)
        apply hmeet.pure_eq wf (f := fun env => load [i.value env, o.value env]) _ hq
        · rw [hi', ho']
        · rw [hinst, Interp.pure, hload, Option.map_some]
      | _ =>
        rw [hinst] at hcheck
        cases hcheck
  cases v with
  | const v => rfl
  | inst q =>
    cases hinst : sh.inst q with
    | extractValue i a =>
      have hq := hv q rfl
      have hagg : sh.aggregateOperand (.inst q) = a := by
        unfold Shader.aggregateOperand
        simp only [hinst]
      have ha := hleaf a (hmeet.operand wf (q := q)
        (by rw [hinst]; simp [ShaderInst.operands]) hq) hagg
      apply hmeet.pure_eq wf (f := fun env => I.extract i (a.value env)) _ hq
      · rw [ha]
      · rw [hinst]
        rfl
    | _ =>
      apply hleaf _ hv
      unfold Shader.aggregateOperand
      simp only [hinst]

/-- A handle of a declared node output is its index. -/
theorem Meet.created {r : Nat} {metadata : Nat} (hr : ComputedBefore I sh (.inst r) p)
    (hinst : sh.inst r = .createNodeOutputHandle metadata) : s.env lane r = s.env lane' r :=
  hmeet.pure_eq wf (f := fun _ => I.nodeIndex metadata) (by rw [hinst]; rfl) (hr r rfl) rfl

/-- An annotation forwards the handle. -/
theorem Meet.annotated {q : Nat} {node : Operand V} (hq : ComputedBefore I sh (.inst q) p)
    (hinst : sh.inst q = .annotateNodeHandle node)
    (hnode : node.value (s.env lane) = node.value (s.env lane')) :
    s.env lane q = s.env lane' q :=
  hmeet.pure_eq wf (f := fun env => node.value env) (by rw [hinst]; rfl) (hq q rfl) hnode

/-- An indexed handle adds an index to a declared one. -/
theorem Meet.indexed {r : Nat} {h i : Operand V} (hr : ComputedBefore I sh (.inst r) p)
    (hinst : sh.inst r = .indexNodeHandle h i)
    (hi : i.value (s.env lane) = i.value (s.env lane')) : s.env lane r = s.env lane' r := by
  obtain ⟨b, c, metadata, rfl, hb, hc⟩ := wf.indexed r h i hinst
  have hbefore : ComputedBefore I sh (.inst b) p :=
    hmeet.operand wf (q := r) (by rw [hinst]; simp [ShaderInst.operands]) (hr r rfl)
  have hcreated : ComputedBefore I sh (.inst c) p :=
    hmeet.operand wf (q := b) (by rw [hb]; simp [ShaderInst.operands]) (hbefore b rfl)
  have hbase := hmeet.annotated wf hbefore hb (hmeet.created wf hcreated hc)
  apply hmeet.pure_eq wf (f := fun env => I.indexNode (env b) (i.value env))
    (by rw [hinst]; rfl) (hr r rfl)
  rw [hbase, hi]

/-- The check is sound for lanes that ran the wave operations behind the value together. -/
theorem Meet.sound {fuel : Nat} {v : Operand V} (hv : ComputedBefore I sh v p)
    (hcheck : sh.valueIsStaticallyWaveUniform fuel v = true)
    (hran : RanTogether s lane lane' (sh.waveOps fuel v)) :
    v.value (s.env lane) = v.value (s.env lane') := by
  induction fuel generalizing v with
  | zero => cases hcheck
  | succ fuel ih =>
    cases v with
    | const v => rfl
    | inst q =>
      have hq := hv q rfl
      change s.env lane q = s.env lane' q
      unfold Shader.valueIsStaticallyWaveUniform at hcheck
      unfold Shader.waveOps at hran
      cases hinst : sh.inst q with
      | unary op a =>
        simp only [hinst] at hcheck hran
        have ha := ih (hmeet.operand wf (q := q)
          (by rw [hinst]; simp [ShaderInst.operands]) hq) hcheck hran
        apply hmeet.pure_eq wf (f := fun env => I.unary op (a.value env))
          (by rw [hinst]; rfl) hq
        rw [ha]
      | binary op a b =>
        simp only [hinst] at hcheck hran
        obtain ⟨hca, hcb⟩ := Bool.and_eq_true_iff.mp hcheck
        have ha := ih (hmeet.operand wf (q := q)
          (by rw [hinst]; simp [ShaderInst.operands]) hq) hca
          fun r hr => hran r (List.mem_append_left _ hr)
        have hb := ih (hmeet.operand wf (q := q)
          (by rw [hinst]; simp [ShaderInst.operands]) hq) hcb
          fun r hr => hran r (List.mem_append_right _ hr)
        apply hmeet.pure_eq wf (f := fun env => I.binary op (a.value env) (b.value env))
          (by rw [hinst]; rfl) hq
        rw [ha, hb]
      | annotateNodeHandle node =>
        have hnode := hmeet.operand wf (q := q) (v := node)
          (by rw [hinst]; simp [ShaderInst.operands]) hq
        apply hmeet.annotated wf hv hinst
        obtain ⟨r, rfl, hcreate | ⟨h, i, hindex⟩⟩ := wf.annotated q node hinst
        · obtain ⟨metadata, hcreate⟩ := hcreate
          exact hmeet.created wf hnode hcreate
        · simp only [hinst, hindex] at hcheck hran
          have hi := hmeet.operand wf (q := r) (v := i)
            (by rw [hindex]; simp [ShaderInst.operands]) (hnode r rfl)
          exact hmeet.indexed wf hnode hindex (hmeet.leaf wf (fun v => ih) hi hcheck hran)
      | _ =>
        simp only [hinst] at hcheck hran
        exact hmeet.leaf wf (fun v => ih) hv hcheck hran

end Soundness

variable {fuel : Nat} {s : Lockstep.State n V} {p : Nat} {active : Finset (Fin n)} {v : Operand V}

/-- A read of the first lane that is dropped, or an allocation that skips the waterfall. -/
structure UsesUniform (sh : Shader V) (fuel p : Nat) (v : Operand V) : Prop where
  use : sh.inst p = .wave .readLaneFirst v ∨
    ∃ count, sh.inst p = .allocateNodeOutputRecords v count true
  uniform : sh.valueIsStaticallyWaveUniform fuel v = true

/-- All active lanes last ran the wave operations behind the value together. -/
def Shared (sh : Shader V) (fuel : Nat) (s : Lockstep.State n V) (active : Finset (Fin n))
    (v : Operand V) : Prop :=
  ∀ lane ∈ active, ∀ lane' ∈ active, RanTogether s lane lane' (sh.waveOps fuel v)

/-- A read of the first lane that leaves the helper lanes out is run by a lane that is none. -/
def ReadsReal (I : Interp n V) (sh : Shader V) (s : Lockstep.State n V) (p : Nat)
    (active : Finset (Fin n)) (v : Operand V) : Prop :=
  sh.inst p = .wave .readLaneFirst v → sh.readsMasked p = true → active.Nonempty →
    ∃ lane ∈ active, I.isHelper s.clock lane = false

/-- The runs in which every use finds its wave operations run together, and no read of the first
lane that leaves the helper lanes out is dropped where helper lanes alone run it. -/
inductive SharedRun (I : Interp n V) (sh : Shader V) (fuel : Nat) : Lockstep.State n V → Prop
  | start (env : Fin n → Nat → V) : SharedRun I sh fuel ((shaderMachine I sh none).start env)
  | turn {s : Lockstep.State n V} {p : Nat} {active : Finset (Fin n)} (h : SharedRun I sh fuel s)
      (hpos : ∀ lane ∈ active, s.pos lane = some p)
      (hshared : ∀ v, UsesUniform sh fuel p v →
        Shared sh fuel s active v ∧ ReadsReal I sh s p active v) :
      SharedRun I sh fuel ((shaderMachine I sh none).turn s p active)

theorem SharedRun.reachable (h : SharedRun I sh fuel s) :
    (shaderMachine I sh none).Reachable s := by
  induction h with
  | start env => exact .start env
  | turn _ hpos _ ih => exact .turn ih hpos

/-- At a shared use all active lanes hold one value. -/
theorem uniform_at_use (wf : sh.WellFormed I) (h : (shaderMachine I sh none).Reachable s)
    (hpos : ∀ lane ∈ active, s.pos lane = some p) (huse : UsesUniform sh fuel p v)
    (hshared : Shared sh fuel s active v) : ∀ lane ∈ active, ∀ lane' ∈ active,
      v.value (s.env lane) = v.value (s.env lane') := by
  intro lane hlane lane' hlane'
  have hv : v ∈ (sh.inst p).operands := by
    rcases huse.use with hinst | ⟨count, hinst⟩
    · rw [hinst]
      exact List.mem_singleton_self v
    · rw [hinst]
      exact List.mem_cons_self ..
  have hbefore : ComputedBefore I sh v p := fun q hq => wf.ssa p q (mem_operandNodes hv hq)
  have hmeet : Meet I sh s p lane lane' := ⟨h, hpos lane hlane, hpos lane' hlane'⟩
  exact hmeet.sound wf hbefore huse.uniform (hshared lane hlane lane' hlane')

/-- A read of the first lane gives the value that all lanes hold, unless it leaves the helper lanes
out and no other lane runs it. -/
theorem evalShader_readLaneFirst (hn : n ≤ 128) (hinst : sh.inst p = .wave .readLaneFirst v)
    (hall : ∀ lane ∈ active, ∀ lane' ∈ active, v.value (s.env lane) = v.value (s.env lane'))
    (hreal : ReadsReal I sh s p active v) {lane : Fin n} (hlane : lane ∈ active) :
    evalShader I sh none s.clock p active s.env lane = v.value (s.env lane) := by
  unfold evalShader
  simp only [hinst, Option.any_none, Bool.false_eq_true, if_false]
  by_cases hmask : sh.readsMasked p = true
  · rw [if_pos hmask, waveReadFirstLane_eq hn]
    obtain ⟨real, hmem, hno⟩ := hreal hinst hmask ⟨lane, hlane⟩
    have hpart : real ∈ participants false (I.isHelper s.clock) active := by
      rw [participants, Finset.mem_filter]
      exact ⟨hmem, by simp [hno]⟩
    obtain ⟨f, hf⟩ := exists_firstLane hpart
    rw [hf, Option.elim_some]
    exact hall f (Finset.mem_filter.mp (firstLane_mem hf)).1 lane hlane
  · obtain ⟨f, hf⟩ := exists_firstLane hlane
    rw [if_neg hmask, broadcastFirst_eq hf]
    exact hall f (firstLane_mem hf) lane hlane

/-- Run by helper lanes alone, a read that leaves them out gives the null constant. -/
theorem evalShader_helpersOnly (hn : n ≤ 128) (hinst : sh.inst p = .wave .readLaneFirst v)
    (hmask : sh.readsMasked p = true) (hhelper : ∀ lane ∈ active, I.isHelper s.clock lane = true)
    (lane : Fin n) : evalShader I sh none s.clock p active s.env lane = I.null := by
  unfold evalShader
  simp only [hinst, Option.any_none, Bool.false_eq_true, if_false]
  rw [if_pos hmask, waveReadFirstLane_eq hn]
  have hnone : firstLane (participants false (I.isHelper s.clock) active) = none := by
    rw [firstLane, List.find?_eq_none]
    intro j _ hj
    obtain ⟨hmem, hno⟩ := Finset.mem_filter.mp (of_decide_eq_true hj)
    rw [hhelper j hmem] at hno
    cases hno
  rw [hnone, Option.elim_none]

/-- A turn whose uses are shared does the same with the reads of the first lane dropped. -/
theorem turn_elided (hn : n ≤ 128) (wf : sh.WellFormed I)
    (h : (shaderMachine I sh none).Reachable s) (hpos : ∀ lane ∈ active, s.pos lane = some p)
    (hshared : ∀ v, UsesUniform sh fuel p v →
      Shared sh fuel s active v ∧ ReadsReal I sh s p active v) :
    (shaderMachine I sh (some fuel)).turn s p active =
      (shaderMachine I sh none).turn s p active := by
  have heval : ∀ lane ∈ active, evalShader I sh (some fuel) s.clock p active s.env lane =
      evalShader I sh none s.clock p active s.env lane := by
    intro lane hlane
    cases hinst : sh.inst p with
    | wave op v =>
      cases op with
      | readLaneFirst =>
        by_cases hu : sh.valueIsStaticallyWaveUniform fuel v = true
        · have huse : UsesUniform sh fuel p v := ⟨Or.inl hinst, hu⟩
          obtain ⟨htogether, hreal⟩ := hshared v huse
          rw [evalShader_readLaneFirst hn hinst (uniform_at_use wf h hpos huse htogether)
            hreal hlane]
          simp only [evalShader, hinst, Option.any_some, hu, if_true]
        · simp only [evalShader, hinst, Option.any_some, Option.any_none, hu, Bool.false_eq_true,
            if_false]
      | _ => simp only [evalShader, hinst]
    | _ => simp only [evalShader, hinst]
  have henv : (shaderMachine I sh (some fuel)).turnEnv s p active =
      (shaderMachine I sh none).turnEnv s p active := by
    funext lane q
    unfold Lockstep.turnEnv
    by_cases hin : lane ∈ active ∧ q = p
    · rw [if_pos hin, if_pos hin]
      exact heval lane hin.1
    · rw [if_neg hin, if_neg hin]
  unfold Lockstep.turn
  rw [henv]
  rfl

/-- In a run whose uses are shared, dropping the reads of the first lane changes nothing. At every
shared use the active lanes hold one value, which is that of the first of them, and a read gives
this value with and without the shortcut. -/
theorem sharedRun_uniform (hn : n ≤ 128) (wf : sh.WellFormed I) (h : SharedRun I sh fuel s) :
    (shaderMachine I sh (some fuel)).Reachable s ∧
      ∀ p active v, (∀ lane ∈ active, s.pos lane = some p) → UsesUniform sh fuel p v →
        Shared sh fuel s active v → ∀ lane ∈ active,
          (∀ lane' ∈ active, v.value (s.env lane) = v.value (s.env lane')) ∧
            v.value (s.env lane) =
              broadcastFirst active (fun lane => v.value (s.env lane)) lane ∧
            (sh.inst p = .wave .readLaneFirst v → ReadsReal I sh s p active v →
              evalShader I sh none s.clock p active s.env lane = v.value (s.env lane)) := by
  constructor
  · induction h with
    | start env => exact .start env
    | turn h hpos hshared ih =>
      rw [← turn_elided hn wf h.reachable hpos hshared]
      exact .turn ih hpos
  · intro p active v hpos huse hshared lane hlane
    have hall := uniform_at_use wf h.reachable hpos huse hshared
    obtain ⟨f, hf⟩ := exists_firstLane hlane
    refine ⟨hall lane hlane, ?_, fun hinst hreal =>
      evalShader_readLaneFirst hn hinst hall hreal hlane⟩
    rw [broadcastFirst_eq hf]
    exact hall lane hlane f (firstLane_mem hf)

section Loop

local instance neZeroTwo : NeZero 2 := ⟨Nat.succ_ne_zero 1⟩

/-- A loop that sums over the wave in every turn, and a read of the sum behind it. -/
def loopShader : Shader Nat where
  options := { isFragment := true }
  size := 5
  entry := 0
  inst
    | 1 => .wave (.activeOp 0) (.inst 0)
    | 3 => .wave .readLaneFirst (.inst 1)
    | _ => .other
  follow
    | 0 => .goto 1
    | 1 => .goto 2
    | 2 => .br (.inst 2) 1 3
    | 3 => .goto 4
    | _ => .ret

/-- Two lanes with the inputs 1 and 2, which stay in the loop as told. -/
def loopInterp (stays : Nat → Fin 2 → Bool) : Interp 2 Nat where
  unary _ v := v
  binary _ v _ := v
  compare _ v _ := v
  extract _ v := v
  wave _ values := (values.map (·.1)).sum
  isHelper _ _ := false
  undefLsb := 0
  undef := 0
  null := 0
  groupId _ := 0
  nodeIndex m := m
  indexNode h i := h + i
  rootConstants _ := 0
  memory _ _ := 0
  truth v := v != 0
  label v := v
  other clock q lane := if q = 0 then lane + 1 else if stays clock lane then 1 else 0

theorem loopShader_wellFormed (stays : Nat → Fin 2 → Bool) :
    loopShader.WellFormed (loopInterp stays) where
  ssa q a ha := by
    have hcases : q = 1 ∧ a = 0 ∨ q = 3 ∧ a = 1 := by
      unfold ShaderInst.operandNodes loopShader at ha
      simp only at ha
      split at ha
      · simpa [ShaderInst.operands, Operand.node?] using ha
      · simpa [ShaderInst.operands, Operand.node?] using ha
      · simp [ShaderInst.operands] at ha
    rcases hcases with ⟨rfl, rfl⟩ | ⟨rfl, rfl⟩
    · exact ⟨root_dominates _ _ _, by decide⟩
    · refine ⟨Dominates.of_cut (S := fun x => 2 ≤ x) (show ¬ 2 ≤ 0 by decide) ?_ (by decide),
        by decide⟩
      rintro x y ⟨env, hxy⟩ hy
      by_cases hx : 2 ≤ x
      · exact Or.inl hx
      · obtain rfl | rfl : x = 0 ∨ x = 1 := by omega
        · obtain rfl := Option.some.inj hxy
          exact absurd hy (by decide)
        · exact Or.inr rfl
  annotated q node h := by
    unfold loopShader at h
    simp only at h
    split at h <;> cases h
  indexed q handle i h := by
    unfold loopShader at h
    simp only at h
    split at h <;> cases h

/-- The lanes take the given turns one after another. -/
def takeTurns (stays : Nat → Fin 2 → Bool) (turns : List (Nat × Finset (Fin 2))) :
    Lockstep.State 2 Nat :=
  turns.foldl (fun s t => (shaderMachine (loopInterp stays) loopShader none).turn s t.1 t.2)
    ((shaderMachine (loopInterp stays) loopShader none).start fun _ _ => 0)

/-- The second lane stays in the loop for one more turn. -/
def secondStays (clock : Nat) (lane : Fin 2) : Bool := decide (clock = 2 ∧ lane = 1)

/-- Each lane leaves the loop with the sum of its own last turn. -/
theorem loopShader_not_uniform : loopShader.WellFormed (loopInterp secondStays) ∧
    ∃ s : Lockstep.State 2 Nat,
      (shaderMachine (loopInterp secondStays) loopShader none).Reachable s ∧
      (∀ lane, s.pos lane = some 3) ∧ UsesUniform loopShader 1 3 (.inst 1) ∧
      s.env 0 1 = 3 ∧ s.env 1 1 = 2 := by
  refine ⟨loopShader_wellFormed _,
    takeTurns secondStays [(0, {0, 1}), (1, {0, 1}), (2, {0, 1}), (1, {1}), (2, {1})],
    ?_, by decide, ⟨Or.inl rfl, rfl⟩, by decide, by decide⟩
  exact .turn (.turn (.turn (.turn (.turn (.start _) (by decide)) (by decide)) (by decide))
    (by decide)) (by decide)

/-- Lanes that leave the loop together agree on the sum, and the read behind it gives them the
sum. -/
theorem loopShader_uniform : ∃ s : Lockstep.State 2 Nat,
    SharedRun (loopInterp fun _ _ => false) loopShader 1 s ∧ s.env 0 1 = s.env 1 1 ∧
      evalShader (loopInterp fun _ _ => false) loopShader none s.clock 3 {0, 1} s.env 0 =
        s.env 0 1 := by
  have hno : ∀ p, p ≠ 3 → ∀ v, ¬ UsesUniform loopShader 1 p v := by
    rintro p hp v ⟨hinst | ⟨count, hinst⟩, -⟩
    · unfold loopShader at hinst
      simp only at hinst
      split at hinst <;> simp_all
    · unfold loopShader at hinst
      simp only at hinst
      split at hinst <;> cases hinst
  have hrun : SharedRun (loopInterp fun _ _ => false) loopShader 1
      (takeTurns (fun _ _ => false) [(0, {0, 1}), (1, {0, 1}), (2, {0, 1})]) :=
    .turn (.turn (.turn (.start _) (by decide) fun v h => absurd h (hno 0 (by decide) v))
      (by decide) fun v h => absurd h (hno 1 (by decide) v))
      (by decide) fun v h => absurd h (hno 2 (by decide) v)
  have hshared : Shared loopShader 1
      (takeTurns (fun _ _ => false) [(0, {0, 1}), (1, {0, 1}), (2, {0, 1})]) {0, 1} (.inst 1) := by
    intro lane _ lane' _ q hq
    obtain rfl := List.mem_singleton.mp hq
    revert lane lane'
    decide
  obtain ⟨hall, -, hread⟩ :=
    (sharedRun_uniform (by decide) (loopShader_wellFormed _) hrun).2 3 {0, 1}
    (.inst 1) (by decide) ⟨Or.inl rfl, rfl⟩ hshared 0 (by decide)
  exact ⟨_, hrun, hall 1 (by decide), hread rfl fun _ _ _ => ⟨0, by decide, rfl⟩⟩

end Loop

end DxilSpirv
