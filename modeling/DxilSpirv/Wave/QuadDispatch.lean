import DxilSpirv.Spirv.LowBits
import Mathlib.Data.Fin.VecNotation
import Mathlib.Data.Set.Function
import Mathlib.Tactic.GCongr
import Mathlib.Tactic.Ring

/-!
# Thread ids of a two-dimensional quad dispatch

Where quads have to lie on a grid of two by two threads and the target only knows them on a line,
the workgroup is declared twice as wide and half as high, and the thread ids are computed so that
four neighbours on the line are the four threads of a quad.
-/

namespace DxilSpirv.Wave

open DxilSpirv.Spirv

/-- The three components of a size or of an id. -/
abbrev Uvec3 := Fin 3 → BitVec 32

/-- A component can be named by its number. -/
local instance three_ne_zero : NeZero 3 := ⟨by decide⟩

/-- The builtins that the thread id instructions read. -/
inductive BuiltIn
  | globalInvocationId | workgroupId | localInvocationId | localInvocationIndex
  deriving DecidableEq, Repr

/-- The kind of shader. -/
inductive ExecutionModel
  | glCompute | taskEXT | meshEXT | fragment | other
  deriving DecidableEq, Repr

/-- What the module asks for. -/
structure DerivativeOptions where
  computeShaderDerivatives : Bool
  computeShaderDerivativesQuad : Bool
  requireComputeShaderDerivatives : Bool
  deriving DecidableEq, Repr

/-- How derivatives are grouped by the target itself. -/
inductive DerivativeGroup
  | quads | linear
  deriving DecidableEq, Repr

/-- What is known of the workgroup once its execution modes are written. -/
structure ExecutionModeMeta where
  /-- The size of the workgroup that is declared. -/
  workgroupThreads : Uvec3
  synthesize2dQuadDispatch : Bool
  synthesizeDummyDerivatives : Bool
  derivativeGroup : Option DerivativeGroup

/-- `emit_execution_modes_thread_wave_properties`: the declared size of the workgroup. -/
def emitExecutionModesThreadWaveProperties (model : ExecutionModel) (options : DerivativeOptions)
    (threads : Uvec3) : Option ExecutionModeMeta :=
  let total := threads 0 * threads 1 * threads 2
  if options.requireComputeShaderDerivatives then
    if model ≠ .glCompute ∧ model ≠ .taskEXT ∧ model ≠ .meshEXT then none
    else if total % 4 = 0 then
      let derivatives2d := threads 0 % 2 = 0 ∧ threads 1 % 2 = 0
      let group := if options.computeShaderDerivatives then
        some (if derivatives2d ∧ options.computeShaderDerivativesQuad then DerivativeGroup.quads
          else .linear) else none
      if ¬ options.computeShaderDerivativesQuad ∧ derivatives2d then
        some ⟨![threads 0 * 2, threads 1 / 2, threads 2], true, false, group⟩
      else some ⟨threads, false, false, group⟩
    else some ⟨threads, false, true, none⟩
  else some ⟨threads, false, false, none⟩

/-- The value of a component of a builtin in an invocation. -/
structure Builtins where
  globalInvocationId : Uvec3
  workgroupId : Uvec3
  localInvocationId : Uvec3
  localInvocationIndex : BitVec 32

/-- A load of a builtin. -/
def Builtins.load (b : Builtins) (builtin : BuiltIn) (component : Fin 3) : BitVec 32 :=
  match builtin with
  | .globalInvocationId => b.globalInvocationId component
  | .workgroupId => b.workgroupId component
  | .localInvocationId => b.localInvocationId component
  | .localInvocationIndex => b.localInvocationIndex

variable (u : Undefined 32) (emode : ExecutionModeMeta)

/-- `emit_thread_2d_quad_fixup_instruction`: `y` from `y` and the second bit of `x`. -/
def fixupY (id : Uvec3) : BitVec 32 := bitFieldUExtract u (id 0) 1 1 + id 1 * 2

/-- `emit_thread_2d_quad_fixup_instruction`: `x` without its second bit. -/
def fixupX (id : Uvec3) : BitVec 32 :=
  (id 0 &&& 1) ||| shiftLeftLogical u (shiftRightLogical u (id 0) 2) 1

/-- `emit_thread_2d_quad_fixup_instruction`. -/
def emitThread2dQuadFixupInstruction (builtin : BuiltIn) (b : Builtins) (component : Fin 3) :
    BitVec 32 :=
  let x := fixupX u b.localInvocationId
  let y := fixupY u b.localInvocationId
  match builtin with
  | .localInvocationIndex =>
    let yBase := y * (emode.workgroupThreads 0 / 2)
    let zBase := b.localInvocationId 2 * (emode.workgroupThreads 0 * emode.workgroupThreads 1)
    yBase + zBase + x
  | .localInvocationId => if component = 0 then x else y
  | .globalInvocationId | .workgroupId =>
    if component = 0 then b.workgroupId component * (emode.workgroupThreads component / 2) + x
    else b.workgroupId component * (emode.workgroupThreads component * 2) + y

/-- `emit_thread_id_load_instruction`; the flattened index is loaded with component 0. -/
def emitThreadIdLoadInstruction (builtin : BuiltIn) (b : Builtins) (component : Fin 3) :
    BitVec 32 :=
  if builtin ≠ .workgroupId ∧ emode.synthesize2dQuadDispatch = true ∧ component ≤ 1 then
    emitThread2dQuadFixupInstruction u emode builtin b component
  else if builtin = .localInvocationId ∧ emode.workgroupThreads component = 1 then 0
  else b.load builtin component

/-- An id inside a workgroup of a size. -/
def InGroup (size id : Uvec3) : Prop := ∀ i, id i < size i

/-- The position of an id on the line. -/
def linear (size id : Uvec3) : Nat :=
  (id 0).toNat + (id 1).toNat * (size 0).toNat +
    (id 2).toNat * ((size 0).toNat * (size 1).toNat)

/-- The builtins of an invocation: its workgroup, and its id in a workgroup of the declared size. -/
def builtinsOf (size group id : Uvec3) : Builtins where
  globalInvocationId i := group i * size i + id i
  workgroupId := group
  localInvocationId := id
  localInvocationIndex := BitVec.ofNat 32 (linear size id)

/-- A thread id as the shader of an invocation sees it. -/
def threadId (u : Undefined 32) (emode : ExecutionModeMeta) (builtin : BuiltIn) (group id : Uvec3) :
    Uvec3 :=
  emitThreadIdLoadInstruction u emode builtin (builtinsOf emode.workgroupThreads group id)

/-- `FlattenedThreadIdInGroup` as the shader of an invocation sees it. -/
def flattenedThreadId (u : Undefined 32) (emode : ExecutionModeMeta) (group id : Uvec3) :
    BitVec 32 :=
  emitThreadIdLoadInstruction u emode .localInvocationIndex
    (builtinsOf emode.workgroupThreads group id) 0

variable {u} {id : Uvec3}

/-- The first component of the remapped id. -/
theorem toNat_fixupX : (fixupX u id).toNat = (id 0).toNat / 4 * 2 + (id 0).toNat % 2 := by
  have hlt := (id 0).isLt
  have hright : (shiftRightLogical u (id 0) 2).toNat = (id 0).toNat / 4 := by
    rw [shiftRightLogical, if_pos (by decide), BitVec.toNat_ushiftRight, Nat.shiftRight_eq_div_pow]
    rfl
  have hleft : (shiftLeftLogical u (shiftRightLogical u (id 0) 2) 1).toNat =
      ((id 0).toNat / 4) <<< 1 := by
    rw [toNat_shiftLeftLogical (by decide) (by rw [hright]; simp; omega), hright, Nat.shiftLeft_eq]
    rfl
  have hand : (id 0 &&& 1).toNat = (id 0).toNat % 2 := by
    rw [BitVec.toNat_and]
    exact Nat.and_two_pow_sub_one_eq_mod _ 1
  rw [fixupX, BitVec.toNat_or, hleft, hand, Nat.or_comm,
    ← Nat.shiftLeft_add_eq_or_of_lt (by omega), Nat.shiftLeft_eq]

/-- The second component of the remapped id, where it fits. -/
theorem toNat_fixupY (h : (id 1).toNat * 2 + 1 < 2 ^ 32) :
    (fixupY u id).toNat = (id 1).toNat * 2 + (id 0).toNat / 2 % 2 := by
  have hbit : (bitFieldUExtract u (id 0) 1 1).toNat = (id 0).toNat / 2 % 2 :=
    toNat_bitFieldUExtract (by decide)
  rw [fixupY, BitVec.toNat_add, BitVec.toNat_mul, hbit]
  have htwo : (2 : BitVec 32).toNat = 2 := rfl
  rw [htwo]
  omega

/-- An id is read off its position on the line, digit by digit. -/
theorem line_digits {w h a b c : Nat} (ha : a < w) (hb : b < h) :
    (a + b * w + c * (w * h)) % w = a ∧ (a + b * w + c * (w * h)) / w % h = b ∧
      (a + b * w + c * (w * h)) / w / h = c := by
  have hn : a + b * w + c * (w * h) = a + w * (b + h * c) := by ring
  have hdiv : (a + w * (b + h * c)) / w = b + h * c := by
    rw [Nat.add_mul_div_left _ _ (by omega), Nat.div_eq_of_lt ha, Nat.zero_add]
  refine ⟨?_, ?_, ?_⟩
  · rw [hn, Nat.add_mul_mod_self_left, Nat.mod_eq_of_lt ha]
  · rw [hn, hdiv, Nat.add_mul_mod_self_left, Nat.mod_eq_of_lt hb]
  · rw [hn, hdiv, Nat.add_mul_div_left _ _ (by omega), Nat.div_eq_of_lt hb, Nat.zero_add]

/-- Two ids agree when their components do. -/
theorem uvec3_ext {a b : Uvec3} (h0 : (a 0).toNat = (b 0).toNat) (h1 : (a 1).toNat = (b 1).toNat)
    (h2 : (a 2).toNat = (b 2).toNat) : a = b := by
  ext i : 1
  apply BitVec.eq_of_toNat_eq
  match i with
  | 0 => exact h0
  | 1 => exact h1
  | 2 => exact h2

variable {size id' : Uvec3}

theorem inGroup_iff : InGroup size id ↔ (id 0).toNat < (size 0).toNat ∧
    (id 1).toNat < (size 1).toNat ∧ (id 2).toNat < (size 2).toNat := by
  simp only [InGroup, Fin.forall_fin_succ, BitVec.lt_def]
  simp

/-- Every position on the line is that of one id. -/
theorem linear_bijOn : Set.BijOn (linear size) {id | InGroup size id}
    {i | i < (size 0).toNat * (size 1).toNat * (size 2).toNat} := by
  refine ⟨fun id hid => ?_, fun id hid id' hid' heq => ?_, fun i hi => ?_⟩
  · obtain ⟨h0, h1, h2⟩ := inGroup_iff.mp hid
    show linear size id < _
    calc linear size id
        < (size 0).toNat + (id 1).toNat * (size 0).toNat +
            (id 2).toNat * ((size 0).toNat * (size 1).toNat) := by
          unfold linear
          omega
      _ = ((id 1).toNat + 1) * (size 0).toNat +
            (id 2).toNat * ((size 0).toNat * (size 1).toNat) := by ring
      _ ≤ (size 1).toNat * (size 0).toNat +
            (id 2).toNat * ((size 0).toNat * (size 1).toNat) := by gcongr; exact h1
      _ = ((id 2).toNat + 1) * ((size 0).toNat * (size 1).toNat) := by ring
      _ ≤ (size 2).toNat * ((size 0).toNat * (size 1).toNat) := by gcongr; exact h2
      _ = (size 0).toNat * (size 1).toNat * (size 2).toNat := by ring
  · obtain ⟨h0, h1, -⟩ := inGroup_iff.mp hid
    obtain ⟨h0', h1', -⟩ := inGroup_iff.mp hid'
    obtain ⟨hx, hy, hz⟩ := line_digits (c := (id 2).toNat) h0 h1
    obtain ⟨hx', hy', hz'⟩ := line_digits (c := (id' 2).toNat) h0' h1'
    have heq : (id 0).toNat + (id 1).toNat * (size 0).toNat +
        (id 2).toNat * ((size 0).toNat * (size 1).toNat) =
        (id' 0).toNat + (id' 1).toNat * (size 0).toNat +
        (id' 2).toNat * ((size 0).toNat * (size 1).toNat) := heq
    rw [heq] at hx hy hz
    exact uvec3_ext (hx.symm.trans hx') (hy.symm.trans hy') (hz.symm.trans hz')
  · have hi : i < (size 0).toNat * (size 1).toNat * (size 2).toNat := hi
    have hpos : 0 < (size 0).toNat * (size 1).toNat :=
      Nat.pos_of_ne_zero fun h => by simp [h] at hi
    have hw : 0 < (size 0).toNat := Nat.pos_of_mul_pos_right hpos
    have hh : 0 < (size 1).toNat := Nat.pos_of_mul_pos_left hpos
    have h0 : i % (size 0).toNat < (size 0).toNat := Nat.mod_lt _ hw
    have h1 : i / (size 0).toNat % (size 1).toNat < (size 1).toNat := Nat.mod_lt _ hh
    have h2 : i / (size 0).toNat / (size 1).toNat < (size 2).toNat := by
      rw [Nat.div_div_eq_div_mul]
      exact Nat.div_lt_of_lt_mul hi
    have hlt0 := (size 0).isLt
    have hlt1 := (size 1).isLt
    have hlt2 := (size 2).isLt
    let id : Uvec3 := ![BitVec.ofNat 32 (i % (size 0).toNat),
      BitVec.ofNat 32 (i / (size 0).toNat % (size 1).toNat),
      BitVec.ofNat 32 (i / (size 0).toNat / (size 1).toNat)]
    have hid0 : (id 0).toNat = i % (size 0).toNat :=
      (BitVec.toNat_ofNat _ _).trans (Nat.mod_eq_of_lt (by omega))
    have hid1 : (id 1).toNat = i / (size 0).toNat % (size 1).toNat :=
      (BitVec.toNat_ofNat _ _).trans (Nat.mod_eq_of_lt (by omega))
    have hid2 : (id 2).toNat = i / (size 0).toNat / (size 1).toNat :=
      (BitVec.toNat_ofNat _ _).trans (Nat.mod_eq_of_lt (by omega))
    refine ⟨id, inGroup_iff.mpr (by rw [hid0, hid1, hid2]; exact ⟨h0, h1, h2⟩), ?_⟩
    rw [linear, hid0, hid1, hid2]
    calc i % (size 0).toNat + i / (size 0).toNat % (size 1).toNat * (size 0).toNat +
          i / (size 0).toNat / (size 1).toNat * ((size 0).toNat * (size 1).toNat)
        = i % (size 0).toNat + (size 0).toNat * (i / (size 0).toNat % (size 1).toNat +
            (size 1).toNat * (i / (size 0).toNat / (size 1).toNat)) := by ring
      _ = i := by rw [Nat.mod_add_div, Nat.mod_add_div]

variable {emode} {threads group : Uvec3}

/-- The workgroup is declared twice as wide and half as high as the shader asks for. -/
structure Declares (emode : ExecutionModeMeta) (threads : Uvec3) : Prop where
  width_even : (threads 0).toNat % 2 = 0
  height_even : (threads 1).toNat % 2 = 0
  synthesized : emode.synthesize2dQuadDispatch = true
  width : (emode.workgroupThreads 0).toNat = (threads 0).toNat * 2
  height : (emode.workgroupThreads 1).toNat * 2 = (threads 1).toNat
  depth : emode.workgroupThreads 2 = threads 2

/-- An even width below `2 ^ 31` and an even height are declared for quads. -/
theorem emitExecutionModes_declares {model : ExecutionModel} {options : DerivativeOptions}
    (hmodel : model = .glCompute ∨ model = .taskEXT ∨ model = .meshEXT)
    (hrequire : options.requireComputeShaderDerivatives = true)
    (hquad : options.computeShaderDerivativesQuad = false)
    (hwidth : (threads 0).toNat % 2 = 0) (hheight : (threads 1).toNat % 2 = 0)
    (hlt : (threads 0).toNat < 2 ^ 31) :
    ∃ emode, emitExecutionModesThreadWaveProperties model options threads = some emode ∧
      Declares emode threads := by
  have hthreads : ¬ (model ≠ .glCompute ∧ model ≠ .taskEXT ∧ model ≠ .meshEXT) := by
    rcases hmodel with rfl | rfl | rfl <;> simp
  have htotal : threads 0 * threads 1 * threads 2 % 4 = 0 := by
    apply BitVec.eq_of_toNat_eq
    obtain ⟨a, ha⟩ := Nat.dvd_of_mod_eq_zero hwidth
    obtain ⟨b, hb⟩ := Nat.dvd_of_mod_eq_zero hheight
    have hfour : 4 ∣ (threads 0).toNat * (threads 1).toNat * (threads 2).toNat :=
      ⟨a * b * (threads 2).toNat, by rw [ha, hb]; ring⟩
    rw [BitVec.toNat_umod, BitVec.toNat_mul, BitVec.toNat_mul, Nat.mod_mul_mod]
    show _ % 2 ^ 32 % 4 = 0
    rw [Nat.mod_mod_of_dvd _ (by decide)]
    exact Nat.mod_eq_zero_of_dvd hfour
  have hwidth' : threads 0 % 2 = 0 := BitVec.eq_of_toNat_eq hwidth
  have hheight' : threads 1 % 2 = 0 := BitVec.eq_of_toNat_eq hheight
  refine ⟨_, by
    unfold emitExecutionModesThreadWaveProperties
    simp only [hrequire, if_true]
    rw [if_neg hthreads, if_pos htotal, if_pos ⟨by simp [hquad], hwidth', hheight'⟩], ?_⟩
  refine ⟨hwidth, hheight, rfl, ?_, ?_, rfl⟩
  · show (threads 0 * 2).toNat = _
    rw [BitVec.toNat_mul]
    exact Nat.mod_eq_of_lt (by show (threads 0).toNat * 2 < 2 ^ 32; omega)
  · show (threads 1 / 2).toNat * 2 = _
    rw [BitVec.toNat_udiv]
    show (threads 1).toNat / 2 * 2 = _
    omega

/-- The three components of `ThreadIdInGroup`. -/
theorem toNat_threadId (u : Undefined 32) (group : Uvec3) (h : Declares emode threads)
    (hid : InGroup emode.workgroupThreads id) :
    (threadId u emode .localInvocationId group id 0).toNat =
        (id 0).toNat / 4 * 2 + (id 0).toNat % 2 ∧
      (threadId u emode .localInvocationId group id 1).toNat =
        (id 1).toNat * 2 + (id 0).toNat / 2 % 2 ∧
      threadId u emode .localInvocationId group id 2 = id 2 := by
  obtain ⟨-, h1, h2⟩ := inGroup_iff.mp hid
  have hheight := h.height
  have hlt := (threads 1).isLt
  have hsynthesized : BuiltIn.localInvocationId ≠ .workgroupId ∧
      emode.synthesize2dQuadDispatch = true := ⟨by decide, h.synthesized⟩
  refine ⟨?_, ?_, ?_⟩
  · unfold threadId emitThreadIdLoadInstruction
    rw [if_pos ⟨hsynthesized.1, hsynthesized.2, by decide⟩]
    exact toNat_fixupX
  · unfold threadId emitThreadIdLoadInstruction
    rw [if_pos ⟨hsynthesized.1, hsynthesized.2, by decide⟩]
    have hfits : (id 1).toNat * 2 + 1 < 2 ^ 32 := by omega
    exact toNat_fixupY hfits
  · unfold threadId emitThreadIdLoadInstruction
    rw [if_neg fun hc => absurd hc.2.2 (by decide)]
    split
    · rename_i hone
      apply BitVec.eq_of_toNat_eq
      have hone : (emode.workgroupThreads 2).toNat = 1 := by rw [hone.2]; rfl
      show 0 = (id 2).toNat
      omega
    · rfl

/-- The remap hits every id of the original group once. -/
theorem threadId_bijOn (h : Declares emode threads) :
    Set.BijOn (threadId u emode .localInvocationId group)
      {id | InGroup emode.workgroupThreads id} {id | InGroup threads id} := by
  have hwidth := h.width
  have hheight := h.height
  have hevenW := h.width_even
  have hdepth : (emode.workgroupThreads 2).toNat = (threads 2).toNat := by rw [h.depth]
  refine ⟨fun id hid => ?_, fun id hid id' hid' heq => ?_, fun t ht => ?_⟩
  · obtain ⟨h0, h1, h2⟩ := inGroup_iff.mp hid
    obtain ⟨hx, hy, hz⟩ := toNat_threadId u group h hid
    refine inGroup_iff.mpr ⟨?_, ?_, ?_⟩
    · rw [hx]
      omega
    · rw [hy]
      omega
    · rw [hz]
      omega
  · obtain ⟨hx, hy, hz⟩ := toNat_threadId u group h hid
    obtain ⟨hx', hy', hz'⟩ := toNat_threadId u group h hid'
    have hz'' : id 2 = id' 2 := by rw [← hz, ← hz', heq]
    rw [heq] at hx hy
    exact uvec3_ext (by omega) (by omega) (by rw [hz''])
  · obtain ⟨h0, h1, h2⟩ := inGroup_iff.mp ht
    have hlt := (emode.workgroupThreads 0).isLt
    let id :
      Uvec3 := ![BitVec.ofNat 32 ((t 0).toNat / 2 * 4 + (t 1).toNat % 2 * 2 + (t 0).toNat % 2),
      BitVec.ofNat 32 ((t 1).toNat / 2), t 2]
    have hid0 : (id 0).toNat = (t 0).toNat / 2 * 4 + (t 1).toNat % 2 * 2 + (t 0).toNat % 2 :=
      (BitVec.toNat_ofNat _ _).trans (Nat.mod_eq_of_lt (by omega))
    have hid1 : (id 1).toNat = (t 1).toNat / 2 :=
      (BitVec.toNat_ofNat _ _).trans (Nat.mod_eq_of_lt (by have := (t 1).isLt; omega))
    have hid2 : (id 2).toNat = (t 2).toNat := rfl
    have hid : InGroup emode.workgroupThreads id := by
      refine inGroup_iff.mpr ⟨?_, ?_, ?_⟩
      · rw [hid0]
        omega
      · rw [hid1]
        omega
      · rw [hid2]
        omega
    obtain ⟨hx, hy, hz⟩ := toNat_threadId u group h hid
    refine ⟨id, hid, uvec3_ext ?_ ?_ (by rw [hz, hid2])⟩
    · rw [hx, hid0]
      omega
    · rw [hy, hid0, hid1]
      omega

/-- The declared size stands for the original one in the constants of the shader. -/
theorem declared_constants (h : Declares emode threads) :
    emode.workgroupThreads 0 / 2 = threads 0 ∧ emode.workgroupThreads 1 * 2 = threads 1 ∧
      emode.workgroupThreads 0 * emode.workgroupThreads 1 = threads 0 * threads 1 := by
  have hwidth := h.width
  have hheight := h.height
  refine ⟨BitVec.eq_of_toNat_eq ?_, BitVec.eq_of_toNat_eq ?_, BitVec.eq_of_toNat_eq ?_⟩
  · rw [BitVec.toNat_udiv]
    show _ / 2 = _
    omega
  · rw [BitVec.toNat_mul]
    exact (Nat.mod_eq_of_lt (by show _ * 2 < _; have := (threads 1).isLt; omega)).trans hheight
  · rw [BitVec.toNat_mul, BitVec.toNat_mul, hwidth, ← hheight]
    congr 1
    ring

/-- `ThreadId` is the id of the group times the original size plus `ThreadIdInGroup`. -/
theorem globalThreadId_eq (h : Declares emode threads) (hid : InGroup emode.workgroupThreads id)
    (i : Fin 3) : threadId u emode .globalInvocationId group id i =
      group i * threads i + threadId u emode .localInvocationId group id i := by
  obtain ⟨hwidth, hheight, -⟩ := declared_constants h
  have hsynthesized := h.synthesized
  match i with
  | 0 =>
    unfold threadId emitThreadIdLoadInstruction
    rw [if_pos ⟨by decide, hsynthesized, by decide⟩, if_pos ⟨by decide, hsynthesized, by decide⟩,
      ← hwidth]
    rfl
  | 1 =>
    unfold threadId emitThreadIdLoadInstruction
    rw [if_pos ⟨by decide, hsynthesized, by decide⟩, if_pos ⟨by decide, hsynthesized, by decide⟩,
      ← hheight]
    rfl
  | 2 =>
    rw [(toNat_threadId u group h hid).2.2]
    unfold threadId emitThreadIdLoadInstruction
    rw [if_neg fun hc => absurd hc.2.2 (by decide), if_neg fun hc => absurd hc.1 (by decide),
      ← h.depth]
    rfl

/-- `FlattenedThreadIdInGroup` is the position of `ThreadIdInGroup` in the original group. -/
theorem flattenedThreadId_eq (h : Declares emode threads)
    (hid : InGroup emode.workgroupThreads id) :
    let t := threadId u emode .localInvocationId group id
    flattenedThreadId u emode group id =
      t 2 * (threads 0 * threads 1) + t 1 * threads 0 + t 0 := by
  obtain ⟨hwidth, -, harea⟩ := declared_constants h
  have hsynthesized := h.synthesized
  have hz := (toNat_threadId u group h hid).2.2
  have hx : threadId u emode .localInvocationId group id 0 = fixupX u id := by
    unfold threadId emitThreadIdLoadInstruction
    rw [if_pos ⟨by decide, hsynthesized, by decide⟩]
    rfl
  have hy : threadId u emode .localInvocationId group id 1 = fixupY u id := by
    unfold threadId emitThreadIdLoadInstruction
    rw [if_pos ⟨by decide, hsynthesized, by decide⟩]
    rfl
  intro t
  show flattenedThreadId u emode group id = _
  simp only [t]
  rw [hx, hy, hz, ← harea, ← hwidth]
  unfold flattenedThreadId emitThreadIdLoadInstruction
  rw [if_pos ⟨by decide, hsynthesized, by decide⟩, BitVec.add_comm (id 2 * _)]
  rfl

/-- Four neighbours on the line, from a multiple of four on, are the threads of one quad. -/
theorem quad_of_line (h : Declares emode threads) (k : Nat) :
    ∃ corner : Uvec3, (corner 0).toNat % 2 = 0 ∧ (corner 1).toNat % 2 = 0 ∧
      ∀ j < 4, ∀ id, InGroup emode.workgroupThreads id →
        linear emode.workgroupThreads id = 4 * k + j →
        threadId u emode .localInvocationId group id =
          ![corner 0 + BitVec.ofNat 32 (j % 2), corner 1 + BitVec.ofNat 32 (j / 2), corner 2] := by
  have hwidth := h.width
  have heven := h.width_even
  obtain ⟨m, hm⟩ : ∃ m, (emode.workgroupThreads 0).toNat = 4 * m :=
    ⟨(threads 0).toNat / 2, by omega⟩
  let row := k / m % (emode.workgroupThreads 1).toNat
  let layer := k / m / (emode.workgroupThreads 1).toNat
  have hcorner : ∀ n : Nat, (BitVec.ofNat 32 (n * 2)).toNat % 2 = 0 := fun n => by
    rw [BitVec.toNat_ofNat]
    omega
  refine ⟨![BitVec.ofNat 32 (k % m * 2), BitVec.ofNat 32 (row * 2), BitVec.ofNat 32 layer],
    hcorner _, hcorner _, fun j hj id hid hline => ?_⟩
  obtain ⟨h0, h1, h2⟩ := inGroup_iff.mp hid
  obtain ⟨hx, hy, hz⟩ := line_digits (c := (id 2).toNat) h0 h1
  have hline : (id 0).toNat + (id 1).toNat * (emode.workgroupThreads 0).toNat +
      (id 2).toNat * ((emode.workgroupThreads 0).toNat * (emode.workgroupThreads 1).toNat) =
      4 * k + j := hline
  -- A row holds whole groups of four, so the place in the group is in the first digit alone.
  have hquad : (4 * k + j) / 4 = k := by omega
  have hmod : (4 * k + j) % (4 * m) = j + 4 * (k % m) := by
    rw [Nat.mod_mul, hquad]
    omega
  have hdiv : (4 * k + j) / (4 * m) = k / m := by rw [← Nat.div_div_eq_div_mul, hquad]
  rw [hline, hm] at hx hy hz
  rw [hmod] at hx
  rw [hdiv] at hy hz
  obtain ⟨hx', hy', hz'⟩ := toNat_threadId u group h hid
  have hlt0 := (threadId u emode .localInvocationId group id 0).isLt
  have hlt1 := (threadId u emode .localInvocationId group id 1).isLt
  have hcolumn : (id 0).toNat / 4 * 2 + (id 0).toNat % 2 = k % m * 2 + j % 2 := by
    clear hx' hy' hz' hlt0 hlt1 hline hquad hmod hdiv
    omega
  have hhalf : (id 0).toNat / 2 % 2 = j / 2 := by
    clear hx' hy' hz' hlt0 hlt1 hline hquad hmod hdiv hcolumn
    omega
  rw [hcolumn] at hx'
  rw [hhalf, ← hy, Nat.mul_comm] at hy'
  refine uvec3_ext ?_ ?_ ?_
  · show _ = (BitVec.ofNat 32 (k % m * 2) + BitVec.ofNat 32 (j % 2)).toNat
    rw [← BitVec.ofNat_add, BitVec.toNat_ofNat, Nat.mod_eq_of_lt (hx' ▸ hlt0)]
    exact hx'
  · show _ = (BitVec.ofNat 32 (row * 2) + BitVec.ofNat 32 (j / 2)).toNat
    rw [← BitVec.ofNat_add, BitVec.toNat_ofNat, Nat.mul_comm row, Nat.mod_eq_of_lt (hy' ▸ hlt1)]
    exact hy'
  · show _ = (BitVec.ofNat 32 layer).toNat
    rw [BitVec.toNat_ofNat, hz', Nat.mod_eq_of_lt (by have := (id 2).isLt; omega)]
    exact hz.symm

/-- The thread ids of a quad dispatch are those of the workgroup the shader asks for. -/
structure RemapsQuads (u : Undefined 32) (emode : ExecutionModeMeta) (threads : Uvec3) : Prop where
  /-- `ThreadIdInGroup` hits every id of the original group once. -/
  bijective : ∀ group, Set.BijOn (threadId u emode .localInvocationId group)
    {id | InGroup emode.workgroupThreads id} {id | InGroup threads id}
  /-- `ThreadId` is made of the group and of `ThreadIdInGroup`. -/
  global : ∀ group id, InGroup emode.workgroupThreads id → ∀ i,
    threadId u emode .globalInvocationId group id i =
      group i * threads i + threadId u emode .localInvocationId group id i
  /-- `FlattenedThreadIdInGroup` is the position of `ThreadIdInGroup`. -/
  flattened : ∀ group id, InGroup emode.workgroupThreads id →
    let t := threadId u emode .localInvocationId group id
    flattenedThreadId u emode group id =
      t 2 * (threads 0 * threads 1) + t 1 * threads 0 + t 0
  /-- Every position on the line is that of one invocation. -/
  line : Set.BijOn (linear emode.workgroupThreads) {id | InGroup emode.workgroupThreads id}
    {i | i < (emode.workgroupThreads 0).toNat * (emode.workgroupThreads 1).toNat *
      (emode.workgroupThreads 2).toNat}
  /-- Four neighbours on the line are one quad, in the order of its rows. -/
  quads : ∀ group k, ∃ corner : Uvec3, (corner 0).toNat % 2 = 0 ∧ (corner 1).toNat % 2 = 0 ∧
    ∀ j < 4, ∀ id, InGroup emode.workgroupThreads id →
      linear emode.workgroupThreads id = 4 * k + j →
      threadId u emode .localInvocationId group id =
        ![corner 0 + BitVec.ofNat 32 (j % 2), corner 1 + BitVec.ofNat 32 (j / 2), corner 2]

/-- The remap is right for every even width below `2 ^ 31` and every even height. -/
theorem emitExecutionModes_remapsQuads (u : Undefined 32) {model : ExecutionModel}
    {options : DerivativeOptions} {threads : Uvec3}
    (hmodel : model = .glCompute ∨ model = .taskEXT ∨ model = .meshEXT)
    (hrequire : options.requireComputeShaderDerivatives = true)
    (hquad : options.computeShaderDerivativesQuad = false)
    (hwidth : (threads 0).toNat % 2 = 0) (hheight : (threads 1).toNat % 2 = 0)
    (hlt : (threads 0).toNat < 2 ^ 31) :
    ∃ emode, emitExecutionModesThreadWaveProperties model options threads = some emode ∧
      emode.synthesize2dQuadDispatch = true ∧ RemapsQuads u emode threads := by
  obtain ⟨emode, hemit, h⟩ :=
    emitExecutionModes_declares hmodel hrequire hquad hwidth hheight hlt
  exact ⟨emode, hemit, h.synthesized, fun _ => threadId_bijOn h,
    fun _ _ hid i => globalThreadId_eq h hid i, fun _ _ hid => flattenedThreadId_eq h hid,
    linear_bijOn, fun _ k => quad_of_line h k⟩

/-- A group of six by ten by three threads. -/
theorem emitExecutionModes_remapsQuads_6_10_3 :
    ∃ emode, emitExecutionModesThreadWaveProperties .glCompute ⟨false, false, true⟩ ![6, 10, 3] =
        some emode ∧ emode.synthesize2dQuadDispatch = true ∧
      RemapsQuads ⟨fun _ _ => 0, fun _ _ _ => 0, fun _ => 0, fun _ => 0⟩ emode ![6, 10, 3] :=
  emitExecutionModes_remapsQuads _ (Or.inl rfl) rfl rfl (by decide) (by decide) (by decide)

/-- Twice a width of `2 ^ 31` is no width at all. -/
theorem not_remapsQuads :
    ¬ ∀ threads : Uvec3, (threads 0).toNat % 2 = 0 → (threads 1).toNat % 2 = 0 →
      ∀ emode, emitExecutionModesThreadWaveProperties .glCompute ⟨false, false, true⟩ threads =
        some emode →
      RemapsQuads ⟨fun _ _ => 0, fun _ _ _ => 0, fun _ => 0, fun _ => 0⟩ emode threads := by
  intro h
  have hremaps := h ![0x80000000, 2, 1] (by decide) (by decide)
    ⟨![0, 1, 1], true, false, none⟩ rfl
  obtain ⟨id, hid, -⟩ := (hremaps.bijective fun _ => 0).surjOn
    (show (fun _ => 0 : Uvec3) ∈ {id | InGroup ![0x80000000, 2, 1] id} from
      inGroup_iff.mpr (by decide))
  have hlt : (id 0).toNat < 0 := (inGroup_iff.mp hid).1
  omega

end DxilSpirv.Wave
