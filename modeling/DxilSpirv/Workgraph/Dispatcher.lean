import DxilSpirv.Spirv.IndexSpace
import Mathlib

/-!
# The amplified dispatcher of a broadcasting node

The code that the dispatcher emits, as the values it computes in one invocation. The index space
of the node is either packed into bit fields of the sizes found in the record, or split by the
sides given as specialisation constants; every Z workgroup strides over it.
-/

namespace DxilSpirv

open Spirv

/-- A machine word of the shader. -/
abbrev Word := BitVec 32

/-- `uvec3`. -/
abbrev Uvec3 := Fin 3 → Word

/-- One invocation of a launch, up to the Z workgroup it belongs to. -/
structure Launch where
  /-- `gl_NumWorkGroups.z`. -/
  numWorkgroupsZ : Word
  /-- The thread group size of the node, from its specialisation constants. -/
  threadGroupSize : Uvec3
  localInvocationId : Uvec3
  numWorkgroupsZ_pos : 0 < numWorkgroupsZ.toNat
  threadGroupSize_le : ∀ i, (threadGroupSize i).toNat ≤ 1024
  localInvocationId_lt : ∀ i, (localInvocationId i).toNat < (threadGroupSize i).toNat

/-- The grid vector loaded from the record, of either component type. -/
inductive LoadedGrid
  | u16 (sides : Fin 3 → BitVec 16)
  | u32 (sides : Fin 3 → BitVec 32)

/-- `target_dispatch_grid`: a vector of halves is converted first. -/
def LoadedGrid.target : LoadedGrid → Uvec3
  | .u16 sides => fun i => (sides i).setWidth 32
  | .u32 sides => sides

/-- Where the dispatcher finds the grid. -/
inductive Grid
  /-- `dispatch_grid.count` sides of the record, of which the last has index `last`. -/
  | record (last : Fin 3) (loaded : LoadedGrid)
  /-- `max_broadcast_grid_id`. -/
  | specConstant (maxBroadcastGrid : Uvec3)

namespace Grid

/-- The sides of the grid, one where the record declares none. -/
def side : Grid → Uvec3
  | record last loaded => fun i => if i ≤ last then loaded.target i else 1
  | specConstant maxBroadcastGrid => maxBroadcastGrid

/-- The workgroups of the grid. -/
def Contains (g : Grid) (workgroupId : Uvec3) : Prop :=
  ∀ i, (workgroupId i).toNat < (g.side i).toNat

instance (g : Grid) (workgroupId : Uvec3) : Decidable (g.Contains workgroupId) :=
  inferInstanceAs (Decidable (∀ i, (workgroupId i).toNat < (g.side i).toNat))

/-- The limits on the sides of a dispatch grid and on their product. -/
structure Admissible (g : Grid) : Prop where
  side_le : ∀ i, (g.side i).toNat ≤ 65535
  product_lt : (g.side 0).toNat * (g.side 1).toNat * (g.side 2).toNat < 2 ^ 24

end Grid

variable (u : Undefined 32) (last : Fin 3) (target : Uvec3)

/-- The number of bits that hold every value up to `countMinus1`. -/
def emitDispatchBitCount (countMinus1 : Word) : Word := findUMsb countMinus1 + 1

/-- `dimension_is_trivial`. -/
def dimensionIsTrivial (i : Fin 3) : Bool := decide (last < i)

/-- `target_dispatch_grid_minus_1`. -/
def targetDispatchGridMinus1 (i : Fin 3) : Word :=
  if dimensionIsTrivial last i then 0 else target i - 1

/-- `workgroup_bit_count`. -/
def workgroupBitCount (i : Fin 3) : Word :=
  if dimensionIsTrivial last i then 0
  else emitDispatchBitCount (targetDispatchGridMinus1 last target i)

/-- `workgroup_bit_offset`. -/
def workgroupBitOffset : Uvec3 :=
  ![0, workgroupBitCount last target 0,
    workgroupBitCount last target 0 + workgroupBitCount last target 1]

/-- A side of zero leaves minus one as its largest coordinate. -/
def isAnyZero : Bool :=
  (List.finRange 3).any fun i =>
    !dimensionIsTrivial last i && sLessThan (targetDispatchGridMinus1 last target i) 0

/-- `target_amplification_rate_id`: the last side above the fields of the others. -/
def packedAmplificationRate : Word :=
  if isAnyZero last target then 0
  else shiftLeftLogical u (target last) (workgroupBitOffset last target last)

/-- The coordinates extracted from an amplification index. -/
def packedWorkgroupElems (amp : Word) (i : Fin 3) : Word :=
  if dimensionIsTrivial last i then 0
  else bitFieldUExtract u amp (workgroupBitOffset last target i) (workgroupBitCount last target i)

variable (maxBroadcastGrid : Uvec3)

/-- The product of the sides. -/
def specAmplificationRate : Word :=
  maxBroadcastGrid 0 * maxBroadcastGrid 1 * maxBroadcastGrid 2

/-- The coordinates split off an amplification index by division. -/
def specWorkgroupElems (amp : Word) : Uvec3 :=
  ![uMod u amp (maxBroadcastGrid 0),
    uMod u (uDiv u amp (maxBroadcastGrid 0)) (maxBroadcastGrid 1),
    uDiv u (uDiv u amp (maxBroadcastGrid 0)) (maxBroadcastGrid 1)]

/-- A call of the node's main function, with the builtins it reads. -/
structure Call where
  workgroupId : Uvec3
  globalInvocationId : Uvec3

/-- One turn of the dispatcher's loop and the call it makes, if any. -/
structure Iteration where
  amplificationIndex : Word
  call : Option Call

variable (l : Launch) (g : Grid)

/-- The bound of the loop. -/
def amplificationRate : Word :=
  match g with
  | .record last loaded => packedAmplificationRate u last loaded.target
  | .specConstant maxBroadcastGrid => specAmplificationRate maxBroadcastGrid

/-- `workgroup_elems`. -/
def workgroupElems (amp : Word) : Uvec3 :=
  match g with
  | .record last loaded => packedWorkgroupElems u last loaded.target amp
  | .specConstant maxBroadcastGrid => specWorkgroupElems u maxBroadcastGrid amp

/-- Indices of the packed space outside the grid are masked; the split space has none. -/
def isCalled (workgroupId : Uvec3) : Bool :=
  match g with
  | .record last loaded => (List.finRange 3).all fun i =>
      uLessThanEqual (workgroupId i) (targetDispatchGridMinus1 last loaded.target i)
  | .specConstant _ => true

/-- `loop-body` and `caller`. -/
def loopBody (amp : Word) : Iteration :=
  let workgroupId := workgroupElems u g amp
  let globalInvocationId := fun i => l.threadGroupSize i * workgroupId i + l.localInvocationId i
  ⟨amp, if isCalled g workgroupId then some ⟨workgroupId, globalInvocationId⟩ else none⟩

/-- The path of one invocation in the Z workgroup `workgroupIdZ`. -/
def dispatcherPathBroadcastAmplified (fuel : Nat) (workgroupIdZ : Word) :
    Option (List Iteration) :=
  forLoop (uLessThan · (amplificationRate u g)) (loopBody u l g) (· + l.numWorkgroupsZ) fuel
    workgroupIdZ

/-- The runs of all Z workgroups make the calls that the grid asks for. -/
structure CoversGrid (runs : Nat → List Iteration) : Prop where
  /-- Every loop ends, once it has fuel for the whole index space. -/
  runs_eq : ∀ z < l.numWorkgroupsZ.toNat, ∀ fuel > (amplificationRate u g).toNat,
    dispatcherPathBroadcastAmplified u l g fuel (BitVec.ofNat 32 z) = some (runs z)
  /-- No workgroup of the grid is called twice. -/
  nodup : (((List.range l.numWorkgroupsZ.toNat).flatMap runs).filterMap fun it =>
    it.call.map (·.workgroupId)).Nodup
  /-- The workgroups of the grid are called, and no other. -/
  mem_iff : ∀ w, w ∈ (((List.range l.numWorkgroupsZ.toNat).flatMap runs).filterMap fun it =>
    it.call.map (·.workgroupId)) ↔ g.Contains w
  /-- The next index of a turn does not wrap. -/
  step_lt : ∀ z < l.numWorkgroupsZ.toNat, ∀ it ∈ runs z,
    it.amplificationIndex.toNat + l.numWorkgroupsZ.toNat < 2 ^ 32
  /-- The global invocation does not wrap either. -/
  globalInvocationId_eq : ∀ z < l.numWorkgroupsZ.toNat, ∀ it ∈ runs z, ∀ c ∈ it.call, ∀ i,
    (c.globalInvocationId i).toNat =
      (l.threadGroupSize i).toNat * (c.workgroupId i).toNat + (l.localInvocationId i).toNat

variable {d : Fin 3 → Nat}

/-- A field has room for every coordinate below the side. -/
theorem le_two_pow_size (n : Nat) : n ≤ 2 ^ (n - 1).size := by
  have h := Nat.lt_size_self (n - 1)
  omega

/-- A field has less than twice the values it needs. -/
theorem two_pow_size_lt {n : Nat} (hn : 0 < n) : 2 ^ (n - 1).size < 2 * n := by
  by_cases h1 : n = 1
  · subst h1
    decide
  · have hpos : 0 < (n - 1).size := Nat.lt_size.mpr (by omega)
    have hle : 2 ^ ((n - 1).size - 1) ≤ n - 1 := Nat.lt_size.mp (by omega)
    have hpow : 2 ^ (n - 1).size = 2 ^ ((n - 1).size - 1) * 2 := by
      rw [← pow_succ, Nat.sub_add_cancel hpos]
    omega

/-- The fields of an admissible grid fit in a word together. -/
theorem fields_lt (hpos : ∀ i, 0 < d i) (hprod : d 0 * d 1 * d 2 < 2 ^ 24) :
    (d 0 - 1).size + (d 1 - 1).size + (d 2 - 1).size < 27 := by
  have h0 := two_pow_size_lt (hpos 0)
  have h1 := two_pow_size_lt (hpos 1)
  have h2 := two_pow_size_lt (hpos 2)
  apply (Nat.pow_lt_pow_iff_right (show 1 < 2 by decide)).mp
  calc 2 ^ ((d 0 - 1).size + (d 1 - 1).size + (d 2 - 1).size)
      = 2 ^ (d 0 - 1).size * 2 ^ (d 1 - 1).size * 2 ^ (d 2 - 1).size := by rw [pow_add, pow_add]
    _ ≤ 2 * d 0 * (2 * d 1) * (2 * d 2) :=
      Nat.mul_le_mul (Nat.mul_le_mul h0.le h1.le) h2.le
    _ = 8 * (d 0 * d 1 * d 2) := by ring
    _ < 2 ^ 27 := by omega

variable {u last} {loaded : LoadedGrid}

/-- The number of bits of the field of a coordinate. -/
def fieldSize (g : Grid) (i : Fin 3) : Nat := ((g.side i).toNat - 1).size

/-- The bits below the field of a coordinate. -/
def fieldOffset (g : Grid) : Fin 3 → Nat := ![0, fieldSize g 0, fieldSize g 0 + fieldSize g 1]

/-- Every field ends within the fields together. -/
theorem fieldOffset_add_fieldSize_le (g : Grid) (i : Fin 3) :
    fieldOffset g i + fieldSize g i ≤ fieldSize g 0 + fieldSize g 1 + fieldSize g 2 := by
  fin_cases i <;> simp [fieldOffset, Nat.add_assoc]

theorem side_of_le {i : Fin 3} (h : i ≤ last) :
    (Grid.record last loaded).side i = loaded.target i := if_pos h

theorem side_of_trivial {i : Fin 3} (h : last < i) : (Grid.record last loaded).side i = 1 :=
  if_neg (not_le.mpr h)

theorem dimensionIsTrivial_of_le {i : Fin 3} (h : i ≤ last) : dimensionIsTrivial last i = false :=
  decide_eq_false (not_lt.mpr h)

theorem dimensionIsTrivial_of_lt {i : Fin 3} (h : last < i) : dimensionIsTrivial last i = true :=
  decide_eq_true h

/-- The largest coordinate, in every dimension. -/
theorem toNat_gridMinus1 {i : Fin 3} (hpos : 0 < ((Grid.record last loaded).side i).toNat) :
    (targetDispatchGridMinus1 last loaded.target i).toNat =
      ((Grid.record last loaded).side i).toNat - 1 := by
  by_cases h : i ≤ last
  · rw [side_of_le h] at hpos ⊢
    have hle : (1 : Word) ≤ loaded.target i := BitVec.le_def.mpr hpos
    rw [targetDispatchGridMinus1, dimensionIsTrivial_of_le h, if_neg Bool.false_ne_true,
      BitVec.toNat_sub_of_le hle]
    rfl
  · rw [targetDispatchGridMinus1, dimensionIsTrivial_of_lt (not_le.mp h), if_pos rfl,
      side_of_trivial (not_le.mp h)]
    rfl

/-- The bits of a field, which a dimension that is not declared does not have. -/
theorem toNat_workgroupBitCount {i : Fin 3}
    (hpos : 0 < ((Grid.record last loaded).side i).toNat) :
    (workgroupBitCount last loaded.target i).toNat = fieldSize (.record last loaded) i := by
  by_cases h : i ≤ last
  · rw [workgroupBitCount, dimensionIsTrivial_of_le h, if_neg Bool.false_ne_true,
      emitDispatchBitCount, toNat_findUMsb_add_one (by decide), toNat_gridMinus1 hpos, fieldSize]
  · rw [workgroupBitCount, dimensionIsTrivial_of_lt (not_le.mp h), if_pos rfl, fieldSize,
      side_of_trivial (not_le.mp h)]
    rfl

/-- A side of zero empties the index space. -/
theorem packedAmplificationRate_of_zero {i : Fin 3} (h : i ≤ last)
    (hzero : (loaded.target i).toNat = 0) :
    packedAmplificationRate u last loaded.target = 0 := by
  have hneg : sLessThan (targetDispatchGridMinus1 last loaded.target i) 0 = true := by
    have h0 : loaded.target i = 0 := BitVec.eq_of_toNat_eq hzero
    rw [targetDispatchGridMinus1, dimensionIsTrivial_of_le h, if_neg Bool.false_ne_true, h0]
    decide
  rw [packedAmplificationRate, if_pos]
  apply List.any_eq_true.mpr
  exact ⟨i, List.mem_finRange i, by rw [dimensionIsTrivial_of_le h, hneg]; rfl⟩

section Positive

variable (hg : (Grid.record last loaded).Admissible)
  (hpos : ∀ i, 0 < ((Grid.record last loaded).side i).toNat)

include hg hpos

theorem fieldSize_lt : fieldSize (.record last loaded) 0 + fieldSize (.record last loaded) 1 +
    fieldSize (.record last loaded) 2 < 27 :=
  fields_lt (d := fun i => ((Grid.record last loaded).side i).toNat) hpos hg.product_lt

/-- The fields follow one another. -/
theorem toNat_workgroupBitOffset (i : Fin 3) :
    (workgroupBitOffset last loaded.target i).toNat = fieldOffset (.record last loaded) i := by
  have hlt := fieldSize_lt hg hpos
  fin_cases i
  · rfl
  · exact toNat_workgroupBitCount (hpos 0)
  · change (workgroupBitCount last loaded.target 0 + workgroupBitCount last loaded.target 1).toNat =
      fieldSize (.record last loaded) 0 + fieldSize (.record last loaded) 1
    rw [BitVec.toNat_add, toNat_workgroupBitCount (hpos 0), toNat_workgroupBitCount (hpos 1),
      Nat.mod_eq_of_lt (by omega)]

theorem isAnyZero_eq_false : isAnyZero last loaded.target = false := by
  apply List.any_eq_false.mpr
  intro i _
  have hminus := toNat_gridMinus1 (hpos i)
  have hle := hg.side_le i
  have hneg : sLessThan (targetDispatchGridMinus1 last loaded.target i) 0 = false := by
    rw [← Bool.not_eq_true, sLessThan_zero_iff, hminus]
    omega
  rw [hneg, Bool.and_false]
  exact Bool.false_ne_true

/-- The bound of the loop is the last side, shifted above the fields below it. -/
theorem toNat_packedAmplificationRate :
    (packedAmplificationRate u last loaded.target).toNat =
      ((Grid.record last loaded).side last).toNat * 2 ^ fieldOffset (.record last loaded) last := by
  have hlt := fieldSize_lt hg hpos
  have hle := fieldOffset_add_fieldSize_le (.record last loaded) last
  have hoff := toNat_workgroupBitOffset hg hpos last
  have hfit : ((Grid.record last loaded).side last).toNat *
      2 ^ fieldOffset (.record last loaded) last < 2 ^ 32 := by
    calc ((Grid.record last loaded).side last).toNat * 2 ^ fieldOffset (.record last loaded) last
        ≤ 2 ^ fieldSize (.record last loaded) last * 2 ^ fieldOffset (.record last loaded) last :=
          Nat.mul_le_mul_right _ (le_two_pow_size _)
      _ = 2 ^ (fieldSize (.record last loaded) last + fieldOffset (.record last loaded) last) :=
          (pow_add ..).symm
      _ < 2 ^ 32 := Nat.pow_lt_pow_right (by decide) (by omega)
  rw [side_of_le (le_refl last)] at hfit ⊢
  rw [packedAmplificationRate, isAnyZero_eq_false hg hpos, if_neg Bool.false_ne_true,
    toNat_shiftLeftLogical (by omega) (by rw [hoff]; exact hfit), hoff]

/-- A coordinate is the field of the amplification index, also where none is extracted. -/
theorem toNat_packedWorkgroupElems (amp : Word) (i : Fin 3) :
    (packedWorkgroupElems u last loaded.target amp i).toNat =
      amp.toNat / 2 ^ fieldOffset (.record last loaded) i %
        2 ^ fieldSize (.record last loaded) i := by
  have hlt := fieldSize_lt hg hpos
  have hle := fieldOffset_add_fieldSize_le (.record last loaded) i
  have hoff := toNat_workgroupBitOffset hg hpos i
  have hbits := toNat_workgroupBitCount (hpos i)
  by_cases h : i ≤ last
  · rw [packedWorkgroupElems, dimensionIsTrivial_of_le h, if_neg Bool.false_ne_true,
      toNat_bitFieldUExtract (by omega), hoff, hbits]
  · have hsize : fieldSize (.record last loaded) i = 0 := by
      rw [fieldSize, side_of_trivial (not_le.mp h)]
      rfl
    rw [packedWorkgroupElems, dimensionIsTrivial_of_lt (not_le.mp h), if_pos rfl, hsize, pow_zero,
      Nat.mod_one]
    rfl

omit hg in
/-- Only the workgroups of the grid pass the mask. -/
theorem isCalled_record_iff (w : Uvec3) :
    isCalled (.record last loaded) w = true ↔ (Grid.record last loaded).Contains w := by
  rw [isCalled, List.all_eq_true]
  constructor
  · intro h i
    have hle := uLessThanEqual_iff.mp (h i (List.mem_finRange i))
    rw [toNat_gridMinus1 (hpos i)] at hle
    have hp := hpos i
    omega
  · intro h i _
    have hlt := h i
    rw [uLessThanEqual_iff, toNat_gridMinus1 (hpos i)]
    omega

end Positive

/-- The index of a workgroup in the packed index space. -/
def packedIndex (g : Grid) (w : Uvec3) : Nat :=
  rank (2 ^ fieldSize g 0) (2 ^ fieldSize g 1) (w 0).toNat (w 1).toNat (w 2).toNat

/-- The workgroups of the grid lie below the bound of the loop. -/
theorem packedIndex_lt (hg : (Grid.record last loaded).Admissible) {w : Uvec3}
    (hw : (Grid.record last loaded).Contains w) :
    packedIndex (.record last loaded) w < (packedAmplificationRate u last loaded.target).toNat := by
  have hpos : ∀ i, 0 < ((Grid.record last loaded).side i).toNat := fun i => by
    have := hw i
    omega
  have htrivial : ∀ i, last < i → (w i).toNat = 0 := fun i hi => by
    have := hw i
    rw [side_of_trivial hi] at this
    simpa using this
  have hfield : ∀ i, (w i).toNat < 2 ^ fieldSize (.record last loaded) i := fun i =>
    (hw i).trans_le (le_two_pow_size _)
  rw [toNat_packedAmplificationRate hg hpos]
  fin_cases last
  · have h1 := htrivial 1 (by decide)
    have h2 := htrivial 2 (by decide)
    simpa [packedIndex, rank, h1, h2, fieldOffset] using hw 0
  · have h2 := htrivial 2 (by decide)
    have hlt := rank_lt (z := (w 1).toNat) (hfield 0) (show 0 < 1 by decide) (hw 1)
    simpa [packedIndex, rank, h2, fieldOffset, Nat.mul_comm] using hlt
  · have hlt := rank_lt (hfield 0) (hfield 1) (hw 2)
    rw [← pow_add, Nat.mul_comm] at hlt
    exact hlt

/-- Below the bound of the loop the fields determine the index. -/
theorem packedAmplificationRate_le (hg : (Grid.record last loaded).Admissible)
    (hpos : ∀ i, 0 < ((Grid.record last loaded).side i).toNat) :
    (packedAmplificationRate u last loaded.target).toNat ≤
      2 ^ (fieldSize (.record last loaded) 0 + fieldSize (.record last loaded) 1) *
        2 ^ fieldSize (.record last loaded) 2 := by
  have hle := fieldOffset_add_fieldSize_le (.record last loaded) last
  rw [toNat_packedAmplificationRate hg hpos]
  calc ((Grid.record last loaded).side last).toNat * 2 ^ fieldOffset (.record last loaded) last
      ≤ 2 ^ fieldSize (.record last loaded) last * 2 ^ fieldOffset (.record last loaded) last :=
        Nat.mul_le_mul_right _ (le_two_pow_size _)
    _ = 2 ^ (fieldSize (.record last loaded) last + fieldOffset (.record last loaded) last) :=
        (pow_add ..).symm
    _ ≤ 2 ^ (fieldSize (.record last loaded) 0 + fieldSize (.record last loaded) 1 +
          fieldSize (.record last loaded) 2) := Nat.pow_le_pow_right (by decide) (by omega)
    _ = _ := pow_add ..

/-- A loop that turns at all has no side of zero. -/
theorem side_pos_of_rate_pos (h : 0 < (packedAmplificationRate u last loaded.target).toNat)
    (i : Fin 3) : 0 < ((Grid.record last loaded).side i).toNat := by
  by_cases hi : i ≤ last
  · rw [side_of_le hi]
    apply Nat.pos_of_ne_zero
    intro hzero
    rw [packedAmplificationRate_of_zero hi hzero] at h
    exact absurd h (by decide)
  · rw [side_of_trivial (not_le.mp hi)]
    decide

/-- A turn calls a workgroup of the grid exactly at its index. -/
theorem packed_calls_iff (hg : (Grid.record last loaded).Admissible) {amp : Word}
    (hamp : amp.toNat < (packedAmplificationRate u last loaded.target).toNat) (w : Uvec3) :
    isCalled (.record last loaded) (packedWorkgroupElems u last loaded.target amp) = true ∧
        packedWorkgroupElems u last loaded.target amp = w ↔
      (Grid.record last loaded).Contains w ∧ amp.toNat = packedIndex (.record last loaded) w := by
  have hpos := side_pos_of_rate_pos (Nat.zero_lt_of_lt hamp)
  have helems := toNat_packedWorkgroupElems (u := u) hg hpos amp
  have hupper : amp.toNat / 2 ^ (fieldSize (.record last loaded) 0 +
      fieldSize (.record last loaded) 1) < 2 ^ fieldSize (.record last loaded) 2 :=
    (Nat.div_lt_iff_lt_mul (Nat.two_pow_pos _)).mpr
      ((hamp.trans_le (packedAmplificationRate_le hg hpos)).trans_eq (Nat.mul_comm ..))
  have hindex : ∀ v : Uvec3, (Grid.record last loaded).Contains v →
      (amp.toNat = packedIndex (.record last loaded) v ↔
        packedWorkgroupElems u last loaded.target amp = v) := by
    intro v hv
    have hfield : ∀ i, (v i).toNat < 2 ^ fieldSize (.record last loaded) i := fun i =>
      (hv i).trans_le (le_two_pow_size _)
    have h0 := helems 0
    have h1 := helems 1
    have h2 := helems 2
    rw [show fieldOffset (.record last loaded) 0 = 0 from rfl, pow_zero, Nat.div_one] at h0
    rw [show fieldOffset (.record last loaded) 1 = fieldSize (.record last loaded) 0 from rfl] at h1
    rw [show fieldOffset (.record last loaded) 2 = fieldSize (.record last loaded) 0 +
      fieldSize (.record last loaded) 1 from rfl, Nat.mod_eq_of_lt hupper, pow_add,
      ← Nat.div_div_eq_div_mul] at h2
    rw [packedIndex, eq_rank_iff (hfield 0) (hfield 1), ← h0, ← h1, ← h2]
    constructor
    · rintro ⟨e0, e1, e2⟩
      funext i
      apply BitVec.eq_of_toNat_eq
      fin_cases i
      · exact e0
      · exact e1
      · exact e2
    · rintro rfl
      exact ⟨rfl, rfl, rfl⟩
  rw [isCalled_record_iff hpos]
  constructor
  · rintro ⟨hc, rfl⟩
    exact ⟨hc, (hindex _ hc).mpr rfl⟩
  · rintro ⟨hc, he⟩
    have hw := (hindex w hc).mp he
    exact ⟨by rw [hw]; exact hc, hw⟩

variable {sides : Uvec3}

/-- The index of a workgroup in the index space that division splits. -/
def splitIndex (sides w : Uvec3) : Nat :=
  rank (sides 0).toNat (sides 1).toNat (w 0).toNat (w 1).toNat (w 2).toNat

/-- The product of the sides does not wrap. -/
theorem toNat_specAmplificationRate (hg : (Grid.specConstant sides).Admissible) :
    (specAmplificationRate sides).toNat =
      (sides 0).toNat * (sides 1).toNat * (sides 2).toNat := by
  have hxy : (sides 0).toNat * (sides 1).toNat < 2 ^ 32 := by
    calc (sides 0).toNat * (sides 1).toNat ≤ 65535 * 65535 :=
          Nat.mul_le_mul (hg.side_le 0) (hg.side_le 1)
      _ < 2 ^ 32 := by decide
  have hxyz : (sides 0).toNat * (sides 1).toNat * (sides 2).toNat < 2 ^ 32 :=
    hg.product_lt.trans (by decide)
  rw [specAmplificationRate, BitVec.toNat_mul, BitVec.toNat_mul, Nat.mod_eq_of_lt hxy,
    Nat.mod_eq_of_lt hxyz]

/-- A turn calls a workgroup of the grid exactly at its index. -/
theorem split_calls_iff (hg : (Grid.specConstant sides).Admissible) {amp : Word}
    (hamp : amp.toNat < (specAmplificationRate sides).toNat) (w : Uvec3) :
    specWorkgroupElems u sides amp = w ↔
      (Grid.specConstant sides).Contains w ∧ amp.toNat = splitIndex sides w := by
  rw [toNat_specAmplificationRate hg] at hamp
  have hxy : 0 < (sides 0).toNat * (sides 1).toNat :=
    Nat.pos_of_mul_pos_right (Nat.zero_lt_of_lt hamp)
  have hx : 0 < (sides 0).toNat := Nat.pos_of_mul_pos_right hxy
  have hy : 0 < (sides 1).toNat := Nat.pos_of_mul_pos_left hxy
  have h0 : (specWorkgroupElems u sides amp 0).toNat = amp.toNat % (sides 0).toNat :=
    toNat_uMod hx
  have h1 : (specWorkgroupElems u sides amp 1).toNat =
      amp.toNat / (sides 0).toNat % (sides 1).toNat :=
    (toNat_uMod hy).trans (by rw [toNat_uDiv hx])
  have h2 : (specWorkgroupElems u sides amp 2).toNat =
      amp.toNat / (sides 0).toNat / (sides 1).toNat :=
    (toNat_uDiv hy).trans (by rw [toNat_uDiv hx])
  constructor
  · rintro rfl
    have hl0 : (specWorkgroupElems u sides amp 0).toNat < (sides 0).toNat := by
      rw [h0]
      exact Nat.mod_lt _ hx
    have hl1 : (specWorkgroupElems u sides amp 1).toNat < (sides 1).toNat := by
      rw [h1]
      exact Nat.mod_lt _ hy
    have hl2 : (specWorkgroupElems u sides amp 2).toNat < (sides 2).toNat := by
      rw [h2, Nat.div_div_eq_div_mul]
      exact Nat.div_lt_of_lt_mul hamp
    constructor
    · intro i
      fin_cases i
      · exact hl0
      · exact hl1
      · exact hl2
    · exact (eq_rank_iff hl0 hl1).mpr ⟨h0.symm, h1.symm, h2.symm⟩
  · rintro ⟨hc, he⟩
    obtain ⟨e0, e1, e2⟩ := (eq_rank_iff (hc 0) (hc 1)).mp he
    funext i
    apply BitVec.eq_of_toNat_eq
    fin_cases i
    · exact h0.trans e0
    · exact h1.trans e1
    · exact h2.trans e2

variable {l g}

/-- The amplification index of a workgroup. -/
def Grid.index (g : Grid) (w : Uvec3) : Nat :=
  match g with
  | .record last loaded => packedIndex (.record last loaded) w
  | .specConstant sides => splitIndex sides w

theorem index_lt (hg : g.Admissible) {w : Uvec3} (hw : g.Contains w) :
    g.index w < (amplificationRate u g).toNat := by
  cases g with
  | record last loaded => exact packedIndex_lt hg hw
  | specConstant sides =>
    rw [amplificationRate, toNat_specAmplificationRate hg]
    exact rank_lt (hw 0) (hw 1) (hw 2)

/-- Below the bound of the loop a turn calls a workgroup exactly at its index. -/
theorem calls_iff (hg : g.Admissible) {amp : Word}
    (hamp : amp.toNat < (amplificationRate u g).toNat) (w : Uvec3) :
    isCalled g (workgroupElems u g amp) = true ∧ workgroupElems u g amp = w ↔
      g.Contains w ∧ amp.toNat = g.index w := by
  cases g with
  | record last loaded => exact packed_calls_iff hg hamp w
  | specConstant sides => exact (and_iff_right rfl).trans (split_calls_iff hg hamp w)

/-- The workgroup that a turn calls. -/
theorem loopBody_workgroupId {amp : Word} {w : Uvec3} :
    (loopBody u l g amp).call.map (·.workgroupId) = some w ↔
      isCalled g (workgroupElems u g amp) = true ∧ workgroupElems u g amp = w := by
  by_cases h : isCalled g (workgroupElems u g amp) = true
  · simp [loopBody, h]
  · simp [loopBody, h]

/-- The global invocation of a call stays inside a word. -/
theorem loopBody_globalInvocationId (hg : g.Admissible) {amp : Word}
    (hamp : amp.toNat < (amplificationRate u g).toNat) {c : Call}
    (hc : (loopBody u l g amp).call = some c) (i : Fin 3) :
    (c.globalInvocationId i).toNat =
      (l.threadGroupSize i).toNat * (c.workgroupId i).toNat + (l.localInvocationId i).toNat := by
  have hcalled := loopBody_workgroupId.mp (show (loopBody u l g amp).call.map (·.workgroupId) =
    some c.workgroupId by rw [hc]; rfl)
  have hin := ((calls_iff hg hamp c.workgroupId).mp hcalled).1 i
  have hside := hg.side_le i
  have hsize := l.threadGroupSize_le i
  have hlocal := l.localInvocationId_lt i
  have hmul : (l.threadGroupSize i).toNat * (c.workgroupId i).toNat ≤ 1024 * 65535 :=
    Nat.mul_le_mul hsize (by omega)
  have hglobal : c.globalInvocationId i =
      l.threadGroupSize i * c.workgroupId i + l.localInvocationId i := by
    rw [loopBody, if_pos hcalled.1] at hc
    cases hc
    rfl
  rw [hglobal, BitVec.toNat_add, BitVec.toNat_mul, Nat.mod_eq_of_lt (show _ < 2 ^ 32 by omega),
    Nat.mod_eq_of_lt (by omega)]

/-- The Z workgroups cover an admissible grid exactly once, as long as the last turns do not
wrap around. -/
theorem dispatcher_coversGrid (u : Undefined 32) (l : Launch) (g : Grid) (hg : g.Admissible)
    (hroom : l.numWorkgroupsZ.toNat + (amplificationRate u g).toNat ≤ 2 ^ 32) :
    ∃ runs, CoversGrid u l g runs := by
  have hvisit := fun z : Nat =>
    forLoop_visited (loopBody u l g) l.numWorkgroupsZ_pos hroom (BitVec.ofNat 32 z)
  choose visits hvisited hruns using hvisit
  have hlt := l.numWorkgroupsZ.isLt
  have hnodup := nodup_flatMap_visited hlt fun z _ => hvisited z
  have hmem := mem_flatMap_visited hlt fun z _ => hvisited z
  have hbound : ∀ amp ∈ (List.range l.numWorkgroupsZ.toNat).flatMap visits,
      amp.toNat < (amplificationRate u g).toNat := fun amp h => ((hmem amp).mp h).1
  have hturn : ∀ amp w, amp.toNat < (amplificationRate u g).toNat →
      ((loopBody u l g amp).call.map (·.workgroupId) = some w ↔
        g.Contains w ∧ amp.toNat = g.index w) :=
    fun amp w hamp => loopBody_workgroupId.trans (calls_iff hg hamp w)
  have hcalls : ((List.range l.numWorkgroupsZ.toNat).flatMap fun z =>
      (visits z).map (loopBody u l g)).filterMap (fun it => it.call.map (·.workgroupId)) =
        ((List.range l.numWorkgroupsZ.toNat).flatMap visits).filterMap fun amp =>
          (loopBody u l g amp).call.map (·.workgroupId) := by
    rw [← List.map_flatMap, List.filterMap_map]
    rfl
  refine ⟨fun z => (visits z).map (loopBody u l g), ?_, ?_, ?_, ?_, ?_⟩
  · intro z hz fuel hfuel
    exact hruns z fuel (by omega)
  · rw [hcalls, List.Nodup, List.pairwise_filterMap]
    apply hnodup.imp_of_mem
    rintro amp amp' hin hin' hne w hw _ hw' rfl
    have h1 := ((hturn amp w (hbound amp hin)).mp hw).2
    have h2 := ((hturn amp' w (hbound amp' hin')).mp hw').2
    exact hne (BitVec.eq_of_toNat_eq (h1.trans h2.symm))
  · intro w
    rw [hcalls, List.mem_filterMap]
    constructor
    · rintro ⟨amp, hin, hw⟩
      exact ((hturn amp w (hbound amp hin)).mp hw).1
    · intro hw
      have hidx := index_lt (u := u) hg hw
      have hnat : (BitVec.ofNat 32 (g.index w)).toNat = g.index w := by
        rw [BitVec.toNat_ofNat, Nat.mod_eq_of_lt (by omega)]
      refine ⟨BitVec.ofNat 32 (g.index w), (hmem _).mpr ⟨by omega, l.numWorkgroupsZ_pos⟩, ?_⟩
      exact (hturn _ w (by omega)).mpr ⟨hw, hnat⟩
  · intro z hz it hit
    obtain ⟨amp, hin, rfl⟩ := List.mem_map.mp hit
    have hamp := hbound amp (List.mem_flatMap.mpr ⟨z, List.mem_range.mpr hz, hin⟩)
    change amp.toNat + l.numWorkgroupsZ.toNat < 2 ^ 32
    omega
  · intro z hz it hit c hc i
    obtain ⟨amp, hin, rfl⟩ := List.mem_map.mp hit
    have hamp := hbound amp (List.mem_flatMap.mpr ⟨z, List.mem_range.mpr hz, hin⟩)
    exact loopBody_globalInvocationId hg hamp hc i

/-- Two workgroups, named by the record. -/
def pairGrid : Grid := .record 0 (.u32 ![2, 1, 1])

/-- A single-threaded launch of `2 ^ 32 - 1` Z workgroups. -/
def widestLaunch : Launch where
  numWorkgroupsZ := BitVec.ofNat 32 (2 ^ 32 - 1)
  threadGroupSize := ![1, 1, 1]
  localInvocationId := ![0, 0, 0]
  numWorkgroupsZ_pos := by decide
  threadGroupSize_le := by decide
  localInvocationId_lt := by decide

/-- Undefined results that are all zero. -/
def zeroUndefined : Undefined 32 :=
  ⟨fun _ _ => 0, fun _ _ _ => 0, fun _ => 0, fun _ => 0⟩

/-- A stride of `2 ^ 32 - 1` goes one index down: the second Z workgroup calls the workgroup of
the first again. -/
theorem widestLaunch_not_coversGrid : pairGrid.Admissible ∧
    ¬ ∃ runs, CoversGrid zeroUndefined widestLaunch pairGrid runs := by
  constructor
  · exact ⟨by decide, by decide⟩
  · rintro ⟨runs, h⟩
    have h0 : some (runs 0) = some [loopBody zeroUndefined widestLaunch pairGrid 0] :=
      (h.runs_eq 0 (by decide) 3 (by decide)).symm.trans rfl
    have h1 : some (runs 1) = some [loopBody zeroUndefined widestLaunch pairGrid 1,
        loopBody zeroUndefined widestLaunch pairGrid 0] :=
      (h.runs_eq 1 (by decide) 3 (by decide)).symm.trans rfl
    have hcall : (loopBody zeroUndefined widestLaunch pairGrid 0).call.map (·.workgroupId) =
        some (workgroupElems zeroUndefined pairGrid 0) := rfl
    have hnodup := h.nodup
    rw [List.filterMap_flatMap, List.nodup_flatMap, List.pairwise_iff_getElem] at hnodup
    have hdisjoint := hnodup.2 0 1 (by rw [List.length_range]; decide)
      (by rw [List.length_range]; decide) (by decide)
    rw [List.getElem_range, List.getElem_range, Function.onFun, Option.some.inj h0,
      Option.some.inj h1] at hdisjoint
    apply List.disjoint_left.mp hdisjoint
      (List.mem_filterMap.mpr ⟨_, List.mem_singleton_self _, hcall⟩)
    exact List.mem_filterMap.mpr ⟨_, List.mem_cons_of_mem _ (List.mem_singleton_self _), hcall⟩

/-- A launch of four Z workgroups of eight threads each. -/
def fourWorkgroups : Launch where
  numWorkgroupsZ := 4
  threadGroupSize := ![8, 1, 1]
  localInvocationId := ![7, 0, 0]
  numWorkgroupsZ_pos := by decide
  threadGroupSize_le := by decide
  localInvocationId_lt := by decide

/-- Four Z workgroups share out a grid whose first side leaves a gap in its field. -/
theorem fourWorkgroups_coversGrid :
    ∃ runs, CoversGrid zeroUndefined fourWorkgroups (.record 2 (.u16 ![3, 1, 5])) runs :=
  dispatcher_coversGrid zeroUndefined fourWorkgroups _ ⟨by decide, by decide⟩ (by decide)

end DxilSpirv
