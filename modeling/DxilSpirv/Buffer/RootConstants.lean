import DxilSpirv.Spirv.AccessChain
import Mathlib.Algebra.Order.Ring.Nat

/-!
# Root constants

A block of root constants has the root descriptors first and the words behind them, either one
member a word or one array of all. A load of a constant buffer that is mapped into the block indexes
the words, which an index that is no constant can only do in the array.
-/

namespace DxilSpirv.Buffer

open DxilSpirv.Spirv

namespace RootConstant

/-- A 32-bit word. -/
abbrev Word := BitVec 32

/-- A block of root constants, whose offsets are 32-bit. -/
structure Block where
  descriptors : Nat
  words : Nat
  arrayed : Bool
  fits : 8 * descriptors + 4 * words ≤ 2 ^ 32

/-- `emit_root_constants`: the type of the block. -/
def Block.type (b : Block) : BlockType :=
  .struct ((List.range b.descriptors).map (fun i => (8 * i, BlockType.vector 2)) ++
    if b.arrayed then [(8 * b.descriptors, .array .uint b.words 4)]
    else (List.range b.words).map fun i => (8 * b.descriptors + 4 * i, .uint))

/-- An index that is computed from the operand of the load. -/
inductive DynamicIndex where
  | operand
  | shiftRightLogical (a : DynamicIndex) (n : Word)
  | mul (n : Word) (a : DynamicIndex)
  | add (a : DynamicIndex) (n : Word)
  | umin (a : DynamicIndex) (n : Word)
  deriving DecidableEq, Repr

/-- The value of the index for a value of the operand. -/
def DynamicIndex.eval (operand : Word) : DynamicIndex → Word
  | .operand => operand
  | shiftRightLogical a n => a.eval operand >>> n.toNat
  | mul n a => n * a.eval operand
  | add a n => a.eval operand + n
  | umin a n => if a.eval operand < n then a.eval operand else n

/-- An index: a constant, or an expression of the operand. -/
inductive Index where
  | constant (c : Word)
  | dynamic (e : DynamicIndex)
  deriving DecidableEq, Repr

/-- The index as an index of an access chain. -/
def Index.at (operand : Word) : Index → ChainIndex
  | constant c => ⟨true, c⟩
  | dynamic e => ⟨false, e.eval operand⟩

/-- A load of a constant buffer: `CBufferLoad`, a scalar at a byte, or `CBufferLoadLegacy`, a row of
four words. An index that is no constant has none. -/
structure CBufferLoad where
  scalarLoad : Bool
  constantInt : Option Word
  isInteger : Bool
  scalarAlignment : Nat
  deriving DecidableEq, Repr

/-- The index of the first word in the constant buffer. -/
def CBufferLoad.memberIndex (load : CBufferLoad) : Option Index :=
  if load.scalarLoad then
    match load.constantInt with
    | none =>
      if load.scalarAlignment ≠ 4 then none else some (.dynamic (.shiftRightLogical .operand 2))
    | some c =>
      if c % 4 ≠ 0 then none
      else if load.scalarAlignment ≠ 4 then none
      else some (.constant (c / 4))
  else
    match load.constantInt with
    | none => some (.dynamic (.mul 4 .operand))
    | some c => some (.constant (c * 4))

/-- The index of the first word among the members, or among the words of an array. A constant past
the end fails. -/
def Block.applyOffset (b : Block) (isPhysical : Bool) (indexOffset numElements : Word) :
    Index → Option Index
  | .constant c => if numElements ≤ c + indexOffset then none
      else some (.constant (c + indexOffset))
  | .dynamic e =>
    some (.dynamic (if !isPhysical && indexOffset ≠ BitVec.ofNat 32 b.descriptors then
      .add e (indexOffset - BitVec.ofNat 32 b.descriptors) else e))

/-- How many words are loaded. -/
def numWords (load : CBufferLoad) (numElements : Word) : Index → Nat
  | .constant c => min (if load.scalarLoad then 1 else 4) (numElements - c).toNat
  | .dynamic _ => min (if load.scalarLoad then 1 else 4) (2 ^ 32 - 1)

/-- The access chain to a word. -/
def Block.chain (b : Block) (isPhysical : Bool) (numElements : Word) (index : Index) (i : Word) :
    List Index :=
  let inArray := b.arrayed && !isPhysical
  (if inArray then [.constant (BitVec.ofNat 32 b.descriptors)] else []) ++
    [match index with
      | .constant c =>
        .constant (if inArray then c + i - BitVec.ofNat 32 b.descriptors else c + i)
      | .dynamic e =>
        -- robustness, an index past the end is illegal
        .dynamic (.umin (.add e i)
          (if isPhysical then numElements - 1 else BitVec.ofNat 32 b.words - 1))]

/-- Whether the words can be cast to the type of the result. -/
def CBufferLoad.canCast (load : CBufferLoad) : Bool :=
  let needBitcast := !load.isInteger || load.scalarAlignment ≠ 4
  !needBitcast || load.scalarLoad || 4 ≤ load.scalarAlignment || load.scalarAlignment = 2

/-- `emit_cbuffer_load_from_uints`: the access chain to each word of the result, where there is
one. -/
def Block.emitCbufferLoadFromUints (b : Block) (isPhysical : Bool) (indexOffset numElements : Word)
    (load : CBufferLoad) : Option (List (Option (List Index))) := do
  let index ← load.memberIndex
  let index ← b.applyOffset isPhysical indexOffset numElements index
  let elements := (List.range (if load.scalarLoad then 1 else 4)).map fun i =>
    if i < numWords load numElements index then
      some (b.chain isPhysical numElements index (BitVec.ofNat 32 i))
    else none
  if load.canCast then some elements else none

/-- `emit_cbuffer_load_root_constant`, for a constant buffer at a word offset. -/
def Block.emitCbufferLoadRootConstant (b : Block) (offsetInWords : Word) (load : CBufferLoad) :
    Option (List (Option (List Index))) :=
  b.emitCbufferLoadFromUints false (offsetInWords + BitVec.ofNat 32 b.descriptors)
    (BitVec.ofNat 32 b.words + BitVec.ofNat 32 b.descriptors) load

/-! ## The shader -/

/-- `D3DBinding`, as far as constant buffers differ in it. -/
structure D3DBinding where
  resourceIndex : Nat
  registerSpace : Nat
  registerIndex : Nat
  rangeSize : Nat
  deriving DecidableEq, Repr

/-- `VulkanCBVBinding`: root constants at a word offset, or something else. -/
structure VulkanCBVBinding where
  pushConstant : Bool
  offsetInWords : Word
  deriving DecidableEq, Repr

/-- The metadata of a constant buffer. -/
structure Cbv where
  index : Nat
  bindSpace : Nat
  bindRegister : Nat
  rangeSize : Nat
  isActive : Bool
  /-- It is in a local root signature. -/
  isLocal : Bool
  deriving DecidableEq, Repr

/-- The binding with a range size. -/
def Cbv.binding (cbv : Cbv) (rangeSize : Nat) : D3DBinding :=
  ⟨cbv.index, cbv.bindSpace, cbv.bindRegister, rangeSize⟩

/-- A handle: made for a constant buffer, or a PHI with one incoming handle. -/
inductive Handle where
  | create (cbv : Nat)
  | phi (incoming : Handle)
  deriving DecidableEq, Repr

/-- The constant buffer whose offset a handle has when loads are emitted. -/
def Handle.cbv : Handle → Nat
  | create i => i
  | phi incoming => incoming.cbv

/-- The constant buffer of a handle in `llvm_value_to_cbv_resource_index_map`. -/
def Handle.analysedCbv : Handle → Option Nat
  | create i => some i
  | phi _ => none

/-- A shader: its constant buffers, its loads of them, and the mapping of resources. -/
structure Shader where
  cbvs : List Cbv
  loads : List (Handle × CBufferLoad)
  remapCbv : D3DBinding → Option VulkanCBVBinding

namespace Shader

variable (s : Shader)

/-- `analyze_dxil_cbuffer_load`, for all loads: a constant buffer that is indexed by no constant. -/
def dynamicallyIndexedCbv (index : Nat) : Bool :=
  s.loads.any fun load => load.1.analysedCbv = some index && load.2.constantInt.isNone

/-- `require_arrayed_root_constants`. -/
def requireArrayedRootConstants : Bool :=
  s.cbvs.any fun cbv => cbv.isActive && !cbv.isLocal &&
    match s.remapCbv (cbv.binding (2 ^ 32 - 1)) with
    | none => false
    | some binding => binding.pushConstant && s.dynamicallyIndexedCbv cbv.index

/-- `emit_cbvs`: the binding of a constant buffer. An unsized range that is rejected is tried with
one descriptor. -/
def vulkanBinding (cbv : Cbv) : Option VulkanCBVBinding :=
  match s.remapCbv (cbv.binding cbv.rangeSize) with
  | some binding => some binding
  | none => if cbv.rangeSize = 2 ^ 32 - 1 then s.remapCbv (cbv.binding 1) else none

/-- The block of root constants that is declared. -/
def block (descriptors words : Nat) (fits : 8 * descriptors + 4 * words ≤ 2 ^ 32) : Block :=
  ⟨descriptors, words, s.requireArrayedRootConstants, fits⟩

end Shader

/-! ## The words that are loaded -/

/-- A load that can be emitted: a scalar of four bytes at a multiple of four, or a row of a type
that the words can be cast to. -/
def CBufferLoad.Supported (load : CBufferLoad) : Prop :=
  if load.scalarLoad then load.scalarAlignment = 4 ∧ ∀ c, load.constantInt = some c → c % 4 = 0
  else load.canCast = true

/-- How many words the result has. -/
def CBufferLoad.components (load : CBufferLoad) : Nat := if load.scalarLoad then 1 else 4

/-- The first word that an operand means. -/
def CBufferLoad.wordOffset (load : CBufferLoad) (operand : Word) : Nat :=
  if load.scalarLoad then operand.toNat / 4 else 4 * operand.toNat

/-- The load of a constant buffer at a word offset reads the words that its operand means, by access
chains that are valid for the block, and fails for a constant past the end. -/
def Block.LoadsWords (b : Block) (offset : Word) (load : CBufferLoad) : Prop :=
  ∀ operand, (∀ c, load.constantInt = some c → operand = c) →
    (load.Supported → ∀ c < load.components,
      offset.toNat + load.wordOffset operand + c < b.words →
        ∃ elements chain, b.emitCbufferLoadRootConstant offset load = some elements ∧
          elements[c]? = some (some chain) ∧
          b.type.access (chain.map (·.at operand)) =
            some (8 * b.descriptors + 4 * (offset.toNat + load.wordOffset operand + c), .uint)) ∧
    (load.constantInt ≠ none → b.words ≤ offset.toNat + load.wordOffset operand →
      b.emitCbufferLoadRootConstant offset load = none) ∧
    (¬ load.Supported → b.emitCbufferLoadRootConstant offset load = none)

/-- The operand of a load that goes to the words it means: a constant past the end is past the end
in 32 bits as well, and only an array is indexed by anything else. -/
def Block.OperandFits (b : Block) (offset : Word) (load : CBufferLoad) : Prop :=
  match load.constantInt with
  | some c => b.words ≤ offset.toNat + load.wordOffset c →
      b.words + b.descriptors ≤ (load.wordOffset c + offset.toNat + b.descriptors) % 2 ^ 32
  | none => offset.toNat < b.words → b.arrayed = true

namespace Block

variable {b : Block} {offset : Word} {load : CBufferLoad}

theorem toNat_descriptors : (BitVec.ofNat 32 b.descriptors).toNat = b.descriptors := by
  have := b.fits
  rw [BitVec.toNat_ofNat, Nat.mod_eq_of_lt (by omega)]

theorem toNat_words : (BitVec.ofNat 32 b.words).toNat = b.words := by
  have := b.fits
  rw [BitVec.toNat_ofNat, Nat.mod_eq_of_lt (by omega)]

theorem toNat_numElements :
    (BitVec.ofNat 32 b.words + BitVec.ofNat 32 b.descriptors).toNat = b.words + b.descriptors := by
  have := b.fits
  rw [BitVec.toNat_add, toNat_words, toNat_descriptors, Nat.mod_eq_of_lt (by omega)]

/-- The member of a word in a block that is no array. -/
theorem access_member (harrayed : b.arrayed = false) {m : Word} {k : Nat} (hk : k < b.words)
    (hm : m.toNat = b.descriptors + k) :
    b.type.access [⟨true, m⟩] = some (8 * b.descriptors + 4 * k, .uint) := by
  have hmember : ((List.range b.descriptors).map (fun i => (8 * i, BlockType.vector 2)) ++
      if b.arrayed then [(8 * b.descriptors, .array .uint b.words 4)]
      else (List.range b.words).map fun i => (8 * b.descriptors + 4 * i, .uint))[m.toNat]? =
        some (8 * b.descriptors + 4 * k, .uint) := by
    rw [hm, List.getElem?_append_right (by simp)]
    simp [harrayed, hk]
  unfold type
  rw [BlockType.access_struct hmember]
  simp

/-- The element of a word in an array. -/
theorem access_element (harrayed : b.arrayed = true) {i : ChainIndex}
    (hi : i.value.toNat < b.words) : b.type.access [⟨true, BitVec.ofNat 32 b.descriptors⟩, i] =
      some (8 * b.descriptors + 4 * i.value.toNat, .uint) := by
  have hmember : ((List.range b.descriptors).map (fun i => (8 * i, BlockType.vector 2)) ++
      if b.arrayed then [(8 * b.descriptors, .array .uint b.words 4)]
      else (List.range b.words).map fun i => (8 * b.descriptors + 4 * i, .uint))[
        (BitVec.ofNat 32 b.descriptors).toNat]? =
        some (8 * b.descriptors, .array .uint b.words 4) := by
    rw [toNat_descriptors, List.getElem?_append_right (by simp)]
    simp [harrayed]
  unfold type
  rw [BlockType.access_struct hmember, BlockType.access_array hi]
  simp [Nat.mul_comm]

end Block

namespace CBufferLoad

variable {load : CBufferLoad}

/-- The index of a constant operand. -/
theorem memberIndex_constant (h : load.Supported) {c : Word} (hc : load.constantInt = some c) :
    ∃ x, load.memberIndex = some (.constant x) ∧ x.toNat = load.wordOffset c % 2 ^ 32 := by
  unfold Supported at h
  unfold memberIndex wordOffset
  cases hscalar : load.scalarLoad with
  | true =>
    rw [if_pos hscalar] at h
    have halign := h.2 c hc
    refine ⟨c / 4, by simp only [if_pos, hc, halign, h.1, ne_eq, not_true_eq_false, if_false], ?_⟩
    have hlt := c.isLt
    rw [BitVec.toNat_udiv]
    change c.toNat / 4 = c.toNat / 4 % 2 ^ 32
    omega
  | false =>
    refine ⟨c * 4, by simp [hc], ?_⟩
    rw [BitVec.toNat_mul, Nat.mul_comm]
    rfl

/-- The index of an operand that is no constant. -/
theorem memberIndex_dynamic (h : load.Supported) (hc : load.constantInt = none) :
    ∃ e, load.memberIndex = some (.dynamic e) ∧
      ∀ operand, (e.eval operand).toNat = load.wordOffset operand % 2 ^ 32 := by
  unfold Supported at h
  unfold memberIndex wordOffset
  cases hscalar : load.scalarLoad with
  | true =>
    rw [if_pos hscalar] at h
    refine ⟨.shiftRightLogical .operand 2, by simp [hc, h.1], fun operand => ?_⟩
    have hlt := operand.isLt
    change (operand >>> 2).toNat = operand.toNat / 4 % 2 ^ 32
    rw [BitVec.toNat_ushiftRight, Nat.shiftRight_eq_div_pow]
    omega
  | false =>
    refine ⟨.mul 4 .operand, by simp [hc], fun operand => ?_⟩
    exact BitVec.toNat_mul 4 operand

theorem canCast_of_supported (h : load.Supported) : load.canCast = true := by
  unfold Supported at h
  cases hscalar : load.scalarLoad with
  | true => simp [canCast, hscalar]
  | false => simpa [hscalar] using h

end CBufferLoad

namespace Block

variable {b : Block} {offset : Word} {load : CBufferLoad}

/-- A load that is not supported is not emitted. -/
theorem emit_eq_none (h : ¬ load.Supported) : b.emitCbufferLoadRootConstant offset load = none := by
  unfold CBufferLoad.Supported at h
  unfold emitCbufferLoadRootConstant emitCbufferLoadFromUints
  cases hscalar : load.scalarLoad with
  | true =>
    have hindex : load.memberIndex = none := by
      unfold CBufferLoad.memberIndex
      rw [if_pos hscalar] at h ⊢
      cases hc : load.constantInt with
      | none =>
        have : load.scalarAlignment ≠ 4 := fun ha => h ⟨ha, by simp [hc]⟩
        simp [this]
      | some c =>
        by_cases hmod : c % 4 = 0
        · have halign : load.scalarAlignment ≠ 4 := fun ha =>
            h ⟨ha, fun c' hc' => Option.some.inj (hc.symm.trans hc') ▸ hmod⟩
          change (if c % 4 ≠ 0 then none else if load.scalarAlignment ≠ 4 then none else _) = none
          rw [if_neg (not_not.mpr hmod), if_pos halign]
        · exact if_pos hmod
    rw [hindex]
    rfl
  | false =>
    have hcast : load.canCast = false := by simpa [hscalar] using h
    simp [hcast]

/-- A load by a constant: it is emitted unless its first word is past the end in 32 bits. -/
theorem emit_constant (b : Block) (offset : Word) (h : load.Supported) {c : Word}
    (hc : load.constantInt = some c) :
    ∃ m : Word, m.toNat = (load.wordOffset c + offset.toNat + b.descriptors) % 2 ^ 32 ∧
      b.emitCbufferLoadRootConstant offset load =
        if b.words + b.descriptors ≤ m.toNat then none
        else some ((List.range load.components).map fun i =>
          if i < min load.components (b.words + b.descriptors - m.toNat) then
            some (b.chain false (BitVec.ofNat 32 b.words + BitVec.ofNat 32 b.descriptors)
              (.constant m) (BitVec.ofNat 32 i))
          else none) := by
  obtain ⟨x, hx, hvalue⟩ := CBufferLoad.memberIndex_constant h hc
  refine ⟨x + (offset + BitVec.ofNat 32 b.descriptors), ?_, ?_⟩
  · rw [BitVec.toNat_add, BitVec.toNat_add, hvalue, toNat_descriptors]
    omega
  · unfold emitCbufferLoadRootConstant emitCbufferLoadFromUints
    rw [hx]
    simp only [Option.bind_eq_bind, Option.bind_some, applyOffset, BitVec.le_def, toNat_numElements]
    split
    · rfl
    · rename_i hlt
      have hsub : (BitVec.ofNat 32 b.words + BitVec.ofNat 32 b.descriptors -
          (x + (offset + BitVec.ofNat 32 b.descriptors))).toNat =
            b.words + b.descriptors - (x + (offset + BitVec.ofNat 32 b.descriptors)).toNat := by
        rw [BitVec.toNat_sub_of_le (by rw [BitVec.le_def, toNat_numElements]; omega),
          toNat_numElements]
      simp only [Option.bind_some, numWords, hsub, CBufferLoad.canCast_of_supported h, if_true]
      rfl

/-- A load by an index that is no constant. -/
theorem emit_dynamic (b : Block) (offset : Word) (h : load.Supported)
    (hc : load.constantInt = none) : ∃ e : DynamicIndex,
      (∀ operand, (e.eval operand).toNat = (load.wordOffset operand + offset.toNat) % 2 ^ 32) ∧
      b.emitCbufferLoadRootConstant offset load =
        some ((List.range load.components).map fun i =>
          if i < min load.components (2 ^ 32 - 1) then
            some (b.chain false (BitVec.ofNat 32 b.words + BitVec.ofNat 32 b.descriptors)
              (.dynamic e) (BitVec.ofNat 32 i))
          else none) := by
  obtain ⟨e, he, hvalue⟩ := CBufferLoad.memberIndex_dynamic h hc
  have hsub : offset + BitVec.ofNat 32 b.descriptors - BitVec.ofNat 32 b.descriptors = offset := by
    rw [BitVec.add_sub_cancel]
  refine ⟨if offset + BitVec.ofNat 32 b.descriptors ≠ BitVec.ofNat 32 b.descriptors then
    .add e offset else e, fun operand => ?_, ?_⟩
  · split
    · change (e.eval operand + offset).toNat = _
      rw [BitVec.toNat_add, hvalue]
      omega
    · rename_i hzero
      have hoffset : offset = 0 := by
        rw [← hsub, not_not.mp hzero]
        exact BitVec.sub_self _
      rw [hvalue, hoffset]
      rfl
  · unfold emitCbufferLoadRootConstant emitCbufferLoadFromUints
    rw [he]
    simp only [Option.bind_eq_bind, Option.bind_some, applyOffset, hsub, Bool.not_false,
      Bool.true_and, decide_eq_true_eq, numWords, CBufferLoad.canCast_of_supported h, if_true]
    rfl

/-- The chain to a word of the result. -/
theorem getElem?_elements {n k i : Nat} {f : Nat → List Index} (hn : i < n) (hk : i < k) :
    ((List.range n).map fun i => if i < k then some (f i) else none)[i]? = some (some (f i)) := by
  rw [List.getElem?_map, List.getElem?_range hn, Option.map_some, if_pos hk]

theorem components_le (load : CBufferLoad) : load.components ≤ 4 := by
  unfold CBufferLoad.components
  split <;> omega

/-- A constant that is not past the end reads its word. -/
theorem access_constant {m : Word} {k i : Nat} (hm : m.toNat + i = b.descriptors + k)
    (hk : k < b.words) {numElements : Word} (operand : Word) :
    b.type.access
      ((b.chain false numElements (.constant m) (BitVec.ofNat 32 i)).map (·.at operand)) =
      some (8 * b.descriptors + 4 * k, .uint) := by
  have hfits := b.fits
  have hadd : (m + BitVec.ofNat 32 i).toNat = b.descriptors + k := by
    rw [BitVec.toNat_add, BitVec.toNat_ofNat]
    omega
  cases harrayed : b.arrayed with
  | false =>
    simp only [chain, harrayed, Bool.false_and, Bool.false_eq_true, if_false, List.nil_append,
      List.map_cons, List.map_nil, Index.at]
    exact access_member harrayed hk hadd
  | true =>
    have hsub : (m + BitVec.ofNat 32 i - BitVec.ofNat 32 b.descriptors).toNat = k := by
      rw [BitVec.toNat_sub_of_le (by rw [BitVec.le_def, toNat_descriptors]; omega),
        toNat_descriptors]
      omega
    simp only [chain, harrayed, Bool.not_false, Bool.and_self, if_true, List.cons_append,
      List.nil_append, List.map_cons, List.map_nil, Index.at]
    rw [access_element harrayed (by rw [hsub]; exact hk), hsub]

/-- An index that is no constant reads its word in an array. -/
theorem access_dynamic (harrayed : b.arrayed = true) {e : DynamicIndex} {operand : Word} {k i : Nat}
    (he : (e.eval operand).toNat + i = k) (hk : k < b.words) {numElements : Word} :
    b.type.access
      ((b.chain false numElements (.dynamic e) (BitVec.ofNat 32 i)).map (·.at operand)) =
      some (8 * b.descriptors + 4 * k, .uint) := by
  have hfits := b.fits
  have hadd : (e.eval operand + BitVec.ofNat 32 i).toNat = k := by
    rw [BitVec.toNat_add, BitVec.toNat_ofNat]
    omega
  have hlast : (BitVec.ofNat 32 b.words - 1).toNat = b.words - 1 := by
    rw [BitVec.toNat_sub_of_le (by rw [BitVec.le_def, toNat_words]; change 1 ≤ _; omega),
      toNat_words]
    rfl
  -- the clamp changes nothing
  have hclamp : (DynamicIndex.eval operand
      (.umin (.add e (BitVec.ofNat 32 i)) (BitVec.ofNat 32 b.words - 1))).toNat = k := by
    change (if e.eval operand + BitVec.ofNat 32 i < BitVec.ofNat 32 b.words - 1 then
      e.eval operand + BitVec.ofNat 32 i else BitVec.ofNat 32 b.words - 1).toNat = k
    split
    · exact hadd
    · rename_i hle
      rw [BitVec.lt_def, hadd, hlast] at hle
      rw [hlast]
      omega
  simp only [chain, harrayed, Bool.not_false, Bool.and_self, if_true, List.cons_append,
    List.nil_append, List.map_cons, List.map_nil, Index.at, Bool.false_eq_true, if_false]
  rw [access_element harrayed (by rw [hclamp]; exact hk), hclamp]

/-- Members are not indexed by anything but constants. -/
theorem access_dynamic_member (harrayed : b.arrayed = false) {e : DynamicIndex} {operand i : Word}
    {numElements : Word} :
    b.type.access ((b.chain false numElements (.dynamic e) i).map (·.at operand)) = none := by
  simp only [chain, harrayed, Bool.false_and, Bool.false_eq_true, if_false, List.nil_append,
    List.map_cons, List.map_nil, Index.at, type]
  exact BlockType.access_struct_dynamic

theorem loadsWords_constant_iff {c : Word} (hc : load.constantInt = some c) :
    b.LoadsWords offset load ↔ (load.Supported → b.OperandFits offset load) := by
  have hfits := b.fits
  unfold OperandFits
  rw [hc]
  constructor
  · intro hloads h hpast
    obtain ⟨m, hm, hemit⟩ := emit_constant b offset h hc
    have hnone := (hloads c fun c' hc' => Option.some.inj (hc.symm.trans hc')).2.1
      (by rw [hc]; simp) hpast
    rw [hemit] at hnone
    rw [← hm]
    by_contra hlt
    rw [if_neg hlt] at hnone
    exact Option.some_ne_none _ hnone
  · intro hfit operand hoperand
    obtain rfl := hoperand c hc
    refine ⟨fun h i hi hwords => ?_, fun _ hpast => ?_, emit_eq_none⟩
    · obtain ⟨m, hm, hemit⟩ := emit_constant b offset h hc
      have hcomponents := components_le load
      rw [Nat.mod_eq_of_lt (by omega)] at hm
      rw [if_neg (by omega)] at hemit
      exact ⟨_, _, hemit, getElem?_elements hi (by omega),
        access_constant (by omega) hwords operand⟩
    · by_cases h : load.Supported
      · obtain ⟨m, hm, hemit⟩ := emit_constant b offset h hc
        rw [hemit, hm, if_pos (hfit h hpast)]
      · exact emit_eq_none h

theorem loadsWords_dynamic_iff (hc : load.constantInt = none) :
    b.LoadsWords offset load ↔ (load.Supported → b.OperandFits offset load) := by
  have hfits := b.fits
  have hcomponents := components_le load
  unfold OperandFits
  rw [hc]
  constructor
  · intro hloads h hlt
    obtain ⟨e, he, hemit⟩ := emit_dynamic b offset h hc
    have hpos : 0 < load.components := by
      unfold CBufferLoad.components
      split <;> omega
    have hzero : load.wordOffset 0 = 0 := by
      unfold CBufferLoad.wordOffset
      split <;> rfl
    -- the first word of the first row is in the block
    obtain ⟨elements, chain, hsome, hget, haccess⟩ :=
      (hloads 0 (by simp [hc])).1 h 0 hpos (by rw [hzero]; omega)
    rw [hemit] at hsome
    obtain rfl := Option.some.inj hsome
    rw [getElem?_elements hpos (by omega)] at hget
    obtain rfl := Option.some.inj (Option.some.inj hget)
    by_contra harrayed
    rw [access_dynamic_member (by simpa using harrayed)] at haccess
    exact Option.some_ne_none _ haccess.symm
  · intro hfit operand _
    refine ⟨fun h i hi hwords => ?_, fun hconstant => absurd hc hconstant, emit_eq_none⟩
    obtain ⟨e, he, hemit⟩ := emit_dynamic b offset h hc
    have hvalue := he operand
    rw [Nat.mod_eq_of_lt (by omega)] at hvalue
    exact ⟨_, _, hemit, getElem?_elements hi (by omega),
      access_dynamic (hfit h (by omega)) (by omega) hwords⟩

/-- A load reads the words that its operand means just when its operand fits. -/
theorem loadsWords_iff :
    b.LoadsWords offset load ↔ (load.Supported → b.OperandFits offset load) := by
  cases hc : load.constantInt with
  | some c => exact loadsWords_constant_iff hc
  | none => exact loadsWords_dynamic_iff hc

end Block

namespace Shader

variable {s : Shader} {handle : Handle} {load : CBufferLoad} {cbv : Cbv} {offset : Word}

/-- A load of the shader by a handle of a constant buffer that is mapped to root constants. -/
structure LoadsRootConstants (s : Shader) (handle : Handle) (load : CBufferLoad) (cbv : Cbv)
    (offset : Word) : Prop where
  load_mem : (handle, load) ∈ s.loads
  cbv_mem : cbv ∈ s.cbvs
  isActive : cbv.isActive = true
  not_isLocal : cbv.isLocal = false
  handle_cbv : handle.cbv = cbv.index
  binding : s.vulkanBinding cbv = some ⟨true, offset⟩

/-- The words are declared as an array when the analysis knows the constant buffer of a dynamic
load, and its unsized range is mapped to root constants. -/
theorem requireArrayedRootConstants_of_analysed (h : s.LoadsRootConstants handle load cbv offset)
    (hdynamic : load.constantInt = none) (hanalysed : handle.analysedCbv = some cbv.index)
    {unsized : VulkanCBVBinding} (hremap : s.remapCbv (cbv.binding (2 ^ 32 - 1)) = some unsized)
    (hpush : unsized.pushConstant = true) : s.requireArrayedRootConstants = true := by
  have hindexed : s.dynamicallyIndexedCbv cbv.index = true :=
    List.any_eq_true.mpr ⟨_, h.load_mem, by simp [hdynamic, hanalysed]⟩
  refine List.any_eq_true.mpr ⟨cbv, h.cbv_mem, ?_⟩
  have hpushed : (unsized.pushConstant && s.dynamicallyIndexedCbv cbv.index) = true := by
    rw [hpush, hindexed]
    rfl
  rw [h.isActive, h.not_isLocal, hremap]
  exact hpushed

/-- A load of root constants reads the words that its operand means just when the operand fits,
which a dynamic operand does when the analysis has seen it. -/
theorem loadsRootConstants_iff (descriptors words : Nat)
    (fits : 8 * descriptors + 4 * words ≤ 2 ^ 32)
    (h : s.LoadsRootConstants handle load cbv offset) :
    ((s.block descriptors words fits).LoadsWords offset load ↔
      (load.Supported → (s.block descriptors words fits).OperandFits offset load)) ∧
    (load.constantInt = none → handle.analysedCbv = some cbv.index →
      (∃ unsized, s.remapCbv (cbv.binding (2 ^ 32 - 1)) = some unsized ∧
        unsized.pushConstant = true) →
      (s.block descriptors words fits).LoadsWords offset load) := by
  refine ⟨Block.loadsWords_iff, fun hdynamic hanalysed hunsized => ?_⟩
  obtain ⟨unsized, hremap, hpush⟩ := hunsized
  have harrayed := requireArrayedRootConstants_of_analysed h hdynamic hanalysed hremap hpush
  refine Block.loadsWords_iff.mpr fun _ => ?_
  unfold Block.OperandFits
  rw [hdynamic]
  exact fun _ => harrayed

/-- A shader with one constant buffer at the second word of its root constants, and one load of
it. -/
def rowShader (constantInt : Option Word) : Shader where
  cbvs := [⟨0, 0, 0, 1, true, false⟩]
  loads := [(.create 0, ⟨false, constantInt, true, 4⟩)]
  remapCbv _ := some ⟨true, 1⟩

/-- A row that is chosen at runtime is read from the array. -/
theorem rowShader_loadsRootConstants :
    ((rowShader none).block 1 8 (by decide)).LoadsWords 1 ⟨false, none, true, 4⟩ :=
  (loadsRootConstants_iff 1 8 (by decide)
    (⟨by decide, by decide, rfl, rfl, rfl, rfl⟩ :
      (rowShader none).LoadsRootConstants (.create 0) ⟨false, none, true, 4⟩
        ⟨0, 0, 0, 1, true, false⟩ 1)).2
    rfl rfl ⟨⟨true, 1⟩, rfl, rfl⟩

/-- The first word of row 2 ^ 30 is 2 ^ 32 words behind the constant buffer, and the load reads the
first word of the constant buffer instead of failing. -/
theorem rowShader_wraps :
    8 ≤ 1 + CBufferLoad.wordOffset ⟨false, some (2 ^ 30), true, 4⟩ (2 ^ 30) ∧
    ((rowShader (some (2 ^ 30))).block 1 8 (by decide)).emitCbufferLoadRootConstant 1
        ⟨false, some (2 ^ 30), true, 4⟩ =
      some [some [.constant 2], some [.constant 3], some [.constant 4], some [.constant 5]] ∧
    ¬ ((rowShader (some (2 ^ 30))).block 1 8 (by decide)).LoadsWords 1
      ⟨false, some (2 ^ 30), true, 4⟩ := by
  have hpast : 8 ≤ 1 + CBufferLoad.wordOffset ⟨false, some (2 ^ 30), true, 4⟩ (2 ^ 30) := by decide
  have hemit : ((rowShader (some (2 ^ 30))).block 1 8 (by decide)).emitCbufferLoadRootConstant 1
      ⟨false, some (2 ^ 30), true, 4⟩ =
        some [some [.constant 2], some [.constant 3], some [.constant 4], some [.constant 5]] := by
    decide
  refine ⟨hpast, hemit, fun hloads => ?_⟩
  have hnone := (hloads (2 ^ 30) fun c hc => Option.some.inj hc).2.1 (by decide) hpast
  rw [hemit] at hnone
  exact Option.some_ne_none _ hnone

end Shader

end RootConstant

end DxilSpirv.Buffer
