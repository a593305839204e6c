import DxilSpirv.Spirv.BitSearch
import DxilSpirv.Spirv.LowBits

/-!
# Bit scans and bit fields

The target searches 32-bit words only: shorter values are extended, longer ones searched by halves
whose results are put together. Bit fields are clamped to the word, which the target does not do
itself.
-/

namespace DxilSpirv.Convert

open DxilSpirv.Spirv

/-- The searches of the extended instruction set. -/
inductive GLSLstd450
  | findILsb | findUMsb | findSMsb
  deriving DecidableEq, Repr

/-- What a search computes. -/
def GLSLstd450.apply : GLSLstd450 → BitVec 32 → BitVec 32
  | findILsb => Spirv.findILsb
  | findUMsb => Spirv.findUMsb
  | findSMsb => Spirv.findSMsb

/-- An integer operand: a vector of any length, or a scalar. -/
structure IntValue (w : Nat) where
  isVector : Bool
  numElements : Nat
  scalar : isVector = false → numElements = 1
  lane : Fin numElements → BitVec w

variable {n w : Nat}

/-- `OpVectorShuffle` of a vector with itself. -/
def vectorShuffle {α : Type} {m : Nat} (a : Fin m → α) (literals : Fin n → Fin m) : Fin n → α :=
  fun i => a (literals i)

/-- The literals of the low halves. -/
def lowHalves (i : Fin n) : Fin (2 * n) := ⟨2 * i, by omega⟩

/-- The literals of the high halves. -/
def highHalves (i : Fin n) : Fin (2 * n) := ⟨2 * i + 1, by omega⟩

/-- The literals that repeat every component. -/
def twice (j : Fin (2 * n)) : Fin n := ⟨j / 2, by omega⟩

/-- `OpBitcast` to words, the low half of a component first. -/
def bitcastWords (value : Fin n → BitVec w) (j : Fin (2 * n)) : BitVec 32 :=
  (value (twice j)).extractLsb' (32 * (j % 2)) 32

variable (u : Undefined 32) (value : IntValue w)

/-- The words of every component, with their bits flipped where the component is negative. -/
def flipNegative (words : Fin (2 * value.numElements) → BitVec 32) :
    Fin (2 * value.numElements) → BitVec 32 :=
  if h : value.isVector = false then
    let shifted := shiftRightArithmetic u (words ⟨1, by have := value.scalar h; omega⟩) 31
    fun j => words j ^^^ shifted
  else
    let hi := vectorShuffle words highHalves
    let shifted := fun i => shiftRightArithmetic u (hi i) 31
    let dup := vectorShuffle shifted twice
    fun j => words j ^^^ dup j

/-- The low and the high word of a component. -/
def splitHalves (words : Fin (2 * value.numElements) → BitVec 32) :
    (Fin value.numElements → BitVec 32) × (Fin value.numElements → BitVec 32) :=
  if h : value.isVector = false then
    (fun _ => words ⟨0, by have := value.scalar h; omega⟩,
      fun _ => words ⟨1, by have := value.scalar h; omega⟩)
  else (vectorShuffle words lowHalves, vectorShuffle words highHalves)

/-- `emit_native_bitscan`. -/
def emitNativeBitscan (opcode : GLSLstd450) : Fin value.numElements → BitVec 32 :=
  if w = 16 then
    fun i => opcode.apply (if opcode = .findSMsb then (value.lane i).signExtend 32
      else (value.lane i).setWidth 32)
  else if w = 64 then
    let bitcast := bitcastWords value.lane
    let words := if opcode = .findSMsb then flipNegative u value bitcast else bitcast
    let opcode := if opcode = .findSMsb then GLSLstd450.findUMsb else opcode
    let halves := splitHalves value fun j => opcode.apply (words j)
    fun i =>
      let lo := halves.1 i
      let hi := halves.2 i ||| 32
      if opcode = .findILsb then uMin lo hi else sMax lo hi
  else fun i => opcode.apply ((value.lane i).setWidth 32)

/-- `emit_find_low_bit_instruction`. -/
def emitFindLowBitInstruction : Fin value.numElements → BitVec 32 :=
  emitNativeBitscan u value .findILsb

/-- `emit_find_high_bit_instruction`, which counts from the top. -/
def emitFindHighBitInstruction (opcode : GLSLstd450) : Fin value.numElements → BitVec 32 :=
  fun i =>
    let msb := emitNativeBitscan u value opcode i
    let sub := BitVec.ofNat 32 (w - 1) - msb
    if msb = BitVec.allOnes 32 then BitVec.allOnes 32 else sub

/-- `clamp_bitfield_width`: a field that would leave the word ends with it. -/
def clampBitfieldWidth (offset width : BitVec 32) : BitVec 32 := uMin width (32 - offset)

/-- `mask_input`. -/
def maskInput (value : BitVec 32) : BitVec 32 := value &&& 31

/-- `OpBitFieldInsert`, undefined where the field leaves the word. -/
def bitFieldInsert (base insert : BitVec 32) (offset count : Nat) : BitVec 32 :=
  if offset + count ≤ 32 then
    let mask := (BitVec.twoPow 32 count - 1) <<< offset
    ((insert <<< offset) &&& mask) ||| (base &&& ~~~mask)
  else u.bitField base insert (BitVec.ofNat 32 offset)

/-- `emit_bfe_instruction`, for `Ibfe` and `Ubfe`. -/
def emitBfeInstruction (isSigned : Bool) (width offset value : BitVec 32) : BitVec 32 :=
  let maskedWidth := maskInput width
  let maskedOffset := maskInput offset
  let maskedWidth := clampBitfieldWidth maskedOffset maskedWidth
  bitFieldExtract u isSigned value maskedOffset.toNat maskedWidth.toNat

/-- `emit_bfi_instruction`, for `Bfi`. -/
def emitBfiInstruction (width offset src dst : BitVec 32) : BitVec 32 :=
  let maskedWidth := maskInput width
  let maskedOffset := maskInput offset
  let maskedWidth := clampBitfieldWidth maskedOffset maskedWidth
  bitFieldInsert u dst src maskedOffset.toNat maskedWidth.toNat

/-- `FirstbitLo`: the index of the lowest set bit. -/
def firstbitLo (x : BitVec w) : BitVec 32 := indexWord (firstIndex x.getLsbD w)

/-- `FirstbitHi`: the number of zeros above the highest set bit. -/
def firstbitHi (x : BitVec w) : BitVec 32 := indexWord (firstIndex x.getMsbD w)

/-- `FirstbitSHi`: the number of copies of the sign above the highest bit that differs from it. -/
def firstbitSHi (x : BitVec w) : BitVec 32 :=
  indexWord (firstIndex (fun i => x.getMsbD i != x.msb) w)

/-- A shift to the right that repeats the sign or shifts in zeros. -/
def shiftRightAs (isSigned : Bool) (x : BitVec 32) (s : Nat) : BitVec 32 :=
  if isSigned then x.sshiftRight s else x >>> s

/-- `Ibfe` and `Ubfe`: a field of `width % 32` bits from `offset % 32` on, as two shifts. -/
def bfe (isSigned : Bool) (width offset value : BitVec 32) : BitVec 32 :=
  let width := width.toNat % 32
  let offset := offset.toNat % 32
  if width = 0 then 0
  else if width + offset < 32 then
    shiftRightAs isSigned (value <<< (32 - (width + offset))) (32 - width)
  else shiftRightAs isSigned value offset

/-- `Bfi`: the low bits of the source in the place of a field of the base. -/
def bfi (width offset src base : BitVec 32) : BitVec 32 :=
  let width := width.toNat % 32
  let offset := offset.toNat % 32
  let mask := (BitVec.twoPow 32 width - 1) <<< offset
  ((src <<< offset) &&& mask) ||| (base &&& ~~~mask)

variable {u value}

/-- A vector and a scalar are taken apart alike. -/
theorem splitHalves_eq (words : Fin (2 * value.numElements) → BitVec 32)
    (i : Fin value.numElements) : (splitHalves value words).1 i = words (lowHalves i) ∧
      (splitHalves value words).2 i = words (highHalves i) := by
  unfold splitHalves
  split
  · rename_i h
    have hone := value.scalar h
    have hi : i.val = 0 := by omega
    exact ⟨congrArg words (Fin.ext (by simp [lowHalves, hi])),
      congrArg words (Fin.ext (by simp [highHalves, hi]))⟩
  · exact ⟨rfl, rfl⟩

/-- A vector and a scalar are flipped alike. -/
theorem flipNegative_eq (words : Fin (2 * value.numElements) → BitVec 32)
    (j : Fin (2 * value.numElements)) : flipNegative u value words j =
      words j ^^^ (words (highHalves (twice j))).sshiftRight 31 := by
  have hshift : ∀ x, shiftRightArithmetic u x 31 = x.sshiftRight 31 := fun x => by
    rw [shiftRightArithmetic, if_pos (by decide)]
    rfl
  unfold flipNegative
  split
  · rename_i h
    have hone := value.scalar h
    have hi : (twice j).val = 0 := by
      have := (twice j).isLt
      omega
    have hindex : highHalves (twice j) = ⟨1, by omega⟩ :=
      Fin.ext (by show 2 * (twice j).val + 1 = 1; omega)
    rw [hshift, hindex]
  · rw [← hshift]
    rfl

section Extended

variable {x : BitVec 16}

/-- A search through a zero-extended value from below. -/
theorem findILsb_zeroExtend : findILsb (x.setWidth 32) = firstbitLo x := by
  have hlow : firstIndex (x.setWidth 32).getLsbD 16 = firstIndex x.getLsbD 16 :=
    firstIndex_congr fun j hj => by simp [show j < 32 by omega]
  have hhigh : firstIndex (fun j => (x.setWidth 32).getLsbD (16 + j)) 16 = none :=
    firstIndex_eq_none_iff.mpr fun j hj => by simp
  have hsplit : firstIndex (x.setWidth 32).getLsbD (16 + 16) = _ := firstIndex_add
  rw [hlow, hhigh, Option.map_none, Option.or_none] at hsplit
  exact congrArg indexWord hsplit

/-- Counting from the top of 32 bits or of 16 leads to the same index. -/
theorem map_sub_add {i : Option Nat} :
    (i.map (16 + ·)).map (31 - ·) = i.map (15 - ·) := by
  cases i with
  | none => rfl
  | some k =>
    show some (31 - (16 + k)) = some (15 - k)
    congr 1
    omega

/-- A search through a zero-extended value from above. -/
theorem findUMsb_zeroExtend :
    findUMsb (x.setWidth 32) = indexWord ((firstIndex x.getMsbD 16).map (15 - ·)) := by
  have hhigh : firstIndex (x.setWidth 32).getMsbD 16 = none :=
    firstIndex_eq_none_iff.mpr fun j hj => by
      simp [BitVec.getMsbD_setWidth, show ¬ 16 ≤ j by omega]
  have hlow : firstIndex (fun j => (x.setWidth 32).getMsbD (16 + j)) 16 = firstIndex x.getMsbD 16 :=
    firstIndex_congr fun j hj => by
      simp [BitVec.getMsbD_setWidth, show 16 + j + 16 - 32 = j by omega]
  have hsplit : firstIndex (x.setWidth 32).getMsbD (16 + 16) = _ := firstIndex_add
  rw [hhigh, hlow, Option.none_or] at hsplit
  rw [findUMsb_eq, hsplit, map_sub_add]

/-- A search through a sign-extended value for a bit that is not the sign. -/
theorem findSMsb_signExtend : findSMsb (x.signExtend 32) =
    indexWord ((firstIndex (fun i => x.getMsbD i != x.msb) 16).map (15 - ·)) := by
  have hmsb : (x.signExtend 32).msb = x.msb := by simp [BitVec.msb_signExtend]
  have hhigh : firstIndex (fun i => (x.signExtend 32).getMsbD i != (x.signExtend 32).msb) 16 =
      none :=
    firstIndex_eq_none_iff.mpr fun j hj => by
      simp [hmsb, BitVec.getMsbD_signExtend, show ¬ 16 ≤ j by omega, show j < 32 by omega]
  have hlow : firstIndex (fun j =>
      (x.signExtend 32).getMsbD (16 + j) != (x.signExtend 32).msb) 16 =
      firstIndex (fun i => x.getMsbD i != x.msb) 16 :=
    firstIndex_congr fun j hj => by
      simp [hmsb, BitVec.getMsbD_signExtend, show 16 + j + 16 - 32 = j by omega,
        show 16 + j < 32 by omega]
  have hsplit : firstIndex (fun i => (x.signExtend 32).getMsbD i != (x.signExtend 32).msb)
      (16 + 16) = _ := firstIndex_add
  rw [hhigh, hlow, Option.none_or] at hsplit
  rw [findSMsb, hsplit, map_sub_add]

end Extended

variable {x : BitVec 64}

/-- The lower one of the searches through the halves is the search from below. -/
theorem uMin_halves : uMin (findILsb (x.extractLsb' 0 32)) (findILsb (x.extractLsb' 32 32) ||| 32) =
    firstbitLo x := by
  have hlow : firstIndex (x.extractLsb' 0 32).getLsbD 32 = firstIndex x.getLsbD 32 :=
    firstIndex_congr fun j hj => by simp [hj]
  have hhigh : firstIndex (x.extractLsb' 32 32).getLsbD 32 =
      firstIndex (fun j => x.getLsbD (32 + j)) 32 :=
    firstIndex_congr fun j hj => by simp [hj]
  rw [findILsb, findILsb, hlow, hhigh, indexWord_or_32 fun k hk => lt_of_firstIndex hk,
    uMin_indexWord (fun k hk => lt_of_firstIndex hk)]
  · rw [← firstIndex_add]
    rfl
  · intro k hk
    obtain ⟨l, hl, rfl⟩ := Option.map_eq_some_iff.mp hk
    have := lt_of_firstIndex hl
    omega

/-- The higher one of the searches through the halves is the search from above. -/
theorem sMax_halves {lo hi : BitVec 32} {bit : Nat → Bool} (hhi : ∀ j < 32, hi.getMsbD j = bit j)
    (hlo : ∀ j < 32, lo.getMsbD j = bit (32 + j)) :
    sMax (findUMsb lo) (findUMsb hi ||| 32) = indexWord ((firstIndex bit 64).map (63 - ·)) := by
  have hsub : ∀ {i : Option Nat}, (∀ k ∈ i, k < 32) → ∀ k ∈ i.map (31 - ·), k < 32 :=
    fun hi k hk => by
      obtain ⟨l, hl, rfl⟩ := Option.map_eq_some_iff.mp hk
      omega
  have hlt : ∀ (p : Nat → Bool), ∀ k ∈ firstIndex p 32, k < 32 := fun p k hk => lt_of_firstIndex hk
  rw [findUMsb_eq, findUMsb_eq, firstIndex_congr hlo, firstIndex_congr hhi,
    indexWord_or_32 (hsub (hlt _)), sMax_indexWord (hsub (hlt _))]
  · rw [show 64 = 32 + 32 from rfl, firstIndex_add]
    congr 1
    cases hfirst : firstIndex bit 32 with
    | some k =>
      have := lt_of_firstIndex hfirst
      show some (32 + (31 - k)) = some (63 - k)
      congr 1
      omega
    | none =>
      show Option.map _ _ = Option.map _ (Option.map _ _)
      rw [Option.map_map]
      congr 1
      funext k
      show 31 - k = 63 - (32 + k)
      omega
  · intro k hk
    obtain ⟨l, hl, rfl⟩ := Option.map_eq_some_iff.mp hk
    have := hsub (hlt _) l hl
    omega

theorem getMsbD_high (j : Nat) (hj : j < 32) :
    (x.extractLsb' 32 32).getMsbD j = x.getMsbD j := by
  have hindex : 32 + (32 - 1 - j) = 64 - 1 - j := by omega
  rw [BitVec.getMsbD_eq_getLsbD, BitVec.getMsbD_eq_getLsbD, BitVec.getLsbD_extractLsb', hindex]
  simp [hj, show j < 64 by omega, show 31 - j < 32 by omega]

theorem getMsbD_low (j : Nat) (hj : j < 32) :
    (x.extractLsb' 0 32).getMsbD j = x.getMsbD (32 + j) := by
  have hindex : 0 + (32 - 1 - j) = 64 - 1 - (32 + j) := by omega
  rw [BitVec.getMsbD_eq_getLsbD, BitVec.getMsbD_eq_getLsbD, BitVec.getLsbD_extractLsb', hindex]
  simp [hj, show 31 - j < 32 by omega, show 32 + j < 64 by omega]

theorem msb_high : (x.extractLsb' 32 32).msb = x.msb := by
  rw [BitVec.msb_eq_getMsbD_zero, BitVec.msb_eq_getMsbD_zero, getMsbD_high 0 (by decide)]

/-- Every bit of the shifted high half is the sign. -/
theorem getMsbD_sign (j : Nat) (hj : j < 32) :
    ((x.extractLsb' 32 32).sshiftRight 31).getMsbD j = x.msb := by
  rw [BitVec.getMsbD_sshiftRight, msb_high, decide_eq_true hj]
  by_cases h : j < 31
  · simp [h]
  · have hj : j = 31 := by omega
    subst hj
    rw [if_neg h, show 31 - 31 = 0 from rfl, ← BitVec.msb_eq_getMsbD_zero, msb_high]
    simp

theorem twice_lowHalves {n : Nat} (i : Fin n) : twice (lowHalves i) = i :=
  Fin.ext (by show 2 * i.val / 2 = i.val; omega)

theorem twice_highHalves {n : Nat} (i : Fin n) : twice (highHalves i) = i :=
  Fin.ext (by show (2 * i.val + 1) / 2 = i.val; omega)

/-- What the words of a component of 64 bits are. -/
theorem bitcastWords_halves {n : Nat} (lane : Fin n → BitVec w) (i : Fin n) :
    bitcastWords lane (lowHalves i) = (lane i).extractLsb' 0 32 ∧
      bitcastWords lane (highHalves i) = (lane i).extractLsb' 32 32 := by
  unfold bitcastWords
  rw [twice_lowHalves, twice_highHalves]
  constructor
  · rw [show (lowHalves i).val % 2 = 0 by show 2 * i.val % 2 = 0; omega]
  · rw [show (highHalves i).val % 2 = 1 by show (2 * i.val + 1) % 2 = 1; omega]

/-- The scan from below gives the lowest set bit. -/
theorem emitNativeBitscan_findILsb (hw : w = 16 ∨ w = 32 ∨ w = 64) (i : Fin value.numElements) :
    emitNativeBitscan u value .findILsb i = firstbitLo (value.lane i) := by
  unfold emitNativeBitscan
  rcases hw with rfl | rfl | rfl
  · rw [if_pos rfl]
    exact findILsb_zeroExtend
  · rw [if_neg (by decide), if_neg (by decide), BitVec.setWidth_eq]
    rfl
  · obtain ⟨hlow, hhigh⟩ := bitcastWords_halves value.lane i
    rw [if_neg (by decide), if_pos rfl]
    simp only [reduceCtorEq, if_false, if_true]
    rw [(splitHalves_eq _ i).1, (splitHalves_eq _ i).2, hlow, hhigh]
    exact uMin_halves

/-- The unsigned scan from above gives the highest set bit. -/
theorem emitNativeBitscan_findUMsb (hw : w = 16 ∨ w = 32 ∨ w = 64) (i : Fin value.numElements) :
    emitNativeBitscan u value .findUMsb i =
      indexWord ((firstIndex (value.lane i).getMsbD w).map (w - 1 - ·)) := by
  unfold emitNativeBitscan
  rcases hw with rfl | rfl | rfl
  · rw [if_pos rfl]
    exact findUMsb_zeroExtend
  · rw [if_neg (by decide), if_neg (by decide), BitVec.setWidth_eq]
    exact findUMsb_eq _
  · obtain ⟨hlow, hhigh⟩ := bitcastWords_halves value.lane i
    rw [if_neg (by decide), if_pos rfl]
    simp only [reduceCtorEq, if_false]
    rw [(splitHalves_eq _ i).1, (splitHalves_eq _ i).2, hlow, hhigh]
    exact sMax_halves getMsbD_high getMsbD_low

/-- The signed scan from above gives the highest bit that differs from the sign. -/
theorem emitNativeBitscan_findSMsb (hw : w = 16 ∨ w = 32 ∨ w = 64) (i : Fin value.numElements) :
    emitNativeBitscan u value .findSMsb i =
      indexWord ((firstIndex (fun j => (value.lane i).getMsbD j != (value.lane i).msb) w).map
        (w - 1 - ·)) := by
  unfold emitNativeBitscan
  rcases hw with rfl | rfl | rfl
  · rw [if_pos rfl]
    exact findSMsb_signExtend
  · rw [if_neg (by decide), if_neg (by decide), BitVec.setWidth_eq]
    rfl
  · obtain ⟨hlow, hhigh⟩ := bitcastWords_halves value.lane i
    rw [if_neg (by decide), if_pos rfl]
    simp only [if_true, reduceCtorEq, if_false]
    rw [(splitHalves_eq _ i).1, (splitHalves_eq _ i).2, flipNegative_eq, flipNegative_eq]
    rw [twice_lowHalves, twice_highHalves, hlow, hhigh]
    refine sMax_halves (fun j hj => ?_) (fun j hj => ?_)
    · rw [BitVec.getMsbD_xor, getMsbD_high j hj, getMsbD_sign j hj]
    · rw [BitVec.getMsbD_xor, getMsbD_low j hj, getMsbD_sign j hj]

/-- A scan from above that finds a bit finds one of the value. -/
theorem emitNativeBitscan_lt {opcode : GLSLstd450} (hopcode : opcode ≠ .findILsb)
    (i : Fin value.numElements) : ∃ index : Option Nat,
      emitNativeBitscan u value opcode i = indexWord index ∧ ∀ k ∈ index, k < w := by
  have hbelow : ∀ {bit : Nat → Bool} {n : Nat}, ∀ k ∈ (firstIndex bit n).map (n - 1 - ·), k < n :=
    fun k hk => by
      obtain ⟨l, hl, rfl⟩ := Option.map_eq_some_iff.mp hk
      have := lt_of_firstIndex hl
      omega
  by_cases hw : w = 16 ∨ w = 64
  · have hw' : w = 16 ∨ w = 32 ∨ w = 64 := by omega
    cases opcode with
    | findILsb => exact absurd rfl hopcode
    | findUMsb => exact ⟨_, emitNativeBitscan_findUMsb hw' i, fun k hk => hbelow k hk⟩
    | findSMsb => exact ⟨_, emitNativeBitscan_findSMsb hw' i, fun k hk => hbelow k hk⟩
  · have hshort : emitNativeBitscan u value opcode i =
        opcode.apply ((value.lane i).setWidth 32) := by
      unfold emitNativeBitscan
      rw [if_neg (by omega), if_neg (by omega)]
    have hset : ∀ l, ((value.lane i).setWidth 32).getMsbD l = true → 31 - l < w := fun l hl => by
      rw [BitVec.getMsbD_eq_getLsbD, BitVec.getLsbD_setWidth] at hl
      simp only [Bool.and_eq_true] at hl
      have := BitVec.lt_of_getLsbD hl.2.2
      omega
    cases opcode with
    | findILsb => exact absurd rfl hopcode
    | findUMsb =>
      refine ⟨_, hshort.trans (findUMsb_eq _), fun k hk => ?_⟩
      obtain ⟨l, hl, rfl⟩ := Option.map_eq_some_iff.mp hk
      exact hset l (firstIndex_eq_some_iff.mp hl).1
    | findSMsb =>
      refine ⟨_, hshort, fun k hk => ?_⟩
      obtain ⟨l, hl, rfl⟩ := Option.map_eq_some_iff.mp hk
      obtain ⟨hl, hlt, -⟩ := firstIndex_eq_some_iff.mp hl
      by_cases hlong : 32 ≤ w
      · omega
      · have hmsb : ((value.lane i).setWidth 32).msb = false := by
          rw [BitVec.msb_setWidth, BitVec.getLsbD_of_ge _ _ (by omega), Bool.and_false]
        rw [hmsb, Bool.bne_false] at hl
        exact hset l hl

/-- Counting from the top takes back what the scans count from the bottom. -/
theorem select_sub_indexWord {i : Option Nat} (hw : 0 < w) (hle : w ≤ 64) (hi : ∀ k ∈ i, k < w) :
    (if indexWord (i.map (w - 1 - ·)) = BitVec.allOnes 32 then BitVec.allOnes 32
      else BitVec.ofNat 32 (w - 1) - indexWord (i.map (w - 1 - ·))) = indexWord i := by
  cases i with
  | none => exact if_pos rfl
  | some k =>
    have hk := hi k rfl
    have hsmall : (indexWord (some (w - 1 - k))).toNat = w - 1 - k := toNat_indexWord (by omega)
    have hne : indexWord (some (w - 1 - k)) ≠ BitVec.allOnes 32 := fun h => by
      rw [h] at hsmall
      simp only [BitVec.toNat_allOnes] at hsmall
      omega
    rw [Option.map_some, if_neg hne]
    apply BitVec.eq_of_toNat_eq
    rw [BitVec.toNat_sub, hsmall, toNat_indexWord (by omega), BitVec.toNat_ofNat]
    omega

variable {width offset : BitVec 32}

theorem toNat_maskInput (x : BitVec 32) : (maskInput x).toNat = x.toNat % 32 := by
  rw [maskInput, BitVec.toNat_and]
  exact Nat.and_two_pow_sub_one_eq_mod _ 5

/-- The clamped width is what of the field lies in the word. -/
theorem toNat_clampBitfieldWidth : (clampBitfieldWidth (maskInput offset) (maskInput width)).toNat =
    min (width.toNat % 32) (32 - offset.toNat % 32) := by
  have hrest : (32 - maskInput offset).toNat = 32 - offset.toNat % 32 := by
    have hle : maskInput offset ≤ 32 := by
      rw [BitVec.le_def, toNat_maskInput]
      exact Nat.le_of_lt (Nat.mod_lt _ (by decide))
    rw [BitVec.toNat_sub_of_le hle, toNat_maskInput]
    rfl
  unfold clampBitfieldWidth uMin
  by_cases h : (maskInput width).ult (32 - maskInput offset) = true
  · rw [if_pos h, toNat_maskInput]
    rw [BitVec.ult, decide_eq_true_eq, toNat_maskInput, hrest] at h
    omega
  · rw [if_neg h, hrest]
    rw [BitVec.ult, decide_eq_true_eq, toNat_maskInput, hrest] at h
    omega

/-- The bits of an extracted field. -/
theorem getLsbD_bitFieldExtract {isSigned : Bool} {x : BitVec 32} {o c i : Nat} (h : o + c ≤ 32)
    (hi : i < 32) : (bitFieldExtract u isSigned x o c).getLsbD i =
      if i < c then x.getLsbD (o + i) else isSigned && (0 < c && x.getLsbD (o + c - 1)) := by
  rw [bitFieldExtract, if_pos h]
  cases isSigned with
  | true =>
    simp only [if_true, BitVec.getLsbD_signExtend, hi, decide_true, Bool.true_and]
    by_cases hc : i < c
    · simp [hc]
    · rw [if_neg hc, if_neg hc, BitVec.msb_eq_getLsbD_last]
      by_cases hpos : 0 < c
      · simp [hpos, show o + (c - 1) = o + c - 1 by omega, show c - 1 < c by omega]
      · simp [hpos, show ¬ c - 1 < c by omega]
  | false =>
    simp only [Bool.false_eq_true, if_false, Bool.false_and]
    by_cases hc : i < c
    · simp [hc, hi]
    · simp [hc]

/-- The bits of a word shifted to the right. -/
theorem getLsbD_shiftRightAs {isSigned : Bool} {x : BitVec 32} {s i : Nat} (hi : i < 32) :
    (shiftRightAs isSigned x s).getLsbD i =
      if s + i < 32 then x.getLsbD (s + i) else isSigned && x.getLsbD 31 := by
  unfold shiftRightAs
  cases isSigned with
  | true =>
    rw [if_pos rfl, BitVec.getLsbD_sshiftRight, BitVec.msb_eq_getLsbD_last]
    simp [show ¬ 32 ≤ i by omega]
  | false =>
    rw [if_neg Bool.false_ne_true, BitVec.getLsbD_ushiftRight]
    by_cases h : s + i < 32
    · rw [if_pos h]
    · rw [if_neg h, BitVec.getLsbD_of_ge _ _ (by omega)]
      rfl

/-- The lowering of `Ibfe` and `Ubfe` is the reference. -/
theorem emitBfeInstruction_eq (isSigned : Bool) (value : BitVec 32) :
    emitBfeInstruction u isSigned width offset value = bfe isSigned width offset value := by
  unfold emitBfeInstruction bfe
  simp only
  rw [toNat_clampBitfieldWidth, toNat_maskInput]
  have hwidth : width.toNat % 32 < 32 := Nat.mod_lt _ (by decide)
  have hoffset : offset.toNat % 32 < 32 := Nat.mod_lt _ (by decide)
  generalize width.toNat % 32 = c at *
  generalize offset.toNat % 32 = o at *
  apply BitVec.eq_of_getLsbD_eq
  intro i hi
  rw [getLsbD_bitFieldExtract (by omega) hi]
  by_cases hzero : c = 0
  · rw [if_pos hzero, if_neg (by omega)]
    simp [hzero]
  rw [if_neg hzero]
  by_cases hinside : c + o < 32
  · -- The field lies inside the word.
    rw [if_pos hinside, Nat.min_eq_left (by omega), getLsbD_shiftRightAs hi,
      BitVec.getLsbD_shiftLeft, BitVec.getLsbD_shiftLeft]
    by_cases hc : i < c
    · have hback : 32 - c + i - (32 - (c + o)) = o + i := by omega
      rw [if_pos hc, if_pos (by omega), hback]
      simp [show 32 - c + i < 32 by omega, show ¬ 32 - c + i < 32 - (c + o) by omega]
    · have hback : 31 - (32 - (c + o)) = o + c - 1 := by omega
      rw [if_neg hc, if_neg (by omega), hback]
      simp [show 0 < c by omega, show ¬ 31 < 32 - (c + o) by omega]
  · -- The field runs past bit 31.
    rw [if_neg hinside, Nat.min_eq_right (by omega), getLsbD_shiftRightAs hi]
    by_cases hc : i < 32 - o
    · rw [if_pos hc, if_pos (by omega)]
    · have hlast : o + (32 - o) - 1 = 31 := by omega
      rw [if_neg hc, if_neg (by omega), hlast]
      simp [show 0 < 32 - o by omega]

/-- The bits of a mask of low bits. -/
theorem getLsbD_lowMask {c i : Nat} (hi : i < 32) :
    (BitVec.twoPow 32 c - 1).getLsbD i = decide (i < c) := by
  by_cases hc : c < 32
  · have hpow : 2 ^ c < 2 ^ 32 := Nat.pow_lt_pow_right (by decide) hc
    have hpos : 0 < 2 ^ c := Nat.two_pow_pos c
    have hone : (1 : BitVec 32).toNat = 1 := rfl
    have htwo : (BitVec.twoPow 32 c).toNat = 2 ^ c := by
      rw [BitVec.toNat_twoPow, Nat.mod_eq_of_lt hpow]
    have hle : (1 : BitVec 32) ≤ BitVec.twoPow 32 c := by
      rw [BitVec.le_def, htwo, hone]
      omega
    rw [← BitVec.testBit_toNat, BitVec.toNat_sub_of_le hle, htwo, hone,
      Nat.testBit_two_pow_sub_one]
  · have hzero : BitVec.twoPow 32 c = 0 := by
      apply BitVec.eq_of_getLsbD_eq
      intro j hj
      rw [BitVec.getLsbD_twoPow, decide_eq_false hc]
      simp
    have hall : (0 : BitVec 32) - 1 = BitVec.allOnes 32 := by decide
    rw [hzero, hall, BitVec.getLsbD_allOnes]
    simp [hi, show i < c by omega]

/-- The lowering of `Bfi` is the reference. -/
theorem emitBfiInstruction_eq (src base : BitVec 32) :
    emitBfiInstruction u width offset src base = bfi width offset src base := by
  unfold emitBfiInstruction bfi bitFieldInsert
  simp only
  rw [toNat_clampBitfieldWidth, toNat_maskInput]
  have hwidth : width.toNat % 32 < 32 := Nat.mod_lt _ (by decide)
  have hoffset : offset.toNat % 32 < 32 := Nat.mod_lt _ (by decide)
  generalize width.toNat % 32 = c at *
  generalize offset.toNat % 32 = o at *
  rw [if_pos (by omega)]
  have hmask : (BitVec.twoPow 32 (min c (32 - o)) - 1) <<< o = (BitVec.twoPow 32 c - 1) <<< o := by
    apply BitVec.eq_of_getLsbD_eq
    intro i hi
    rw [BitVec.getLsbD_shiftLeft, BitVec.getLsbD_shiftLeft]
    by_cases ho : i < o
    · simp [ho]
    · rw [getLsbD_lowMask (by omega), getLsbD_lowMask (by omega)]
      have hiff : i - o < min c (32 - o) ↔ i - o < c := by omega
      simp only [hiff]
  rw [hmask]

/-- Every scan and every bit field is what the instruction stands for. -/
theorem bitInstructions_eq (u : Undefined 32) :
    (∀ (w : Nat) (_ : w = 16 ∨ w = 32 ∨ w = 64) (value : IntValue w) (i : Fin value.numElements),
      emitFindLowBitInstruction u value i = firstbitLo (value.lane i) ∧
      emitFindHighBitInstruction u value .findUMsb i = firstbitHi (value.lane i) ∧
      emitFindHighBitInstruction u value .findSMsb i = firstbitSHi (value.lane i)) ∧
    ∀ width offset src base : BitVec 32,
      emitBfeInstruction u true width offset src = bfe true width offset src ∧
      emitBfeInstruction u false width offset src = bfe false width offset src ∧
      emitBfiInstruction u width offset src base = bfi width offset src base := by
  refine ⟨fun w hw value i => ⟨emitNativeBitscan_findILsb hw i, ?_, ?_⟩,
      fun width offset src base =>
    ⟨emitBfeInstruction_eq true src, emitBfeInstruction_eq false src,
      emitBfiInstruction_eq src base⟩⟩
  · unfold emitFindHighBitInstruction
    simp only
    rw [emitNativeBitscan_findUMsb hw i]
    exact select_sub_indexWord (by omega) (by omega) fun k hk => lt_of_firstIndex hk
  · unfold emitFindHighBitInstruction
    simp only
    rw [emitNativeBitscan_findSMsb hw i]
    exact select_sub_indexWord (by omega) (by omega) fun k hk => lt_of_firstIndex hk

/-- The signed scan of a long vector of 64-bit values. -/
theorem bitInstructions_eq_64 :
    emitFindHighBitInstruction ⟨fun _ _ => 0, fun _ _ _ => 0, fun _ => 0, fun _ => 0⟩
        ⟨true, 5, by simp, fun _ => 0xFFFFFFFF40000000#64⟩ .findSMsb 1 =
      firstbitSHi 0xFFFFFFFF40000000#64 :=
  ((bitInstructions_eq ⟨fun _ _ => 0, fun _ _ _ => 0, fun _ => 0, fun _ => 0⟩).1 64
    (Or.inr (Or.inr rfl)) ⟨true, 5, by simp, fun _ => 0xFFFFFFFF40000000#64⟩ 1).2.2

end DxilSpirv.Convert
