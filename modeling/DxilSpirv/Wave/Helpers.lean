import DxilSpirv.Spirv.Subgroup
import Mathlib.Data.Fintype.Card

/-!
# The helper functions of the wave operations

WaveMatch, the multi-prefix operations and the masked WaveReadLaneFirst as the functions the module
builds for them: a value for each lane, and waterfall loops over the lanes that are left. The
functions are built in two variants. Where helper lanes participate in wave operations there is no
helper parameter and every active lane counts; otherwise helper lanes return early.
-/

namespace DxilSpirv

open Spirv

/-- The operations of a multi-prefix, on integers. -/
inductive MultiPrefixOp
  | iAdd
  | iMul
  | bitwiseAnd
  | bitwiseOr
  | bitwiseXor
  deriving DecidableEq

namespace MultiPrefixOp

variable {w k : Nat}

/-- The operation on one component. -/
def apply : MultiPrefixOp → BitVec w → BitVec w → BitVec w
  | iAdd => (· + ·)
  | iMul => (· * ·)
  | bitwiseAnd => (· &&& ·)
  | bitwiseOr => (· ||| ·)
  | bitwiseXor => (· ^^^ ·)

/-- What a scan starts from. -/
def identity : MultiPrefixOp → BitVec w
  | iAdd => 0
  | iMul => 1
  | bitwiseAnd => BitVec.allOnes w
  | bitwiseOr => 0
  | bitwiseXor => 0

/-- The exclusive scan of vectors goes component by component. -/
def scan {n : Nat} (op : MultiPrefixOp) (active : Finset (Fin n))
    (value : Fin n → Fin k → BitVec w) (lane : Fin n) : Fin k → BitVec w :=
  exclusiveScan (fun a b c => op.apply (a c) (b c)) (fun _ => op.identity) active value lane

end MultiPrefixOp

variable {n : Nat} {β σ : Type} (helperLanesParticipate : Bool) (isHelper : Fin n → Bool)

/-- The lanes that do not return early. -/
def participants (active : Finset (Fin n)) : Finset (Fin n) :=
  active.filter fun lane => helperLanesParticipate || !isHelper lane

/-- The branch to `return_block` for helper lanes, unless they participate. -/
def unlessHelper (undef : β) (inner : Finset (Fin n) → Fin n → Option β)
    (active : Finset (Fin n)) (lane : Fin n) : Option β :=
  if !helperLanesParticipate && isHelper lane then some undef
  else inner (participants helperLanesParticipate isHelper active) lane

/-- `compare_reduce`: a lane agrees with the first active lane in every component. -/
def agreesWithFirst [DecidableEq σ] {k : Nat} (turnActive : Finset (Fin n))
    (value : Fin n → Fin k → σ) (lane : Fin n) : Bool :=
  decide (∀ c, value lane c = broadcastFirst turnActive value lane c)

/-- `WaveMatch`. -/
def waveMatch [DecidableEq σ] {k : Nat} (undef : Uvec4) (value : Fin n → Fin k → σ) (fuel : Nat) :
    Finset (Fin n) → Fin n → Option Uvec4 :=
  unlessHelper helperLanesParticipate isHelper undef <|
    waterfall (fun turnActive lane => (agreesWithFirst turnActive value lane,
      ballot turnActive (agreesWithFirst turnActive value))) fuel

/-- The partition mask without the lanes that are not active. -/
def activeMask (active : Finset (Fin n)) (mask : Fin n → Uvec4) (lane : Fin n) : Uvec4 :=
  (ballot active fun _ => true).and (mask lane)

/-- `WaveMultiPrefix`: the lanes with the mask of the first active lane scan. -/
def waveMultiPrefix {w k : Nat} (op : MultiPrefixOp) (undef : Fin k → BitVec w)
    (value : Fin n → Fin k → BitVec w) (mask : Fin n → Uvec4) (fuel : Nat) :
    Finset (Fin n) → Fin n → Option (Fin k → BitVec w) :=
  unlessHelper helperLanesParticipate isHelper undef fun active =>
    let mask := activeMask active mask
    waterfall (fun turnActive lane => (agreesWithFirst turnActive mask lane,
      if agreesWithFirst turnActive mask lane then
        op.scan (turnActive.filter fun j => agreesWithFirst turnActive mask j = true) value lane
      else undef)) fuel active

/-- `WaveMultiPrefixCountBits`: a ballot over the lanes with the mask of the first active lane. -/
def waveMultiPrefixCountBits (undef : BitVec 32) (value : Fin n → Bool) (mask : Fin n → Uvec4)
    (fuel : Nat) : Finset (Fin n) → Fin n → Option (BitVec 32) :=
  unlessHelper helperLanesParticipate isHelper undef fun active =>
    let mask := activeMask active mask
    waterfall (fun turnActive lane => (agreesWithFirst turnActive mask lane,
      ballotBitCountExclusive
        (ballot turnActive fun j => agreesWithFirst turnActive mask j && value j) lane)) fuel active

/-- The masked `WaveReadFirstLane`; every active lane runs it, helper lanes too. -/
def waveReadFirstLane (undefLsb : BitVec 32) (undef null : β) (value : Fin n → β)
    (active : Finset (Fin n)) : β :=
  let real := ballot active fun lane => !isHelper lane
  let shuffled := shuffle active undef value (ballotFindLSB n undefLsb real)
  if ballotBitCountReduce n real ≠ 0 then shuffled else null

variable {k : Nat} [DecidableEq σ] {active turnActive : Finset (Fin n)} {value : Fin n → Fin k → σ}
  {lane f : Fin n}

theorem agreesWithFirst_iff (h : firstLane turnActive = some f) :
    agreesWithFirst turnActive value lane = true ↔ value lane = value f := by
  rw [agreesWithFirst, decide_eq_true_iff, broadcastFirst_eq h, funext_iff]

/-- Lanes leave the loops of the helper functions by their value. -/
theorem leavesByKey_agreesWithFirst {β : Type} (value : Fin n → Fin k → σ)
    (result : Finset (Fin n) → Fin n → β) :
    LeavesByKey (fun turnActive lane =>
      (agreesWithFirst turnActive value lane, result turnActive lane)) value :=
  fun _ _ hf _ _ => agreesWithFirst_iff hf

/-- The lanes that agree in the turn in which a lane leaves are those with its value. -/
theorem mem_and_agreesWithFirst_iff (h : LeavingTurn active turnActive value lane f) (j : Fin n) :
    j ∈ turnActive ∧ agreesWithFirst turnActive value j = true ↔
      j ∈ active ∧ value j = value lane := by
  rw [agreesWithFirst_iff h.first, h.key_first]
  constructor
  · rintro ⟨hj, hvalue⟩
    exact ⟨h.subset hj, hvalue⟩
  · rintro ⟨hj, hvalue⟩
    exact ⟨h.mem_of_key j hj hvalue, hvalue⟩

variable {π : Type} {mask : Fin n → Uvec4} {part : Fin n → π}

/-- A family of masks that stands for a partition of the lanes. -/
structure Partitioned (active : Finset (Fin n)) (mask : Fin n → Uvec4) (part : Fin n → π) :
    Prop where
  equal : ∀ i ∈ active, ∀ j ∈ active, part i = part j → mask i = mask j
  disjoint : ∀ i ∈ active, ∀ j ∈ active, part i ≠ part j →
    ∀ b < 128, (mask i).bit b = true → (mask j).bit b = false
  own : ∀ i ∈ active, (mask i).bit i = true

/-- Lanes share the active part of their masks exactly when they share a partition. -/
theorem activeMask_eq_iff (hn : n ≤ 128) (h : Partitioned active mask part) {i j : Fin n}
    (hi : i ∈ active) (hj : j ∈ active) :
    activeMask active mask i = activeMask active mask j ↔ part i = part j := by
  constructor
  · intro heq
    by_contra hne
    have hbit : (activeMask active mask i).bit i = true := by
      rw [activeMask, Uvec4.bit_and, h.own i hi, bit_ballot hn, decide_eq_true hi]
      rfl
    rw [heq, activeMask, Uvec4.bit_and, Bool.and_eq_true] at hbit
    have hfalse := h.disjoint i hi j hj hne i (by omega) (h.own i hi)
    rw [hbit.2] at hfalse
    exact Bool.noConfusion hfalse
  · intro heq
    rw [activeMask, activeMask, h.equal i hi j hj heq]

variable {helperLanesParticipate isHelper} {fuel : Nat}

/-- A participant takes the inner path, with all the other participants. -/
theorem unlessHelper_of_mem {β : Type} {undef : β} {inner : Finset (Fin n) → Fin n → Option β}
    (h : lane ∈ participants helperLanesParticipate isHelper active) :
    unlessHelper helperLanesParticipate isHelper undef inner active lane =
      inner (participants helperLanesParticipate isHelper active) lane := by
  have hstay := (Finset.mem_filter.mp h).2
  have hnot : (!helperLanesParticipate && isHelper lane) = false := by
    cases helperLanesParticipate <;> simp_all
  rw [unlessHelper, hnot, if_neg Bool.false_ne_true]

/-- Any other lane returns without waiting for the loop. -/
theorem unlessHelper_of_notMem {β : Type} {undef : β} {inner : Finset (Fin n) → Fin n → Option β}
    (hactive : lane ∈ active) (h : lane ∉ participants helperLanesParticipate isHelper active) :
    unlessHelper helperLanesParticipate isHelper undef inner active lane = some undef := by
  have hleave : (!helperLanesParticipate && isHelper lane) = true := by
    rw [participants, Finset.mem_filter, not_and] at h
    have hnot := h hactive
    cases helperLanesParticipate <;> simp_all
  rw [unlessHelper, hleave, if_pos rfl]

/-- The participants are among the lanes of the subgroup, so that `n` turns suffice. -/
theorem card_participants_le (hfuel : n ≤ fuel) :
    (participants helperLanesParticipate isHelper active).card ≤ fuel :=
  (Finset.card_le_univ _).trans ((Fintype.card_fin n).trans_le hfuel)

/-- WaveMatch is the ballot of the participants with the value of the lane. -/
theorem waveMatch_eq {k : Nat} {σ : Type} [DecidableEq σ] (undef : Uvec4)
    (value : Fin n → Fin k → σ) (hfuel : n ≤ fuel)
    (h : lane ∈ participants helperLanesParticipate isHelper active) :
    waveMatch helperLanesParticipate isHelper undef value fuel active lane =
      some (ballot (participants helperLanesParticipate isHelper active)
        fun j => decide (value j = value lane)) := by
  rw [waveMatch, unlessHelper_of_mem h]
  obtain ⟨turnActive, f, hturn, hrun⟩ := waterfall_of_key
    (leavesByKey_agreesWithFirst value
      fun turnActive _ => ballot turnActive (agreesWithFirst turnActive value))
    h (card_participants_le hfuel)
  rw [hrun]
  congr 1
  apply ballot_congr
  intro j
  rw [mem_and_agreesWithFirst_iff hturn, decide_eq_true_iff]

/-- In the turn in which a lane leaves, its partition is what agrees with the first lane. -/
theorem mem_and_sharesMask_iff (hn : n ≤ 128) {turnActive : Finset (Fin n)} {f : Fin n}
    (hpart : Partitioned active mask part) (hlane : lane ∈ active)
    (h : LeavingTurn active turnActive (activeMask active mask) lane f) (j : Fin n) :
    j ∈ turnActive ∧ agreesWithFirst turnActive (activeMask active mask) j = true ↔
      j ∈ active ∧ part j = part lane := by
  rw [mem_and_agreesWithFirst_iff h]
  apply and_congr_right
  intro hj
  exact activeMask_eq_iff hn hpart hj hlane

variable [DecidableEq π]

/-- A multi-prefix is the scan of the lanes of one partition. -/
theorem waveMultiPrefix_eq (hn : n ≤ 128) {w k : Nat} (op : MultiPrefixOp)
    (undef : Fin k → BitVec w) (value : Fin n → Fin k → BitVec w) (hfuel : n ≤ fuel)
    (hpart : Partitioned (participants helperLanesParticipate isHelper active) mask part)
    (h : lane ∈ participants helperLanesParticipate isHelper active) :
    waveMultiPrefix helperLanesParticipate isHelper op undef value mask fuel active lane =
      some (op.scan ((participants helperLanesParticipate isHelper active).filter
        fun j => part j = part lane) value lane) := by
  rw [waveMultiPrefix, unlessHelper_of_mem h]
  obtain ⟨turnActive, f, hturn, hrun⟩ := waterfall_of_key
    (leavesByKey_agreesWithFirst (activeMask _ mask) fun turnActive lane =>
      if agreesWithFirst turnActive (activeMask _ mask) lane then
        op.scan (turnActive.filter fun j => agreesWithFirst turnActive (activeMask _ mask) j = true)
          value lane
      else undef)
    h (card_participants_le hfuel)
  have hscan := mem_and_sharesMask_iff hn hpart h hturn
  have hset : (turnActive.filter fun j => agreesWithFirst turnActive (activeMask
      (participants helperLanesParticipate isHelper active) mask) j = true) =
      (participants helperLanesParticipate isHelper active).filter
        fun j => part j = part lane := by
    ext j
    rw [Finset.mem_filter, Finset.mem_filter, hscan]
  rw [hrun, if_pos ((hscan lane).mpr ⟨h, rfl⟩).2, hset]

/-- The count of bits is over the lanes of one partition that come before. -/
theorem waveMultiPrefixCountBits_eq (hn : n ≤ 128) (undef : BitVec 32) (value : Fin n → Bool)
    (hfuel : n ≤ fuel)
    (hpart : Partitioned (participants helperLanesParticipate isHelper active) mask part)
    (h : lane ∈ participants helperLanesParticipate isHelper active) :
    ∃ count, waveMultiPrefixCountBits helperLanesParticipate isHelper undef value mask fuel active
        lane = some count ∧
      count.toNat = (lowerLanes ((participants helperLanesParticipate isHelper active).filter
        fun j => part j = part lane) lane).countP value := by
  rw [waveMultiPrefixCountBits, unlessHelper_of_mem h]
  obtain ⟨turnActive, f, hturn, hrun⟩ := waterfall_of_key
    (leavesByKey_agreesWithFirst (activeMask _ mask) fun turnActive lane => ballotBitCountExclusive
      (ballot turnActive fun j =>
        agreesWithFirst turnActive (activeMask _ mask) j && value j) lane)
    h (card_participants_le hfuel)
  have hscan := mem_and_sharesMask_iff hn hpart h hturn
  refine ⟨_, hrun, ?_⟩
  have hballot : (ballot turnActive fun j => agreesWithFirst turnActive (activeMask
      (participants helperLanesParticipate isHelper active) mask) j && value j) =
      ballot ((participants helperLanesParticipate isHelper active).filter
        fun j => part j = part lane) value := by
    apply ballot_congr
    intro j
    rw [Bool.and_eq_true, ← and_assoc, hscan, Finset.mem_filter]
  change (ballotBitCountExclusive (ballot turnActive _) lane).toNat = _
  rw [hballot, toNat_ballotBitCountExclusive hn]

/-- The masked read gives every active lane the value of the first one that is no helper. -/
theorem waveReadFirstLane_eq (hn : n ≤ 128) {β : Type} (undefLsb : BitVec 32) (undef null : β)
    (value : Fin n → β) :
    waveReadFirstLane isHelper undefLsb undef null value active =
      (firstLane (participants false isHelper active)).elim null value := by
  have hreal : (active.filter fun lane => (!isHelper lane) = true) =
      participants false isHelper active := by
    unfold participants
    rfl
  simp only [waveReadFirstLane]
  rw [ballotFindLSB_ballot hn, hreal]
  cases hf : firstLane (participants false isHelper active) with
  | none =>
    have hzero : ballotBitCountReduce n (ballot active fun lane => !isHelper lane) = 0 := by
      rw [ballotBitCountReduce_eq_zero hn, hreal]
      exact hf
    simp only [hzero, ne_eq, not_true_eq_false, if_false, Option.elim_none]
  | some f =>
    have hnonzero : ballotBitCountReduce n (ballot active fun lane => !isHelper lane) ≠ 0 := by
      intro h
      have hnone := (ballotBitCountReduce_eq_zero hn).mp h
      rw [hreal, hf] at hnone
      exact Option.some_ne_none f hnone
    have hactive : f ∈ active := (Finset.mem_filter.mp (firstLane_mem hf)).1
    have hid : (BitVec.ofNat 32 f.val).toNat = f.val := by
      rw [BitVec.toNat_ofNat, Nat.mod_eq_of_lt (by omega)]
    simp only [hnonzero, ne_eq, not_false_eq_true, if_true, Option.elim_some, shuffle, hid]
    rw [dif_pos f.isLt, if_pos hactive]

/-- The helper functions give every participant the reference result. -/
structure WaveHelpersCorrect {n : Nat} (helperLanesParticipate : Bool) (isHelper : Fin n → Bool)
    (active : Finset (Fin n)) (fuel : Nat) : Prop where
  /-- WaveMatch is the ballot of the participants that hold an equal value. -/
  waveMatch : ∀ (k : Nat) (σ : Type) [DecidableEq σ] (undef : Uvec4) (value : Fin n → Fin k → σ),
    ∀ lane ∈ participants helperLanesParticipate isHelper active,
      waveMatch helperLanesParticipate isHelper undef value fuel active lane =
        some (ballot (participants helperLanesParticipate isHelper active)
          fun j => decide (value j = value lane))
  /-- A multi-prefix combines the lower-numbered participants of the partition. -/
  waveMultiPrefix : ∀ (w k : Nat) (π : Type) [DecidableEq π] (op : MultiPrefixOp)
    (undef : Fin k → BitVec w) (value : Fin n → Fin k → BitVec w) (mask : Fin n → Uvec4)
    (part : Fin n → π),
    Partitioned (participants helperLanesParticipate isHelper active) mask part →
    ∀ lane ∈ participants helperLanesParticipate isHelper active,
      waveMultiPrefix helperLanesParticipate isHelper op undef value mask fuel active lane =
        some (op.scan ((participants helperLanesParticipate isHelper active).filter
          fun j => part j = part lane) value lane)
  /-- The count of bits is that of the lower-numbered participants of the partition. -/
  waveMultiPrefixCountBits : ∀ (π : Type) [DecidableEq π] (undef : BitVec 32)
    (value : Fin n → Bool) (mask : Fin n → Uvec4) (part : Fin n → π),
    Partitioned (participants helperLanesParticipate isHelper active) mask part →
    ∀ lane ∈ participants helperLanesParticipate isHelper active,
      ∃ count, waveMultiPrefixCountBits helperLanesParticipate isHelper undef value mask fuel active
          lane = some count ∧
        count.toNat = (lowerLanes ((participants helperLanesParticipate isHelper active).filter
          fun j => part j = part lane) lane).countP value
  /-- Helper lanes that return early do so at once. -/
  returns : ∀ (β : Type) (undef : β) (inner : Finset (Fin n) → Fin n → Option β),
    ∀ lane ∈ active, lane ∉ participants helperLanesParticipate isHelper active →
      unlessHelper helperLanesParticipate isHelper undef inner active lane = some undef
  /-- The masked read is the value of the first lane that is no helper, or null without one. -/
  waveReadFirstLane : ∀ (β : Type) (undefLsb : BitVec 32) (undef null : β) (value : Fin n → β),
    waveReadFirstLane isHelper undefLsb undef null value active =
      (firstLane (participants false isHelper active)).elim null value

/-- The helper functions are correct for every subgroup of up to 128 lanes. -/
theorem waveHelpers_correct {n : Nat} (hn : n ≤ 128) (helperLanesParticipate : Bool)
    (isHelper : Fin n → Bool) (active : Finset (Fin n)) {fuel : Nat} (hfuel : n ≤ fuel) :
    WaveHelpersCorrect helperLanesParticipate isHelper active fuel where
  waveMatch _ _ _ undef value _ h := waveMatch_eq undef value hfuel h
  waveMultiPrefix _ _ _ _ op undef value _ _ hpart _ h :=
    waveMultiPrefix_eq hn op undef value hfuel hpart h
  waveMultiPrefixCountBits _ _ undef value _ _ hpart _ h :=
    waveMultiPrefixCountBits_eq hn undef value hfuel hpart h
  returns _ _ _ _ hactive h := unlessHelper_of_notMem hactive h
  waveReadFirstLane _ undefLsb undef null value := waveReadFirstLane_eq hn undefLsb undef null value

/-- The second lane of a quad is a helper. -/
def secondIsHelper (lane : Fin 4) : Bool := decide (lane = 1)

/-- Masks of two partitions, the even and the odd lanes, which name inactive lanes too. -/
def parityMask (lane : Fin 4) : Uvec4 :=
  Uvec4.ofBits fun i => decide (i % 2 = lane.val % 2)

theorem parityMask_partitioned (active : Finset (Fin 4)) :
    Partitioned active parityMask fun lane => lane.val % 2 where
  equal i _ j _ h := by
    unfold parityMask
    rw [h]
  disjoint i _ j _ hne b hb hi := by
    rw [parityMask, Uvec4.bit_ofBits hb, decide_eq_true_iff] at hi
    rw [parityMask, Uvec4.bit_ofBits hb, decide_eq_false_iff_not, hi]
    exact hne
  own i _ := by
    rw [parityMask, Uvec4.bit_ofBits (by omega), decide_eq_true_iff]

/-- The first lane of the odd partition that is no helper starts its sum. -/
theorem waveMultiPrefix_quad :
    waveMultiPrefix false secondIsHelper .iAdd (fun _ : Fin 1 => (7 : BitVec 32))
      (fun lane _ => BitVec.ofNat 32 lane) parityMask 4 {0, 1, 2, 3} 3 = some fun _ => 0 :=
  ((waveHelpers_correct (by decide) false secondIsHelper {0, 1, 2, 3} (le_refl 4)).waveMultiPrefix
    32 1 Nat .iAdd (fun _ => 7) (fun lane _ => BitVec.ofNat 32 lane) parityMask _
    (parityMask_partitioned _) 3 (by decide)).trans rfl

/-- Where helper lanes participate they are part of the ballot of WaveMatch. -/
theorem waveMatch_of_participating_helper :
    waveMatch true secondIsHelper (fun _ => 0) (fun _ : Fin 4 => fun _ : Fin 1 => true) 4
        {0, 1, 2, 3} 0 ≠
      some (ballot (({0, 1, 2, 3} : Finset (Fin 4)).filter fun lane => secondIsHelper lane = false)
        fun _ => true) := by
  intro h
  have hbit := congrArg (Option.map fun b : Uvec4 => b.bit 1) h
  exact absurd hbit (by decide)

end DxilSpirv
