import Mathlib

/-!
# Subgroup operations

The lanes of a subgroup run in lockstep: an instruction sees the set of active lanes and one value
for each lane. A waterfall loop lets some lanes leave in every turn; when those are the lanes that
agree with the first active one in a key, lanes with equal keys leave together.
-/

namespace DxilSpirv.Spirv

/-- A vector of four words, which holds one bit for each lane. -/
abbrev Uvec4 := Fin 4 → BitVec 32

/-- The bit of a lane. -/
def Uvec4.bit (b : Uvec4) (lane : Nat) : Bool :=
  if h : lane / 32 < 4 then (b ⟨lane / 32, h⟩).getLsbD (lane % 32) else false

/-- `OpBitwiseAnd` on vectors. -/
def Uvec4.and (a b : Uvec4) : Uvec4 := fun c => a c &&& b c

/-- The vector with the given bits. -/
def Uvec4.ofBits (f : Nat → Bool) : Uvec4 := fun c =>
  (BitVec.ofBoolListLE ((List.range 32).map fun b => f (32 * c + b))).setWidth 32

variable {a b : Uvec4}

@[simp] theorem Uvec4.bit_and (lane : Nat) : (a.and b).bit lane = (a.bit lane && b.bit lane) := by
  unfold Uvec4.bit Uvec4.and
  split
  · rw [BitVec.getLsbD_and]
  · rfl

@[simp] theorem Uvec4.bit_ofBits {f : Nat → Bool} {lane : Nat} (h : lane < 128) :
    (Uvec4.ofBits f).bit lane = f lane := by
  have hc : lane / 32 < 4 := by omega
  have hb : lane % 32 < 32 := by omega
  have hlane : 32 * (lane / 32) + lane % 32 = lane := Nat.div_add_mod lane 32
  rw [Uvec4.bit, dif_pos hc, Uvec4.ofBits, BitVec.getLsbD_setWidth, BitVec.getLsbD_ofBoolListLE]
  simp [hb, hlane]

variable {n : Nat} {α β : Type}

/-- The first active lane. -/
def firstLane (active : Finset (Fin n)) : Option (Fin n) :=
  (List.finRange n).find? fun lane => decide (lane ∈ active)

/-- The active lanes before a lane, in order. -/
def lowerLanes (active : Finset (Fin n)) (lane : Fin n) : List (Fin n) :=
  (List.finRange n).filter fun j => decide (j ∈ active ∧ j < lane)

/-- The active lanes, in order. -/
def activeLanes (active : Finset (Fin n)) : List (Fin n) :=
  (List.finRange n).filter fun j => decide (j ∈ active)

/-- `OpGroupNonUniformBroadcastFirst`. -/
def broadcastFirst (active : Finset (Fin n)) (value : Fin n → α) (lane : Fin n) : α :=
  value ((firstLane active).getD lane)

/-- `OpGroupNonUniformBallot`. -/
def ballot (active : Finset (Fin n)) (predicate : Fin n → Bool) : Uvec4 :=
  Uvec4.ofBits fun i => if h : i < n then decide (⟨i, h⟩ ∈ active) && predicate ⟨i, h⟩ else false

/-- An arithmetic or bitwise operation of the group with `ExclusiveScan`. -/
def exclusiveScan (op : α → α → α) (identity : α) (active : Finset (Fin n)) (value : Fin n → α)
    (lane : Fin n) : α :=
  (lowerLanes active lane).foldl (fun acc j => op acc (value j)) identity

/-- An arithmetic or bitwise operation of the group with `Reduce`. -/
def reduce (op : α → α → α) (identity : α) (active : Finset (Fin n)) (value : Fin n → α) : α :=
  (activeLanes active).foldl (fun acc j => op acc (value j)) identity

/-- `OpGroupNonUniformBallotBitCount` with `ExclusiveScan`. -/
def ballotBitCountExclusive (b : Uvec4) (lane : Fin n) : BitVec 32 :=
  BitVec.ofNat 32 ((List.finRange n).countP fun j : Fin n => decide (j < lane) && b.bit j)

/-- `OpGroupNonUniformBallotBitCount` with `Reduce`. -/
def ballotBitCountReduce (n : Nat) (b : Uvec4) : BitVec 32 :=
  BitVec.ofNat 32 ((List.finRange n).countP fun j : Fin n => b.bit j)

/-- `OpGroupNonUniformBallotFindLSB`, which has no defined result for an empty ballot. -/
def ballotFindLSB (n : Nat) (undef : BitVec 32) (b : Uvec4) : BitVec 32 :=
  ((List.finRange n).find? fun j : Fin n => b.bit j).elim undef fun j => BitVec.ofNat 32 j

/-- `OpGroupNonUniformShuffle`, which has no defined result for a lane that is not active. -/
def shuffle (active : Finset (Fin n)) (undef : α) (value : Fin n → α) (id : BitVec 32) : α :=
  if h : id.toNat < n then if ⟨id.toNat, h⟩ ∈ active then value ⟨id.toNat, h⟩ else undef else undef

/-- A waterfall loop: every turn computes on the active lanes and lets some of them leave with
what they computed. -/
def waterfall (turn : Finset (Fin n) → Fin n → Bool × β) :
    Nat → Finset (Fin n) → Fin n → Option β
  | 0, _, _ => none
  | fuel + 1, active, lane =>
    if (turn active lane).1 then some (turn active lane).2
    else waterfall turn fuel (active.filter fun j => (turn active j).1 = false) lane

variable {active : Finset (Fin n)} {lane f : Fin n}

theorem firstLane_mem (h : firstLane active = some f) : f ∈ active := by
  have hf := List.find?_some h
  exact of_decide_eq_true hf

/-- A subgroup with an active lane has a first one. -/
theorem exists_firstLane (h : lane ∈ active) : ∃ f, firstLane active = some f := by
  apply Option.isSome_iff_exists.mp
  rw [firstLane, List.find?_isSome]
  exact ⟨lane, List.mem_finRange lane, decide_eq_true h⟩

/-- A broadcast has the value of the first lane. -/
theorem broadcastFirst_eq {α : Type} (h : firstLane active = some f) (value : Fin n → α) :
    broadcastFirst active value lane = value f := by
  rw [broadcastFirst, h, Option.getD_some]

/-- No active lane comes before the first one. -/
theorem firstLane_le (h : firstLane active = some f) (hlane : lane ∈ active) : f ≤ lane := by
  by_contra hlt
  obtain ⟨-, before, after, hsplit, hbefore⟩ := List.find?_eq_some_iff_append.mp h
  have hsorted := List.pairwise_lt_finRange n
  have hmem := List.mem_finRange lane
  rw [hsplit] at hsorted hmem
  rcases List.mem_append.mp hmem with hin | hin
  · have hno := hbefore lane hin
    simp [hlane] at hno
  · rcases List.mem_cons.mp hin with rfl | hin
    · exact hlt (le_refl _)
    · have hcons := (List.pairwise_append.mp hsorted).2.1
      exact hlt ((List.pairwise_cons.mp hcons).1 lane hin).le

/-- The first lane is the first of every part that it is in. -/
theorem firstLane_filter {p : Fin n → Prop} [DecidablePred p] (h : firstLane active = some f)
    (hp : p f) :
    firstLane (active.filter p) = some f := by
  have hmem : f ∈ active.filter p := Finset.mem_filter.mpr ⟨firstLane_mem h, hp⟩
  obtain ⟨g, hg⟩ := exists_firstLane hmem
  have hgf := firstLane_le hg hmem
  have hfg := firstLane_le h (Finset.mem_filter.mp (firstLane_mem hg)).1
  rw [hg, le_antisymm hgf hfg]

variable {active' : Finset (Fin n)} {predicate predicate' : Fin n → Bool}

/-- A ballot has the bits of the active lanes at which the predicate holds. -/
theorem bit_ballot (hn : n ≤ 128) :
    (ballot active predicate).bit lane = (decide (lane ∈ active) && predicate lane) := by
  rw [ballot, Uvec4.bit_ofBits (by omega), dif_pos lane.isLt]

theorem bit_ballot_iff (hn : n ≤ 128) :
    (ballot active predicate).bit lane = true ↔ lane ∈ active ∧ predicate lane = true := by
  rw [bit_ballot hn, Bool.and_eq_true, decide_eq_true_iff]

/-- A ballot only depends on the lanes that vote for it. -/
theorem ballot_congr
    (h : ∀ j, j ∈ active ∧ predicate j = true ↔ j ∈ active' ∧ predicate' j = true) :
    ballot active predicate = ballot active' predicate' := by
  unfold ballot
  congr 1
  funext i
  by_cases hi : i < n
  · rw [dif_pos hi, dif_pos hi, Bool.eq_iff_iff, Bool.and_eq_true, Bool.and_eq_true,
      decide_eq_true_iff, decide_eq_true_iff]
    exact h ⟨i, hi⟩
  · rw [dif_neg hi, dif_neg hi]

/-- The lowest bit of a ballot is that of the first lane that votes for it. -/
theorem ballotFindLSB_ballot (hn : n ≤ 128) (undef : BitVec 32) :
    ballotFindLSB n undef (ballot active predicate) =
      (firstLane (active.filter fun j => predicate j = true)).elim undef
        fun j => BitVec.ofNat 32 j := by
  unfold ballotFindLSB firstLane
  congr 2
  funext j
  rw [Bool.eq_iff_iff, bit_ballot_iff hn, decide_eq_true_iff, Finset.mem_filter]

/-- A ballot counts nothing exactly when no lane votes for it. -/
theorem ballotBitCountReduce_eq_zero (hn : n ≤ 128) :
    ballotBitCountReduce n (ballot active predicate) = 0 ↔
      firstLane (active.filter fun j => predicate j = true) = none := by
  have hle : (List.finRange n).countP (fun j : Fin n => (ballot active predicate).bit j) ≤ n :=
    List.countP_le_length.trans_eq List.length_finRange
  have hzero : ballotBitCountReduce n (ballot active predicate) = 0 ↔
      (List.finRange n).countP (fun j : Fin n => (ballot active predicate).bit j) = 0 := by
    rw [← BitVec.toNat_inj, ballotBitCountReduce, BitVec.toNat_ofNat, Nat.mod_eq_of_lt (by omega)]
    rfl
  rw [hzero, List.countP_eq_zero, firstLane, List.find?_eq_none]
  apply forall₂_congr
  intro j _
  rw [bit_ballot_iff hn, decide_eq_true_iff, Finset.mem_filter]

/-- The exclusive count of a ballot counts the lanes before. -/
theorem toNat_ballotBitCountExclusive (hn : n ≤ 128) :
    (ballotBitCountExclusive (ballot active predicate) lane).toNat =
      (lowerLanes active lane).countP predicate := by
  have hcount : (List.finRange n).countP (fun j : Fin n => decide (j < lane) &&
      (ballot active predicate).bit j) = (lowerLanes active lane).countP predicate := by
    rw [lowerLanes, List.countP_filter]
    apply List.countP_congr
    intro j _
    rw [bit_ballot hn]
    simp only [Bool.and_eq_true, decide_eq_true_iff]
    constructor
    · rintro ⟨hlt, hmem, hp⟩
      exact ⟨hp, hmem, hlt⟩
    · rintro ⟨hp, hmem, hlt⟩
      exact ⟨hlt, hmem, hp⟩
  have hle : (lowerLanes active lane).countP predicate ≤ n := by
    apply List.countP_le_length.trans
    exact (List.length_filter_le ..).trans_eq List.length_finRange
  rw [ballotBitCountExclusive, hcount, BitVec.toNat_ofNat, Nat.mod_eq_of_lt (by omega)]

variable {w : Nat} {value : Fin n → BitVec w}

/-- Adding words adds their numbers. -/
theorem foldl_add_eq_ofNat (lanes : List (Fin n)) (value : Fin n → BitVec w) (acc : BitVec w) :
    lanes.foldl (fun acc j => acc + value j) acc =
      acc + BitVec.ofNat w (lanes.map fun j => (value j).toNat).sum := by
  induction lanes generalizing acc with
  | nil => rw [List.foldl_nil, List.map_nil, List.sum_nil, BitVec.add_zero]
  | cons lane lanes ih =>
    rw [List.foldl_cons, ih, List.map_cons, List.sum_cons, BitVec.ofNat_add, BitVec.ofNat_toNat,
      BitVec.setWidth_eq, BitVec.add_assoc]

theorem reduce_add_eq_ofNat :
    reduce (· + ·) 0#w active value = BitVec.ofNat w (∑ j ∈ active, (value j).toNat) := by
  have hnodup : (activeLanes active).Nodup := (List.nodup_finRange n).filter _
  have hactive : (activeLanes active).toFinset = active := by
    ext j
    simp [activeLanes]
  rw [reduce, foldl_add_eq_ofNat, BitVec.zero_add, ← List.sum_toFinset _ hnodup, hactive]

theorem exclusiveScan_add_eq_ofNat (lane : Fin n) :
    exclusiveScan (· + ·) 0#w active value lane =
      BitVec.ofNat w (∑ j ∈ active with j < lane, (value j).toNat) := by
  have hnodup : (lowerLanes active lane).Nodup := (List.nodup_finRange n).filter _
  have hlower : (lowerLanes active lane).toFinset = active.filter (· < lane) := by
    ext j
    simp [lowerLanes]
  rw [exclusiveScan, foldl_add_eq_ofNat, BitVec.zero_add, ← List.sum_toFinset _ hnodup, hlower]

/-- A bit is in the disjunction of a list just when some lane has it. -/
theorem getLsbD_foldl_or (lanes : List (Fin n)) (acc : BitVec w) (b : Nat) :
    (lanes.foldl (fun acc j => acc ||| value j) acc).getLsbD b = true ↔
      acc.getLsbD b = true ∨ ∃ j ∈ lanes, (value j).getLsbD b = true := by
  induction lanes generalizing acc with
  | nil => simp
  | cons lane lanes ih =>
    rw [List.foldl_cons, ih, BitVec.getLsbD_or, Bool.or_eq_true, or_assoc]
    simp only [List.mem_cons, exists_eq_or_imp]

/-- A bit is in the disjunction of the active lanes just when one of them has it. -/
theorem getLsbD_reduce_or (b : Nat) :
    (reduce (· ||| ·) 0#w active value).getLsbD b = true ↔
      ∃ j ∈ active, (value j).getLsbD b = true := by
  rw [reduce, getLsbD_foldl_or]
  simp [activeLanes]

variable {κ : Type} {turn : Finset (Fin n) → Fin n → Bool × β} {key : Fin n → κ}

/-- Lanes leave with the first active lane exactly when they agree with it in the key. -/
def LeavesByKey (turn : Finset (Fin n) → Fin n → Bool × β) (key : Fin n → κ) : Prop :=
  ∀ active f, firstLane active = some f → ∀ lane ∈ active,
    ((turn active lane).1 = true ↔ key lane = key f)

/-- The turn in which a lane leaves: all lanes that share its key are there, and so is the first
lane. -/
structure LeavingTurn (active turnActive : Finset (Fin n)) (key : Fin n → κ) (lane f : Fin n) :
    Prop where
  subset : turnActive ⊆ active
  mem : lane ∈ turnActive
  mem_of_key : ∀ j ∈ active, key j = key lane → j ∈ turnActive
  first : firstLane turnActive = some f
  key_first : key f = key lane

/-- Every lane leaves a waterfall loop, in a turn with all the lanes that share its key. -/
theorem waterfall_of_key (hturn : LeavesByKey turn key) {fuel : Nat} {active : Finset (Fin n)}
    {lane : Fin n} (hlane : lane ∈ active) (hfuel : active.card ≤ fuel) :
    ∃ turnActive f, LeavingTurn active turnActive key lane f ∧
      waterfall turn fuel active lane = some (turn turnActive lane).2 := by
  induction fuel generalizing active with
  | zero =>
    have hempty := Finset.card_eq_zero.mp (Nat.le_zero.mp hfuel)
    rw [hempty] at hlane
    exact absurd hlane (Finset.notMem_empty lane)
  | succ fuel ih =>
    obtain ⟨f, hf⟩ := exists_firstLane hlane
    have hleave := hturn active f hf
    by_cases hkey : key lane = key f
    · refine ⟨active, f, ⟨subset_refl active, hlane, fun j hj _ => hj, hf, hkey.symm⟩, ?_⟩
      rw [waterfall, if_pos ((hleave lane hlane).mpr hkey)]
    -- The first lane leaves, so that fewer lanes are left.
    · have hstay : ∀ j ∈ active, key j ≠ key f →
          j ∈ active.filter fun j => (turn active j).1 = false := by
        intro j hj hne
        apply Finset.mem_filter.mpr
        exact ⟨hj, Bool.eq_false_iff.mpr fun h => hne ((hleave j hj).mp h)⟩
      have hless : (active.filter fun j => (turn active j).1 = false).card < active.card := by
        apply Finset.card_lt_card
        apply Finset.filter_ssubset.mpr
        refine ⟨f, firstLane_mem hf, ?_⟩
        rw [(hleave f (firstLane_mem hf)).mpr rfl]
        exact Bool.noConfusion
      obtain ⟨turnActive, g, hturnActive, hrun⟩ := ih (hstay lane hlane hkey) (by omega)
      refine ⟨turnActive, g, ⟨?_, hturnActive.mem, ?_, hturnActive.first, hturnActive.key_first⟩,
        ?_⟩
      · exact hturnActive.subset.trans (Finset.filter_subset ..)
      · intro j hj hjkey
        apply hturnActive.mem_of_key j _ hjkey
        exact hstay j hj (by rw [hjkey]; exact hkey)
      · have hstays : (turn active lane).1 = false :=
          Bool.eq_false_iff.mpr fun h => hkey ((hleave lane hlane).mp h)
        rw [waterfall, hstays, if_neg Bool.false_ne_true]
        exact hrun

end DxilSpirv.Spirv
