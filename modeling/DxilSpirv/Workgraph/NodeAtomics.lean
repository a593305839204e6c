import DxilSpirv.Spirv.AtomicCounter
import Mathlib.Data.Finset.Card
import Mathlib.Data.Nat.Bits

/-!
# The atomics of a node record allocation

One lane of a wave or of a group allocates for all of them. In `body_block` it adds to the payload
counter, takes a slot of the list, adds to the total of the node and writes the two words of its
slot. The effects of different lanes interleave in any order.
-/

namespace DxilSpirv

open Spirv

/-- `NodeAtomics`, the buffer behind `AtomicCountersBDA`. The list of the allocations lies in the
runtime array too, from `AllocationOffset` on. -/
structure NodeAtomics where
  payloadCount : BitVec 32
  fusedCount : BitVec 32
  perNodeTotal : BitVec 32 → BitVec 32

/-- A store to the runtime array. -/
def NodeAtomics.store (m : NodeAtomics) (index value : BitVec 32) : NodeAtomics :=
  { m with perNodeTotal := Function.update m.perNodeTotal index value }

/-- A store sets its own word. -/
theorem NodeAtomics.store_self (m : NodeAtomics) (index value : BitVec 32) :
    (m.store index value).perNodeTotal index = value := Function.update_self ..

/-- A store leaves the other words. -/
theorem NodeAtomics.store_of_ne {m : NodeAtomics} {index value other : BitVec 32}
    (h : other.toNat ≠ index.toNat) :
    (m.store index value).perNodeTotal other = m.perNodeTotal other :=
  Function.update_of_ne (fun heq => h (congrArg BitVec.toNat heq)) ..

/-- What the lane in `body_block` allocates. -/
structure NodeAllocation where
  nodeMetadataIndex : BitVec 32
  totalCount : BitVec 32
  stride : BitVec 32
  deriving DecidableEq

namespace NodeAllocation

/-- The bytes to add to `payloadCount`, aligned. -/
def payloadBytes (a : NodeAllocation) : BitVec 32 :=
  (a.totalCount * a.stride + 15#32) &&& ~~~15#32

/-- The first word of the slot. -/
def packed (a : NodeAllocation) : BitVec 32 :=
  (a.nodeMetadataIndex <<< 8) ||| (a.totalCount - 1#32)

/-- The aligned size as a number. -/
def paddedBytes (a : NodeAllocation) : Nat :=
  (a.totalCount.toNat * a.stride.toNat + 15) / 16 * 16

variable {a : NodeAllocation}

/-- The mask rounds down to 16. -/
theorem toNat_and_not_fifteen (x : BitVec 32) : (x &&& ~~~15#32).toNat = x.toNat / 16 * 16 := by
  have hmask : ~~~15#32 = BitVec.allOnes 32 <<< 4 := by decide
  have hshift : x &&& ~~~15#32 = (x >>> 4) <<< 4 := by
    ext i hi
    rw [hmask, BitVec.getElem_and, BitVec.getElem_shiftLeft, BitVec.getElem_shiftLeft]
    by_cases h : i < 4
    · rw [decide_eq_true h, Bool.not_true, Bool.false_and, Bool.false_and, Bool.and_false]
    · rw [decide_eq_false h, BitVec.getElem_allOnes, BitVec.getElem_ushiftRight,
        Nat.add_sub_cancel' (by omega), BitVec.getLsbD_eq_getElem hi, Bool.not_false, Bool.true_and,
        Bool.true_and, Bool.and_true]
  rw [hshift, BitVec.toNat_shiftLeft, BitVec.toNat_ushiftRight, Nat.shiftLeft_eq,
    Nat.shiftRight_eq_div_pow]
  have hx := x.isLt
  omega

/-- The machine aligns the number, modulo the word. -/
theorem payloadBytes_eq_ofNat : a.payloadBytes = BitVec.ofNat 32 a.paddedBytes := by
  apply BitVec.eq_of_toNat_eq
  rw [payloadBytes, toNat_and_not_fifteen, BitVec.toNat_add, BitVec.toNat_mul, BitVec.toNat_ofNat,
    BitVec.toNat_ofNat, paddedBytes]
  omega

/-- The padded size is a multiple of 16. -/
theorem sixteen_dvd_paddedBytes : 16 ∣ a.paddedBytes := Nat.dvd_mul_left 16 _

/-- The records fit in the aligned size. -/
theorem count_mul_stride_le : a.totalCount.toNat * a.stride.toNat ≤ a.paddedBytes := by
  rw [paddedBytes]
  omega

/-- The node index and the count of a slot do not overlap when both fit. -/
theorem toNat_packed (hnode : a.nodeMetadataIndex.toNat < 2 ^ 24) (hpos : a.totalCount ≠ 0)
    (hcount : a.totalCount.toNat ≤ 256) :
    a.packed.toNat = a.nodeMetadataIndex.toNat * 256 + (a.totalCount.toNat - 1) := by
  have hne : a.totalCount.toNat ≠ 0 := fun h => hpos (BitVec.eq_of_toNat_eq h)
  have hsub : (a.totalCount - 1#32).toNat = a.totalCount.toNat - 1 := by
    rw [BitVec.toNat_sub, BitVec.toNat_ofNat]
    omega
  have hshift : (a.nodeMetadataIndex <<< 8).toNat = a.nodeMetadataIndex.toNat <<< 8 := by
    rw [BitVec.toNat_shiftLeft, Nat.mod_eq_of_lt]
    rw [Nat.shiftLeft_eq]
    omega
  rw [packed, BitVec.toNat_or, hshift, hsub, ← Nat.shiftLeft_add_eq_or_of_lt (by omega),
    Nat.shiftLeft_eq]

end NodeAllocation

/-- An entry of the list, decoded. -/
structure NodeEntry where
  nodeMetadataIndex : BitVec 32
  count : Nat
  payloadOffset : BitVec 32
  deriving DecidableEq

/-- The two words of a slot hold `node << 8 | count - 1` and the offset. -/
def NodeEntry.decode (packed payloadOffset : BitVec 32) : NodeEntry :=
  ⟨packed >>> 8, (packed &&& 255#32).toNat + 1, payloadOffset⟩

/-- Decoding gives back what was packed. -/
theorem NodeEntry.decode_packed {a : NodeAllocation} (payloadOffset : BitVec 32)
    (hnode : a.nodeMetadataIndex.toNat < 2 ^ 24) (hpos : a.totalCount ≠ 0)
    (hcount : a.totalCount.toNat ≤ 256) :
    decode a.packed payloadOffset = ⟨a.nodeMetadataIndex, a.totalCount.toNat, payloadOffset⟩ := by
  have hpacked := NodeAllocation.toNat_packed hnode hpos hcount
  have hne : a.totalCount.toNat ≠ 0 := fun h => hpos (BitVec.eq_of_toNat_eq h)
  have hnode : a.packed >>> 8 = a.nodeMetadataIndex := by
    apply BitVec.eq_of_toNat_eq
    rw [BitVec.toNat_ushiftRight, hpacked, Nat.shiftRight_eq_div_pow]
    omega
  have hcount : (a.packed &&& 255#32).toNat + 1 = a.totalCount.toNat := by
    have hlow : a.packed.toNat &&& 255 = a.packed.toNat % 256 :=
      Nat.and_two_pow_sub_one_eq_mod a.packed.toNat 8
    rw [BitVec.toNat_and, BitVec.toNat_ofNat, Nat.mod_eq_of_lt (by decide), hlow, hpacked]
    omega
  rw [decode, hnode, hcount]

/-- Where a lane is in `body_block`: at the next access to the buffer. -/
inductive BodyPc
  | payloadTotalAtomic
  | fusedAtomic
  | atomicTotal
  | storePayload
  | storePayloadPlus1
  | mergeBlock
  deriving DecidableEq

/-- How many accesses are behind. -/
def BodyPc.index : BodyPc → Nat
  | payloadTotalAtomic => 0
  | fusedAtomic => 1
  | atomicTotal => 2
  | storePayload => 3
  | storePayloadPlus1 => 4
  | mergeBlock => 5

/-- The lane that allocates, with the results of the first two atomics. -/
structure ElectedLane where
  allocation : NodeAllocation
  pc : BodyPc
  payloadOffset : BitVec 32
  fused : BitVec 32
  deriving DecidableEq

/-- The lane at the head of `body_block`. -/
def ElectedLane.enter (a : NodeAllocation) : ElectedLane := ⟨a, .payloadTotalAtomic, 0, 0⟩

/-- The first word of a slot in the runtime array. -/
def slotWord (allocationOffset fused : BitVec 32) : BitVec 32 := allocationOffset + 2#32 * fused

/-- One access of `body_block`. -/
def ElectedLane.step (allocationOffset : BitVec 32) (lane : ElectedLane) (m : NodeAtomics) :
    NodeAtomics × ElectedLane :=
  match lane.pc with
  | .payloadTotalAtomic =>
    ({ m with payloadCount := m.payloadCount + lane.allocation.payloadBytes },
      { lane with pc := .fusedAtomic, payloadOffset := m.payloadCount })
  | .fusedAtomic =>
    ({ m with fusedCount := m.fusedCount + 1#32 },
      { lane with pc := .atomicTotal, fused := m.fusedCount })
  | .atomicTotal =>
    let node := lane.allocation.nodeMetadataIndex
    (m.store node (m.perNodeTotal node + lane.allocation.totalCount),
      { lane with pc := .storePayload })
  | .storePayload =>
    (m.store (slotWord allocationOffset lane.fused) lane.allocation.packed,
      { lane with pc := .storePayloadPlus1 })
  | .storePayloadPlus1 =>
    (m.store (slotWord allocationOffset lane.fused + 1#32) lane.payloadOffset,
      { lane with pc := .mergeBlock })
  | .mergeBlock => (m, lane)

variable {ι : Type} {ids : Finset ι} {body : ι → Option ElectedLane} {i : ι}
  {lane lane' : ElectedLane} {k : Nat}

/-- The allocations with at least `k` accesses behind. -/
def reached (ids : Finset ι) (body : ι → Option ElectedLane) (k : Nat) : Finset ι :=
  ids.filter fun i => (body i).any fun lane => decide (k ≤ lane.pc.index)

/-- An allocation has reached an access when its lane is past it. -/
theorem mem_reached :
    i ∈ reached ids body k ↔ i ∈ ids ∧ ∃ lane, body i = some lane ∧ k ≤ lane.pc.index := by
  rw [reached, Finset.mem_filter, Option.any_eq_true]
  simp only [decide_eq_true_iff]

/-- Only the given allocations reach an access. -/
theorem reached_subset : reached ids body k ⊆ ids := Finset.filter_subset ..

/-- What has reached a later access has reached the earlier ones. -/
theorem reached_anti {l : Nat} (h : k ≤ l) : reached ids body l ⊆ reached ids body k := by
  intro i hi
  obtain ⟨hids, lane, hlane, hl⟩ := mem_reached.mp hi
  exact mem_reached.mpr ⟨hids, lane, hlane, h.trans hl⟩

/-- A lane that stands before an access has not reached it. -/
theorem notMem_reached (h : body i = some lane) (hk : lane.pc.index < k) :
    i ∉ reached ids body k := by
  intro hi
  obtain ⟨-, lane', hlane', hle⟩ := mem_reached.mp hi
  rw [h, Option.some_inj] at hlane'
  rw [← hlane'] at hle
  omega

variable [DecidableEq ι]

/-- An allocation that makes an access reaches the next number, and no other changes. -/
theorem reached_update (hi : i ∈ ids) (h : body i = some lane)
    (hnext : lane'.pc.index = lane.pc.index + 1) :
    reached ids (Function.update body i (some lane')) k =
      if k = lane'.pc.index then insert i (reached ids body k) else reached ids body k := by
  have hother : ∀ j, j ≠ i → (j ∈ reached ids (Function.update body i (some lane')) k ↔
      j ∈ reached ids body k) := by
    intro j hj
    rw [mem_reached, mem_reached, Function.update_of_ne hj]
  have hself : i ∈ reached ids (Function.update body i (some lane')) k ↔ k ≤ lane'.pc.index := by
    simp [mem_reached, hi]
  have hold : i ∈ reached ids body k ↔ k ≤ lane.pc.index := by
    simp [mem_reached, hi, h]
  ext j
  by_cases hj : j = i
  · rw [hj, hself]
    split
    · rename_i hk
      simp [hk]
    · rw [hold]
      omega
  · rw [hother j hj]
    split
    · rw [Finset.mem_insert, or_iff_right hj]
    · rfl

/-- An allocation that enters has no access behind. -/
theorem reached_enter (h : body i = none) (a : NodeAllocation) (hk : 0 < k) :
    reached ids (Function.update body i (some (.enter a))) k = reached ids body k := by
  ext j
  rw [mem_reached, mem_reached]
  by_cases hj : j = i
  · have hindex : (ElectedLane.enter a).pc.index = 0 := rfl
    rw [hj, Function.update_self, h]
    simp [hindex, hk.ne']
  · rw [Function.update_of_ne hj]

/-- Every lane in `body_block` allocates what is expected of it. -/
def Entered (ids : Finset ι) (allocation : ι → NodeAllocation) (body : ι → Option ElectedLane) :
    Prop :=
  ∀ i lane, body i = some lane → i ∈ ids ∧ lane.allocation = allocation i

/-- The payload counter has served the allocations that are past the first atomic. -/
structure PayloadInv (ids : Finset ι) (allocation : ι → NodeAllocation) (m : NodeAtomics)
    (body : ι → Option ElectedLane) (start : ι → Nat) : Prop where
  served : Served (fun i => (allocation i).paddedBytes) (reached ids body 1) start
  payloadCount : m.payloadCount =
    BitVec.ofNat 32 (∑ i ∈ reached ids body 1, (allocation i).paddedBytes)
  payloadOffset : ∀ i lane, body i = some lane → 1 ≤ lane.pc.index →
    lane.payloadOffset = BitVec.ofNat 32 (start i)

/-- The allocations that are past the second atomic hold a slot of the list each. -/
structure SlotInv (ids : Finset ι) (m : NodeAtomics) (body : ι → Option ElectedLane)
    (slot : ι → Nat) : Prop where
  tickets : Tickets (reached ids body 2) slot
  fusedCount : m.fusedCount = BitVec.ofNat 32 (reached ids body 2).card
  fused : ∀ i lane, body i = some lane → 2 ≤ lane.pc.index → lane.fused = BitVec.ofNat 32 (slot i)

/-- The runtime array: the totals, and the words of the slots that are written. -/
structure ListInv (allocationOffset : BitVec 32) (ids : Finset ι)
    (allocation : ι → NodeAllocation) (m : NodeAtomics) (body : ι → Option ElectedLane)
    (start slot : ι → Nat) : Prop where
  total : ∀ node, node.toNat < allocationOffset.toNat → m.perNodeTotal node =
    BitVec.ofNat 32 (∑ i ∈ reached ids body 3 with (allocation i).nodeMetadataIndex = node,
      (allocation i).totalCount.toNat)
  packed : ∀ i ∈ reached ids body 4,
    m.perNodeTotal (slotWord allocationOffset (BitVec.ofNat 32 (slot i))) = (allocation i).packed
  payload : ∀ i ∈ reached ids body 5,
    m.perNodeTotal (slotWord allocationOffset (BitVec.ofNat 32 (slot i)) + 1#32) =
      BitVec.ofNat 32 (start i)

/-- The totals of the nodes lie before the list, and the list fits in the runtime array. -/
structure NodeLayout (allocationOffset : BitVec 32) (ids : Finset ι)
    (allocation : ι → NodeAllocation) : Prop where
  node_lt : ∀ i ∈ ids, (allocation i).nodeMetadataIndex.toNat < allocationOffset.toNat
  fits : allocationOffset.toNat + 2 * ids.card ≤ 2 ^ 32

/-- What holds of the buffer and of the lanes in `body_block` in every interleaving. -/
structure BodyInv (allocationOffset : BitVec 32) (ids : Finset ι)
    (allocation : ι → NodeAllocation) (m : NodeAtomics) (body : ι → Option ElectedLane)
    (start slot : ι → Nat) : Prop where
  entered : Entered ids allocation body
  payload : PayloadInv ids allocation m body start
  slots : SlotInv ids m body slot
  list : NodeLayout allocationOffset ids allocation →
    ListInv allocationOffset ids allocation m body start slot

/-- The first word of a slot of a list that fits. -/
theorem toNat_slotWord {allocationOffset : BitVec 32} {k s : Nat}
    (hfits : allocationOffset.toNat + 2 * k ≤ 2 ^ 32) (hs : s < k) :
    (slotWord allocationOffset (BitVec.ofNat 32 s)).toNat = allocationOffset.toNat + 2 * s := by
  have htwo : (2#32 * BitVec.ofNat 32 s).toNat = 2 * s := by
    rw [BitVec.toNat_mul, BitVec.toNat_ofNat, BitVec.toNat_ofNat]
    omega
  rw [slotWord, BitVec.toNat_add, htwo]
  omega

/-- The second word of a slot. -/
theorem toNat_slotWord_add_one {allocationOffset : BitVec 32} {k s : Nat}
    (hfits : allocationOffset.toNat + 2 * k ≤ 2 ^ 32) (hs : s < k) :
    (slotWord allocationOffset (BitVec.ofNat 32 s) + 1#32).toNat =
      allocationOffset.toNat + 2 * s + 1 := by
  rw [BitVec.toNat_add, toNat_slotWord hfits hs, BitVec.toNat_ofNat]
  omega

variable {allocationOffset : BitVec 32} {allocation : ι → NodeAllocation} {m m' : NodeAtomics}
  {body' : ι → Option ElectedLane} {start start' slot slot' : ι → Nat}

/-- A lane that enters with its own allocation keeps the body consistent. -/
theorem Entered.update (h : Entered ids allocation body) (hi : i ∈ ids)
    (hlane : lane.allocation = allocation i) :
    Entered ids allocation (Function.update body i (some lane)) := by
  intro j lane' hj
  by_cases hji : j = i
  · rw [hji, Function.update_self, Option.some_inj] at hj
    rw [hji, ← hj]
    exact ⟨hi, hlane⟩
  · rw [Function.update_of_ne hji] at hj
    exact h j lane' hj

/-- Lanes that keep their first register and are not at the first atomic keep the payload part. -/
theorem PayloadInv.frame (h : PayloadInv ids allocation m body start)
    (hcount : m'.payloadCount = m.payloadCount)
    (hreached : reached ids (Function.update body i (some lane')) 1 = reached ids body 1)
    (hlane : 1 ≤ lane'.pc.index → lane'.payloadOffset = BitVec.ofNat 32 (start i)) :
    PayloadInv ids allocation m' (Function.update body i (some lane')) start := by
  constructor
  · rw [hreached]
    exact h.served
  · rw [hcount, hreached]
    exact h.payloadCount
  · intro j lane hj hindex
    by_cases hji : j = i
    · rw [hji, Function.update_self, Option.some_inj] at hj
      rw [hji, ← hj]
      rw [← hj] at hindex
      exact hlane hindex
    · rw [Function.update_of_ne hji] at hj
      exact h.payloadOffset j lane hj hindex

/-- The same of the slots. -/
theorem SlotInv.frame (h : SlotInv ids m body slot) (hcount : m'.fusedCount = m.fusedCount)
    (hreached : reached ids (Function.update body i (some lane')) 2 = reached ids body 2)
    (hlane : 2 ≤ lane'.pc.index → lane'.fused = BitVec.ofNat 32 (slot i)) :
    SlotInv ids m' (Function.update body i (some lane')) slot := by
  constructor
  · rw [hreached]
    exact h.tickets
  · rw [hcount, hreached]
    exact h.fusedCount
  · intro j lane hj hindex
    by_cases hji : j = i
    · rw [hji, Function.update_self, Option.some_inj] at hj
      rw [hji, ← hj]
      rw [← hj] at hindex
      exact hlane hindex
    · rw [Function.update_of_ne hji] at hj
      exact h.fused j lane hj hindex

omit [DecidableEq ι] in
/-- The runtime array does not depend on lanes that have not reached it. -/
theorem ListInv.frame (h : ListInv allocationOffset ids allocation m body start slot)
    (htotal : m'.perNodeTotal = m.perNodeTotal)
    (hreached : ∀ k, 3 ≤ k → reached ids body' k = reached ids body k)
    (hstart : ∀ j ∈ reached ids body 3, start' j = start j)
    (hslot : ∀ j ∈ reached ids body 3, slot' j = slot j) :
    ListInv allocationOffset ids allocation m' body' start' slot' := by
  constructor
  · intro node hnode
    rw [htotal, hreached 3 (by omega)]
    exact h.total node hnode
  · intro j hj
    rw [hreached 4 (by omega)] at hj
    rw [htotal, hslot j (reached_anti (by omega) hj)]
    exact h.packed j hj
  · intro j hj
    rw [hreached 5 (by omega)] at hj
    rw [htotal, hslot j (reached_anti (by omega) hj), hstart j (reached_anti (by omega) hj)]
    exact h.payload j hj

/-- Entering `body_block` keeps the invariant. -/
theorem BodyInv.enter (h : BodyInv allocationOffset ids allocation m body start slot)
    (hi : i ∈ ids) (hnone : body i = none) :
    BodyInv allocationOffset ids allocation m
      (Function.update body i (some (.enter (allocation i)))) start slot := by
  have hindex : (ElectedLane.enter (allocation i)).pc.index = 0 := rfl
  constructor
  · exact h.entered.update hi rfl
  · apply h.payload.frame rfl (reached_enter hnone _ (by omega))
    intro hle
    omega
  · apply h.slots.frame rfl (reached_enter hnone _ (by omega))
    intro hle
    omega
  · intro hlayout
    apply (h.list hlayout).frame rfl
    · intro k hk
      exact reached_enter hnone _ (by omega)
    · exact fun _ _ => rfl
    · exact fun _ _ => rfl

/-- The first atomic: the payload counter serves the lane. -/
theorem BodyInv.payloadTotalAtomic (h : BodyInv allocationOffset ids allocation m body start slot)
    (hlane : body i = some lane) (hpc : lane.pc = .payloadTotalAtomic) :
    BodyInv allocationOffset ids allocation (lane.step allocationOffset m).1
      (Function.update body i (some (lane.step allocationOffset m).2))
      (Function.update start i (∑ j ∈ reached ids body 1, (allocation j).paddedBytes)) slot := by
  obtain ⟨hi, ha⟩ := h.entered i lane hlane
  have hnot : i ∉ reached ids body 1 := notMem_reached hlane (by rw [hpc]; decide)
  have hstart : ∀ j ∈ reached ids body 1, Function.update start i
      (∑ j ∈ reached ids body 1, (allocation j).paddedBytes) j = start j := by
    intro j hj
    apply Function.update_of_ne
    rintro rfl
    exact hnot hj
  simp only [ElectedLane.step, hpc]
  have hreached : ∀ k, reached ids (Function.update body i (some { lane with
      pc := .fusedAtomic, payloadOffset := m.payloadCount })) k =
      if k = 1 then insert i (reached ids body k) else reached ids body k :=
    fun k => reached_update hi hlane (by rw [hpc]; rfl)
  constructor
  · exact h.entered.update hi ha
  · constructor
    · rw [hreached, if_pos rfl]
      exact h.payload.served.add hnot
    · rw [hreached, if_pos rfl, Finset.sum_insert hnot, ha, h.payload.payloadCount,
        NodeAllocation.payloadBytes_eq_ofNat, Nat.add_comm, BitVec.ofNat_add]
    · intro j lane' hj hindex
      by_cases hji : j = i
      · rw [hji, Function.update_self, Option.some_inj] at hj
        rw [hji, Function.update_self, ← hj]
        exact h.payload.payloadCount
      · rw [Function.update_of_ne hji] at hj
        rw [Function.update_of_ne hji]
        exact h.payload.payloadOffset j lane' hj hindex
  · apply h.slots.frame
    · rfl
    · rw [hreached, if_neg (by omega)]
    · intro hle
      simp only [BodyPc.index] at hle
      omega
  · intro hlayout
    apply (h.list hlayout).frame
    · rfl
    · intro k hk
      rw [hreached, if_neg (by omega)]
    · intro j hj
      exact hstart j (reached_anti (by omega) hj)
    · exact fun _ _ => rfl

/-- The second atomic: the lane takes a slot. -/
theorem BodyInv.fusedAtomic (h : BodyInv allocationOffset ids allocation m body start slot)
    (hlane : body i = some lane) (hpc : lane.pc = .fusedAtomic) :
    BodyInv allocationOffset ids allocation (lane.step allocationOffset m).1
      (Function.update body i (some (lane.step allocationOffset m).2))
      start (Function.update slot i (∑ _j ∈ reached ids body 2, 1)) := by
  obtain ⟨hi, ha⟩ := h.entered i lane hlane
  have hnot : i ∉ reached ids body 2 := notMem_reached hlane (by rw [hpc]; decide)
  have hslot : ∀ j ∈ reached ids body 2,
      Function.update slot i (∑ _j ∈ reached ids body 2, 1) j = slot j := by
    intro j hj
    apply Function.update_of_ne
    rintro rfl
    exact hnot hj
  simp only [ElectedLane.step, hpc]
  have hreached : ∀ k, reached ids (Function.update body i (some { lane with
      pc := .atomicTotal, fused := m.fusedCount })) k =
      if k = 2 then insert i (reached ids body k) else reached ids body k :=
    fun k => reached_update hi hlane (by rw [hpc]; rfl)
  constructor
  · exact h.entered.update hi ha
  · apply h.payload.frame
    · rfl
    · rw [hreached, if_neg (by omega)]
    · intro _
      exact h.payload.payloadOffset i lane hlane (by rw [hpc]; decide)
  · constructor
    · rw [hreached, if_pos rfl]
      exact h.slots.tickets.add hnot
    · rw [hreached, if_pos rfl, Finset.card_insert_of_notMem hnot, h.slots.fusedCount,
        BitVec.ofNat_add]
    · intro j lane' hj hindex
      by_cases hji : j = i
      · rw [hji, Function.update_self, Option.some_inj] at hj
        rw [hji, Function.update_self, ← hj, ← Finset.card_eq_sum_ones]
        exact h.slots.fusedCount
      · rw [Function.update_of_ne hji] at hj
        rw [Function.update_of_ne hji]
        exact h.slots.fused j lane' hj hindex
  · intro hlayout
    apply (h.list hlayout).frame
    · rfl
    · intro k hk
      rw [hreached, if_neg (by omega)]
    · exact fun _ _ => rfl
    · intro j hj
      exact hslot j (reached_anti (by omega) hj)

omit [DecidableEq ι] in
/-- A slot that was taken lies in the list. -/
theorem SlotInv.slot_lt (h : SlotInv ids m body slot) (hi : i ∈ reached ids body 2) :
    slot i < ids.card :=
  (h.tickets.lt_card hi).trans_le (Finset.card_le_card reached_subset)

/-- The first two parts of the invariant do not see the accesses to the runtime array. -/
theorem BodyInv.of_store (h : BodyInv allocationOffset ids allocation m body start slot)
    (hlane : body i = some lane) (hindex : 2 ≤ lane.pc.index)
    (hnext : lane'.pc.index = lane.pc.index + 1) (hallocation : lane'.allocation = lane.allocation)
    (hoffset : lane'.payloadOffset = lane.payloadOffset) (hfused : lane'.fused = lane.fused)
    {index value : BitVec 32}
    (hlist : NodeLayout allocationOffset ids allocation → ListInv allocationOffset ids allocation
      (m.store index value) (Function.update body i (some lane')) start slot) :
    BodyInv allocationOffset ids allocation (m.store index value)
      (Function.update body i (some lane')) start slot := by
  obtain ⟨hi, ha⟩ := h.entered i lane hlane
  constructor
  · exact h.entered.update hi (hallocation.trans ha)
  · apply h.payload.frame
    · rfl
    · rw [reached_update hi hlane hnext, if_neg (by omega)]
    · intro _
      rw [hoffset]
      exact h.payload.payloadOffset i lane hlane (by omega)
  · apply h.slots.frame
    · rfl
    · rw [reached_update hi hlane hnext, if_neg (by omega)]
    · intro _
      rw [hfused]
      exact h.slots.fused i lane hlane hindex
  · exact hlist

/-- The third atomic: the total of the node. -/
theorem BodyInv.atomicTotal (h : BodyInv allocationOffset ids allocation m body start slot)
    (hlane : body i = some lane) (hpc : lane.pc = .atomicTotal) :
    BodyInv allocationOffset ids allocation (lane.step allocationOffset m).1
      (Function.update body i (some (lane.step allocationOffset m).2)) start slot := by
  obtain ⟨hi, ha⟩ := h.entered i lane hlane
  have hnot : i ∉ reached ids body 3 := notMem_reached hlane (by rw [hpc]; decide)
  simp only [ElectedLane.step, hpc]
  refine h.of_store hlane (by rw [hpc]; decide) ?_ ?_ ?_ ?_ ?_
  · rw [hpc]
    rfl
  · rfl
  · rfl
  · rfl
  intro hlayout
  have hlist := h.list hlayout
  have hnode := hlayout.node_lt i hi
  have hreached : ∀ k, reached ids (Function.update body i (some { lane with
      pc := .storePayload })) k =
      if k = 3 then insert i (reached ids body k) else reached ids body k :=
    fun k => reached_update hi hlane (by rw [hpc]; rfl)
  constructor
  · intro node hlt
    rw [hreached, if_pos rfl, Finset.filter_insert, ha]
    by_cases heq : (allocation i).nodeMetadataIndex = node
    · have hnot' : i ∉ (reached ids body 3).filter fun j =>
          (allocation j).nodeMetadataIndex = node :=
        fun hmem => hnot (Finset.mem_filter.mp hmem).1
      rw [if_pos heq, Finset.sum_insert hnot', heq, NodeAtomics.store_self, hlist.total node hlt,
        Nat.add_comm, BitVec.ofNat_add, BitVec.ofNat_toNat, BitVec.setWidth_eq]
    · rw [if_neg heq, NodeAtomics.store_of_ne, hlist.total node hlt]
      exact fun hnat => heq (BitVec.eq_of_toNat_eq hnat.symm)
  · intro j hj
    rw [hreached, if_neg (by omega)] at hj
    rw [NodeAtomics.store_of_ne, hlist.packed j hj]
    rw [toNat_slotWord hlayout.fits (h.slots.slot_lt (reached_anti (by omega) hj)), ha]
    omega
  · intro j hj
    rw [hreached, if_neg (by omega)] at hj
    rw [NodeAtomics.store_of_ne, hlist.payload j hj]
    rw [toNat_slotWord_add_one hlayout.fits (h.slots.slot_lt (reached_anti (by omega) hj)), ha]
    omega

/-- The store of the first word of a slot. -/
theorem BodyInv.storePayload (h : BodyInv allocationOffset ids allocation m body start slot)
    (hlane : body i = some lane) (hpc : lane.pc = .storePayload) :
    BodyInv allocationOffset ids allocation (lane.step allocationOffset m).1
      (Function.update body i (some (lane.step allocationOffset m).2)) start slot := by
  obtain ⟨hi, ha⟩ := h.entered i lane hlane
  have htaken : i ∈ reached ids body 2 := mem_reached.mpr ⟨hi, lane, hlane, by rw [hpc]; decide⟩
  have hnot : i ∉ reached ids body 4 := notMem_reached hlane (by rw [hpc]; decide)
  have hfused := h.slots.fused i lane hlane (by rw [hpc]; decide)
  simp only [ElectedLane.step, hpc]
  refine h.of_store hlane (by rw [hpc]; decide) ?_ ?_ ?_ ?_ ?_
  · rw [hpc]
    rfl
  · rfl
  · rfl
  · rfl
  intro hlayout
  have hlist := h.list hlayout
  have hword := toNat_slotWord hlayout.fits (h.slots.slot_lt htaken)
  have hreached : ∀ k, reached ids (Function.update body i (some { lane with
      pc := .storePayloadPlus1 })) k =
      if k = 4 then insert i (reached ids body k) else reached ids body k :=
    fun k => reached_update hi hlane (by rw [hpc]; rfl)
  rw [hfused] at hreached ⊢
  constructor
  · intro node hlt
    rw [hreached, if_neg (by omega), NodeAtomics.store_of_ne, hlist.total node hlt]
    omega
  · intro j hj
    rw [hreached, if_pos rfl] at hj
    rcases Finset.mem_insert.mp hj with hji | hj
    · rw [hji, NodeAtomics.store_self, ha]
    · have hjtaken := reached_anti (show 2 ≤ 4 by omega) hj
      have hne : slot j ≠ slot i := by
        intro heq
        rw [h.slots.tickets.injOn hjtaken htaken heq] at hj
        exact hnot hj
      rw [NodeAtomics.store_of_ne, hlist.packed j hj]
      rw [toNat_slotWord hlayout.fits (h.slots.slot_lt hjtaken), hword]
      omega
  · intro j hj
    rw [hreached, if_neg (by omega)] at hj
    rw [NodeAtomics.store_of_ne, hlist.payload j hj]
    rw [toNat_slotWord_add_one hlayout.fits (h.slots.slot_lt (reached_anti (by omega) hj)), hword]
    omega

/-- The store of the second word of a slot. -/
theorem BodyInv.storePayloadPlus1
    (h : BodyInv allocationOffset ids allocation m body start slot)
    (hlane : body i = some lane) (hpc : lane.pc = .storePayloadPlus1) :
    BodyInv allocationOffset ids allocation (lane.step allocationOffset m).1
      (Function.update body i (some (lane.step allocationOffset m).2)) start slot := by
  obtain ⟨hi, ha⟩ := h.entered i lane hlane
  have htaken : i ∈ reached ids body 2 := mem_reached.mpr ⟨hi, lane, hlane, by rw [hpc]; decide⟩
  have hnot : i ∉ reached ids body 5 := notMem_reached hlane (by rw [hpc]; decide)
  have hfused := h.slots.fused i lane hlane (by rw [hpc]; decide)
  have hoffset := h.payload.payloadOffset i lane hlane (by rw [hpc]; decide)
  simp only [ElectedLane.step, hpc]
  refine h.of_store hlane (by rw [hpc]; decide) ?_ ?_ ?_ ?_ ?_
  · rw [hpc]
    rfl
  · rfl
  · rfl
  · rfl
  intro hlayout
  have hlist := h.list hlayout
  have hword := toNat_slotWord_add_one hlayout.fits (h.slots.slot_lt htaken)
  have hreached : ∀ k, reached ids (Function.update body i (some { lane with
      pc := .mergeBlock })) k =
      if k = 5 then insert i (reached ids body k) else reached ids body k :=
    fun k => reached_update hi hlane (by rw [hpc]; rfl)
  rw [hfused] at hreached ⊢
  constructor
  · intro node hlt
    rw [hreached, if_neg (by omega), NodeAtomics.store_of_ne, hlist.total node hlt]
    omega
  · intro j hj
    rw [hreached, if_neg (by omega)] at hj
    rw [NodeAtomics.store_of_ne, hlist.packed j hj]
    rw [toNat_slotWord hlayout.fits (h.slots.slot_lt (reached_anti (by omega) hj)), hword]
    omega
  · intro j hj
    rw [hreached, if_pos rfl] at hj
    rcases Finset.mem_insert.mp hj with hji | hj
    · rw [hji, NodeAtomics.store_self, hoffset]
    · have hjtaken := reached_anti (show 2 ≤ 5 by omega) hj
      have hne : slot j ≠ slot i := by
        intro heq
        rw [h.slots.tickets.injOn hjtaken htaken heq] at hj
        exact hnot hj
      rw [NodeAtomics.store_of_ne, hlist.payload j hj]
      rw [toNat_slotWord_add_one hlayout.fits (h.slots.slot_lt hjtaken), hword]
      omega

/-- Every access of `body_block` keeps the invariant. -/
theorem BodyInv.step (h : BodyInv allocationOffset ids allocation m body start slot)
    (hlane : body i = some lane) : ∃ start slot,
    BodyInv allocationOffset ids allocation (lane.step allocationOffset m).1
      (Function.update body i (some (lane.step allocationOffset m).2)) start slot := by
  cases hpc : lane.pc with
  | payloadTotalAtomic => exact ⟨_, _, h.payloadTotalAtomic hlane hpc⟩
  | fusedAtomic => exact ⟨_, _, h.fusedAtomic hlane hpc⟩
  | atomicTotal => exact ⟨_, _, h.atomicTotal hlane hpc⟩
  | storePayload => exact ⟨_, _, h.storePayload hlane hpc⟩
  | storePayloadPlus1 => exact ⟨_, _, h.storePayloadPlus1 hlane hpc⟩
  | mergeBlock =>
    simp only [ElectedLane.step, hpc]
    rw [← hlane, Function.update_eq_self]
    exact ⟨start, slot, h⟩

end DxilSpirv
