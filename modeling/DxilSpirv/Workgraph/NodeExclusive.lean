import DxilSpirv.Workgraph.NodeInvariants
import Mathlib.Order.Interval.Set.Disjoint

/-!
# Node record allocation is exclusive and complete

In every interleaving the byte ranges that lanes and groups get are disjoint, the totals of the
nodes are the sums of the requests, and the list has the allocations that were made.
-/

namespace DxilSpirv

open Spirv

namespace NodeOutputs

variable {n : Nat} {L : NodeOutputs n}

/-- The machine counts the records, modulo the word. -/
theorem totalCount_eq_ofNat (id : L.Id) :
    (L.allocation id).totalCount = BitVec.ofNat 32 (L.requested id) := by
  cases id with
  | inl lane => exact reduce_add_eq_ofNat
  | inr call =>
    symm
    rw [requested, BitVec.ofNat_toNat, BitVec.setWidth_eq]
    rfl

/-- The count of a call does not wrap. -/
theorem toNat_totalCount {id : L.Id} (hcount : L.AtMost256) (hcall : L.IsCall id) :
    (L.allocation id).totalCount.toNat = L.requested id := by
  have hle := hcount id hcall
  rw [totalCount_eq_ofNat, BitVec.toNat_ofNat, Nat.mod_eq_of_lt (by omega)]

/-- A call that asks for records is a nonempty one. -/
theorem mem_nonempty_of_totalCount {id : L.Id} (hcall : L.IsCall id)
    (htotal : (L.allocation id).totalCount ≠ 0#32) : id ∈ L.nonempty := by
  apply Finset.mem_filter.mpr
  refine ⟨Finset.mem_univ id, hcall, ?_⟩
  intro hzero
  rw [totalCount_eq_ofNat, hzero] at htotal
  exact htotal rfl

end NodeOutputs

namespace NodeState

variable {n : Nat} {L : NodeOutputs n}

/-- What holds in every state of a run. -/
structure Inv (s : NodeState L) : Prop where
  wave : ∀ w, s.WaveInv w
  group : ∀ g, s.GroupInv g
  body : ∃ start slot,
    BodyInv L.allocationOffset L.nonempty L.allocation s.atomics s.body start slot

/-- At launch, with zeroed allocations, the invariant holds. -/
theorem inv_init {table : BitVec 32 → BitVec 32} {shared : Fin L.groups → BitVec 32}
    (hzero : ∀ node, node.toNat < L.allocationOffset.toNat → table node = 0#32) :
    (init L table shared).Inv := by
  have hreached : ∀ k, reached L.nonempty (init L table shared).body k = ∅ :=
    fun k => Finset.filter_false_of_mem fun _ _ => Bool.false_ne_true
  constructor
  · intro w
    constructor
    · exact subset_refl _
    · exact fun _ _ i hi _ => hi
    · exact fun f hf => absurd hf Finset.not_nonempty_empty
    · exact fun f hf => absurd hf Bool.false_ne_true
    · exact fun j v hv => by cases hv
  · intro g
    constructor
    · exact fun i k v hv => by cases hv
    · exact fun i hpc => absurd rfl hpc
    · exact fun i hpc => by cases hpc
    · exact fun k hk => absurd hk Bool.false_ne_true
    · exact fun i _ hstage => absurd hstage (Nat.not_succ_le_zero 1)
    · exact fun i hstage => absurd hstage (Nat.not_succ_le_zero 2)
    · exact fun i k hk => absurd hk (Nat.not_lt_zero k)
    · exact fun i v hpc => by cases hpc
  · refine ⟨fun _ => 0, fun _ => 0, ?_, ?_, ?_, ?_⟩
    · exact fun i lane hlane => by cases hlane
    · constructor
      · rw [hreached]
        exact .empty
      · rw [hreached]
        rfl
      · exact fun i lane hlane => by cases hlane
    · constructor
      · rw [hreached]
        exact .empty
      · rw [hreached]
        rfl
      · exact fun i lane hlane => by cases hlane
    · intro _
      constructor
      · intro node hnode
        rw [hreached]
        exact hzero node hnode
      · rw [hreached]
        exact fun i hi => absurd hi (Finset.notMem_empty i)
      · rw [hreached]
        exact fun i hi => absurd hi (Finset.notMem_empty i)

/-- A turn keeps the invariant. -/
theorem Inv.turn {s s' : NodeState L} {w : Fin L.waves} (h : s.Inv) (hstep : s.turn w = some s') :
    s'.Inv := by
  have hw := h.wave w
  obtain ⟨f, hf, hlooping, hcalled, hatomics, hshared, hinvocation, hcase⟩ := hw.turn_cases hstep
  have hnone := hw.body_eq_none (firstLane_mem hf)
  have hsettled : ∀ id p, s.Settled id p → s'.Settled id p := by
    intro id p hp
    rcases hcase with ⟨-, hbody, -⟩ | ⟨-, -, hbody⟩
    · rw [Settled, hbody]
      exact hp
    · exact hp.enter hnone hbody
  have hbody : ∀ id, id ≠ .inl (w, f) → (s'.body id).isSome → (s.body id).isSome := by
    intro id hne hid
    rcases hcase with ⟨-, hbody, -⟩ | ⟨-, -, hbody⟩
    · rw [← hbody]
      exact hid
    · rw [hbody, Function.update_of_ne hne] at hid
      exact hid
  constructor
  · intro w'
    by_cases hww : w' = w
    · rw [hww]
      exact hw.turn hstep
    · apply (h.wave w').frame _ _ _ _ hsettled
      · rw [hlooping, Function.update_of_ne hww]
      · rw [hcalled, Function.update_of_ne hww]
      · rcases hcase with ⟨-, -, hreturned⟩ | ⟨-, hreturned, -⟩
        · rw [hreturned, Function.update_of_ne hww]
        · rw [hreturned]
      · intro f'
        apply hbody
        intro heq
        exact hww (Prod.mk.inj (Sum.inl.inj heq)).1
  · intro g
    apply (h.group g).frame _ _ _ hsettled
    · rw [hinvocation]
    · rw [hshared]
    · exact fun k => hbody _ Sum.inr_ne_inl
  · obtain ⟨start, slot, hinv⟩ := h.body
    rw [hatomics]
    rcases hcase with ⟨-, hbody, -⟩ | ⟨htotal, -, hbody⟩
    · rw [hbody]
      exact ⟨start, slot, hinv⟩
    · rw [hbody]
      have hmem := NodeOutputs.mem_nonempty_of_totalCount (hw.isCall_of_first hf) htotal
      exact ⟨start, slot, hinv.enter hmem hnone⟩

/-- An access keeps the invariant. -/
theorem Inv.access {s s' : NodeState L} {id : L.Id} (h : s.Inv) (hstep : s.access id = some s') :
    s'.Inv := by
  have hsettled : ∀ id p, s.Settled id p → s'.Settled id p := fun _ _ hp => hp.access hstep
  obtain ⟨lane, hlane, hstep⟩ := Option.bind_eq_some_iff.mp hstep
  split at hstep
  · cases hstep
  · cases hstep
    have hbody : ∀ id', (Function.update s.body id
        (some (lane.step L.allocationOffset s.atomics).2) id').isSome → (s.body id').isSome := by
      intro id' hid
      by_cases heq : id' = id
      · rw [heq, hlane]
        rfl
      · rw [Function.update_of_ne heq] at hid
        exact hid
    constructor
    · exact fun w => (h.wave w).frame rfl rfl rfl (fun f => hbody _) hsettled
    · exact fun g => (h.group g).frame rfl rfl (fun k => hbody _) hsettled
    · obtain ⟨start, slot, hinv⟩ := h.body
      exact hinv.step hlane

/-- The return of the lanes of a call keeps the invariant. -/
theorem Inv.threadReturn {s s' : NodeState L} {w : Fin L.waves} {f : Fin n} (h : s.Inv)
    (hstep : s.threadReturn w f = some s') : s'.Inv := by
  obtain ⟨p, -, hreturned, hatomics, hbody, hlooping, hcalled, hshared, hinvocation⟩ :=
    threadReturn_cases hstep
  have hsettled : ∀ id p, s.Settled id p → s'.Settled id p := by
    intro id p hp
    rw [Settled, hbody]
    exact hp
  constructor
  · intro w'
    by_cases hww : w' = w
    · rw [hww]
      exact (h.wave w).threadReturn hstep
    · apply (h.wave w').frame _ _ _ _ hsettled
      · rw [hlooping]
      · rw [hcalled]
      · rw [hreturned, Function.update_of_ne hww]
      · rw [hbody]
        exact fun f hf => hf
  · intro g
    apply (h.group g).frame _ _ _ hsettled
    · rw [hinvocation]
    · rw [hshared]
    · rw [hbody]
      exact fun k hk => hk
  · rw [hatomics, hbody]
    exact h.body

/-- A step of an invocation of a group keeps the invariant. -/
theorem Inv.invoke {s s' : NodeState L} {g : Fin L.groups} {i : Fin (L.group g).size} (h : s.Inv)
    (hstep : s.invoke g i = some s') : s'.Inv := by
  obtain ⟨k, hk, hmove⟩ := groupMove_of_invoke hstep
  obtain ⟨hatomics, hlooping, hcalled, hreturned, hother, hcase⟩ := hmove.effects
  have hsettled : ∀ id p, s.Settled id p → s'.Settled id p := by
    intro id p hp
    rcases hcase with hbody | ⟨hpc, hi, -, hbody⟩
    · rw [Settled, hbody]
      exact hp
    · exact hp.enter ((h.group g).body_eq_none hk hpc hi) hbody
  have hbody : ∀ id, id ≠ .inr ⟨g, k⟩ → (s'.body id).isSome → (s.body id).isSome := by
    intro id hne hid
    rcases hcase with hbody | ⟨-, -, -, hbody⟩
    · rw [← hbody]
      exact hid
    · rw [hbody, Function.update_of_ne hne] at hid
      exact hid
  constructor
  · intro w
    apply (h.wave w).frame _ _ _ _ hsettled
    · rw [hlooping]
    · rw [hcalled]
    · rw [hreturned]
    · exact fun f => hbody _ Sum.inl_ne_inr
  · intro g'
    by_cases hgg : g' = g
    · rw [hgg]
      exact (h.group g).invoke hk hmove
    · apply (h.group g').frame (hother g' hgg).1 (hother g' hgg).2 _ hsettled
      intro k'
      apply hbody
      intro heq
      exact hgg (Sigma.mk.inj (Sum.inr.inj heq)).1
  · obtain ⟨start, slot, hinv⟩ := h.body
    rw [hatomics]
    rcases hcase with hbody | ⟨hpc, hi, hcount, hbody⟩
    · rw [hbody]
      exact ⟨start, slot, hinv⟩
    · rw [hbody]
      have hcall : L.IsCall (.inr ⟨g, k⟩) := trivial
      have hmem := NodeOutputs.mem_nonempty_of_totalCount hcall hcount
      exact ⟨start, slot, hinv.enter hmem ((h.group g).body_eq_none hk hpc hi)⟩

/-- The invariant holds in every interleaving. -/
theorem inv_of_reachable {s : NodeState L} (h : NodeReachable L s) : s.Inv := by
  induction h with
  | init table shared hzero => exact inv_init hzero
  | step action _ hstep ih =>
    cases action with
    | turn w => exact ih.turn hstep
    | access id => exact ih.access hstep
    | threadReturn w f => exact ih.threadReturn hstep
    | invoke g i => exact ih.invoke hstep

variable {s : NodeState L} {start slot : L.Id → Nat}

/-- The counters and the lanes in `body_block`, with the witnesses named. -/
abbrev BodyOk (s : NodeState L) (start slot : L.Id → Nat) : Prop :=
  BodyInv L.allocationOffset L.nonempty L.allocation s.atomics s.body start slot

/-- A settled allocation is through every access of the body. -/
theorem Settled.mem_reached {id : L.Id} {p : BitVec 32} (h : s.Settled id p)
    (hbody : s.BodyOk start slot) {k : Nat} (hk : k ≤ 5) : id ∈ reached L.nonempty s.body k := by
  obtain ⟨lane, hlane, hpc, -⟩ := h
  apply DxilSpirv.mem_reached.mpr
  refine ⟨(hbody.entered id lane hlane).1, lane, hlane, ?_⟩
  rw [hpc]
  exact hk

/-- A settled allocation got the offset where its block starts. -/
theorem Settled.eq_ofNat {id : L.Id} {p : BitVec 32} (h : s.Settled id p)
    (hbody : s.BodyOk start slot) : p = BitVec.ofNat 32 (start id) := by
  obtain ⟨lane, hlane, hpc, hp⟩ := h
  rw [← hp]
  apply hbody.payload.payloadOffset id lane hlane
  rw [hpc]
  decide

/-- The first disjunct of what is returned is about calls that do not allocate. -/
theorem Settled.totalCount_ne_zero {id : L.Id} {p : BitVec 32} (h : s.Settled id p)
    (hbody : s.BodyOk start slot) (hcount : L.AtMost256) :
    (L.allocation id).totalCount ≠ 0#32 := by
  have hmem := reached_subset (h.mem_reached hbody (Nat.zero_le 5))
  obtain ⟨-, hcall, hne⟩ := Finset.mem_filter.mp hmem
  intro hzero
  have htotal := NodeOutputs.toNat_totalCount hcount hcall
  rw [hzero] at htotal
  exact hne htotal.symm

/-- The ranges of the payload counter lie in the word. -/
theorem start_add_le (hbody : s.BodyOk start slot) (hcount : L.AtMost256) (hfits : L.PayloadFits)
    {id : L.Id} (hid : id ∈ reached L.nonempty s.body 1) :
    start id + (L.allocation id).paddedBytes ≤ 2 ^ 32 := by
  have hsum : ∑ id ∈ L.nonempty, (L.allocation id).paddedBytes ≤ 2 ^ 32 := by
    apply (Finset.sum_congr rfl _).trans_le hfits
    intro id hid
    rw [NodeAllocation.paddedBytes,
      NodeOutputs.toNat_totalCount hcount (Finset.mem_filter.mp hid).2.1]
  have hle : ∑ id ∈ reached L.nonempty s.body 1, (L.allocation id).paddedBytes ≤
      ∑ id ∈ L.nonempty, (L.allocation id).paddedBytes :=
    Finset.sum_le_sum_of_subset reached_subset
  exact (hbody.payload.served.end_le id hid).trans (hle.trans hsum)

/-- The offset of a lane or of a group in the range of its call. -/
structure Placed (s : NodeState L) (start : L.Id → Nat) (owner : L.Id) (v : BitVec 32)
    (id : L.Id) (offset : Nat) : Prop where
  reached : id ∈ reached L.nonempty s.body 1
  value : v.toNat = start id + offset
  fits : offset + L.bytes owner ≤ (L.allocation id).paddedBytes

/-- The records of the lanes before a lane of a call. -/
def before (c : ThreadCall n) (f j : Fin n) : Nat :=
  ∑ i ∈ c.lanesOf f with i < j, (c.count i).toNat

/-- The lanes up to one ask for no more than a set of lanes that holds them. -/
theorem before_add_le {c : ThreadCall n} {f j : Fin n} (lanes : Finset (Fin n))
    (hj : j ∈ lanes) (hlanes : ∀ i ∈ c.lanesOf f, i < j → i ∈ lanes) :
    before c f j + (c.count j).toNat ≤ ∑ i ∈ lanes, (c.count i).toNat := by
  have hnot : j ∉ (c.lanesOf f).filter (· < j) :=
    fun hmem => absurd (Finset.mem_filter.mp hmem).2 (lt_irrefl j)
  rw [before, Nat.add_comm, ← Finset.sum_insert (f := fun i => (c.count i).toNat) hnot]
  apply Finset.sum_le_sum_of_subset
  intro i hi
  rcases Finset.mem_insert.mp hi with rfl | hi
  · exact hj
  · exact hlanes i (Finset.mem_filter.mp hi).1 (Finset.mem_filter.mp hi).2

/-- A lane lies in the range of the call for its node. -/
theorem placed_lane (hs : s.Inv) (hbody : s.BodyOk start slot) (hcount : L.AtMost256)
    (hfits : L.PayloadFits) {w : Fin L.waves} {j : Fin n} {v : BitVec 32}
    (hv : s.Handed (.inl (w, j)) v) (hbytes : L.bytes (.inl (w, j)) ≠ 0) :
    ∃ f, j ∈ (L.threadCall w).lanesOf f ∧ L.IsCall (.inl (w, f)) ∧
      s.Placed start (.inl (w, j)) v (.inl (w, f))
        (before (L.threadCall w) f j * (L.threadCall w).stride.toNat) := by
  obtain ⟨f, hcall, hj, hvalue⟩ := (hs.wave w).returned j v hv
  refine ⟨f, hj, hcall, ?_⟩
  have hle : before (L.threadCall w) f j + ((L.threadCall w).count j).toNat ≤
      L.requested (.inl (w, f)) := before_add_le _ hj fun i hi _ => hi
  have hpos : ((L.threadCall w).count j).toNat ≠ 0 := by
    intro hzero
    rw [NodeOutputs.bytes, hzero, Nat.zero_mul] at hbytes
    exact hbytes rfl
  have htotal := NodeOutputs.toNat_totalCount hcount hcall
  rcases hvalue with ⟨hzero, -⟩ | ⟨p, hp, hv⟩
  · rw [hzero] at htotal
    have hzero : 0 = L.requested (.inl (w, f)) := htotal
    omega
  · have hreached := hp.mem_reached hbody (show 1 ≤ 5 by omega)
    have hrange := start_add_le hbody hcount hfits hreached
    have hin : before (L.threadCall w) f j * (L.threadCall w).stride.toNat +
        L.bytes (.inl (w, j)) ≤ (L.allocation (.inl (w, f))).paddedBytes := by
      rw [NodeOutputs.bytes, ← Nat.add_mul]
      apply (Nat.mul_le_mul_right _ hle).trans
      rw [← htotal]
      exact NodeAllocation.count_mul_stride_le
    refine ⟨hreached, ?_, hin⟩
    have hnat : v = BitVec.ofNat 32 (start (.inl (w, f)) +
        before (L.threadCall w) f j * (L.threadCall w).stride.toNat) := by
      rw [hv, hp.eq_ofNat hbody, exclusiveScan_add_eq_ofNat, BitVec.ofNat_add, BitVec.ofNat_mul,
        BitVec.ofNat_toNat, BitVec.setWidth_eq]
      rfl
    rw [hnat, BitVec.toNat_ofNat, Nat.mod_eq_of_lt]
    omega

/-- A call of a group starts at the range of its allocation. -/
theorem placed_group (hs : s.Inv) (hbody : s.BodyOk start slot) (hcount : L.AtMost256)
    (hfits : L.PayloadFits) {g : Fin L.groups} {k : Fin (L.group g).calls.length} {v : BitVec 32}
    (hv : s.Handed (.inr ⟨g, k⟩) v) (hbytes : L.bytes (.inr ⟨g, k⟩) ≠ 0) :
    s.Placed start (.inr ⟨g, k⟩) v (.inr ⟨g, k⟩) 0 := by
  obtain ⟨i, hv⟩ := hv
  have htotal : (L.allocation (.inr ⟨g, k⟩)).totalCount.toNat = L.requested (.inr ⟨g, k⟩) :=
    NodeOutputs.toNat_totalCount hcount trivial
  rcases (hs.group g).returned i k v hv with ⟨hzero, -⟩ | hp
  · rw [hzero] at htotal
    have hnone : L.bytes (.inr ⟨g, k⟩) = 0 := by
      rw [NodeOutputs.bytes, ← htotal]
      exact Nat.zero_mul _
    exact absurd hnone hbytes
  · have hreached := hp.mem_reached hbody (show 1 ≤ 5 by omega)
    have hrange := start_add_le hbody hcount hfits hreached
    have hin : L.bytes (.inr ⟨g, k⟩) ≤ (L.allocation (.inr ⟨g, k⟩)).paddedBytes := by
      rw [NodeOutputs.bytes, ← htotal]
      exact NodeAllocation.count_mul_stride_le
    refine ⟨hreached, ?_, ?_⟩
    · rw [hp.eq_ofNat hbody, BitVec.toNat_ofNat, Nat.mod_eq_of_lt]
      · rfl
      · omega
    · rw [Nat.zero_add]
      exact hin

/-- Of two placements in one call or in two, one range ends before the other starts. -/
theorem Placed.apart {o o' id id' : L.Id} {v v' : BitVec 32} {d d' : Nat}
    (h : s.Placed start o v id d) (h' : s.Placed start o' v' id' d') (hbody : s.BodyOk start slot)
    (hsame : id = id' → d + L.bytes o ≤ d' ∨ d' + L.bytes o' ≤ d) :
    v.toNat + L.bytes o ≤ v'.toNat ∨ v'.toNat + L.bytes o' ≤ v.toNat := by
  have hv := h.value
  have hv' := h'.value
  have hfits := h.fits
  have hfits' := h'.fits
  by_cases heq : id = id'
  · rw [← heq] at hv'
    rcases hsame heq with hle | hle
    · omega
    · omega
  · rcases hbody.payload.served.apart id h.reached id' h'.reached heq with hle | hle
    · omega
    · omega

/-- Lanes of one call lie behind each other. -/
theorem before_apart {c : ThreadCall n} {f j j' : Fin n} (hj : j ∈ c.lanesOf f)
    (hj' : j' ∈ c.lanesOf f) (hne : j ≠ j') (stride : Nat) :
    before c f j * stride + (c.count j).toNat * stride ≤ before c f j' * stride ∨
      before c f j' * stride + (c.count j').toNat * stride ≤ before c f j * stride := by
  rw [← Nat.add_mul, ← Nat.add_mul]
  rcases lt_or_gt_of_ne hne with hlt | hlt
  · left
    apply Nat.mul_le_mul_right
    apply before_add_le ((c.lanesOf f).filter (· < j'))
    · exact Finset.mem_filter.mpr ⟨hj, hlt⟩
    · exact fun i hi hij => Finset.mem_filter.mpr ⟨hi, hij.trans hlt⟩
  · right
    apply Nat.mul_le_mul_right
    apply before_add_le ((c.lanesOf f).filter (· < j))
    · exact Finset.mem_filter.mpr ⟨hj', hlt⟩
    · exact fun i hi hij => Finset.mem_filter.mpr ⟨hi, hij.trans hlt⟩

/-- Two calls are handed payloads that do not overlap. -/
theorem disjoint_handed (hs : s.Inv) (hcount : L.AtMost256) (hfits : L.PayloadFits)
    {o o' : L.Id} {v v' : BitVec 32} (hne : o ≠ o') (hv : s.Handed o v) (hv' : s.Handed o' v') :
    Disjoint (Set.Ico v.toNat (v.toNat + L.bytes o))
      (Set.Ico v'.toNat (v'.toNat + L.bytes o')) := by
  obtain ⟨start, slot, hbody⟩ := hs.body
  rw [Set.Ico_disjoint_Ico]
  by_cases hbytes : L.bytes o = 0
  · omega
  by_cases hbytes' : L.bytes o' = 0
  · omega
  have hapart : v.toNat + L.bytes o ≤ v'.toNat ∨ v'.toNat + L.bytes o' ≤ v.toNat := by
    cases o with
    | inl lane =>
      obtain ⟨w, j⟩ := lane
      obtain ⟨f, hj, hcall, hplaced⟩ := placed_lane hs hbody hcount hfits hv hbytes
      cases o' with
      | inl lane' =>
        obtain ⟨w', j'⟩ := lane'
        obtain ⟨f', hj', hcall', hplaced'⟩ := placed_lane hs hbody hcount hfits hv' hbytes'
        apply hplaced.apart hplaced' hbody
        intro heq
        cases heq
        exact before_apart hj hj' (fun heq => hne (by rw [heq])) _
      | inr call =>
        have hplaced' := placed_group hs hbody hcount hfits hv' hbytes'
        exact hplaced.apart hplaced' hbody fun heq => absurd heq Sum.inl_ne_inr
    | inr call =>
      have hplaced := placed_group hs hbody hcount hfits hv hbytes
      cases o' with
      | inl lane' =>
        obtain ⟨f', hj', hcall', hplaced'⟩ := placed_lane hs hbody hcount hfits hv' hbytes'
        exact hplaced.apart hplaced' hbody fun heq => absurd heq Sum.inr_ne_inl
      | inr call' =>
        have hplaced' := placed_group hs hbody hcount hfits hv' hbytes'
        exact hplaced.apart hplaced' hbody fun heq => absurd heq hne
  omega

/-- The first lane of a call has no lanes before it. -/
theorem before_first {w : Fin L.waves} {f : Fin n} (h : L.IsCall (.inl (w, f))) :
    before (L.threadCall w) f f = 0 := by
  rw [before, Finset.filter_false_of_mem]
  · rfl
  · exact fun i hi => not_lt_of_ge (h.2 i hi)

/-- What the first lane of a call returns. -/
theorem handed_first (hs : s.Inv) {w : Fin L.waves} {f : Fin n} {v : BitVec 32}
    (hcall : L.IsCall (.inl (w, f))) (hv : s.Handed (.inl (w, f)) v) :
    (L.allocation (.inl (w, f))).totalCount = 0#32 ∧ v = 0#32 ∨ s.Settled (.inl (w, f)) v := by
  obtain ⟨f', hcall', hf, hvalue⟩ := (hs.wave w).returned f v hv
  obtain ⟨hactive, hnode⟩ := Finset.mem_filter.mp hf
  have hff : f' = f := by
    apply le_antisymm
    · exact hcall'.2 f hf
    · exact hcall.2 f' (Finset.mem_filter.mpr ⟨hcall'.1, hnode.symm⟩)
  rw [hff] at hvalue
  rcases hvalue with hzero | ⟨p, hp, hv⟩
  · exact .inl hzero
  · right
    have hscan := before_first hcall
    rw [before] at hscan
    rw [exclusiveScan_add_eq_ofNat, hscan, BitVec.zero_mul, BitVec.add_zero] at hv
    rw [hv]
    exact hp

/-- What is handed to a call is where its allocation starts, unless it is empty. -/
theorem handed_call (hs : s.Inv) {id : L.Id} {v : BitVec 32} (hcall : L.IsCall id)
    (hv : s.Handed id v) :
    (L.allocation id).totalCount = 0#32 ∧ v = 0#32 ∨ s.Settled id v := by
  cases id with
  | inl lane => exact handed_first hs hcall hv
  | inr call =>
    obtain ⟨i, hv⟩ := hv
    exact (hs.group call.1).returned i call.2 v hv

/-- Every payload is aligned to 16 bytes. -/
theorem aligned_of_handed (hs : s.Inv) {id : L.Id} {v : BitVec 32} (hcall : L.IsCall id)
    (hv : s.Handed id v) : 16 ∣ v.toNat := by
  obtain ⟨start, slot, hbody⟩ := hs.body
  rcases handed_call hs hcall hv with ⟨-, hzero⟩ | hp
  · rw [hzero]
    exact Nat.dvd_zero 16
  · have hdvd : 16 ∣ start id := hbody.payload.served.dvd_start 16
      (fun _ _ => NodeAllocation.sixteen_dvd_paddedBytes) id (hp.mem_reached hbody (by omega))
    rw [hp.eq_ofNat hbody, BitVec.toNat_ofNat]
    omega

/-- Every invocation of a group gets the same offset. -/
theorem handed_unique (hs : s.Inv) (hcount : L.AtMost256) {id : L.Id} {v v' : BitVec 32}
    (hv : s.Handed id v) (hv' : s.Handed id v') : v = v' := by
  cases id with
  | inl lane => exact Option.some_inj.mp (hv.symm.trans hv')
  | inr call =>
    obtain ⟨start, slot, hbody⟩ := hs.body
    have hcall : L.IsCall (.inr call) := trivial
    rcases handed_call hs hcall hv with ⟨hempty, hzero⟩ | hp
    · rcases handed_call hs hcall hv' with ⟨-, hzero'⟩ | hp'
      · rw [hzero, hzero']
      · exact absurd hempty (hp'.totalCount_ne_zero hbody hcount)
    · rcases handed_call hs hcall hv' with ⟨hempty, -⟩ | hp'
      · exact absurd hempty (hp.totalCount_ne_zero hbody hcount)
      · rw [hp.eq_ofNat hbody, hp'.eq_ofNat hbody]

/-- In a state of the invariant the records are exclusive. -/
theorem exclusive (hs : s.Inv) (hcount : L.AtMost256) (hfits : L.PayloadFits) : s.Exclusive where
  unique _ _ _ hv hv' := handed_unique hs hcount hv hv'
  disjoint _ _ _ _ hne hv hv' := disjoint_handed hs hcount hfits hne hv hv'
  aligned _ _ hcall hv := aligned_of_handed hs hcall hv

/-- A list and totals that fit give a layout of the node. -/
theorem nodeLayout_of_fits (hlist : L.ListFits) (htotals : L.TotalsFit) :
    NodeLayout L.allocationOffset L.nonempty L.allocation where
  node_lt := htotals
  fits := hlist

/-- In a state of the invariant no two calls share a slot of the list. -/
theorem slotsApart (hs : s.Inv) (hlist : L.ListFits) : s.SlotsApart := by
  obtain ⟨start, slot, hbody⟩ := hs.body
  intro id id' lane lane' hne hlane hlane' hpc hpc'
  have htaken : id ∈ reached L.nonempty s.body 2 :=
    DxilSpirv.mem_reached.mpr ⟨(hbody.entered id lane hlane).1, lane, hlane, hpc⟩
  have htaken' : id' ∈ reached L.nonempty s.body 2 :=
    DxilSpirv.mem_reached.mpr ⟨(hbody.entered id' lane' hlane').1, lane', hlane', hpc'⟩
  have hslot : slot id ≠ slot id' := fun heq => hne (hbody.slots.tickets.injOn htaken htaken' heq)
  have hlt := hbody.slots.slot_lt htaken
  have hlt' := hbody.slots.slot_lt htaken'
  have hword := toNat_slotWord hlist hlt
  have hword' := toNat_slotWord hlist hlt'
  have hnext := toNat_slotWord_add_one hlist hlt
  have hnext' := toNat_slotWord_add_one hlist hlt'
  rw [wordsOf, wordsOf, hbody.slots.fused id lane hlane hpc,
    hbody.slots.fused id' lane' hlane' hpc', Finset.disjoint_left]
  intro x hx hx'
  have hx : x.toNat = L.allocationOffset.toNat + 2 * slot id ∨
      x.toNat = L.allocationOffset.toNat + 2 * slot id + 1 := by
    rcases Finset.mem_insert.mp hx with rfl | hx
    · exact .inl hword
    · rw [Finset.mem_singleton.mp hx]
      exact .inr hnext
  have hx' : x.toNat = L.allocationOffset.toNat + 2 * slot id' ∨
      x.toNat = L.allocationOffset.toNat + 2 * slot id' + 1 := by
    rcases Finset.mem_insert.mp hx' with rfl | hx'
    · exact .inl hword'
    · rw [Finset.mem_singleton.mp hx']
      exact .inr hnext'
  omega

/-- When everybody has returned, the allocations are through `body_block`. -/
theorem settled_of_finished (hs : s.Inv) (hcount : L.AtMost256) (hfinished : s.Finished)
    {id : L.Id} (hid : id ∈ L.nonempty) : ∃ p, s.base id = some p ∧ s.Settled id p := by
  obtain ⟨-, hcall, hne⟩ := Finset.mem_filter.mp hid
  have hhanded : ∃ p, s.base id = some p ∧ s.Handed id p := by
    cases id with
    | inl lane =>
      obtain ⟨p, hp⟩ := Option.isSome_iff_exists.mp (hfinished.1 lane.1 lane.2 hcall.1)
      exact ⟨p, hp, hp⟩
    | inr call =>
      have hlength := hfinished.2 call.1 ⟨0, (L.group call.1).size_pos⟩
      have hlt := call.2.isLt.trans_eq hlength.symm
      exact ⟨_, List.getElem?_eq_getElem hlt, _, List.getElem?_eq_getElem hlt⟩
  obtain ⟨p, hbase, hp⟩ := hhanded
  refine ⟨p, hbase, (handed_call hs hcall hp).resolve_left ?_⟩
  rintro ⟨hzero, -⟩
  have htotal := NodeOutputs.toNat_totalCount hcount hcall
  rw [hzero] at htotal
  exact hne htotal.symm

/-- When all is done, every nonempty allocation is through all accesses. -/
theorem reached_of_finished (hs : s.Inv) (hcount : L.AtMost256) (hfinished : s.Finished)
    (hbody : s.BodyOk start slot) {k : Nat} (hk : k ≤ 5) :
    reached L.nonempty s.body k = L.nonempty := by
  apply Finset.Subset.antisymm reached_subset
  intro id hid
  obtain ⟨p, -, hp⟩ := settled_of_finished hs hcount hfinished hid
  exact hp.mem_reached hbody hk

end NodeState

namespace NodeOutputs

variable {n : Nat} {L : NodeOutputs n}

/-- The lanes of a node are counted once, with the first of them. -/
theorem sum_first_lanes (c : ThreadCall n) (node : BitVec 32) :
    (∑ f, if (f ∈ c.active ∧ ∀ j ∈ c.lanesOf f, f ≤ j) ∧ c.nodeMetadataIndex f = node then
      ∑ j ∈ c.lanesOf f, (c.count j).toNat else 0) =
    ∑ j ∈ c.active with c.nodeMetadataIndex j = node, (c.count j).toNat := by
  cases hf : firstLane (c.active.filter fun j => c.nodeMetadataIndex j = node) with
  | none =>
    have hempty : ∀ j ∈ c.active, c.nodeMetadataIndex j ≠ node := by
      intro j hj hnode
      have hmem : j ∈ c.active.filter fun j => c.nodeMetadataIndex j = node :=
        Finset.mem_filter.mpr ⟨hj, hnode⟩
      obtain ⟨f, hf'⟩ := exists_firstLane hmem
      rw [hf] at hf'
      cases hf'
    rw [Finset.filter_false_of_mem hempty, Finset.sum_empty]
    apply Finset.sum_eq_zero
    intro f _
    rw [if_neg]
    exact fun h => hempty f h.1.1 h.2
  | some f =>
    obtain ⟨hactive, hnode⟩ := Finset.mem_filter.mp (firstLane_mem hf)
    have hlanes : c.lanesOf f = c.active.filter fun j => c.nodeMetadataIndex j = node := by
      rw [ThreadCall.lanesOf, hnode]
    rw [Finset.sum_eq_single f]
    · rw [if_pos, hlanes]
      refine ⟨⟨hactive, ?_⟩, hnode⟩
      rw [hlanes]
      exact fun j hj => firstLane_le hf hj
    · intro f' _ hne
      rw [if_neg]
      rintro ⟨⟨hactive', hfirst'⟩, hnode'⟩
      apply hne
      apply le_antisymm
      · exact hfirst' f (Finset.mem_filter.mpr ⟨hactive, hnode.trans hnode'.symm⟩)
      · exact firstLane_le hf (Finset.mem_filter.mpr ⟨hactive', hnode'⟩)
    · exact fun h => absurd (Finset.mem_univ f) h

/-- The records requested of a node, call by call. -/
theorem sum_requested (node : BitVec 32) :
    ∑ id ∈ L.nonempty with (L.allocation id).nodeMetadataIndex = node, L.requested id =
      L.requestedOf node := by
  have hterm : ∀ id, (if L.IsCall id ∧ L.requested id ≠ 0 then
      if (L.allocation id).nodeMetadataIndex = node then L.requested id else 0 else 0) =
      if L.IsCall id ∧ (L.allocation id).nodeMetadataIndex = node then L.requested id else 0 := by
    intro id
    by_cases hzero : L.requested id = 0
    · simp [hzero]
    · simp [hzero, ite_and]
  rw [Finset.sum_filter, nonempty, Finset.sum_filter, Finset.sum_congr rfl fun id _ => hterm id,
    Fintype.sum_sum_type, Fintype.sum_prod_type, Fintype.sum_sigma, requestedOf]
  congr 1
  · apply Finset.sum_congr rfl
    intro w _
    exact sum_first_lanes (L.threadCall w) node
  · apply Finset.sum_congr rfl
    intro g _
    rw [Finset.sum_filter]
    apply Finset.sum_congr rfl
    intro k _
    simp only [IsCall, true_and]
    rfl

end NodeOutputs

namespace NodeState

variable {n : Nat} {L : NodeOutputs n}

/-- When everybody has returned, the totals are those of the requests. -/
theorem totalsRequested {s : NodeState L} (hs : s.Inv) (hcount : L.AtMost256)
    (hlist : L.ListFits) (htotals : L.TotalsFit) (hfinished : s.Finished) :
    s.TotalsRequested := by
  obtain ⟨start, slot, hbody⟩ := hs.body
  have harray := hbody.list (nodeLayout_of_fits hlist htotals)
  intro node hnode
  rw [harray.total node hnode, reached_of_finished hs hcount hfinished hbody (by omega),
    ← NodeOutputs.sum_requested]
  congr 1
  apply Finset.sum_congr rfl
  intro id hid
  have hid := (Finset.mem_filter.mp hid).1
  exact NodeOutputs.toNat_totalCount hcount (Finset.mem_filter.mp hid).2.1

/-- When everybody has returned, the totals and the list are those of the requests. -/
theorem complete {s : NodeState L} (hs : s.Inv) (hcount : L.AtMost256) (hlist : L.ListFits)
    (htotals : L.TotalsFit) (hnodes : L.NodesFit) (hfinished : s.Finished) : s.Complete := by
  refine ⟨totalsRequested hs hcount hlist htotals hfinished, ?_⟩
  obtain ⟨start, slot, hbody⟩ := hs.body
  have hreached : ∀ k, k ≤ 5 → reached L.nonempty s.body k = L.nonempty :=
    fun k hk => reached_of_finished hs hcount hfinished hbody hk
  have harray := hbody.list (nodeLayout_of_fits hlist htotals)
  have htickets := hbody.slots.tickets
  rw [hreached 2 (by omega)] at htickets
  have hfused : s.atomics.fusedCount.toNat = L.nonempty.card := by
    have hfits : L.allocationOffset.toNat + 2 * L.nonempty.card ≤ 2 ^ 32 := hlist
    rw [hbody.slots.fusedCount, hreached 2 (by omega), BitVec.toNat_ofNat, Nat.mod_eq_of_lt]
    omega
  -- The slots of the allocations are the slots of the list, each once.
  rw [hfused, ← Finset.range_val, ← htickets.image_eq_range,
    Finset.image_val_of_injOn htickets.injOn, Multiset.map_map]
  apply Multiset.map_congr rfl
  intro id hid
  obtain ⟨-, hcall, hne⟩ := Finset.mem_filter.mp hid
  obtain ⟨p, hbase, hp⟩ := settled_of_finished hs hcount hfinished hid
  have htotal := NodeOutputs.toNat_totalCount hcount hcall
  rw [Function.comp_apply, entryAt, harray.packed id (by rw [hreached 4 (by omega)]; exact hid),
    harray.payload id (by rw [hreached 5 (by omega)]; exact hid), NodeEntry.decode_packed,
    htotal, hbase, Option.getD_some, hp.eq_ofNat hbody]
  · exact hnodes id hid
  · exact hp.totalCount_ne_zero hbody hcount
  · rw [htotal]
    exact hcount id hcall

end NodeState

variable {n : Nat} {L : NodeOutputs n}

/-- In every state of every interleaving everybody has a range of its own and the bases are
aligned. When the list fits in the buffer, no slot is written twice; when the totals lie before
it, they are in the end those of the requests; and when the node indices fit in an entry, the list
is exactly that of the requests. -/
theorem nodeRecords_exclusive (L : NodeOutputs n) (hcount : L.AtMost256) (hfits : L.PayloadFits)
    {s : NodeState L} (hs : NodeReachable L s) :
    s.Exclusive ∧ (L.ListFits → s.SlotsApart ∧ (L.TotalsFit → s.Finished →
      s.TotalsRequested ∧ (L.NodesFit → s.Complete))) := by
  have hinv := NodeState.inv_of_reachable hs
  refine ⟨NodeState.exclusive hinv hcount hfits, fun hlist => ⟨NodeState.slotsApart hinv hlist,
    fun htotals hfinished => ⟨?_, fun hnodes => ?_⟩⟩⟩
  · exact NodeState.totalsRequested hinv hcount hlist htotals hfinished
  · exact NodeState.complete hinv hcount hlist htotals hnodes hfinished

/-- The state after some steps. -/
def NodeState.run (s : NodeState L) (actions : List (NodeAction L)) : Option (NodeState L) :=
  actions.foldlM (fun s action => s.step action) s

/-- A run from a reachable state ends in a reachable state. -/
theorem NodeReachable.run {s s' : NodeState L} {actions : List (NodeAction L)}
    (h : NodeReachable L s) (hrun : s.run actions = some s') : NodeReachable L s' := by
  induction actions generalizing s with
  | nil =>
    cases hrun
    exact h
  | cons action actions ih =>
    rw [NodeState.run, List.foldlM_cons] at hrun
    obtain ⟨t, ht, hrun⟩ := Option.bind_eq_some_iff.mp hrun
    exact ih (h.step action ht) hrun

/-- A wave of two lanes with different nodes, and a group of two invocations. -/
def waveAndGroup (allocationOffset node : BitVec 32) : NodeOutputs 2 where
  allocationOffset := allocationOffset
  waves := 1
  threadCall _ :=
    { active := Finset.univ
      nodeMetadataIndex := fun j => if j = 0 then node else 1#32
      count := fun j => if j = 0 then 3#32 else 5#32
      stride := 4#32
      undef := fun _ => 0#32
      waterfall := true
      uniform := fun h => Bool.noConfusion h }
  groups := 1
  group _ := ⟨2, Nat.two_pos, [⟨node, 2#32, 20#32⟩]⟩

/-- A run in which the three allocations overlap. -/
def waveAndGroupRun (allocationOffset node : BitVec 32) :
    List (NodeAction (waveAndGroup allocationOffset node)) :=
  let wave : Fin (waveAndGroup allocationOffset node).waves := ⟨0, Nat.one_pos⟩
  let group : Fin (waveAndGroup allocationOffset node).groups := ⟨0, Nat.one_pos⟩
  let lane (j : Fin 2) : NodeAction (waveAndGroup allocationOffset node) := .access (.inl (wave, j))
  let call : NodeAction (waveAndGroup allocationOffset node) :=
    .access (.inr ⟨group, ⟨0, Nat.one_pos⟩⟩)
  let invocation (i : Fin 2) : NodeAction (waveAndGroup allocationOffset node) := .invoke group i
  [.turn wave, invocation 1, invocation 0, call, .turn wave, lane 1, lane 0, lane 0, call, lane 1,
    call, lane 0, lane 1, call, call, lane 1, lane 1, lane 0, lane 0, .threadReturn wave 1,
    .threadReturn wave 0, invocation 0, invocation 1, invocation 0, invocation 1, invocation 0,
    invocation 0, invocation 1]

/-- The buffer is cleared before the run. -/
def waveAndGroupStart (allocationOffset node : BitVec 32) :
    NodeState (waveAndGroup allocationOffset node) :=
  .init _ (fun _ => 0#32) fun _ => 0#32

/-- Where the run ends. -/
def waveAndGroupEnd (allocationOffset node : BitVec 32) :
    NodeState (waveAndGroup allocationOffset node) :=
  ((waveAndGroupStart allocationOffset node).run (waveAndGroupRun allocationOffset node)).getD
    (waveAndGroupStart allocationOffset node)

/-- The run of a wave and a group reaches its end. -/
theorem waveAndGroup_reachable {allocationOffset node : BitVec 32}
    (hrun : ((waveAndGroupStart allocationOffset node).run
      (waveAndGroupRun allocationOffset node)).isSome) :
    NodeReachable _ (waveAndGroupEnd allocationOffset node) := by
  obtain ⟨s, hs⟩ := Option.isSome_iff_exists.mp hrun
  rw [waveAndGroupEnd, hs, Option.getD_some]
  exact (NodeReachable.init _ _ fun _ _ => rfl).run hs

/-- Three overlapping allocations for two nodes. -/
theorem waveAndGroup_exclusive :
    (waveAndGroupEnd 16#32 3#32).Exclusive ∧ (waveAndGroupEnd 16#32 3#32).SlotsApart ∧
      (waveAndGroupEnd 16#32 3#32).Complete := by
  have hreachable := waveAndGroup_reachable
    (show ((waveAndGroupStart 16#32 3#32).run (waveAndGroupRun 16#32 3#32)).isSome by
      decide +kernel)
  have hcount : (waveAndGroup 16#32 3#32).AtMost256 := by
    unfold NodeOutputs.AtMost256
    decide +kernel
  have hfits : (waveAndGroup 16#32 3#32).PayloadFits := by
    unfold NodeOutputs.PayloadFits
    decide +kernel
  have hlist : (waveAndGroup 16#32 3#32).ListFits := by
    unfold NodeOutputs.ListFits
    decide +kernel
  have htotals : (waveAndGroup 16#32 3#32).TotalsFit := by
    unfold NodeOutputs.TotalsFit
    decide +kernel
  have hnodes : (waveAndGroup 16#32 3#32).NodesFit := by
    unfold NodeOutputs.NodesFit
    decide +kernel
  have hfinished : (waveAndGroupEnd 16#32 3#32).Finished := by
    unfold NodeState.Finished
    decide +kernel
  obtain ⟨hexclusive, hrest⟩ := nodeRecords_exclusive _ hcount hfits hreachable
  obtain ⟨hslots, hfinal⟩ := hrest hlist
  exact ⟨hexclusive, hslots, (hfinal htotals hfinished).2 hnodes⟩

/-- The list loses a node index of more than 24 bits; a total that lies where the list lies is
overwritten. -/
theorem waveAndGroup_not_complete :
    (∃ s : NodeState (waveAndGroup 33554432#32 16777216#32), NodeReachable _ s ∧
      (waveAndGroup 33554432#32 16777216#32).AtMost256 ∧
      (waveAndGroup 33554432#32 16777216#32).PayloadFits ∧ s.Finished ∧ ¬ s.Complete) ∧
    ∃ s : NodeState (waveAndGroup 0#32 3#32), NodeReachable _ s ∧
      (waveAndGroup 0#32 3#32).AtMost256 ∧ (waveAndGroup 0#32 3#32).PayloadFits ∧ s.Finished ∧
      s.atomics.perNodeTotal 3#32 ≠
        BitVec.ofNat 32 ((waveAndGroup 0#32 3#32).requestedOf 3#32) := by
  constructor
  · refine ⟨waveAndGroupEnd 33554432#32 16777216#32, ?_, ?_, ?_, ?_, fun h => ?_⟩
    · exact waveAndGroup_reachable (by decide +kernel)
    · unfold NodeOutputs.AtMost256
      decide +kernel
    · unfold NodeOutputs.PayloadFits
      decide +kernel
    · unfold NodeState.Finished
      decide +kernel
    · exact absurd h.entries (by decide +kernel)
  · refine ⟨waveAndGroupEnd 0#32 3#32, ?_, ?_, ?_, ?_, ?_⟩
    · exact waveAndGroup_reachable (by decide +kernel)
    · unfold NodeOutputs.AtMost256
      decide +kernel
    · unfold NodeOutputs.PayloadFits
      decide +kernel
    · unfold NodeState.Finished
      decide +kernel
    · decide +kernel

end DxilSpirv
