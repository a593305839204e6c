import DxilSpirv.Spirv.Subgroup
import DxilSpirv.Workgraph.NodeAtomics
import Mathlib

/-!
# The allocation of node output records

Waves call `AllocateThreadNodeRecords`, directly when the node index is uniform and through a
waterfall loop otherwise; groups call `AllocateGroupNodeRecords`, where the first invocation
allocates and shares the offset between two barriers. All calls run against one buffer, and
nothing is said about the order in which they step.
-/

namespace DxilSpirv

open Spirv

/-- The arguments of a call by the lanes of a wave, and the undefined value of its PHI. -/
structure ThreadCall (n : Nat) where
  active : Finset (Fin n)
  nodeMetadataIndex : Fin n → BitVec 32
  count : Fin n → BitVec 32
  stride : BitVec 32
  undef : Fin n → BitVec 32
  waterfall : Bool
  /-- The function is called without the waterfall loop only with a uniform node index. -/
  uniform : waterfall = false → ∀ i ∈ active, ∀ j ∈ active,
    nodeMetadataIndex i = nodeMetadataIndex j

/-- The calls that the invocations of a group make one after the other. -/
structure GroupCalls where
  size : Nat
  size_pos : 0 < size
  calls : List NodeAllocation

/-- The calls against one buffer. -/
structure NodeOutputs (n : Nat) where
  allocationOffset : BitVec 32
  waves : Nat
  threadCall : Fin waves → ThreadCall n
  groups : Nat
  group : Fin groups → GroupCalls

/-- A lane of a wave, or a call of a group. The call of the inner function for the lanes of a wave
that share a node goes by the first of them. -/
abbrev NodeOutputs.Id {n : Nat} (L : NodeOutputs n) : Type :=
  Fin L.waves × Fin n ⊕ (g : Fin L.groups) × Fin (L.group g).calls.length

/-- Where an invocation of a group is in `AllocateGroupNodeRecords`. -/
inductive GroupPc
  | entry
  | body
  | barrier
  | load
  | warBarrier (value : BitVec 32)
  deriving DecidableEq

/-- The order of the places. -/
def GroupPc.stage : GroupPc → Nat
  | entry => 0
  | body => 1
  | barrier => 2
  | load => 3
  | warBarrier _ => 4

/-- An invocation of a group, with what its calls have returned. -/
structure Invocation where
  pc : GroupPc
  returned : List (BitVec 32)
  deriving DecidableEq

/-- The invocation has come to a place of a call, or is past it. -/
def Invocation.ArrivedAt (k stage : Nat) (v : Invocation) : Prop :=
  k < v.returned.length ∨ k = v.returned.length ∧ stage ≤ v.pc.stage

instance (k stage : Nat) (v : Invocation) : Decidable (v.ArrivedAt k stage) :=
  inferInstanceAs (Decidable (_ ∨ _))

/-- The buffer, the lanes in `body_block`, the waves and the groups. -/
structure NodeState {n : Nat} (L : NodeOutputs n) where
  atomics : NodeAtomics
  body : L.Id → Option ElectedLane
  looping : Fin L.waves → Finset (Fin n)
  called : Fin L.waves → Fin n → Finset (Fin n)
  laneReturned : Fin L.waves → Fin n → Option (BitVec 32)
  shared : Fin L.groups → BitVec 32
  invocation : (g : Fin L.groups) → Fin (L.group g).size → Invocation

namespace NodeState

variable {n : Nat} {L : NodeOutputs n}

/-- The counters start at zero; the list and the shared variables hold anything. -/
def init (L : NodeOutputs n) (table : BitVec 32 → BitVec 32) (shared : Fin L.groups → BitVec 32) :
    NodeState L where
  atomics := ⟨0, 0, table⟩
  body _ := none
  looping w := (L.threadCall w).active
  called _ _ := ∅
  laneReturned _ _ := none
  shared := shared
  invocation _ _ := ⟨.entry, []⟩

/-- The lanes that run `body_block` of the waterfall, or all of them in a direct call. -/
def turnLanes (s : NodeState L) (w : Fin L.waves) : Finset (Fin n) :=
  let c := L.threadCall w
  if c.waterfall then (s.looping w).filter fun j =>
    broadcastFirst (s.looping w) c.nodeMetadataIndex j = c.nodeMetadataIndex j
  else s.looping w

/-- A call of `AllocateThreadNodeRecords` by the lanes of a turn, up to `body_block`. -/
def turn (s : NodeState L) (w : Fin L.waves) : Option (NodeState L) :=
  (firstLane (s.looping w)).map fun f =>
    let c := L.threadCall w
    let lanes := s.turnLanes w
    let total := reduce (· + ·) 0#32 lanes c.count
    let next : NodeState L :=
      { s with
        looping := Function.update s.looping w (s.looping w \ lanes)
        called := Function.update s.called w (Function.update (s.called w) f lanes) }
    if total = 0#32 then
      { next with
        laneReturned := Function.update s.laneReturned w fun j =>
          if j ∈ lanes then some 0#32 else s.laneReturned w j }
    else
      { next with
        body := Function.update s.body (.inl (w, f))
          (some (.enter ⟨c.nodeMetadataIndex f, total, c.stride⟩)) }

/-- The next access of a lane in `body_block`. -/
def access (s : NodeState L) (id : L.Id) : Option (NodeState L) :=
  (s.body id).bind fun lane =>
    if lane.pc = .mergeBlock then none
    else
      some
        { s with
          atomics := (lane.step L.allocationOffset s.atomics).1
          body := Function.update s.body id (some (lane.step L.allocationOffset s.atomics).2) }

/-- What a lane returns: the broadcast of the PHI and the scan of the counts. -/
def laneValue (c : ThreadCall n) (lanes : Finset (Fin n)) (payloadOffset : BitVec 32) (j : Fin n) :
    BitVec 32 :=
  broadcastFirst lanes (fun i => if firstLane lanes = some i then payloadOffset else c.undef i) j +
    exclusiveScan (· + ·) 0#32 lanes c.count j * c.stride

/-- The lanes of a call reconverge in `merge_block` and return. -/
def threadReturn (s : NodeState L) (w : Fin L.waves) (f : Fin n) : Option (NodeState L) :=
  (s.body (.inl (w, f))).bind fun lane =>
    if lane.pc = .mergeBlock then
      some
        { s with
          laneReturned := Function.update s.laneReturned w fun j =>
            if j ∈ s.called w f then
              some (laneValue (L.threadCall w) (s.called w f) lane.payloadOffset j)
            else s.laneReturned w j }
    else none

/-- An invocation moves. -/
def setInvocation (s : NodeState L) (g : Fin L.groups) (i : Fin (L.group g).size) (v : Invocation) :
    NodeState L :=
  { s with invocation := Function.update s.invocation g (Function.update (s.invocation g) i v) }

/-- An invocation of a group steps in `AllocateGroupNodeRecords`. A barrier lets it pass when every
invocation of the group has arrived. -/
def invoke (s : NodeState L) (g : Fin L.groups) (i : Fin (L.group g).size) : Option (NodeState L) :=
  let v := s.invocation g i
  if h : v.returned.length < (L.group g).calls.length then
    let k : Fin (L.group g).calls.length := ⟨v.returned.length, h⟩
    let a := (L.group g).calls.get k
    match v.pc with
    | .entry =>
      if a.totalCount = 0#32 then some (s.setInvocation g i ⟨.entry, v.returned ++ [0#32]⟩)
      else if i.val = 0 then
        some
          (setInvocation { s with body := Function.update s.body (.inr ⟨g, k⟩) (some (.enter a)) }
          g i ⟨.body, v.returned⟩)
      else some (s.setInvocation g i ⟨.barrier, v.returned⟩)
    | .body =>
      (s.body (.inr ⟨g, k⟩)).bind fun lane =>
        if lane.pc = .mergeBlock then
          some (setInvocation { s with shared := Function.update s.shared g lane.payloadOffset }
            g i ⟨.barrier, v.returned⟩)
        else none
    | .barrier =>
      if ∀ j, (s.invocation g j).ArrivedAt k 2 then
        some (s.setInvocation g i ⟨.load, v.returned⟩)
      else none
    | .load => some (s.setInvocation g i ⟨.warBarrier (s.shared g), v.returned⟩)
    | .warBarrier value =>
      if ∀ j, (s.invocation g j).ArrivedAt k 4 then
        some (s.setInvocation g i ⟨.entry, v.returned ++ [value]⟩)
      else none
  else none

end NodeState

/-- Who steps. -/
inductive NodeAction {n : Nat} (L : NodeOutputs n)
  | turn (w : Fin L.waves)
  | access (id : L.Id)
  | threadReturn (w : Fin L.waves) (f : Fin n)
  | invoke (g : Fin L.groups) (i : Fin (L.group g).size)

/-- One step of the calls. -/
def NodeState.step {n : Nat} {L : NodeOutputs n} (s : NodeState L) :
    NodeAction L → Option (NodeState L)
  | .turn w => s.turn w
  | .access id => s.access id
  | .threadReturn w f => s.threadReturn w f
  | .invoke g i => s.invoke g i

/-- The states of the runs, for every interleaving. -/
inductive NodeReachable {n : Nat} (L : NodeOutputs n) : NodeState L → Prop
  | init (table : BitVec 32 → BitVec 32) (shared : Fin L.groups → BitVec 32)
      (hzero : ∀ node, node.toNat < L.allocationOffset.toNat → table node = 0#32) :
      NodeReachable L (.init L table shared)
  | step {s s' : NodeState L} (action : NodeAction L) :
      NodeReachable L s → s.step action = some s' → NodeReachable L s'

/-- The active lanes with the node of a lane. -/
def ThreadCall.lanesOf {n : Nat} (c : ThreadCall n) (f : Fin n) : Finset (Fin n) :=
  c.active.filter fun j => c.nodeMetadataIndex j = c.nodeMetadataIndex f

namespace NodeOutputs

variable {n : Nat} (L : NodeOutputs n)

/-- A lane is the first of those with its node; for groups there is nothing to ask. -/
def IsCall : L.Id → Prop
  | .inl (w, f) => f ∈ (L.threadCall w).active ∧ ∀ j ∈ (L.threadCall w).lanesOf f, f ≤ j
  | .inr _ => True

instance : DecidablePred L.IsCall := fun id =>
  match id with
  | .inl _ => inferInstanceAs (Decidable (_ ∧ _))
  | .inr _ => inferInstanceAs (Decidable True)

/-- The records that a call requests. -/
def requested : L.Id → Nat
  | .inl (w, f) => ∑ j ∈ (L.threadCall w).lanesOf f, ((L.threadCall w).count j).toNat
  | .inr ⟨g, k⟩ => ((L.group g).calls.get k).totalCount.toNat

/-- What the lane in `body_block` of a call allocates. -/
def allocation : L.Id → NodeAllocation
  | .inl (w, f) =>
    let c := L.threadCall w
    ⟨c.nodeMetadataIndex f, reduce (· + ·) 0#32 (c.lanesOf f) c.count, c.stride⟩
  | .inr ⟨g, k⟩ => (L.group g).calls.get k

/-- The calls that allocate. -/
def nonempty : Finset L.Id := Finset.univ.filter fun id => L.IsCall id ∧ L.requested id ≠ 0

/-- The bytes of a lane, or of a call of a group. -/
def bytes : L.Id → Nat
  | .inl (w, j) => ((L.threadCall w).count j).toNat * (L.threadCall w).stride.toNat
  | .inr ⟨g, k⟩ => L.requested (.inr ⟨g, k⟩) * ((L.group g).calls.get k).stride.toNat

/-- The records that all lanes and groups request of a node. -/
def requestedOf (node : BitVec 32) : Nat :=
  (∑ w, ∑ j ∈ (L.threadCall w).active with (L.threadCall w).nodeMetadataIndex j = node,
    ((L.threadCall w).count j).toNat) +
  ∑ g, ∑ k with ((L.group g).calls.get k).nodeMetadataIndex = node,
    ((L.group g).calls.get k).totalCount.toNat

/-- No call allocates more than 256 records. -/
def AtMost256 : Prop := ∀ id, L.IsCall id → L.requested id ≤ 256

/-- The padded payload bytes do not exceed the word. -/
def PayloadFits : Prop :=
  ∑ id ∈ L.nonempty, (L.requested id * (L.allocation id).stride.toNat + 15) / 16 * 16 ≤ 2 ^ 32

/-- The list fits in the runtime array. -/
def ListFits : Prop := L.allocationOffset.toNat + 2 * L.nonempty.card ≤ 2 ^ 32

/-- The totals lie before the list. -/
def TotalsFit : Prop :=
  ∀ id ∈ L.nonempty, (L.allocation id).nodeMetadataIndex.toNat < L.allocationOffset.toNat

/-- Node indices fit in the 24 bits that an entry has for them. -/
def NodesFit : Prop := ∀ id ∈ L.nonempty, (L.allocation id).nodeMetadataIndex.toNat < 2 ^ 24

end NodeOutputs

namespace NodeState

variable {n : Nat} {L : NodeOutputs n}

/-- A lane, or some invocation of a group for one of its calls, has got this offset. -/
def Handed (s : NodeState L) : L.Id → BitVec 32 → Prop
  | .inl (w, j), v => s.laneReturned w j = some v
  | .inr ⟨g, k⟩, v => ∃ i, (s.invocation g i).returned[k.val]? = some v

/-- What the first lane of a call, or the first invocation of a group, has got. -/
def base (s : NodeState L) : L.Id → Option (BitVec 32)
  | .inl (w, f) => s.laneReturned w f
  | .inr ⟨g, k⟩ => (s.invocation g ⟨0, (L.group g).size_pos⟩).returned[k.val]?

/-- Every lane and every invocation has returned from all its calls. -/
def Finished (s : NodeState L) : Prop :=
  (∀ w, ∀ j ∈ (L.threadCall w).active, (s.laneReturned w j).isSome) ∧
    ∀ g i, (s.invocation g i).returned.length = (L.group g).calls.length

/-- The decoded entry of a slot. -/
def entryAt (s : NodeState L) (slot : Nat) : NodeEntry :=
  let word := slotWord L.allocationOffset (BitVec.ofNat 32 slot)
  .decode (s.atomics.perNodeTotal word) (s.atomics.perNodeTotal (word + 1#32))

/-- The words that a lane writes once it has a slot. -/
def wordsOf (L : NodeOutputs n) (lane : ElectedLane) : Finset (BitVec 32) :=
  {slotWord L.allocationOffset lane.fused, slotWord L.allocationOffset lane.fused + 1#32}

/-- Everybody gets one offset, the byte ranges are disjoint and the bases are aligned. -/
structure Exclusive (s : NodeState L) : Prop where
  unique : ∀ id v v', s.Handed id v → s.Handed id v' → v = v'
  disjoint : ∀ id id' v v', id ≠ id' → s.Handed id v → s.Handed id' v' →
    Disjoint (Set.Ico v.toNat (v.toNat + L.bytes id)) (Set.Ico v'.toNat (v'.toNat + L.bytes id'))
  aligned : ∀ id v, L.IsCall id → s.Handed id v → 16 ∣ v.toNat

/-- No word of the list is written for two allocations. -/
def SlotsApart (s : NodeState L) : Prop :=
  ∀ id id' lane lane', id ≠ id' → s.body id = some lane → s.body id' = some lane' →
    2 ≤ lane.pc.index → 2 ≤ lane'.pc.index → Disjoint (wordsOf L lane) (wordsOf L lane')

/-- The totals are the sums of the requests. -/
def TotalsRequested (s : NodeState L) : Prop :=
  ∀ node, node.toNat < L.allocationOffset.toNat →
    s.atomics.perNodeTotal node = BitVec.ofNat 32 (L.requestedOf node)

/-- The totals are the sums of the requests and the list has exactly the allocations. -/
structure Complete (s : NodeState L) : Prop where
  totals : s.TotalsRequested
  entries : (Multiset.range s.atomics.fusedCount.toNat).map s.entryAt =
    L.nonempty.val.map fun id =>
      ⟨(L.allocation id).nodeMetadataIndex, L.requested id, (s.base id).getD 0⟩

end NodeState

end DxilSpirv
