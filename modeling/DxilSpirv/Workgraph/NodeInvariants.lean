import DxilSpirv.Workgraph.NodeRecords

/-!
# Invariants of the node record allocations

The lanes that leave a waterfall loop together are those with one node, so that every call of the
inner function is for all lanes of a node. Between the barriers of a call of a group the shared
variable holds the offset of that call.
-/

namespace DxilSpirv

open Spirv

namespace NodeState

variable {n : Nat} {L : NodeOutputs n}

/-- The allocation is through `body_block` and got this offset. -/
def Settled (s : NodeState L) (id : L.Id) (payloadOffset : BitVec 32) : Prop :=
  ∃ lane, s.body id = some lane ∧ lane.pc = .mergeBlock ∧ lane.payloadOffset = payloadOffset

theorem Settled.enter {s s' : NodeState L} {id id' : L.Id} {p : BitVec 32} {lane : ElectedLane}
    (h : s.Settled id p) (hnone : s.body id' = none)
    (hbody : s'.body = Function.update s.body id' (some lane)) : s'.Settled id p := by
  obtain ⟨lane', hlane', hpc, hp⟩ := h
  have hne : id ≠ id' := by
    rintro rfl
    rw [hlane'] at hnone
    cases hnone
  refine ⟨lane', ?_, hpc, hp⟩
  rw [hbody, Function.update_of_ne hne]
  exact hlane'

/-- A lane that has got through `body_block` makes no more accesses. -/
theorem Settled.access {s s' : NodeState L} {id id' : L.Id} {p : BitVec 32} (h : s.Settled id p)
    (hstep : s.access id' = some s') : s'.Settled id p := by
  obtain ⟨lane, hlane, hpc, hp⟩ := h
  obtain ⟨lane', hlane', hstep⟩ := Option.bind_eq_some_iff.mp hstep
  split at hstep
  · cases hstep
  · rename_i hnot
    cases hstep
    have hne : id ≠ id' := by
      rintro rfl
      rw [hlane, Option.some_inj] at hlane'
      rw [hlane'] at hpc
      exact hnot hpc
    refine ⟨lane, ?_, hpc, hp⟩
    rw [← hlane]
    exact Function.update_of_ne hne ..

/-- What a lane returns from a call. -/
def LaneValue (s : NodeState L) (w : Fin L.waves) (f j : Fin n) (v : BitVec 32) : Prop :=
  (L.allocation (.inl (w, f))).totalCount = 0#32 ∧ v = 0#32 ∨
    ∃ p, s.Settled (.inl (w, f)) p ∧ v = p + exclusiveScan (· + ·) 0#32
      ((L.threadCall w).lanesOf f) (L.threadCall w).count j * (L.threadCall w).stride

/-- What holds of a wave. -/
structure WaveInv (s : NodeState L) (w : Fin L.waves) : Prop where
  subset : s.looping w ⊆ (L.threadCall w).active
  /-- Lanes of one node leave the loop together. -/
  closed : ∀ j ∈ s.looping w, ∀ i ∈ (L.threadCall w).active,
    (L.threadCall w).nodeMetadataIndex i = (L.threadCall w).nodeMetadataIndex j → i ∈ s.looping w
  called : ∀ f, (s.called w f).Nonempty →
    L.IsCall (.inl (w, f)) ∧ s.called w f = (L.threadCall w).lanesOf f ∧ f ∉ s.looping w
  entered : ∀ f, (s.body (.inl (w, f))).isSome → (s.called w f).Nonempty
  returned : ∀ j v, s.laneReturned w j = some v →
    ∃ f, L.IsCall (.inl (w, f)) ∧ j ∈ (L.threadCall w).lanesOf f ∧ s.LaneValue w f j v

theorem LaneValue.mono {s s' : NodeState L} {w : Fin L.waves} {f j : Fin n} {v : BitVec 32}
    (h : s.LaneValue w f j v) (hsettled : ∀ id p, s.Settled id p → s'.Settled id p) :
    s'.LaneValue w f j v := by
  rcases h with h | ⟨p, hp, hv⟩
  · exact .inl h
  · exact .inr ⟨p, hsettled _ p hp, hv⟩

/-- A step of others keeps the invariant of a wave. -/
theorem WaveInv.frame {s s' : NodeState L} {w : Fin L.waves} (h : s.WaveInv w)
    (hlooping : s'.looping w = s.looping w) (hcalled : s'.called w = s.called w)
    (hreturned : s'.laneReturned w = s.laneReturned w)
    (hbody : ∀ f, (s'.body (.inl (w, f))).isSome → (s.body (.inl (w, f))).isSome)
    (hsettled : ∀ id p, s.Settled id p → s'.Settled id p) : s'.WaveInv w := by
  constructor
  · rw [hlooping]
    exact h.subset
  · rw [hlooping]
    exact h.closed
  · rw [hlooping, hcalled]
    exact h.called
  · rw [hcalled]
    intro f hf
    exact h.entered f (hbody f hf)
  · rw [hreturned]
    intro j v hj
    obtain ⟨f, hf, hmem, hv⟩ := h.returned j v hj
    exact ⟨f, hf, hmem, hv.mono hsettled⟩

/-- The lanes of a turn are all the lanes of a node. -/
theorem WaveInv.turnLanes_eq {s : NodeState L} {w : Fin L.waves} {f : Fin n} (h : s.WaveInv w)
    (hf : firstLane (s.looping w) = some f) : s.turnLanes w = (L.threadCall w).lanesOf f := by
  have hmem := firstLane_mem hf
  ext j
  rw [turnLanes, ThreadCall.lanesOf, Finset.mem_filter]
  split
  · rw [Finset.mem_filter, broadcastFirst_eq hf]
    constructor
    · rintro ⟨hj, hnode⟩
      exact ⟨h.subset hj, hnode.symm⟩
    · rintro ⟨hj, hnode⟩
      exact ⟨h.closed f hmem j hj hnode, hnode.symm⟩
  · rename_i hdirect
    have huniform := (L.threadCall w).uniform (Bool.eq_false_iff.mpr hdirect)
    constructor
    · intro hj
      exact ⟨h.subset hj, huniform j (h.subset hj) f (h.subset hmem)⟩
    · rintro ⟨hj, hnode⟩
      exact h.closed f hmem j hj hnode

/-- The first lane of a turn is the first with its node. -/
theorem WaveInv.isCall_of_first {s : NodeState L} {w : Fin L.waves} {f : Fin n} (h : s.WaveInv w)
    (hf : firstLane (s.looping w) = some f) : L.IsCall (.inl (w, f)) := by
  refine ⟨h.subset (firstLane_mem hf), ?_⟩
  intro j hj
  obtain ⟨hactive, hnode⟩ := Finset.mem_filter.mp hj
  exact firstLane_le hf (h.closed f (firstLane_mem hf) j hactive hnode)

/-- A lane in the loop has not been called for. -/
theorem WaveInv.body_eq_none {s : NodeState L} {w : Fin L.waves} {f : Fin n} (h : s.WaveInv w)
    (hf : f ∈ s.looping w) : s.body (.inl (w, f)) = none := by
  by_contra hne
  have hcalled := h.entered f (Option.isSome_iff_ne_none.mpr hne)
  exact (h.called f hcalled).2.2 hf

/-- A turn as an allocation: the first lane leaves with the lanes of its node and a total of zero,
or enters `body_block` for them. -/
theorem WaveInv.turn_cases {s s' : NodeState L} {w : Fin L.waves} (h : s.WaveInv w)
    (hstep : s.turn w = some s') :
    ∃ f, firstLane (s.looping w) = some f ∧
      s'.looping = Function.update s.looping w (s.looping w \ (L.threadCall w).lanesOf f) ∧
      s'.called = Function.update s.called w
        (Function.update (s.called w) f ((L.threadCall w).lanesOf f)) ∧
      s'.atomics = s.atomics ∧ s'.shared = s.shared ∧ s'.invocation = s.invocation ∧
      ((L.allocation (.inl (w, f))).totalCount = 0#32 ∧ s'.body = s.body ∧
        s'.laneReturned = Function.update s.laneReturned w (fun j =>
          if j ∈ (L.threadCall w).lanesOf f then some 0#32 else s.laneReturned w j) ∨
      (L.allocation (.inl (w, f))).totalCount ≠ 0#32 ∧ s'.laneReturned = s.laneReturned ∧
        s'.body = Function.update s.body (.inl (w, f))
          (some (.enter (L.allocation (.inl (w, f)))))) := by
  obtain ⟨f, hf, hstep⟩ := Option.map_eq_some_iff.mp hstep
  simp only [h.turnLanes_eq hf] at hstep
  refine ⟨f, hf, ?_⟩
  by_cases htotal : reduce (· + ·) 0#32 ((L.threadCall w).lanesOf f) (L.threadCall w).count = 0#32
  · rw [if_pos htotal] at hstep
    cases hstep
    exact ⟨rfl, rfl, rfl, rfl, rfl, .inl ⟨htotal, rfl, rfl⟩⟩
  · rw [if_neg htotal] at hstep
    cases hstep
    exact ⟨rfl, rfl, rfl, rfl, rfl, .inr ⟨htotal, rfl, rfl⟩⟩

/-- A turn keeps the invariant of its wave. -/
theorem WaveInv.turn {s s' : NodeState L} {w : Fin L.waves} (h : s.WaveInv w)
    (hstep : s.turn w = some s') : s'.WaveInv w := by
  obtain ⟨f, hf, hlooping, hcalled, -, -, -, hcase⟩ := h.turn_cases hstep
  have hmem : f ∈ (L.threadCall w).lanesOf f :=
    Finset.mem_filter.mpr ⟨h.subset (firstLane_mem hf), rfl⟩
  have hsettled : ∀ id p, s.Settled id p → s'.Settled id p := by
    intro id p hp
    rcases hcase with ⟨-, hbody, -⟩ | ⟨-, -, hbody⟩
    · obtain ⟨lane, hlane, hlane'⟩ := hp
      exact ⟨lane, by rw [hbody]; exact hlane, hlane'⟩
    · exact hp.enter (h.body_eq_none (firstLane_mem hf)) hbody
  have hlooping : s'.looping w = s.looping w \ (L.threadCall w).lanesOf f := by
    rw [hlooping, Function.update_self]
  have hcalled : s'.called w =
      Function.update (s.called w) f ((L.threadCall w).lanesOf f) := by
    rw [hcalled, Function.update_self]
  constructor
  · rw [hlooping]
    exact Finset.sdiff_subset.trans h.subset
  · rw [hlooping]
    intro j hj i hi hnode
    obtain ⟨hj, hleft⟩ := Finset.mem_sdiff.mp hj
    apply Finset.mem_sdiff.mpr
    refine ⟨h.closed j hj i hi hnode, ?_⟩
    intro hmem
    apply hleft
    apply Finset.mem_filter.mpr
    exact ⟨h.subset hj, hnode.symm.trans (Finset.mem_filter.mp hmem).2⟩
  · rw [hlooping, hcalled]
    intro f' hf'
    by_cases hff : f' = f
    · rw [hff, Function.update_self]
      exact ⟨h.isCall_of_first hf, rfl, fun hloop => (Finset.mem_sdiff.mp hloop).2 hmem⟩
    · rw [Function.update_of_ne hff] at hf' ⊢
      obtain ⟨hcall, hlanes, hnot⟩ := h.called f' hf'
      exact ⟨hcall, hlanes, fun hloop => hnot (Finset.mem_sdiff.mp hloop).1⟩
  · rw [hcalled]
    intro f' hf'
    by_cases hff : f' = f
    · rw [hff, Function.update_self]
      exact ⟨f, hmem⟩
    · rw [Function.update_of_ne hff]
      apply h.entered f'
      rcases hcase with ⟨-, hbody, -⟩ | ⟨-, -, hbody⟩
      · rw [← hbody]
        exact hf'
      · have hne : (Sum.inl (w, f') : L.Id) ≠ .inl (w, f) := by
          intro heq
          exact hff (Prod.mk.inj (Sum.inl.inj heq)).2
        rw [hbody, Function.update_of_ne hne] at hf'
        exact hf'
  · intro j v hj
    rcases hcase with ⟨hempty, -, hreturned⟩ | ⟨-, hreturned, -⟩
    · rw [hreturned, Function.update_self] at hj
      split at hj
      · rename_i hlane
        cases hj
        exact ⟨f, h.isCall_of_first hf, hlane, .inl ⟨hempty, rfl⟩⟩
      · obtain ⟨f', hf', hlane, hv⟩ := h.returned j v hj
        exact ⟨f', hf', hlane, hv.mono hsettled⟩
    · rw [hreturned] at hj
      obtain ⟨f', hf', hlane, hv⟩ := h.returned j v hj
      exact ⟨f', hf', hlane, hv.mono hsettled⟩

/-- The broadcast finds the offset of the lane that allocated. -/
theorem laneValue_eq {c : ThreadCall n} {lanes : Finset (Fin n)} {j : Fin n} (hj : j ∈ lanes)
    (payloadOffset : BitVec 32) : laneValue c lanes payloadOffset j =
      payloadOffset + exclusiveScan (· + ·) 0#32 lanes c.count j * c.stride := by
  obtain ⟨f, hf⟩ := exists_firstLane hj
  rw [laneValue, broadcastFirst_eq hf, if_pos hf]

/-- The return of the lanes of a call changes nothing but what they return. -/
theorem threadReturn_cases {s s' : NodeState L} {w : Fin L.waves} {f : Fin n}
    (hstep : s.threadReturn w f = some s') : ∃ p, s.Settled (.inl (w, f)) p ∧
      s'.laneReturned = Function.update s.laneReturned w (fun j =>
        if j ∈ s.called w f then some (laneValue (L.threadCall w) (s.called w f) p j)
        else s.laneReturned w j) ∧
      s'.atomics = s.atomics ∧ s'.body = s.body ∧ s'.looping = s.looping ∧ s'.called = s.called ∧
      s'.shared = s.shared ∧ s'.invocation = s.invocation := by
  obtain ⟨lane, hlane, hstep⟩ := Option.bind_eq_some_iff.mp hstep
  split at hstep
  · rename_i hpc
    cases hstep
    exact ⟨lane.payloadOffset, ⟨lane, hlane, hpc, rfl⟩, rfl, rfl, rfl, rfl, rfl, rfl, rfl⟩
  · cases hstep

/-- The return of the lanes of a call keeps the invariant of the wave. -/
theorem WaveInv.threadReturn {s s' : NodeState L} {w : Fin L.waves} {f : Fin n} (h : s.WaveInv w)
    (hstep : s.threadReturn w f = some s') : s'.WaveInv w := by
  obtain ⟨p, hp, hreturned, -, hbody, hlooping, hcalled, -, -⟩ := threadReturn_cases hstep
  have hsettled : ∀ id p, s.Settled id p → s'.Settled id p := by
    intro id p hp
    rw [Settled, hbody]
    exact hp
  constructor
  · rw [hlooping]
    exact h.subset
  · rw [hlooping]
    exact h.closed
  · rw [hlooping, hcalled]
    exact h.called
  · rw [hbody, hcalled]
    exact h.entered
  · intro j v hj
    rw [hreturned, Function.update_self] at hj
    split at hj
    · rename_i hlane
      obtain ⟨hcall, hlanes, -⟩ := h.called f ⟨j, hlane⟩
      rw [hlanes] at hlane hj
      rw [Option.some_inj] at hj
      refine ⟨f, hcall, hlane, .inr ⟨p, hsettled _ p hp, ?_⟩⟩
      rw [← hj, laneValue_eq hlane]
    · obtain ⟨f', hf', hlane, hv⟩ := h.returned j v hj
      exact ⟨f', hf', hlane, hv.mono hsettled⟩

/-- What the invocations of a group return from a call. -/
def GroupValue (s : NodeState L) (g : Fin L.groups) (k : Fin (L.group g).calls.length)
    (v : BitVec 32) : Prop :=
  (L.allocation (.inr ⟨g, k⟩)).totalCount = 0#32 ∧ v = 0#32 ∨ s.Settled (.inr ⟨g, k⟩) v

/-- What holds of a group. -/
structure GroupInv (s : NodeState L) (g : Fin L.groups) : Prop where
  returned : ∀ i (k : Fin (L.group g).calls.length) v,
    (s.invocation g i).returned[k.val]? = some v → s.GroupValue g k v
  inCall : ∀ i, (s.invocation g i).pc ≠ .entry → ∃ k : Fin (L.group g).calls.length,
    k.val = (s.invocation g i).returned.length ∧
      (L.allocation (.inr ⟨g, k⟩)).totalCount ≠ 0#32
  /-- Only the first invocation allocates. -/
  body_first : ∀ i, (s.invocation g i).pc = .body → i.val = 0
  entered : ∀ k : Fin (L.group g).calls.length, (s.body (.inr ⟨g, k⟩)).isSome →
    ∀ i, i.val = 0 → (s.invocation g i).ArrivedAt k 1
  shared : ∀ i, i.val = 0 → 2 ≤ (s.invocation g i).pc.stage →
    ∀ k : Fin (L.group g).calls.length, k.val = (s.invocation g i).returned.length →
      s.Settled (.inr ⟨g, k⟩) (s.shared g)
  /-- Past the first barrier of a call every invocation has arrived there. -/
  barrier : ∀ i, 3 ≤ (s.invocation g i).pc.stage →
    ∀ j, (s.invocation g j).ArrivedAt (s.invocation g i).returned.length 2
  /-- Past a call every invocation has arrived at its second barrier. -/
  warBarrier : ∀ i (k : Fin (L.group g).calls.length), k.val < (s.invocation g i).returned.length →
    (L.allocation (.inr ⟨g, k⟩)).totalCount ≠ 0#32 → ∀ j, (s.invocation g j).ArrivedAt k 4
  loaded : ∀ i v, (s.invocation g i).pc = .warBarrier v →
    ∀ k : Fin (L.group g).calls.length, k.val = (s.invocation g i).returned.length →
      s.Settled (.inr ⟨g, k⟩) v

theorem GroupValue.mono {s s' : NodeState L} {g : Fin L.groups}
    {k : Fin (L.group g).calls.length} {v : BitVec 32} (h : s.GroupValue g k v)
    (hsettled : ∀ id p, s.Settled id p → s'.Settled id p) : s'.GroupValue g k v := by
  rcases h with h | h
  · exact .inl h
  · exact .inr (hsettled _ v h)

/-- A step of others keeps the invariant of a group. -/
theorem GroupInv.frame {s s' : NodeState L} {g : Fin L.groups} (h : s.GroupInv g)
    (hinvocation : s'.invocation g = s.invocation g) (hshared : s'.shared g = s.shared g)
    (hbody : ∀ k : Fin (L.group g).calls.length, (s'.body (.inr ⟨g, k⟩)).isSome →
      (s.body (.inr ⟨g, k⟩)).isSome)
    (hsettled : ∀ id p, s.Settled id p → s'.Settled id p) : s'.GroupInv g := by
  constructor
  · rw [hinvocation]
    intro i k v hv
    exact (h.returned i k v hv).mono hsettled
  · rw [hinvocation]
    exact h.inCall
  · rw [hinvocation]
    exact h.body_first
  · rw [hinvocation]
    intro k hk
    exact h.entered k (hbody k hk)
  · rw [hinvocation, hshared]
    intro i hi hstage k hk
    exact hsettled _ _ (h.shared i hi hstage k hk)
  · rw [hinvocation]
    exact h.barrier
  · rw [hinvocation]
    exact h.warBarrier
  · rw [hinvocation]
    intro i v hpc k hk
    exact hsettled _ _ (h.loaded i v hpc k hk)

/-- What an invocation of a group does in a step. -/
inductive GroupMove (s : NodeState L) (g : Fin L.groups) (i : Fin (L.group g).size)
    (k : Fin (L.group g).calls.length) : NodeState L → Prop
  | empty (hpc : (s.invocation g i).pc = .entry)
      (hcount : (L.allocation (.inr ⟨g, k⟩)).totalCount = 0#32) :
      GroupMove s g i k (s.setInvocation g i ⟨.entry, (s.invocation g i).returned ++ [0#32]⟩)
  | enter (hpc : (s.invocation g i).pc = .entry)
      (hcount : (L.allocation (.inr ⟨g, k⟩)).totalCount ≠ 0#32) (hi : i.val = 0) :
      GroupMove s g i k (setInvocation
        { s with
          body := Function.update s.body (.inr ⟨g, k⟩)
            (some (.enter (L.allocation (.inr ⟨g, k⟩)))) }
        g i ⟨.body, (s.invocation g i).returned⟩)
  | skip (hpc : (s.invocation g i).pc = .entry)
      (hcount : (L.allocation (.inr ⟨g, k⟩)).totalCount ≠ 0#32) (hi : i.val ≠ 0) :
      GroupMove s g i k (s.setInvocation g i ⟨.barrier, (s.invocation g i).returned⟩)
  | share (hpc : (s.invocation g i).pc = .body) (p : BitVec 32)
      (hp : s.Settled (.inr ⟨g, k⟩) p) :
      GroupMove s g i k (setInvocation { s with shared := Function.update s.shared g p }
        g i ⟨.barrier, (s.invocation g i).returned⟩)
  | pass (hpc : (s.invocation g i).pc = .barrier)
      (harrived : ∀ j, (s.invocation g j).ArrivedAt k 2) :
      GroupMove s g i k (s.setInvocation g i ⟨.load, (s.invocation g i).returned⟩)
  | load (hpc : (s.invocation g i).pc = .load) :
      GroupMove s g i k
        (s.setInvocation g i ⟨.warBarrier (s.shared g), (s.invocation g i).returned⟩)
  | leave (v : BitVec 32) (hpc : (s.invocation g i).pc = .warBarrier v)
      (harrived : ∀ j, (s.invocation g j).ArrivedAt k 4) :
      GroupMove s g i k (s.setInvocation g i ⟨.entry, (s.invocation g i).returned ++ [v]⟩)

/-- A step of an invocation is a move in its current call. -/
theorem groupMove_of_invoke {s s' : NodeState L} {g : Fin L.groups} {i : Fin (L.group g).size}
    (hstep : s.invoke g i = some s') : ∃ k : Fin (L.group g).calls.length,
      k.val = (s.invocation g i).returned.length ∧ s.GroupMove g i k s' := by
  simp only [invoke] at hstep
  split at hstep
  · rename_i hlt
    refine ⟨⟨_, hlt⟩, rfl, ?_⟩
    cases hpc : (s.invocation g i).pc with
    | entry =>
      simp only [hpc] at hstep
      split at hstep
      · rename_i hcount
        cases hstep
        exact .empty hpc hcount
      · rename_i hcount
        split at hstep
        · rename_i hi
          cases hstep
          exact .enter hpc hcount hi
        · rename_i hi
          cases hstep
          exact .skip hpc hcount hi
    | body =>
      simp only [hpc] at hstep
      obtain ⟨lane, hlane, hstep⟩ := Option.bind_eq_some_iff.mp hstep
      split at hstep
      · rename_i hmerge
        cases hstep
        exact .share hpc _ ⟨lane, hlane, hmerge, rfl⟩
      · cases hstep
    | barrier =>
      simp only [hpc] at hstep
      split at hstep
      · rename_i harrived
        cases hstep
        exact .pass hpc harrived
      · cases hstep
    | load =>
      simp only [hpc] at hstep
      cases hstep
      exact .load hpc
    | warBarrier v =>
      simp only [hpc] at hstep
      split at hstep
      · rename_i harrived
        cases hstep
        exact .leave v hpc harrived
      · cases hstep
  · cases hstep

variable {s s' : NodeState L} {g : Fin L.groups} {i : Fin (L.group g).size}
  {k : Fin (L.group g).calls.length} {v : Invocation}

/-- An invocation that goes on has arrived wherever it had arrived. -/
theorem arrivedAt_update (hinvocation : s'.invocation g = Function.update (s.invocation g) i v)
    (hmono : ∀ k stage, (s.invocation g i).ArrivedAt k stage → v.ArrivedAt k stage) {l stage : Nat}
    {j : Fin (L.group g).size} (h : (s.invocation g j).ArrivedAt l stage) :
    (s'.invocation g j).ArrivedAt l stage := by
  rw [hinvocation]
  by_cases hj : j = i
  · rw [hj, Function.update_self]
    rw [hj] at h
    exact hmono l stage h
  · rw [Function.update_of_ne hj]
    exact h

/-- What a move of one invocation has to establish. -/
theorem GroupInv.move (h : s.GroupInv g)
    (hinvocation : s'.invocation g = Function.update (s.invocation g) i v)
    (hmono : ∀ k stage, (s.invocation g i).ArrivedAt k stage → v.ArrivedAt k stage)
    (hsettled : ∀ id p, s.Settled id p → s'.Settled id p)
    (hreturned : ∀ (l : Fin (L.group g).calls.length) x,
      v.returned[l.val]? = some x → s'.GroupValue g l x)
    (hinCall : v.pc ≠ .entry → k.val = v.returned.length ∧
      (L.allocation (.inr ⟨g, k⟩)).totalCount ≠ 0#32)
    (hfirst : v.pc = .body → i.val = 0)
    (hentered : ∀ l : Fin (L.group g).calls.length, (s'.body (.inr ⟨g, l⟩)).isSome →
      (s.body (.inr ⟨g, l⟩)).isSome ∨ i.val = 0 ∧ v.ArrivedAt l 1)
    (hshared : i.val = 0 → 2 ≤ v.pc.stage → k.val = v.returned.length →
      s'.Settled (.inr ⟨g, k⟩) (s'.shared g))
    (hkeep : i.val = 0 ∨ s'.shared g = s.shared g)
    (hbarrier : 3 ≤ v.pc.stage → ∀ j, (s.invocation g j).ArrivedAt v.returned.length 2)
    (hwar : ∀ l : Fin (L.group g).calls.length, l.val < v.returned.length →
      (L.allocation (.inr ⟨g, l⟩)).totalCount ≠ 0#32 → ∀ j, (s.invocation g j).ArrivedAt l 4)
    (hloaded : ∀ x, v.pc = .warBarrier x → s'.Settled (.inr ⟨g, k⟩) x) : s'.GroupInv g := by
  have hself : s'.invocation g i = v := by rw [hinvocation, Function.update_self]
  have hother : ∀ j, j ≠ i → s'.invocation g j = s.invocation g j := by
    intro j hj
    rw [hinvocation, Function.update_of_ne hj]
  constructor
  · intro j l x hx
    by_cases hj : j = i
    · rw [hj, hself] at hx
      exact hreturned l x hx
    · rw [hother j hj] at hx
      exact (h.returned j l x hx).mono hsettled
  · intro j hpc
    by_cases hj : j = i
    · rw [hj, hself] at hpc ⊢
      exact ⟨k, hinCall hpc⟩
    · rw [hother j hj] at hpc ⊢
      exact h.inCall j hpc
  · intro j hpc
    by_cases hj : j = i
    · rw [hj, hself] at hpc
      rw [hj]
      exact hfirst hpc
    · rw [hother j hj] at hpc
      exact h.body_first j hpc
  · intro l hl j hj
    rcases hentered l hl with hl | ⟨hi, hl⟩
    · exact arrivedAt_update hinvocation hmono (h.entered l hl j hj)
    · rw [Fin.ext (hj.trans hi.symm), hself]
      exact hl
  · intro j hj hstage l hl
    by_cases hji : j = i
    · rw [hji, hself] at hstage hl
      rw [hji] at hj
      have hpc : v.pc ≠ .entry := by
        intro hpc
        rw [hpc] at hstage
        simp only [GroupPc.stage] at hstage
        omega
      rw [Fin.ext (hl.trans (hinCall hpc).1.symm)]
      exact hshared hj hstage (hinCall hpc).1
    · rw [hother j hji] at hstage hl
      have hi : s'.shared g = s.shared g := by
        apply hkeep.resolve_left
        exact fun hi => hji (Fin.ext (hj.trans hi.symm))
      rw [hi]
      exact hsettled _ _ (h.shared j hj hstage l hl)
  · intro j hstage j'
    apply arrivedAt_update hinvocation hmono
    by_cases hj : j = i
    · rw [hj, hself] at hstage ⊢
      exact hbarrier hstage j'
    · rw [hother j hj] at hstage ⊢
      exact h.barrier j hstage j'
  · intro j l hl hcount j'
    apply arrivedAt_update hinvocation hmono
    by_cases hj : j = i
    · rw [hj, hself] at hl
      exact hwar l hl hcount j'
    · rw [hother j hj] at hl
      exact h.warBarrier j l hl hcount j'
  · intro j x hpc l hl
    by_cases hj : j = i
    · rw [hj, hself] at hpc hl
      have hne : v.pc ≠ .entry := by
        intro heq
        rw [heq] at hpc
        cases hpc
      rw [Fin.ext (hl.trans (hinCall hne).1.symm)]
      exact hloaded x hpc
    · rw [hother j hj] at hpc hl
      exact hsettled _ _ (h.loaded j x hpc l hl)

/-- The first invocation enters `body_block` once for a call. -/
theorem GroupInv.body_eq_none (h : s.GroupInv g) (hk : k.val = (s.invocation g i).returned.length)
    (hpc : (s.invocation g i).pc = .entry) (hi : i.val = 0) : s.body (.inr ⟨g, k⟩) = none := by
  by_contra hne
  rcases h.entered k (Option.isSome_iff_ne_none.mpr hne) i hi with hlt | ⟨-, hstage⟩
  · omega
  · rw [hpc] at hstage
    exact absurd hstage (by decide)

/-- What was returned and the barriers behind do not change while an invocation stays in a call. -/
theorem GroupInv.stay (h : s.GroupInv g) (hk : k.val = (s.invocation g i).returned.length)
    (hcount : (L.allocation (.inr ⟨g, k⟩)).totalCount ≠ 0#32) (pc : GroupPc)
    (hinvocation : s'.invocation g =
      Function.update (s.invocation g) i ⟨pc, (s.invocation g i).returned⟩)
    (hstage : (s.invocation g i).pc.stage ≤ pc.stage)
    (hsettled : ∀ id p, s.Settled id p → s'.Settled id p)
    (hfirst : pc = .body → i.val = 0)
    (hentered : ∀ l : Fin (L.group g).calls.length, (s'.body (.inr ⟨g, l⟩)).isSome →
      (s.body (.inr ⟨g, l⟩)).isSome ∨ i.val = 0 ∧ l = k ∧ 1 ≤ pc.stage)
    (hshared : i.val = 0 → 2 ≤ pc.stage → s'.Settled (.inr ⟨g, k⟩) (s'.shared g))
    (hkeep : i.val = 0 ∨ s'.shared g = s.shared g)
    (hbarrier : 3 ≤ pc.stage → ∀ j, (s.invocation g j).ArrivedAt k 2)
    (hloaded : ∀ x, pc = .warBarrier x → s'.Settled (.inr ⟨g, k⟩) x) : s'.GroupInv g := by
  apply h.move (k := k) hinvocation
  · rintro l stage (hlt | ⟨heq, hle⟩)
    · exact .inl hlt
    · exact .inr ⟨heq, hle.trans hstage⟩
  · exact hsettled
  · intro l x hx
    exact (h.returned i l x hx).mono hsettled
  · intro _
    exact ⟨hk, hcount⟩
  · exact hfirst
  · intro l hl
    rcases hentered l hl with hl | ⟨hi, rfl, hpc⟩
    · exact .inl hl
    · exact .inr ⟨hi, .inr ⟨hk, hpc⟩⟩
  · intro hi hpc _
    exact hshared hi hpc
  · exact hkeep
  · intro hpc j
    rw [← hk]
    exact hbarrier hpc j
  · intro l hl hne j
    exact h.warBarrier i l hl hne j
  · exact hloaded

/-- An invocation that returns from a call. -/
theorem GroupInv.leave (h : s.GroupInv g) (hk : k.val = (s.invocation g i).returned.length)
    {x : BitVec 32} (hvalue : s.GroupValue g k x)
    (harrived : (L.allocation (.inr ⟨g, k⟩)).totalCount ≠ 0#32 →
      ∀ j, (s.invocation g j).ArrivedAt k 4) :
    (s.setInvocation g i ⟨.entry, (s.invocation g i).returned ++ [x]⟩).GroupInv g := by
  apply h.move (k := k) (i := i) (v := ⟨.entry, (s.invocation g i).returned ++ [x]⟩)
  · exact Function.update_self ..
  · intro l stage hl
    left
    rw [List.length_append, List.length_singleton]
    rcases hl with hlt | ⟨heq, -⟩
    · omega
    · omega
  · exact fun _ _ hp => hp
  · intro l y hy
    rw [List.getElem?_append] at hy
    split at hy
    · exact h.returned i l y hy
    · rw [List.getElem?_singleton] at hy
      split at hy
      · cases hy
        rw [show l = k from Fin.ext (by omega)]
        exact hvalue
      · cases hy
  · exact fun hpc => absurd rfl hpc
  · exact fun hpc => by cases hpc
  · exact fun l hl => .inl hl
  · exact fun _ hstage => absurd hstage (Nat.not_succ_le_zero 1)
  · exact .inr rfl
  · exact fun hstage => absurd hstage (Nat.not_succ_le_zero 2)
  · intro l hl hne j
    rw [List.length_append, List.length_singleton] at hl
    by_cases hlk : l = k
    · rw [hlk] at hne ⊢
      exact harrived hne j
    · have hlt : l.val ≠ k.val := fun heq => hlk (Fin.ext heq)
      exact h.warBarrier i l (by omega) hne j
  · exact fun y hpc => by cases hpc

/-- The shared variable still holds the offset of a call when an invocation loads it. -/
theorem GroupInv.settled_of_load (h : s.GroupInv g)
    (hk : k.val = (s.invocation g i).returned.length)
    (hcount : (L.allocation (.inr ⟨g, k⟩)).totalCount ≠ 0#32)
    (hpc : (s.invocation g i).pc = .load) : s.Settled (.inr ⟨g, k⟩) (s.shared g) := by
  let first : Fin (L.group g).size := ⟨0, (L.group g).size_pos⟩
  have hfirst := h.barrier i (by rw [hpc]; decide) first
  rw [← hk] at hfirst
  rcases hfirst with hlt | ⟨heq, hstage⟩
  -- The first invocation cannot have gone on: the second barrier has not let it pass.
  · rcases h.warBarrier first k hlt hcount i with hlt' | ⟨-, hstage⟩
    · omega
    · rw [hpc] at hstage
      exact absurd hstage (by decide)
  · exact h.shared first rfl hstage k heq

/-- Every move of an invocation keeps the invariant of its group. -/
theorem GroupInv.invoke (h : s.GroupInv g) (hk : k.val = (s.invocation g i).returned.length)
    (hmove : s.GroupMove g i k s') : s'.GroupInv g := by
  have hcount : (s.invocation g i).pc ≠ .entry →
      (L.allocation (.inr ⟨g, k⟩)).totalCount ≠ 0#32 := by
    intro hpc
    obtain ⟨l, hl, hne⟩ := h.inCall i hpc
    rw [Fin.ext (hk.trans hl.symm)]
    exact hne
  cases hmove with
  | empty hpc hempty => exact h.leave hk (.inl ⟨hempty, rfl⟩) fun hne => absurd hempty hne
  | enter hpc hne hi =>
    have hnone := h.body_eq_none hk hpc hi
    apply h.stay hk hne .body (Function.update_self ..)
    · rw [hpc]
      decide
    · intro id p hp
      exact hp.enter hnone rfl
    · exact fun _ => hi
    · intro l hl
      by_cases hlk : l = k
      · exact .inr ⟨hi, hlk, by decide⟩
      · left
        have hne : (Sum.inr ⟨g, l⟩ : L.Id) ≠ .inr ⟨g, k⟩ := by
          intro heq
          simp only [Sum.inr.injEq, Sigma.mk.injEq, heq_eq_eq, true_and] at heq
          exact hlk heq
        simp only [setInvocation, Function.update_of_ne hne] at hl
        exact hl
    · exact fun _ hstage => absurd hstage (by decide)
    · exact .inl hi
    · exact fun hstage => absurd hstage (by decide)
    · exact fun x hpc => by cases hpc
  | skip hpc hne hi =>
    apply h.stay hk hne .barrier (Function.update_self ..)
    · rw [hpc]
      decide
    · exact fun _ _ hp => hp
    · exact fun hpc => by cases hpc
    · exact fun l hl => .inl hl
    · exact fun hi' => absurd hi' hi
    · exact .inr rfl
    · exact fun hstage => absurd hstage (by decide)
    · exact fun x hpc => by cases hpc
  | share hpc p hp =>
    have hi := h.body_first i hpc
    apply h.stay hk (hcount (by rw [hpc]; exact GroupPc.noConfusion)) .barrier
      (Function.update_self ..)
    · rw [hpc]
      decide
    · exact fun _ _ hp => hp
    · exact fun hpc => by cases hpc
    · exact fun l hl => .inl hl
    · intro _ _
      simp only [setInvocation, Function.update_self]
      exact hp
    · exact .inl hi
    · exact fun hstage => absurd hstage (by decide)
    · exact fun x hpc => by cases hpc
  | pass hpc harrived =>
    apply h.stay hk (hcount (by rw [hpc]; exact GroupPc.noConfusion)) .load
      (Function.update_self ..)
    · rw [hpc]
      decide
    · exact fun _ _ hp => hp
    · exact fun hpc => by cases hpc
    · exact fun l hl => .inl hl
    · intro hi _
      exact h.shared i hi (by rw [hpc]; decide) k hk
    · exact .inr rfl
    · exact fun _ => harrived
    · exact fun x hpc => by cases hpc
  | load hpc =>
    have hne := hcount (by rw [hpc]; exact GroupPc.noConfusion)
    have hsettled := h.settled_of_load hk hne hpc
    apply h.stay hk hne (.warBarrier (s.shared g)) (Function.update_self ..)
    · rw [hpc]
      exact Nat.le_succ 3
    · exact fun _ _ hp => hp
    · exact fun hpc => by cases hpc
    · exact fun l hl => .inl hl
    · exact fun _ _ => hsettled
    · exact .inr rfl
    · intro _ j
      rw [hk]
      exact h.barrier i (by rw [hpc]; decide) j
    · intro x hx
      cases hx
      exact hsettled
  | leave x hpc harrived => exact h.leave hk (.inr (h.loaded i x hpc k hk)) fun _ => harrived

/-- A move touches one group, and `body_block` only when the first invocation enters it. -/
theorem GroupMove.effects (hmove : s.GroupMove g i k s') :
    s'.atomics = s.atomics ∧ s'.looping = s.looping ∧ s'.called = s.called ∧
      s'.laneReturned = s.laneReturned ∧
      (∀ g', g' ≠ g → s'.invocation g' = s.invocation g' ∧ s'.shared g' = s.shared g') ∧
      (s'.body = s.body ∨ (s.invocation g i).pc = .entry ∧ i.val = 0 ∧
        (L.allocation (.inr ⟨g, k⟩)).totalCount ≠ 0#32 ∧
        s'.body = Function.update s.body (.inr ⟨g, k⟩)
          (some (.enter (L.allocation (.inr ⟨g, k⟩))))) := by
  have hother : ∀ (t : NodeState L) (v : Invocation) (g' : Fin L.groups), g' ≠ g →
      (t.setInvocation g i v).invocation g' = t.invocation g' :=
    fun t v g' hne => Function.update_of_ne hne ..
  cases hmove with
  | enter hpc hcount hi =>
    exact ⟨rfl, rfl, rfl, rfl, fun g' hne => ⟨hother _ _ g' hne, rfl⟩, .inr ⟨hpc, hi, hcount, rfl⟩⟩
  | share hpc p hp =>
    exact ⟨rfl, rfl, rfl, rfl, fun g' hne => ⟨hother _ _ g' hne, Function.update_of_ne hne ..⟩,
      .inl rfl⟩
  | empty hpc hcount => exact ⟨rfl, rfl, rfl, rfl, fun g' hne => ⟨hother _ _ g' hne, rfl⟩, .inl rfl⟩
  | skip hpc hcount hi =>
    exact ⟨rfl, rfl, rfl, rfl, fun g' hne => ⟨hother _ _ g' hne, rfl⟩, .inl rfl⟩
  | pass hpc harrived =>
    exact ⟨rfl, rfl, rfl, rfl, fun g' hne => ⟨hother _ _ g' hne, rfl⟩, .inl rfl⟩
  | load hpc => exact ⟨rfl, rfl, rfl, rfl, fun g' hne => ⟨hother _ _ g' hne, rfl⟩, .inl rfl⟩
  | leave v hpc harrived =>
    exact ⟨rfl, rfl, rfl, rfl, fun g' hne => ⟨hother _ _ g' hne, rfl⟩, .inl rfl⟩

end NodeState

end DxilSpirv
