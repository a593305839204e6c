import DxilSpirv.Emission.Linked

/-!
# Emitted functions do what their graphs do

Every node of a structured graph is emitted once, and control goes from node to node as it does in
the graph. So the function ends exactly when the graph does, in the same way, with the same memory
and after the same operations.
-/

namespace DxilSpirv.Emission

open SpirvFunction Program

variable {c : CFGStructurizer} {info : Nat → MergeInfo} {s s' B : SpirvFunction} {done : List Nat}
  {K : Nat}

/-- Some nodes have first blocks, which are empty and tell them apart. -/
structure Labelled (s : SpirvFunction) (nodes : List Nat) : Prop where
  fresh : s.Fresh
  id_eq : s.id = s.label
  label_ne : ∀ n ∈ nodes, s.label n ≠ 0
  inj : ∀ n n', s.label n = s.label n' → s.label n ≠ 0 → n = n'
  empty : ∀ n, s.label n ≠ 0 → s.block (s.label n) = {}

/-- A node is registered before anything is emitted. -/
theorem labelled_registerBlock {nodes : List Nat} (h : Labelled s nodes) (n : Nat) :
    Labelled ({ s with id := Function.update s.id n 0 }.registerBlock n) (nodes ++ [n]) ∧
      s.builder.uniqueId ≤
        ({ s with id := Function.update s.id n 0 }.registerBlock n).builder.uniqueId := by
  have heq : { s with id := Function.update s.id n 0 }.registerBlock n =
      { s.drawId.addBlock s.newBlock with
        label := Function.update s.label n s.newBlock
        id := Function.update (Function.update s.id n 0) n s.newBlock } :=
    if_pos (.inr (Function.update_self ..))
  rw [heq]
  have hlt (k : Nat) : s.label k < s.newBlock := Nat.lt_succ_of_le (h.fresh.label k)
  have hle (k : Nat) : Function.update s.label n s.newBlock k ≤ s.newBlock := update_le hlt k
  have hid : Function.update (Function.update s.id n 0) n s.newBlock =
      Function.update s.label n s.newBlock := by
    rw [Function.update_idem, h.id_eq]
  refine ⟨⟨⟨fun l hl => h.fresh.block l (Nat.lt_of_succ_lt hl), hle, fun k => hid ▸ hle k,
    fun i hi => (h.fresh.constants i hi).trans (Nat.le_succ _)⟩, hid, fun k hk => ?_,
      update_inj h.inj fun k _ => Nat.ne_of_lt (hlt k), fun k hne => ?_⟩, Nat.le_succ _⟩
  · change Function.update s.label n s.newBlock k ≠ 0
    by_cases hkn : k = n
    · rw [hkn, Function.update_self]
      exact Nat.succ_ne_zero _
    · rw [Function.update_of_ne hkn]
      exact h.label_ne k ((List.mem_append.mp hk).resolve_right fun hmem =>
        hkn (List.mem_singleton.mp hmem))
  · change s.block (Function.update s.label n s.newBlock k) = {}
    change Function.update s.label n s.newBlock k ≠ 0 at hne
    by_cases hkn : k = n
    · rw [hkn, Function.update_self]
      exact h.fresh.block _ (Nat.lt_succ_self _)
    · rw [Function.update_of_ne hkn] at hne ⊢
      exact h.empty k hne

theorem labelled_registerBlocks {nodes : List Nat} (h : Labelled s nodes) (todo : List Nat) :
    let s' := todo.foldl (fun s n => { s with id := Function.update s.id n 0 }.registerBlock n) s
    Labelled s' (nodes ++ todo) ∧ s.builder.uniqueId ≤ s'.builder.uniqueId := by
  induction todo generalizing s nodes with
  | nil => exact ⟨by rw [List.append_nil]; exact h, le_rfl⟩
  | cons n todo ih =>
    obtain ⟨hfirst, hle⟩ := labelled_registerBlock h n
    obtain ⟨hrest, hle'⟩ := ih hfirst
    rw [List.append_assoc] at hrest
    exact ⟨hrest, hle.trans hle'⟩

/-- Before anything is emitted, all nodes are ready. -/
theorem Labelled.linked (h : Labelled s (order c)) : Linked c s [] where
  fresh := h.fresh
  label_ne := h.label_ne
  id_ne n hn := h.id_eq ▸ h.label_ne n hn
  label_inj := h.inj
  id_inj := by
    rw [h.id_eq]
    exact h.inj
  pending n _ := congrFun h.id_eq n
  empty n _ := h.empty n
  phis _ hn := absurd hn List.not_mem_nil

/-- The merges of a node are registered. -/
theorem linked_registerBlocks (h : Linked c s done) (hdone : ∀ n ∈ done, n ∈ order c)
    (nodes : List Nat) :
    Linked c (nodes.foldl registerBlock s) done ∧
      Grows s.builder.uniqueId s (nodes.foldl registerBlock s) ∧
      ∀ a ∈ order c, (nodes.foldl registerBlock s).label a = s.label a ∧
        (nodes.foldl registerBlock s).id a = s.id a := by
  induction nodes generalizing s with
  | nil => exact ⟨h, Grows.refl _ _, fun _ _ => ⟨rfl, rfl⟩⟩
  | cons n nodes ih =>
    obtain ⟨hlinked, hgrows, hsame⟩ := linked_registerBlock h hdone n
    obtain ⟨hlinked', hgrows', hsame'⟩ := ih hlinked
    exact ⟨hlinked', hgrows.trans (hgrows'.mono hgrows.drawn), fun a ha =>
      ⟨(hsame' a ha).1.trans (hsame a ha).1, (hsame' a ha).2.trans (hsame a ha).2⟩⟩

theorem linked_registerMerges (h : Linked c s done) (hdone : ∀ n ∈ done, n ∈ order c) (n : Nat) :
    Linked c (s.registerMerges c n) done ∧ Grows s.builder.uniqueId s (s.registerMerges c n) ∧
      ∀ a ∈ order c, (s.registerMerges c n).label a = s.label a ∧
        (s.registerMerges c n).id a = s.id a := by
  unfold registerMerges
  split
  · exact linked_registerBlocks h hdone _
  · exact linked_registerBlocks h hdone _
  · exact ⟨h, Grows.refl _ _, fun _ _ => ⟨rfl, rfl⟩⟩

/-- A graph that can be emitted: switches and loop headers that branch into their loops on both
sides branch to nodes that come later, and all ids are those of the program. -/
structure Structured (c : CFGStructurizer) (info : Nat → MergeInfo) (K : Nat) : Prop where
  nodup : (order c).Nodup
  entry : c.entryBlock ∈ order c
  entry_phis : (c.node c.entryBlock).ir.phi = []
  closed : ∀ a ∈ order c, ∀ n ∈ exits (c.node a).ir, n ∈ order c
  forward : ∀ pre a post, order c = pre ++ a :: post → (c.node a).ir.terminator.type = .switch ∨
    Splits (mergeInfo c info a) (c.node a).ir.terminator →
      ∀ n ∈ branchTargets (c.node a).ir.terminator, n ∈ post
  operations : ∀ a ∈ order c, ∀ op ∈ (c.node a).ir.operations, OpBelow K op
  terminator : ∀ a ∈ order c, TerminatorBelow K (c.node a).ir.terminator
  phis : ∀ a ∈ order c, ∀ phi ∈ (c.node a).ir.phi, phi.id ≤ K ∧ ∀ i ∈ phi.incoming,
    0 < i.id ∧ i.id ≤ K

/-- A node of the function `B` was emitted between two modules, after the nodes `pre` and before the
nodes `post`. -/
structure EmittedFrom (c : CFGStructurizer) (info : Nat → MergeInfo) (K : Nat) (B : SpirvFunction)
    (a : Nat) (s s' : SpirvFunction) (pre post : List Nat) : Prop where
  order_eq : order c = pre ++ a :: post
  linked : Linked c s pre
  emit : s.emitBasicBlock a (c.node a).ir (mergeInfo c info a) = some s'
  grows : Grows s'.builder.uniqueId s' B
  id_eq : B.id a = s'.id a
  label_eq : ∀ n ∈ order c, B.label n = s.label n
  le : K ≤ s.builder.uniqueId

theorem exits_subset (ir : IRBlock) {n : Nat} (hn : n ∈ exits ir) :
    n ∈ branchTargets ir.terminator := by
  unfold exits at hn
  split_ifs at hn
  · exact absurd hn List.not_mem_nil
  · exact hn

/-- All nodes are emitted, one after the other. -/
theorem linked_emit (hc : Structured c info K) {todo : List Nat} (horder : order c = done ++ todo)
    (h : Linked c s done) (hK : K ≤ s.builder.uniqueId)
    (hemit : todo.foldlM (fun s n =>
      (s.registerMerges c n).emitBasicBlock n (c.node n).ir (mergeInfo c info n)) s =
      some B) :
    Linked c B (order c) ∧ Grows s.builder.uniqueId s B ∧ (∀ n ∈ order c, B.label n = s.label n) ∧
      (∀ n ∈ done, B.id n = s.id n) ∧ ∀ a ∈ todo, ∃ s₀ s₁ pre post,
        EmittedFrom c info K B a s₀ s₁ pre post := by
  induction todo generalizing done s with
  | nil =>
    obtain rfl : s = B := Option.some.inj hemit
    rw [List.append_nil] at horder
    exact ⟨horder ▸ h, Grows.refl _ _, fun _ _ => rfl, fun _ _ => rfl,
      fun a ha => absurd ha List.not_mem_nil⟩
  | cons a todo ih =>
    rw [List.foldlM_cons] at hemit
    obtain ⟨s₁, hnode, hrest⟩ := Option.bind_eq_some_iff.mp hemit
    have hdone (n : Nat) (hn : n ∈ done) : n ∈ order c := horder ▸ List.mem_append_left _ hn
    have ha : a ∈ order c := horder ▸ List.mem_append_right _ List.mem_cons_self
    have hnodup := hc.nodup
    rw [horder, List.nodup_append] at hnodup
    obtain ⟨-, hnodup', hapart⟩ := hnodup
    have hnot : a ∉ done := fun hd => hapart a hd a List.mem_cons_self rfl
    obtain ⟨hlinked, hgrows, hsame⟩ := linked_registerMerges h hdone a
    set s₀ := s.registerMerges c a
    have hready := hlinked.ready ha hnot
    obtain ⟨p, start, last, hstages⟩ := exists_stages hready hnode
    obtain ⟨fake, toId, emitted, he⟩ := nodeEmitted_of_stages hstages hready
    have hlinked₁ := linked_node hlinked hdone ha hnot he fun hsplits n hn hmem => by
      have hpost := hc.forward done a todo horder (.inr hsplits) n (exits_subset _ hn)
      rcases List.mem_append.mp hmem with hd | hna
      · exact hapart n hd n (List.mem_cons_of_mem _ hpost) rfl
      · exact (List.nodup_cons.mp hnodup').1 (List.mem_singleton.mp hna ▸ hpost)
    have hgrows₁ := hgrows.trans (he.grows.mono hgrows.drawn)
    obtain ⟨hlinkedB, hgrowsB, hlabelB, hidB, hall⟩ :=
      ih (horder.trans (List.append_cons ..)) hlinked₁ (hK.trans hgrows₁.drawn) hrest
    have hlabel (n : Nat) (hn : n ∈ order c) : B.label n = s₀.label n :=
      (hlabelB n hn).trans (congrFun he.label n)
    refine ⟨hlinkedB, hgrows₁.trans (hgrowsB.mono hgrows₁.drawn),
      fun n hn => (hlabel n hn).trans (hsame n hn).1,
      fun n hn => ?_, fun b hb => ?_⟩
    · rw [hidB n (List.mem_append_left _ hn), he.id_of_ne n fun heq => hnot (heq ▸ hn),
        (hsame n (hdone n hn)).2]
    · rcases List.mem_cons.mp hb with rfl | hb
      · exact ⟨s₀, s₁, done, todo, horder, hlinked, hnode, hgrowsB,
          hidB _ (List.mem_append_right _ (List.mem_singleton_self _)), hlabel,
            hK.trans hgrows.drawn⟩
      · exact hall b hb

variable {V W : Type} {m : Machine V W} {null : Nat → V} {builder : Spv.Builder} {u u' : Config V W}

/-- What a PHI takes is the value of one of its entries. -/
theorem exists_incoming {phi : PHI} {a v : Nat} (h : phi.incomingFrom a = some v) :
    ∃ i ∈ phi.incoming, i.id = v := by
  obtain ⟨i, hi, hv⟩ := Option.map_eq_some_iff.mp h
  exact ⟨i, List.mem_of_find?_eq_some hi, hv⟩

/-- PHIs that take the same values keep agreement. A PHI without an id is not emitted. -/
theorem Agree.enter (h : Agree K null builder u u') {phis phis' : List PHI} {a x : Nat}
    (hphis : List.Forall₂ (fun phi phi' => phi'.id = phi.id ∧
      phi'.incomingFrom x = phi.incomingFrom a) (phis.filter (·.id ≠ 0)) phis')
    (hbelow : ∀ phi ∈ phis, phi.id ≤ K ∧ ∀ i ∈ phi.incoming, 0 < i.id ∧ i.id ≤ K) :
    Agree K null builder { u with env := enter a phis u.env }
      { u' with env := enter x phis' u'.env } := by
  -- The PHIs read the values from before, so these stay apart from those that are assigned.
  suffices hall : ∀ e e', Agree K null builder { u with env := e } { u' with env := e' } →
      Agree K null builder { u with env := phis.foldl (assign (PHI.incomingFrom a) u.env) e }
        { u' with env := phis'.foldl (assign (PHI.incomingFrom x) u'.env) e' }
          from hall u.env u'.env h
  induction phis generalizing phis' with
  | nil =>
    intro e e' he
    rw [List.filter_nil, List.forall₂_nil_left_iff] at hphis
    rw [hphis]
    exact he
  | cons phi phis ih =>
    intro e e' he
    obtain ⟨hphi, hbelow⟩ := List.forall_mem_cons.mp hbelow
    rw [List.foldl_cons]
    by_cases hzero : phi.id = 0
    · have hfilter : (phi :: phis).filter (·.id ≠ 0) = phis.filter (·.id ≠ 0) := by simp [hzero]
      rw [hfilter] at hphis
      refine ih hphis hbelow _ _ ⟨fun y hy hle => ?_, he.nulls, he.memory, he.trace⟩
      exact (he.env y hy hle).trans (assign_of_ne (hzero.symm ▸ Nat.ne_of_gt hy)).symm
    · have hfilter : (phi :: phis).filter (·.id ≠ 0) = phi :: phis.filter (·.id ≠ 0) := by
        simp [hzero]
      rw [hfilter] at hphis
      obtain ⟨phi', phis'', ⟨hid, hincoming⟩, hrest, rfl⟩ := List.forall₂_cons_left_iff.mp hphis
      rw [List.foldl_cons]
      refine ih hrest hbelow _ _ ?_
      unfold assign
      rw [hincoming, hid]
      cases hv : phi.incomingFrom a with
      | none => exact he
      | some v =>
        obtain ⟨i, hi, rfl⟩ := exists_incoming hv
        have hvalue : u'.env i.id = u.env i.id := h.env _ (hphi.2 i hi).1 (hphi.2 i hi).2
        dsimp only
        rw [hvalue]
        exact he.update hphi.1 _

/-- In the finished function, PHIs name the blocks that branch. -/
def PhisNamed (c : CFGStructurizer) (B : SpirvFunction) : Prop :=
  ∀ n ∈ order c, List.Forall₂ (PhiOk (EntryOk c B (order c) n) (Stray c B))
    ((c.node n).ir.phi.filter (·.id ≠ 0)) (B.block (B.label n)).phis

/-- The PHIs of a node take the values from the block that the node before is known by. -/
theorem PhisNamed.enter (h : PhisNamed c B) (hc : Structured c info K) {a n : Nat}
    (ha : a ∈ order c) (hn : n ∈ exits (c.node a).ir) (hagree : Agree K null B.builder u u') :
    Agree K null B.builder { u with env := DxilSpirv.enter a (c.node n).ir.phi u.env }
      { u' with env := DxilSpirv.enter (B.id a) (B.block (B.label n)).phis u'.env } := by
  have hnode := hc.closed a ha n hn
  refine hagree.enter ((h n hnode).imp fun phi phi' hphi =>
    ⟨hphi.id, hphi.incomingFrom (fun i i' hi => ⟨hi.id,
    fun hblock => hi.only a ha hblock, fun hblock => ?_⟩) fun i hi => hi.ne a ha⟩) (hc.phis n hnode)
  rw [hi.named (hblock ▸ ha) (.inr (hblock ▸ hn)), hblock]

/-- At the first block of a node, with configurations that agree. -/
structure AtNode (c : CFGStructurizer) (B : SpirvFunction) (K : Nat) (null : Nat → V)
    (x : Nat × Config V W) (y : At V W) :
    Prop where
  mem : x.1 ∈ order c
  label : y.label = B.label x.1
  rest : y.rest = (B.block (B.label x.1)).insts
  agree : Agree K null B.builder x.2 y.config

/-- Each node is executed as it is in the graph. -/
theorem simulates (hc : Structured c info K) (hnamed : PhisNamed c B)
    (hall : ∀ a ∈ order c, ∃ s₀ s₁ pre post, EmittedFrom c info K B a s₀ s₁ pre post)
    (m : Machine V W) (null : Nat → V) :
    Simulates (stepNode c m null) (step m B.block) (AtNode c B K null) Eq := by
  -- What the blocks of a node do, by the modules it was emitted between.
  have hruns (x : Nat × Config V W) (y : At V W) (hrel : AtNode c B K null x y) :
      let r := executeAll m null (c.node x.1).ir.operations x.2
      (∀ ending, r.2.or (endingOf (c.node x.1).ir.terminator r.1.env) = some ending →
          Gives (step m B.block) y (outcome r.1 ending)) ∧
        (∀ n, r.2 = none → m.next (c.node x.1).ir.terminator r.1.env = some n → ∃ u₁ z,
          Agree K null B.builder r.1 u₁ ∧
          Leads (step m B.block) y z ∧ (n ∈ order c → step m B.block z = .inl
            (arrive B.block (B.id x.1) (B.label n) u₁))) ∧
          (r.2.or (endingOf (c.node x.1).ir.terminator r.1.env) = none →
            ∃ n ∈ exits (c.node x.1).ir, m.next (c.node x.1).ir.terminator r.1.env = some n) := by
    obtain ⟨s₀, s₁, pre, post, h⟩ := hall x.1 hrel.mem
    have hnodup := hc.nodup
    rw [h.order_eq, List.nodup_append] at hnodup
    obtain ⟨-, hnodup', hapart⟩ := hnodup
    have hready := h.linked.ready hrel.mem fun hmem => hapart x.1 hmem x.1 List.mem_cons_self rfl
    obtain ⟨p, start, last, hstages⟩ := exists_stages hready h.emit
    have hswitch (htype : (c.node x.1).ir.terminator.type = .switch) (n : Nat)
        (hn : n ∈ branchTargets (c.node x.1).ir.terminator) : n ≠ x.1 ∧ s₀.id n = s₀.label n := by
      have hpost := hc.forward pre x.1 post h.order_eq (.inl htype) n hn
      exact ⟨fun heq => (List.nodup_cons.mp hnodup').1 (heq ▸ hpost),
        h.linked.pending n fun hmem => hapart n hmem n (List.mem_cons_of_mem _ hpost) rfl⟩
    have hy : y = ⟨s₀.label x.1, (B.block (s₀.label x.1)).insts, y.config⟩ := by
      rw [← h.label_eq x.1 hrel.mem, ← hrel.rest, ← hrel.label]
    obtain ⟨hends, hnext, hgoes_on⟩ := hstages.runs (m := m) hready h.grows h.le
      (hc.operations x.1 hrel.mem) (hc.terminator x.1 hrel.mem) hswitch hrel.agree
    rw [← hy] at hends hnext
    refine ⟨hends, fun n hnone hn => ?_, hgoes_on⟩
    obtain ⟨u₁, z, hagree, hlead, hstep⟩ := hnext n hnone hn
    refine ⟨u₁, z, hagree, hlead, fun hmem => ?_⟩
    rw [h.id_eq, h.label_eq n hmem]
    exact hstep
  constructor
  case goes_on =>
    intro x y x' hrel hstep
    obtain ⟨-, hnext, hgoes_on⟩ := hruns x y hrel
    unfold stepNode at hstep
    dsimp only at hstep
    cases hending : (executeAll m null (c.node x.1).ir.operations x.2).2.or
      (endingOf (c.node x.1).ir.terminator
      (executeAll m null (c.node x.1).ir.operations x.2).1.env) with
    | some ending =>
      rw [hending] at hstep
      exact absurd hstep (by simp)
    | none =>
      obtain ⟨n, hexit, hn⟩ := hgoes_on hending
      rw [hending, hn] at hstep
      obtain ⟨u₁, z, hagree, hlead, harrive⟩ := hnext n (Option.or_eq_none_iff.mp hending).1 hn
      have hmem := hc.closed x.1 hrel.mem n hexit
      refine ⟨z, _, _, hlead, harrive hmem, Leads.refl _, ?_⟩
      rw [← Sum.inl.inj hstep]
      exact ⟨hmem, rfl, rfl, hnamed.enter hc hrel.mem hexit hagree⟩
  case ends =>
    intro x y r hrel hstep
    obtain ⟨hends, -, hgoes_on⟩ := hruns x y hrel
    unfold stepNode at hstep
    dsimp only at hstep
    cases hending : (executeAll m null (c.node x.1).ir.operations x.2).2.or
      (endingOf (c.node x.1).ir.terminator
      (executeAll m null (c.node x.1).ir.operations x.2).1.env) with
    | some ending =>
      rw [hending] at hstep
      exact ⟨_, hends ending hending, (Sum.inr.inj hstep).symm⟩
    | none =>
      obtain ⟨n, -, hn⟩ := hgoes_on hending
      rw [hending, hn] at hstep
      exact absurd hstep (by simp)

/-- The function that is emitted for a structured graph ends exactly when the graph does, in the
same way, with the same memory and after the same operations. -/
theorem emitFunctionBody_gives (hc : Structured c info K) (hs : s.Fresh) (hnew : ∀ n, s.label n = 0)
    (hnew' : ∀ n, s.id n = 0) (hK : K ≤ s.builder.uniqueId) {entry : Nat}
    (hentry : entry ≤ s.builder.uniqueId) (hemit : s.emitFunctionBody entry c info = some B)
    (m : Machine V W) (null : Nat → V) (hagree : Agree K null B.builder u u') (r : Outcome V W) :
    Gives (step m B.block) ⟨entry, [.branch (B.label c.entryBlock)], u'⟩ r ↔
      Gives (stepNode c m null) (c.entryBlock, u) r := by
  obtain ⟨s₂, htraverse, hB⟩ := Option.bind_eq_some_iff.mp hemit
  obtain rfl := Option.some.inj hB
  have hstart : Labelled s [] := by
    refine ⟨hs, ?_, fun n hn => absurd hn List.not_mem_nil, fun n _ _ hne => absurd (hnew n) hne,
      fun n hne => absurd (hnew n) hne⟩
    funext n
    rw [hnew, hnew']
  obtain ⟨hlabelled, hle⟩ := labelled_registerBlocks hstart (order c)
  obtain ⟨hlinked, hgrows, -, -, hall⟩ :=
    linked_emit hc (List.nil_append _).symm hlabelled.linked (hK.trans hle) htraverse
  set B := s₂.addInst entry (.branch (s₂.label c.entryBlock))
  have hlast (k : Nat) : Grows k s₂ B := grows_addInst k ((hentry.trans hle).trans hgrows.drawn) _
  have hnamed : PhisNamed c B := by
    intro n hn
    change List.Forall₂ _ _ (B.block (s₂.label n)).phis
    rw [addInst_phis]
    exact (hlinked.phis n hn).imp fun _ _ hphi =>
      hphi.imp (fun _ _ hi => ⟨hi.id, hi.le, hi.only, hi.named⟩)
      fun _ hi => ⟨hi.le, hi.ne⟩
  have hsimulates := simulates hc hnamed (fun a ha => by
    obtain ⟨s₀, s₁, pre, post, h⟩ := hall a ha
    exact ⟨s₀, s₁, pre, post, h.order_eq, h.linked, h.emit, h.grows.trans (hlast _), h.id_eq,
      h.label_eq, h.le⟩) m null
  -- The entry block branches to the first node, which has no PHIs.
  have hphis : (B.block (B.label c.entryBlock)).phis = [] := by
    have hnode := hnamed c.entryBlock hc.entry
    rw [hc.entry_phis] at hnode
    exact List.forall₂_nil_left_iff.mp hnode
  have hlead : Leads (step m B.block) ⟨entry, [.branch (B.label c.entryBlock)], u'⟩
      ⟨B.label c.entryBlock, (B.block (B.label c.entryBlock)).insts, u'⟩ := by
    refine Leads.head rfl ?_
    rw [arrive_of_phis hphis]
    exact Leads.refl _
  have hrel : AtNode c B K null (c.entryBlock, u)
      ⟨B.label c.entryBlock, (B.block (B.label c.entryBlock)).insts, u'⟩ :=
    ⟨hc.entry, rfl, rfl, hagree⟩
  rw [hlead.gives_iff]
  constructor
  · intro hgives
    obtain ⟨r', hr', rfl⟩ := hsimulates.gives_of hrel hgives
    exact hr'
  · intro hgives
    obtain ⟨r', hr', rfl⟩ := hsimulates.gives hrel hgives
    exact hr'

/-- A loop of one node that stores while its condition holds, between an entry and a conditional
return. -/
def loopGraph : CFGStructurizer where
  node
    | 0 => { ir := { terminator := { type := .branch, directBlock := some 1 } } }
    | 1 =>
      { ir :=
          { phi := [{ id := 3, typeId := 1, incoming := [⟨0, 1⟩, ⟨1, 4⟩] }]
            operations :=
              [{ op := pseudoOpMaskedStore, arguments := [.id 2, .id 3, .id 3] },
                { op := .opLoad, id := 4, typeId := 1, arguments := [.id 2] }]
            terminator :=
              { type := .condition, conditionalId := 3, trueBlock := some 1,
                falseBlock := some 2 } }
        merge := .loop
        loopMergeBlock := some 2
        predBackEdge := some 1 }
    | _ =>
      { ir :=
          { operations := [{ op := pseudoOpReturnCond, arguments := [.id 1] }]
            terminator := { type := .kill } } }
  size := 3
  entryBlock := 0
  exitBlock := 2
  forwardPostVisitOrder := [2, 1, 0]

/-- A module whose ids up to 4 are those of the graph. -/
def loopModule : SpirvFunction := { builder := { uniqueId := 5 } }

/-- A machine that loads zero and counts its operations. -/
def countingMachine : Machine Nat Nat where
  exec _ _ _ w := (0, w + 1)
  truth v := v ≠ 0
  word v := v

theorem structured_loopGraph : Structured loopGraph (fun _ => {}) 4 where
  nodup := by decide
  entry := by decide
  entry_phis := rfl
  closed := by decide
  forward pre a post horder hlater := by
    have ha : a ∈ order loopGraph := horder ▸ List.mem_append_right _ List.mem_cons_self
    have hnone : ∀ a ∈ order loopGraph, ¬ ((loopGraph.node a).ir.terminator.type = .switch ∨
        Splits (mergeInfo loopGraph (fun _ => {}) a) (loopGraph.node a).ir.terminator) := by
      unfold Splits
      decide
    exact absurd hlater (hnone a ha)
  operations a ha op hop := by
    have harguments : ∀ a ∈ order loopGraph, ∀ op ∈ (loopGraph.node a).ir.operations,
      ∀ arg ∈ op.arguments, ∀ x ∈ arg.id?, 0 < x ∧ x ≤ 4 := by decide
    have hcondition : ∀ a ∈ order loopGraph, ∀ op ∈ (loopGraph.node a).ir.operations,
        op.id ≤ 4 ∧ (condition op.arguments).isSome ∧ op.op ≠ pseudoOpMaskedLoad := by decide
    obtain ⟨hid, hsome, hload⟩ := hcondition a ha op hop
    exact ⟨hid, fun x hx => harguments a ha op hop _ hx x rfl,
      fun _ => Option.isSome_iff_exists.mp hsome, fun heq => absurd heq hload⟩
  terminator a ha := by
    have hbelow : ∀ a ∈ order loopGraph,
        ((loopGraph.node a).ir.terminator.type = .condition ∨
          (loopGraph.node a).ir.terminator.type = .switch →
          0 < (loopGraph.node a).ir.terminator.conditionalId ∧
            (loopGraph.node a).ir.terminator.conditionalId ≤ 4) ∧
          (loopGraph.node a).ir.terminator.returnValue ≤ 4 := by decide
    exact ⟨(hbelow a ha).1, (hbelow a ha).2⟩
  phis := by decide

theorem emitFunctionBody_gives_loopGraph :
    ∃ B, loopModule.emitFunctionBody 5 loopGraph (fun _ => {}) = some B ∧
    ∃ trace, Gives (step countingMachine B.block) ⟨5, [.branch (B.label 0)], ⟨fun x => x, 0, []⟩⟩
      ⟨.ret none, 3, trace⟩ := by
  refine ⟨_, rfl, _,
    (emitFunctionBody_gives structured_loopGraph ⟨fun _ _ => rfl, fun _ => Nat.zero_le _,
    fun _ => Nat.zero_le _, fun i hi => absurd hi List.not_mem_nil⟩ (fun _ => rfl) (fun _ =>
      rfl) (by decide) (by decide) rfl
      countingMachine (fun _ => 0) (u := ⟨fun x => x, 0, []⟩)
        ⟨fun _ _ _ => rfl, fun i hi => absurd hi List.not_mem_nil, rfl,
        rfl⟩ _).mpr ⟨4, rfl⟩⟩

end DxilSpirv.Emission
