import DxilSpirv.Emission.Nodes

/-!
# PHIs name the blocks that branch

While nodes are emitted one after the other, the PHIs of those that are emitted name each block by
its id: they are rewritten when the block gets another id, and PHIs that are emitted later find that
id.
-/

namespace DxilSpirv.Emission

open SpirvFunction

section Entries

/-- A PHI and the one it is emitted as: entry by entry, and behind these entries that stand in for a
block. -/
structure PhiOk (Entry : IncomingValue → IncomingValue → Prop) (Stray : IncomingValue → Prop)
    (phi phi' : PHI) : Prop where
  id : phi'.id = phi.id
  incoming : ∃ named extra, phi'.incoming = named ++ extra ∧ List.Forall₂ Entry phi.incoming named ∧
    ∀ i ∈ extra, Stray i

variable {Entry Entry' : IncomingValue → IncomingValue → Prop} {Stray Stray' : IncomingValue → Prop}
  {phi phi' : PHI}

/-- The entries of an emitted PHI are rewritten. -/
theorem PhiOk.map (h : PhiOk Entry Stray phi phi') (g : IncomingValue → IncomingValue)
    (hentry : ∀ i i', Entry i i' → Entry' i (g i')) (hstray : ∀ i, Stray i → Stray' (g i)) :
    PhiOk Entry' Stray' phi { phi' with incoming := phi'.incoming.map g } := by
  obtain ⟨named, extra, heq, hall, hextra⟩ := h.incoming
  refine ⟨h.id, named.map g, extra.map g, ?_, List.forall₂_map_right_iff.mpr (hall.imp hentry), ?_⟩
  · change phi'.incoming.map g = _
    rw [heq, List.map_append]
  · intro i hi
    obtain ⟨j, hj, rfl⟩ := List.mem_map.mp hi
    exact hstray j (hextra j hj)

theorem PhiOk.imp (h : PhiOk Entry Stray phi phi') (hentry : ∀ i i', Entry i i' → Entry' i i')
    (hstray : ∀ i, Stray i → Stray' i) : PhiOk Entry' Stray' phi phi' := by
  obtain ⟨named, extra, heq, hall, hextra⟩ := h.incoming
  exact ⟨h.id, named, extra, heq, hall.imp hentry, fun i hi => hstray i (hextra i hi)⟩

/-- Where entries are for the same block exactly when the ones they are emitted as are, the same
value arrives. -/
theorem PhiOk.incomingFrom {a x : Nat} (h : PhiOk Entry Stray phi phi')
    (hentry : ∀ i i', Entry i i' → i'.id = i.id ∧ (i'.block = x ↔ i.block = a))
    (hstray : ∀ i, Stray i → i.block ≠ x) :
    phi'.incomingFrom x = phi.incomingFrom a := by
  obtain ⟨named, extra, heq, hall, hextra⟩ := h.incoming
  unfold PHI.incomingFrom
  have hnone : (extra.find? fun i => i.block == x) = none := by
    refine List.find?_eq_none.mpr fun i hi => ?_
    rw [beq_iff_eq]
    exact hstray i (hextra i hi)
  rw [heq, List.find?_append, hnone, Option.or_none]
  clear heq
  generalize phi.incoming = incoming at hall
  induction hall with
  | nil => rfl
  | @cons i i' is is' hi his ih =>
    obtain ⟨hid, hblock⟩ := hentry i i' hi
    rw [List.find?_cons, List.find?_cons]
    by_cases heq : i.block = a
    · rw [beq_iff_eq.mpr heq, beq_iff_eq.mpr (hblock.mpr heq)]
      exact congrArg some hid
    · rw [beq_eq_false_iff_ne.mpr heq, beq_eq_false_iff_ne.mpr fun hx => heq (hblock.mp hx)]
      exact ih

end Entries

variable {f : Nat → Nat} {n v : Nat}

/-- A map that is one-to-one where it is not zero stays so when a value changes to one that no other
has. -/
theorem update_inj (hf : ∀ k k', f k = f k' → f k ≠ 0 → k = k') (hv : ∀ k, k ≠ n → f k ≠ v)
    (k k' : Nat) (hk : Function.update f n v k = Function.update f n v k')
    (hne : Function.update f n v k ≠ 0) : k = k' := by
  by_cases hkn : k = n <;> by_cases hkn' : k' = n
  · exact hkn.trans hkn'.symm
  · rw [hkn, Function.update_self, Function.update_of_ne hkn'] at hk
    exact absurd hk.symm (hv k' hkn')
  · rw [hkn', Function.update_self, Function.update_of_ne hkn] at hk
    exact absurd hk (hv k hkn)
  · rw [Function.update_of_ne hkn, Function.update_of_ne hkn'] at hk
    rw [Function.update_of_ne hkn] at hne
    exact hf k k' hk hne

theorem update_le (hlt : ∀ k, f k < v) (k : Nat) : Function.update f n v k ≤ v := by
  by_cases hk : k = n
  · rw [hk, Function.update_self]
  · rw [Function.update_of_ne hk]
    exact (hlt k).le

variable {c : CFGStructurizer} {s s' : SpirvFunction} {done : List Nat} {t : Nat}
  {i i' : IncomingValue}

/-- An entry of a PHI of the node `t`: no node is known by the block it names but that of the entry,
and it names the block that the node is known by, unless the node is emitted and has no branch to
`t`. -/
structure EntryOk (c : CFGStructurizer) (s : SpirvFunction) (done : List Nat) (t : Nat)
    (i i' : IncomingValue) : Prop where
  id : i'.id = i.id
  le : i'.block ≤ s.builder.uniqueId
  only : ∀ a ∈ order c, i'.block = s.id a → i.block = a
  named : i.block ∈ order c → (i.block ∉ done ∨ t ∈ exits (c.node i.block).ir) →
    i'.block = s.id i.block

/-- No node is known by the block of an entry. -/
structure Stray (c : CFGStructurizer) (s : SpirvFunction) (i : IncomingValue) : Prop where
  le : i.block ≤ s.builder.uniqueId
  ne : ∀ a ∈ order c, i.block ≠ s.id a

/-- Some nodes are emitted: labels and ids tell nodes apart, nodes that come later are ready, and
PHIs name the blocks that branch. -/
structure Linked (c : CFGStructurizer) (s : SpirvFunction) (done : List Nat) : Prop where
  fresh : s.Fresh
  label_ne : ∀ n ∈ order c, s.label n ≠ 0
  id_ne : ∀ n ∈ order c, s.id n ≠ 0
  label_inj : ∀ n n', s.label n = s.label n' → s.label n ≠ 0 → n = n'
  id_inj : ∀ n n', s.id n = s.id n' → s.id n ≠ 0 → n = n'
  pending : ∀ n, n ∉ done → s.id n = s.label n
  empty : ∀ n, n ∉ done → s.label n ≠ 0 → s.block (s.label n) = {}
  phis : ∀ n ∈ done, List.Forall₂ (PhiOk (EntryOk c s done n) (Stray c s))
    ((c.node n).ir.phi.filter (·.id ≠ 0)) (s.block (s.label n)).phis

theorem Linked.ready (h : Linked c s done) {n : Nat} (hn : n ∈ order c) (hdone : n ∉ done) :
    Ready s n :=
  ⟨h.fresh, h.label_ne n hn, h.pending n hdone, h.empty n hdone (h.label_ne n hn)⟩

/-- A node that is no part of the graph gets a block. -/
theorem linked_registerBlock (h : Linked c s done) (hdone : ∀ n ∈ done, n ∈ order c) (n : Nat) :
    Linked c (s.registerBlock n) done ∧ Grows s.builder.uniqueId s (s.registerBlock n) ∧
      ∀ a ∈ order c, (s.registerBlock n).label a = s.label a ∧
        (s.registerBlock n).id a = s.id a := by
  by_cases hnew : s.label n = 0 ∨ s.id n = 0
  · have hn : n ∉ order c := fun hn => hnew.elim (h.label_ne n hn) (h.id_ne n hn)
    have hpending := h.pending n fun hmem => hn (hdone n hmem)
    have hzero : s.label n = 0 := hnew.elim id fun hid => hpending.symm.trans hid
    have heq : s.registerBlock n = { s.drawId.addBlock s.newBlock with
        label := Function.update s.label n s.newBlock
        id := Function.update s.id n s.newBlock } := if_pos hnew
    rw [heq]
    have hlabel_lt (k : Nat) : s.label k < s.newBlock := Nat.lt_succ_of_le (h.fresh.label k)
    have hid_lt (k : Nat) : s.id k < s.newBlock := Nat.lt_succ_of_le (h.fresh.id k)
    have hsame {a : Nat} (ha : a ∈ order c) : a ≠ n := fun heq => hn (heq ▸ ha)
    have hgrows : Grows s.builder.uniqueId s { s.drawId.addBlock s.newBlock with
        label := Function.update s.label n s.newBlock
        id := Function.update s.id n s.newBlock } := by
      refine ⟨Nat.le_succ _, fun _ => List.prefix_rfl, fun _ _ _ => rfl, fun k => ?_, fun _ => .inl,
        List.Subset.refl _, fun hs =>
          ⟨fun l hl => hs.block l (Nat.lt_of_succ_lt hl), update_le hlabel_lt,
          update_le hid_lt, fun i hi => (hs.constants i hi).trans (Nat.le_succ _)⟩⟩
      by_cases hk : k = n
      · refine .inr ⟨hk ▸ hzero, ?_⟩
        change s.builder.uniqueId < Function.update s.label n s.newBlock k
        rw [hk, Function.update_self]
        exact Nat.lt_succ_self _
      · exact .inl (Function.update_of_ne hk _ _)
    have hlabel {a : Nat} (ha : a ∈ order c) : Function.update s.label n s.newBlock a = s.label a :=
      Function.update_of_ne (hsame ha) _ _
    have hid {a : Nat} (ha : a ∈ order c) : Function.update s.id n s.newBlock a = s.id a :=
      Function.update_of_ne (hsame ha) _ _
    refine ⟨⟨hgrows.fresh h.fresh, fun a ha => ?_, fun a ha => ?_,
      update_inj h.label_inj fun k _ => Nat.ne_of_lt (hlabel_lt k),
      update_inj h.id_inj fun k _ => Nat.ne_of_lt (hid_lt k), fun k hk => ?_, fun k hk hne => ?_,
      fun k hk => ?_⟩, hgrows, fun a ha => ⟨hlabel ha, hid ha⟩⟩
    · exact (hlabel ha).trans_ne (h.label_ne a ha)
    · exact (hid ha).trans_ne (h.id_ne a ha)
    · change Function.update s.id n s.newBlock k = Function.update s.label n s.newBlock k
      by_cases hkn : k = n
      · rw [hkn, Function.update_self, Function.update_self]
      · rw [Function.update_of_ne hkn, Function.update_of_ne hkn, h.pending k hk]
    · change s.block (Function.update s.label n s.newBlock k) = {}
      by_cases hkn : k = n
      · rw [hkn, Function.update_self]
        exact h.fresh.block _ (Nat.lt_succ_self _)
      · have hlab : Function.update s.label n s.newBlock k = s.label k :=
          Function.update_of_ne hkn _ _
        rw [hlab]
        exact h.empty k hk fun hz => hne (hlab.trans hz)
    · change List.Forall₂ _ _ (s.block (Function.update s.label n s.newBlock k)).phis
      rw [hlabel (hdone k hk)]
      refine (h.phis k hk).imp fun _ _ hphi => hphi.imp
        (fun i i' hi => ⟨hi.id, hi.le.trans (Nat.le_succ _), fun a ha ha' => ?_,
        fun hi' hbranch => (hi.named hi' hbranch).trans (hid hi').symm⟩) fun i hi =>
          ⟨hi.le.trans (Nat.le_succ _), fun a ha ha' => hi.ne a ha (ha'.trans (hid ha))⟩
      exact hi.only a ha (ha'.trans (hid ha))
  · have heq : s.registerBlock n = s := if_neg hnew
    rw [heq]
    exact ⟨h, Grows.refl _ _, fun _ _ => ⟨rfl, rfl⟩⟩

/-- An emitted PHI has the ids of its blocks. -/
theorem PhiOk.of_namedBy {Entry : IncomingValue → IncomingValue → Prop}
    {Stray : IncomingValue → Prop} {id : Nat → Nat} {fake : Nat} {phi phi' : PHI}
    (h : NamedBy id fake phi phi') (hentry : ∀ i, Entry i ⟨id i.block, i.id⟩)
    (hstray : ∀ i : IncomingValue, i.block = fake → fake ≠ 0 → Stray i) :
    PhiOk Entry Stray phi phi' := by
  obtain ⟨hid, extra, heq, hextra⟩ := h
  exact ⟨hid, _, extra, heq,
    List.forall₂_map_right_iff.mpr (List.forall₂_same.mpr fun i _ => hentry i),
    fun i hi => hstray i (hextra i hi).1 (hextra i hi).2⟩

variable {a : Nat} {info : MergeInfo} {fake toId : Nat} {emitted : List PHI}

/-- The emitted node has its old id, or one that nothing else has. -/
theorem NodeEmitted.id_cases {ir : IRBlock} (he : NodeEmitted s a ir info s' fake toId emitted) :
    s'.id a = s.label a ∨ s.builder.uniqueId < s'.id a ∧ fake < s'.id a :=
  he.id_node.imp (·.2) (·.2)

/-- The block that is rewritten to is the one that the node is known by. -/
theorem NodeEmitted.toId_eq {ir : IRBlock} (he : NodeEmitted s a ir info s' fake toId emitted)
    (hto : toId ≠ 0) :
    toId = s'.id a ∧ s.builder.uniqueId < s'.id a := by
  rcases he.id_node with ⟨hzero, -⟩ | ⟨heq | ⟨hzero, -⟩, hlt, -⟩
  · exact absurd hzero hto
  · exact ⟨heq, hlt⟩
  · exact absurd hzero hto

/-- An entry that is rewritten where it names the first block of the node. -/
theorem EntryOk.rewritten (h : Linked c s done) (ha : a ∈ order c) (hnot : a ∉ done)
    (he : NodeEmitted s a (c.node a).ir info s' fake toId emitted) (hto : toId ≠ 0)
    (hi : EntryOk c s done t i i') :
    EntryOk c s' (done ++ [a]) t i
      (if i'.block = s.label a then { i' with block := toId } else i') := by
  obtain ⟨heq, hlt⟩ := he.toId_eq hto
  have hid : s.id a = s.label a := h.pending a hnot
  have hle : s'.id a ≤ s'.builder.uniqueId := (he.grows.fresh h.fresh).id a
  split_ifs with hblock
  · have hia : i.block = a := hi.only a ha (hblock.trans hid.symm)
    refine ⟨hi.id, heq ▸ hle, fun b hb hb' => ?_, fun _ _ => ?_⟩
    · by_cases hba : b = a
      · exact hia.trans hba.symm
      · refine absurd (h.fresh.id b) (Nat.not_le_of_lt ?_)
        rw [← he.id_of_ne b hba, ← (show toId = s'.id b from hb'), heq]
        exact hlt
    · rw [hia]
      exact heq
  · refine ⟨hi.id, hi.le.trans he.grows.drawn, fun b hb hb' => ?_, fun hmem hbranch => ?_⟩
    · by_cases hba : b = a
      · exact absurd (hb' ▸ hba ▸ hlt) (Nat.not_lt_of_le hi.le)
      · exact hi.only b hb (hb'.trans (he.id_of_ne b hba))
    · by_cases hia : i.block = a
      · exact absurd ((hi.named hmem (.inl (hia ▸ hnot))).trans ((congrArg s.id hia).trans hid))
          hblock
      · rw [he.id_of_ne _ hia]
        exact hi.named hmem (hbranch.imp_left fun hn hd => hn (List.mem_append_left _ hd))

/-- An entry that is not rewritten. -/
theorem EntryOk.kept (h : Linked c s done) (hnot : a ∉ done)
    (he : NodeEmitted s a (c.node a).ir info s' fake toId emitted)
    (hsplit : Splits info (c.node a).ir.terminator → ∀ n ∈ exits (c.node a).ir, n ∉ done ++ [a])
    (ht : t ∈ done ++ [a]) (hto : ¬ (toId ≠ 0 ∧ t ∈ exits (c.node a).ir))
    (hi : EntryOk c s done t i i') :
    EntryOk c s' (done ++ [a]) t i i' := by
  have hid : s.id a = s.label a := h.pending a hnot
  refine ⟨hi.id, hi.le.trans he.grows.drawn, fun b hb hb' => ?_, fun hmem hbranch => ?_⟩
  · by_cases hba : b = a
    · rw [hba] at hb hb' ⊢
      rcases he.id_cases with hsame | ⟨hlt, -⟩
      · exact hi.only a hb (hb'.trans (hsame.trans hid.symm))
      · exact absurd (hb' ▸ hlt) (Nat.not_lt_of_le hi.le)
    · exact hi.only b hb (hb'.trans (he.id_of_ne b hba))
  · by_cases hia : i.block = a
    · have hexit : t ∈ exits (c.node a).ir := by
        rw [hia] at hbranch
        exact hbranch.resolve_left fun hn =>
          hn (List.mem_append_right _ (List.mem_singleton_self a))
      have hzero : toId = 0 := Classical.byContradiction fun hne => hto ⟨hne, hexit⟩
      rw [hi.named hmem (.inl (hia ▸ hnot)), hia]
      rcases he.id_node with ⟨-, hsame⟩ | ⟨heq | ⟨-, hsplits⟩, hlt, -⟩
      · exact hid.trans hsame.symm
      · exact absurd hlt (heq ▸ hzero ▸ Nat.not_lt_zero _)
      · exact absurd ht (hsplit hsplits t hexit)
    · rw [he.id_of_ne _ hia]
      exact hi.named hmem (hbranch.imp_left fun hn hd => hn (List.mem_append_left _ hd))

/-- The emitted node is not known by the block of another node. -/
theorem NodeEmitted.id_ne (he : NodeEmitted s a (c.node a).ir info s' fake toId emitted)
    (h : Linked c s done) (ha : a ∈ order c) (hnot : a ∉ done) {n : Nat} (hn : n ≠ a) :
    s.id n ≠ s'.id a := by
  have hid : s.id a = s.label a := h.pending a hnot
  rcases he.id_cases with hsame | ⟨hlt, -⟩
  · rw [hsame, ← hid]
    exact fun heq => hn (h.id_inj n a heq (heq ▸ h.id_ne a ha))
  · exact Nat.ne_of_lt (lt_of_le_of_lt (h.fresh.id n) hlt)

/-- No node is known by the block of an entry, neither before the node `a` is emitted nor then. -/
structure StrayThrough (c : CFGStructurizer) (s s' : SpirvFunction) (a : Nat)
    (i : IncomingValue) : Prop where
  le : i.block ≤ s'.builder.uniqueId
  ne : ∀ b ∈ order c, i.block ≠ s.id b
  ne_emitted : i.block ≠ s'.id a

theorem StrayThrough.stray {i : IncomingValue} (hi : StrayThrough c s s' a i)
    (he : NodeEmitted s a (c.node a).ir info s' fake toId emitted) : Stray c s' i := by
  refine ⟨hi.le, fun b hb => ?_⟩
  by_cases hba : b = a
  · rw [hba]
    exact hi.ne_emitted
  · rw [he.id_of_ne b hba]
    exact hi.ne b hb

/-- The PHIs of the emitted nodes, before those of the next nodes are rewritten. -/
theorem NodeEmitted.phis_before (he : NodeEmitted s a (c.node a).ir info s' fake toId emitted)
    (h : Linked c s done) (ha : a ∈ order c) (hnot : a ∉ done) (ht : t ∈ done ++ [a]) :
    List.Forall₂ (PhiOk (EntryOk c s done t) (StrayThrough c s s' a))
      ((c.node t).ir.phi.filter (·.id ≠ 0))
      (if s.label t = s.label a then emitted else (s.block (s.label t)).phis) := by
  have hid : s.id a = s.label a := h.pending a hnot
  rcases List.mem_append.mp ht with ht | ht
  · have hta : s.label t ≠ s.label a := fun heq =>
      hnot (h.label_inj a t heq.symm (h.label_ne a ha) ▸ ht)
    rw [if_neg hta]
    refine (h.phis t ht).imp fun _ _ hphi => hphi.imp (fun _ _ => id) fun i hi =>
      ⟨hi.le.trans he.grows.drawn, hi.ne, ?_⟩
    rcases he.id_cases with hsame | ⟨hlt, -⟩
    · rw [hsame, ← hid]
      exact hi.ne a ha
    · exact Nat.ne_of_lt (lt_of_le_of_lt hi.le hlt)
  · rw [List.mem_singleton.mp ht, if_pos rfl]
    have hentry (i : IncomingValue) : EntryOk c s done a i ⟨s.id i.block, i.id⟩ :=
      ⟨rfl, h.fresh.id _, fun b hb hb' => h.id_inj _ b hb' (hb'.trans_ne (h.id_ne b hb)),
        fun _ _ => rfl⟩
    have hstand (i : IncomingValue) (hi : i.block = fake) (hzero : fake ≠ 0) :
        StrayThrough c s s' a i := by
      have hlt := he.fake_new.2 hzero
      refine ⟨hi ▸ he.fake_new.1,
        fun b _ => hi ▸ Nat.ne_of_gt (lt_of_le_of_lt (h.fresh.id b) hlt), ?_⟩
      rcases he.id_cases with hsame | ⟨-, hlt'⟩
      · rw [hsame, hi]
        exact Nat.ne_of_gt (lt_of_le_of_lt (h.fresh.label a) hlt)
      · rw [hi]
        exact Nat.ne_of_lt hlt'
    exact he.named.imp fun _ _ hnamed => PhiOk.of_namedBy hnamed hentry hstand

/-- The emission of a node that is ready. -/
theorem linked_node (h : Linked c s done) (hdone : ∀ n ∈ done, n ∈ order c) (ha : a ∈ order c)
    (hnot : a ∉ done) (he : NodeEmitted s a (c.node a).ir info s' fake toId emitted)
    (hsplit : Splits info (c.node a).ir.terminator → ∀ n ∈ exits (c.node a).ir, n ∉ done ++ [a]) :
    Linked c s' (done ++ [a]) := by
  have hid : s.id a = s.label a := h.pending a hnot
  have hlabel_a := h.label_ne a ha
  constructor
  case fresh => exact he.grows.fresh h.fresh
  case label_ne => exact fun n hn => he.label ▸ h.label_ne n hn
  case id_ne =>
    intro n hn
    by_cases hna : n = a
    · rw [hna]
      rcases he.id_cases with hsame | ⟨hlt, -⟩
      · exact hsame ▸ hlabel_a
      · exact Nat.ne_of_gt (lt_of_le_of_lt (Nat.zero_le _) hlt)
    · rw [he.id_of_ne n hna]
      exact h.id_ne n hn
  case label_inj =>
    rw [he.label]
    exact h.label_inj
  case id_inj =>
    have hupdate : s'.id = Function.update s.id a (s'.id a) := by
      ext n
      by_cases hna : n = a
      · rw [hna, Function.update_self]
      · rw [he.id_of_ne n hna, Function.update_of_ne hna]
    rw [hupdate]
    exact update_inj h.id_inj fun n hn => he.id_ne h ha hnot hn
  case pending =>
    intro n hn
    have hna : n ≠ a := fun heq => hn (List.mem_append_right _ (List.mem_singleton.mpr heq))
    rw [he.id_of_ne n hna, he.label]
    exact h.pending n fun hd => hn (List.mem_append_left _ hd)
  case empty =>
    intro n hn hne
    rw [he.label] at hne ⊢
    have hna : s.label n ≠ s.label a := fun heq =>
      hn (List.mem_append_right _ (List.mem_singleton.mpr (h.label_inj n a heq hne)))
    have hempty := h.empty n (fun hd => hn (List.mem_append_left _ hd)) hne
    have hinsts := he.insts _ (h.fresh.label n) hne hna
    have hphis := he.phis _ (h.fresh.label n)
    rw [if_neg hna, hempty] at hphis
    rw [hempty] at hinsts
    have hphis_nil : (s'.block (s.label n)).phis = [] := by
      rw [hphis]
      exact ite_self _
    calc s'.block (s.label n) = ⟨(s'.block (s.label n)).phis, (s'.block (s.label n)).insts⟩ := rfl
      _ = {} := by rw [hphis_nil, hinsts]
  case phis =>
    intro t ht
    have hne : s.label t ≠ 0 := by
      rcases List.mem_append.mp ht with hd | hta
      · exact h.label_ne t (hdone t hd)
      · rw [List.mem_singleton.mp hta]
        exact hlabel_a
    rw [he.label, he.phis _ (h.fresh.label t)]
    by_cases hrewrite : toId ≠ 0 ∧ t ∈ exits (c.node a).ir
    · rw [if_pos ⟨hrewrite.1, List.mem_map_of_mem hrewrite.2⟩]
      refine List.forall₂_map_right_iff.mpr
        ((he.phis_before h ha hnot ht).imp fun _ _ hphi => hphi.map _
        (fun i i' hi => hi.rewritten h ha hnot he hrewrite.1) fun i hi => ?_)
      rw [if_neg fun heq => hi.ne a ha (heq.trans hid.symm)]
      exact hi.stray he
    · have hcondition : ¬ (toId ≠ 0 ∧ s.label t ∈ (exits (c.node a).ir).map s.label) := by
        rintro ⟨hto, hmem⟩
        obtain ⟨n, hn, heq⟩ := List.mem_map.mp hmem
        exact hrewrite ⟨hto, h.label_inj t n heq.symm hne ▸ hn⟩
      rw [if_neg hcondition]
      exact (he.phis_before h ha hnot ht).imp fun _ _ hphi =>
        hphi.imp (fun _ _ hi => hi.kept h hnot he hsplit ht hrewrite) fun _ hi => hi.stray he

end DxilSpirv.Emission
