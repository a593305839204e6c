import DxilSpirv.Ssa.BreakingPhi
import DxilSpirv.Ssa.Form

/-!
# Eliminated blocks are not missed

Over every edge that led into an eliminated block, the break block of that edge continues to the
same successor, and the PHIs there receive the values they received through the eliminated block.
-/

namespace DxilSpirv

open DxilSpirv.Graph CFGStructurizer

variable {V : Type} {p : Nat} {phis : List PHI} {phi : PHI}

/-- One PHI resolves the condition when it is the condition. -/
private theorem resolve_one (hne : ∀ i ∈ phi.incoming, i.id ≠ phi.id) (cond : Nat) :
    phi.incoming.foldl (fun cond i => if i.block = p ∧ phi.id = cond then i.id else cond) cond =
      if phi.id = cond then (phi.incomingFrom p).getD cond else cond := by
  have hskip : ∀ (l : List IncomingValue) (cond : Nat), phi.id ≠ cond →
      l.foldl (fun cond i => if i.block = p ∧ phi.id = cond then i.id else cond) cond = cond := by
    intro l
    induction l with
    | nil => exact fun _ _ => rfl
    | cons i l ih =>
      intro cond hcond
      rw [List.foldl_cons, if_neg fun h => hcond h.2, ih cond hcond]
  by_cases hcond : phi.id = cond
  · subst hcond
    rw [if_pos rfl]
    unfold PHI.incomingFrom
    revert hne
    generalize phi.incoming = l
    intro hne
    induction l with
    | nil => rfl
    | cons i l ih =>
      rw [List.foldl_cons, List.find?_cons]
      by_cases hi : i.block = p
      · rw [if_pos ⟨hi, rfl⟩, hskip l i.id fun h => hne i (List.mem_cons_self ..) h.symm]
        simp [hi]
      · have hb : (i.block == p) = false := beq_eq_false_iff_ne.mpr hi
        rw [if_neg fun h => hi h.1, hb]
        exact ih fun j hj => hne j (List.mem_cons_of_mem _ hj)
  · rw [if_neg hcond, hskip _ _ hcond]

/-- The resolved condition has the value of the condition behind the PHIs. -/
theorem resolveCondition_value (hids : (phis.map (·.id)).Nodup)
    (hne : ∀ phi ∈ phis, ∀ psi ∈ phis, ∀ i ∈ phi.incoming, psi.id ≠ i.id)
    (hfrom : ∀ phi ∈ phis, (phi.incomingFrom p).isSome) (t : Terminator) (e : Env V) :
    e (resolveCondition phis p t).conditionalId = enter p phis e t.conditionalId := by
  have hone : ∀ phi ∈ phis, ∀ cond,
      phi.incoming.foldl (fun cond i => if i.block = p ∧ phi.id = cond then i.id else cond) cond =
        if phi.id = cond then (phi.incomingFrom p).getD cond else cond :=
    fun phi h => resolve_one fun i hi => (hne phi h phi h i hi).symm
  have hskip : ∀ (l : List PHI) (cond : Nat), (∀ phi ∈ l, phi ∈ phis) → cond ∉ l.map (·.id) →
      l.foldl (fun cond phi => phi.incoming.foldl (fun cond i =>
        if i.block = p ∧ phi.id = cond then i.id else cond) cond) cond = cond := by
    intro l
    induction l with
    | nil => exact fun _ _ _ => rfl
    | cons phi l ih =>
      intro cond hl hcond
      rw [List.map_cons, List.mem_cons, not_or] at hcond
      rw [List.foldl_cons, hone phi (hl phi (List.mem_cons_self ..)),
        if_neg fun h => hcond.1 h.symm,
        ih cond (fun psi h => hl psi (List.mem_cons_of_mem _ h)) hcond.2]
  by_cases hcond : t.conditionalId ∈ phis.map (·.id)
  · obtain ⟨phi, hphi, hid⟩ := List.mem_map.mp hcond
    obtain ⟨v, hv⟩ := Option.isSome_iff_exists.mp (hfrom phi hphi)
    obtain ⟨l₁, l₂, hsplit⟩ := List.append_of_mem hphi
    have hresolved : (resolveCondition phis p t).conditionalId = v := by
      rw [hsplit, List.map_append, List.map_cons, List.nodup_append] at hids
      have hl₁ : phi.id ∉ l₁.map (·.id) := fun h =>
        hids.2.2 _ h _ (List.mem_cons_self ..) rfl
      obtain ⟨i, hi, hiv⟩ : ∃ i ∈ phi.incoming, i.id = v := by
        obtain ⟨i, hi, hiv⟩ := Option.map_eq_some_iff.mp hv
        exact ⟨i, List.mem_of_find?_eq_some hi, hiv⟩
      have hl₂ : v ∉ l₂.map (·.id) := by
        intro h
        obtain ⟨psi, hpsi, hpv⟩ := List.mem_map.mp h
        exact hne phi hphi psi (by rw [hsplit]; simp [hpsi]) i hi (hpv.trans hiv.symm)
      simp only [resolveCondition]
      conv_lhs => rw [hsplit]
      rw [List.foldl_append, List.foldl_cons, ← hid,
        hskip l₁ phi.id (fun psi h => by rw [hsplit]; simp [h]) hl₁, hone phi hphi, if_pos rfl, hv,
        Option.getD_some, hskip l₂ v (fun psi h => by rw [hsplit]; simp [h]) hl₂]
    rw [hresolved, ← hid]
    exact (enterWith_of_mem hids hphi hv).symm
  · rw [show (resolveCondition phis p t).conditionalId = t.conditionalId from
      hskip phis _ (fun _ h => h) hcond]
    exact (enterWith_of_notMem hcond).symm

namespace CFGStructurizer

variable {c c' : CFGStructurizer} {fuel node : Nat}

/-- What makes a block a breaking PHI construct, as far as its elimination relies on it. -/
structure PhiOnly (c : CFGStructurizer) (node : Nat) : Prop where
  operations : (c.node node).ir.operations = []
  pred_ne : (c.node node).pred ≠ []
  predBackEdge : (c.node node).predBackEdge = none
  succBackEdge : (c.node node).succBackEdge = none
  succ_length : (c.node node).succ.length = 1 ∨ (c.node node).succ.length = 2
  pred_branches : ∀ p ∈ (c.node node).pred, (c.node p).succBackEdge = none

theorem phiOnly_of_breaking (h : c.blockIsBreakingPhiConstruct fuel node = .ok true) :
    PhiOnly c node := by
  unfold blockIsBreakingPhiConstruct at h
  split at h
  · exact nomatch h
  · rename_i hshape
    rw [not_or, Decidable.not_not] at hshape
    obtain ⟨perfect, -, h⟩ := bind_eq_ok.mp h
    split at h
    · exact nomatch h
    · split at h
      · exact nomatch h
      · rename_i hplain
        obtain ⟨chains, -, h⟩ := bind_eq_ok.mp h
        split at h
        · split at h
          · exact nomatch h
          · rename_i hback
            have hplain : c.isPlainBranch node = true := by simpa using hplain
            simp only [isPlainBranch, Bool.and_eq_true, decide_eq_true_eq] at hplain
            refine ⟨hshape.1, ?_, hplain.1.2, hplain.1.1, ?_, ?_⟩
            · intro hnil
              rw [hnil] at hshape
              exact hshape.2 (Nat.zero_le 1)
            · have hsuccs := hplain.2
              split at hsuccs
              · rename_i s hs
                exact .inl (by rw [hs]; rfl)
              · rename_i s t hs
                exact .inr (by rw [hs]; rfl)
              · cases hsuccs
            · intro p hp
              by_contra hne
              exact hback (List.any_eq_true.mpr ⟨p, hp, decide_eq_true hne⟩)
        · exact nomatch h

variable (hc : c.SsaForm) (hphi : PhiOnly c node)

include hc hphi in
theorem SsaForm.isolated : c.Isolated node := by
  obtain ⟨p, l, hp⟩ := List.exists_cons_of_ne_nil hphi.pred_ne
  have hflow := hc.flows_of_pred p node (by simp [hp])
  exact
    { node_lt := (hc.inside p node hflow).2
      pred_lt := fun x q hq => (hc.inside q x (hc.flows_of_pred q x hq)).1
      succ_lt := fun s hs => (hc.inside node s hs).2
      nodup_pred := hc.nodup_pred node
      nodup_succ := hc.nodup_succ node
      notMem_pred := hc.notMem_pred node
      notMem_succ := hc.notMem_succ node }

/-- The entries that replace the entry of the eliminated block, which had the value `v`. -/
def arrivals (c : CFGStructurizer) (node v : Nat) : List IncomingValue :=
  match (c.movedPhis node).find? fun out => out.id == v with
  | some out => out.incoming
  | none => ((c.node node).pred.map (c.breakNode node)).map fun b => ⟨b, v⟩

/-- An entry that is moved from its block to the break block. -/
private def atBreak (c : CFGStructurizer) (node : Nat) (i : IncomingValue) : IncomingValue :=
  ⟨c.breakNode node i.block, i.id⟩

include hc hphi in
/-- Each predecessor has one arrival, with the value that went through the eliminated block. -/
private theorem arrivals_eq (v : Nat) : ∃ l : List IncomingValue,
    c.arrivals node v = l.map (c.atBreak node) ∧ (l.map (·.block)).Nodup ∧
      (∀ i ∈ l, i.block ∈ (c.node node).pred) ∧
      ∀ p ∈ (c.node node).pred, ∃ i ∈ l, i.block = p ∧
        ∀ {V : Type} (e : Env V), e i.id = enter p (c.node node).ir.phi e v := by
  unfold arrivals
  cases hfind : (c.movedPhis node).find? fun out => out.id == v with
  | some out =>
    have hid : out.id = v := by simpa using List.find?_some hfind
    obtain ⟨phi, hmem, rfl⟩ := List.mem_map.mp (List.mem_of_find?_eq_some hfind)
    have honly := hc.incoming_only node hphi.predBackEdge phi hmem
    refine ⟨phi.incoming, ?_, hc.incoming_nodup node phi hmem, honly, ?_⟩
    · refine List.map_congr_left fun i hi => ?_
      rw [if_pos (honly i hi), atBreak]
    · intro p hp
      have hbranch := hc.branches p node hp (hphi.pred_branches p hp)
      obtain ⟨i, hi, hip⟩ := List.mem_map.mp (hc.incoming_pred node phi hmem p hp hbranch)
      refine ⟨i, hi, hip, fun e => ?_⟩
      have hfrom := incomingFrom_of_mem (hc.incoming_nodup node phi hmem) hi
      have hid : phi.id = v := hid
      rw [← hid, enter, enterWith_of_mem (hc.phi_ids node) hmem (hip ▸ hfrom)]
  | none =>
    refine ⟨(c.node node).pred.map fun p => ⟨p, v⟩, ?_, ?_, ?_, ?_⟩
    · simp only [List.map_map]
      rfl
    · rw [List.map_map]
      exact (List.map_id _).symm ▸ hc.nodup_pred node
    · intro i hi
      obtain ⟨p, hp, rfl⟩ := List.mem_map.mp hi
      exact hp
    · intro p hp
      refine ⟨⟨p, v⟩, List.mem_map_of_mem hp, rfl, fun e => ?_⟩
      have hnot : v ∉ (c.node node).ir.phi.map (·.id) := by
        intro hv
        obtain ⟨phi, hmem, hid⟩ := List.mem_map.mp hv
        have hmoved := List.find?_eq_none.mp hfind _ (List.mem_map_of_mem hmem)
        exact hmoved (beq_iff_eq.mpr hid)
      exact (enterWith_of_notMem hnot).symm

/-- Only the entries of a PHI are rewritten. -/
private theorem splitIncoming_same {phis : List PHI} {bs : List Nat} {phi phi' : PHI}
    (h : splitIncoming phis node bs phi = .ok phi') :
    phi' = { phi with incoming := phi'.incoming } := by
  unfold splitIncoming at h
  split at h
  · exact nomatch h
  · dsimp only at h
    split at h
    · obtain rfl := Except.ok.inj h
      rfl
    · obtain rfl := Except.ok.inj h
      rfl

/-- A rewritten PHI has the arrivals in place of the entry of the eliminated block. -/
private theorem splitIncoming_eq {phi phi' : PHI}
    (h : splitIncoming (c.movedPhis node) node ((c.node node).pred.map (c.breakNode node)) phi =
      .ok phi') :
    ∃ v, phi.incomingFrom node = some v ∧ phi'.id = phi.id ∧
      phi'.incoming =
        (phi.incoming.eraseP fun i => i.block == node) ++ c.arrivals node v := by
  unfold splitIncoming at h
  split at h
  · exact nomatch h
  · rename_i i hi
    refine ⟨i.id, by rw [PHI.incomingFrom, hi]; rfl, ?_⟩
    cases hout : (c.movedPhis node).find? fun out => out.id == i.id with
    | some out =>
      rw [hout] at h
      obtain rfl := Except.ok.inj h
      exact ⟨rfl, by rw [arrivals, hout]⟩
    | none =>
      rw [hout] at h
      obtain rfl := Except.ok.inj h
      exact ⟨rfl, by rw [arrivals, hout]⟩

include hc hphi in
/-- The incoming blocks of a rewritten PHI: those it had, without the eliminated block, and the
break blocks, each of them once. -/
private theorem incoming_blocks {s : Nat} {phi phi' : PHI}
    (hmem : phi ∈ (c.node s).ir.phi) {v : Nat} (hin : phi'.incoming =
      (phi.incoming.eraseP fun i => i.block == node) ++ c.arrivals node v) :
    (phi'.incoming.map (·.block)).Nodup ∧
      ∀ b, b ∈ phi'.incoming.map (·.block) ↔
        (b ≠ node ∧ b ∈ phi.incoming.map (·.block)) ∨
          b ∈ (c.node node).pred.map (c.breakNode node) := by
  have hisol := hc.isolated hphi
  obtain ⟨l, hl, hnodup, honly, hall⟩ := arrivals_eq hc hphi v
  have hold := hc.incoming_nodup s phi hmem
  have hblocks : phi'.incoming.map (·.block) =
      (phi.incoming.map (·.block)).erase node ++ (l.map (·.block)).map (c.breakNode node) := by
    rw [hin, hl, List.map_append, map_eraseP_block, List.map_map, List.map_map]
    rfl
  have hbreak : ∀ b, b ∈ (l.map (·.block)).map (c.breakNode node) ↔
      b ∈ (c.node node).pred.map (c.breakNode node) := by
    intro b
    simp only [List.mem_map]
    constructor
    · rintro ⟨p, ⟨i, hi, rfl⟩, rfl⟩
      exact ⟨i.block, honly i hi, rfl⟩
    · rintro ⟨p, hp, rfl⟩
      obtain ⟨i, hi, hip, -⟩ := hall p hp
      exact ⟨p, ⟨i, hi, hip⟩, rfl⟩
  rw [hblocks]
  constructor
  · refine List.nodup_append.mpr ⟨hold.erase node, ?_, ?_⟩
    · refine hnodup.map_on fun p hp q hq he => ?_
      obtain ⟨i, hi, rfl⟩ := List.mem_map.mp hp
      exact breakNode_inj (honly i hi) he
    · rintro a ha b hb rfl
      obtain ⟨i, hi, rfl⟩ := List.mem_map.mp (List.mem_of_mem_erase ha)
      have hlt := hc.incoming_lt s phi hmem i hi
      obtain ⟨p, -, hp⟩ := List.mem_map.mp hb
      have hge := c.le_breakNode node p
      omega
  · intro b
    rw [List.mem_append, hold.mem_erase_iff, hbreak]

/-- The break block `b` does over the edge from `p` what the eliminated block did: it runs the
same operations, continues to the same successor, and every variable but the PHIs of the
eliminated block has the same value in the successor. -/
structure StandsIn (c c' : CFGStructurizer) (node p b : Nat) : Prop where
  fresh : c.size ≤ b
  retargeted : (c'.node p).ir.terminator = (c.node p).ir.terminator.retarget node b
  operations : (c'.node b).ir.operations = (c.node node).ir.operations
  next : ∀ {V W : Type} (m : Machine V W) (e : Env V),
    m.next (c'.node b).ir.terminator (enter p (c'.node b).ir.phi e) =
      m.next (c.node node).ir.terminator (enter p (c.node node).ir.phi e)
  values : ∀ {V : Type} (e : Env V), ∀ s ∈ (c.node node).succ, ∀ x,
    x ∈ (c.node s).ir.phi.map (·.id) ∨ x ∉ (c.node node).ir.phi.map (·.id) →
      enter b (c'.node s).ir.phi (enter p (c'.node b).ir.phi e) x =
        enter node (c.node s).ir.phi (enter p (c.node node).ir.phi e) x

include hc hphi in
theorem standsIn (h : Eliminated c node c') {p : Nat} (hp : p ∈ (c.node node).pred) :
    StandsIn c c' node p (c.breakNode node p) := by
  have hisol := hc.isolated hphi
  have hir := h.break_ir p hp
  have hpn : p ≠ node := fun he => hisol.notMem_pred (he ▸ hp)
  have hbranch := hc.branches p node hp (hphi.pred_branches p hp)
  refine ⟨Nat.le_add_right .., ?_, ?_, ?_, ?_⟩
  · rw [h.terminator p (hisol.pred_lt node p hp) hpn, if_pos hp]
  · rw [hir, hphi.operations]
  · intro V W m e
    rw [hir]
    exact m.next_congr rfl (resolveCondition_value (hc.phi_ids node)
      (fun phi hmem psi hpsi i hi => hc.incoming_ne hphi.predBackEdge hmem hpsi hi)
      (fun phi hmem => incomingFrom_isSome (hc.incoming_pred node phi hmem p hp hbranch)) _ e)
  · intro V e s hs x hx
    have hpass : enter p (c'.node (c.breakNode node p)).ir.phi e = e := by
      rw [hir]
      rfl
    rw [hpass]
    have hrel := h.phi s hs
    refine enterWith_agree (((List.forall₂_and_left _ _).mpr ⟨fun _ h => h, hrel⟩).imp ?_) ?_
    · rintro phi phi' ⟨hmem, hsplit⟩
      obtain ⟨v, hv, hid, hin⟩ := splitIncoming_eq hsplit
      refine ⟨hid, ?_⟩
      obtain ⟨l, hl, -, -, hall⟩ := arrivals_eq hc hphi v
      obtain ⟨i, hi, rfl, hval⟩ := hall p hp
      have hfrom : phi'.incomingFrom (c.breakNode node i.block) = some i.id := by
        refine incomingFrom_of_mem (incoming_blocks hc hphi hmem hin).1
          (i := c.atBreak node i) ?_
        rw [hin, hl]
        exact List.mem_append_right _ (List.mem_map_of_mem hi)
      rw [hfrom, hv, Option.map_some, Option.map_some, hval e]
    · rcases hx with hx | hx
      · obtain ⟨phi, hmem, rfl⟩ := List.mem_map.mp hx
        obtain ⟨phi', -, hsplit⟩ := exists_right_of_forall₂ hrel hmem
        obtain ⟨v, hv, -⟩ := splitIncoming_eq hsplit
        exact .inr ⟨phi, hmem, rfl, by rw [hv]; rfl⟩
      · exact .inl (enterWith_of_notMem hx).symm

/-- The break blocks are added to the predecessors of a successor. -/
theorem Eliminated.pred_succ (h : Eliminated c node c') (hisol : c.Isolated node) {s : Nat}
    (hs : s ∈ (c.node node).succ) : (c'.node s).pred =
      ((c.node s).pred ++ (c.node node).pred.map (c.breakNode node)).erase node := by
  have hne : s ≠ node := fun he => hisol.notMem_succ (he ▸ hs)
  rw [h.pred s (hisol.succ_lt s hs), if_neg hne, if_pos hs]

include hc hphi in
/-- The PHIs of a successor have one entry for each predecessor, and none for the eliminated
block. -/
theorem Eliminated.incoming (h : Eliminated c node c') {s : Nat} (hs : s ∈ (c.node node).succ)
    {phi' : PHI} (hmem' : phi' ∈ (c'.node s).ir.phi) :
    node ∉ phi'.incoming.map (·.block) ∧ ∀ p ∈ (c'.node s).pred, c'.Branches p s →
      (phi'.incoming.map (·.block)).count p = 1 := by
  have hisol := hc.isolated hphi
  obtain ⟨phi, hmem, hsplit⟩ := exists_left_of_forall₂ (h.phi s hs) hmem'
  obtain ⟨v, -, -, hin⟩ := splitIncoming_eq hsplit
  obtain ⟨hnodup, hblocks⟩ := incoming_blocks hc hphi hmem hin
  have hbreak : ∀ b ∈ (c.node node).pred.map (c.breakNode node), c.size ≤ b := by
    intro b hb
    obtain ⟨q, -, rfl⟩ := List.mem_map.mp hb
    exact Nat.le_add_right ..
  have hnode := hisol.node_lt
  constructor
  · rw [hblocks]
    rintro (⟨hne, -⟩ | hb)
    · exact hne rfl
    · have := hbreak _ hb
      omega
  · intro p hp hbranch
    refine List.count_eq_one_of_mem hnodup ((hblocks p).mpr ?_)
    rw [h.pred_succ hisol hs] at hp
    have hpred_nodup : ((c.node s).pred ++ (c.node node).pred.map (c.breakNode node)).Nodup := by
      refine List.nodup_append.mpr ⟨hc.nodup_pred s, ?_, ?_⟩
      · exact hisol.nodup_pred.map_on fun q hq r _ he => breakNode_inj hq he
      · rintro a ha b hb rfl
        have := hbreak a hb
        have := hisol.pred_lt s a ha
        omega
    obtain ⟨hpn, hp⟩ := hpred_nodup.mem_erase_iff.mp hp
    rcases List.mem_append.mp hp with hp | hp
    · left
      refine ⟨hpn, hc.incoming_pred s phi hmem p hp ?_⟩
      -- a branch to `s` is no branch to a break block, so it was there before
      have hlt := hisol.pred_lt s p hp
      have hslt := hisol.succ_lt s hs
      unfold Branches at hbranch ⊢
      rw [h.terminator p hlt hpn] at hbranch
      split at hbranch
      · rw [Terminator.targets_retarget] at hbranch
        obtain ⟨t, ht, he⟩ := List.mem_map.mp hbranch
        split at he
        · have hge := c.le_breakNode node p
          omega
        · exact he ▸ ht
      · exact hbranch
    · exact .inr hp

include hc hphi in
/-- The PHIs of a successor keep the entries of their other blocks. -/
theorem Eliminated.keepsEntries (h : Eliminated c node c') {s : Nat}
    (hs : s ∈ (c.node node).succ) :
    List.Forall₂ (KeepsEntries c node) (c.node s).ir.phi (c'.node s).ir.phi := by
  refine List.forall₂_iff_get.mpr ⟨(h.phi s hs).length_eq, fun k hk hk' => ?_⟩
  have hsplit := (List.forall₂_iff_get.mp (h.phi s hs)).2 k hk hk'
  have hmem' := List.get_mem (c'.node s).ir.phi ⟨k, hk'⟩
  obtain ⟨v, -, -, hin⟩ := splitIncoming_eq hsplit
  obtain ⟨l, hl, -, -, -⟩ := arrivals_eq hc hphi v
  refine ⟨splitIncoming_same hsplit, ?_, fun q hq hqn => incomingFrom_erase_append hin hqn ?_⟩
  · rw [PHI.incomingFrom, Option.map_eq_none_iff, List.find?_eq_none]
    intro i hi hbeq
    exact (h.incoming hc hphi hs hmem').1 (List.mem_map.mpr ⟨i, hi, beq_iff_eq.mp hbeq⟩)
  · intro i hi
    rw [hl] at hi
    obtain ⟨j, -, rfl⟩ := List.mem_map.mp hi
    have hge := c.le_breakNode node j.block
    exact Nat.ne_of_gt (Nat.lt_of_lt_of_le hq hge)

/-- What the elimination of a block keeps: the operations of all other blocks, the PHIs of blocks
that are no successors, the other entries of the PHIs of the successors, and the edges that do not
touch the block. -/
structure FlattenKeeps (c c' : CFGStructurizer) (node : Nat) : Prop where
  size : c'.size = c.size + (c.node node).pred.length
  operations : ∀ x < c.size, x ≠ node → (c'.node x).ir.operations = (c.node x).ir.operations
  terminator : ∀ x < c.size, x ≠ node → (c'.node x).ir.terminator =
    if x ∈ (c.node node).pred then (c.node x).ir.terminator.retarget node (c.breakNode node x)
    else (c.node x).ir.terminator
  phi : ∀ x < c.size, x ≠ node → x ∉ (c.node node).succ → (c'.node x).ir.phi = (c.node x).ir.phi
  entries : ∀ s ∈ (c.node node).succ,
    List.Forall₂ (KeepsEntries c node) (c.node s).ir.phi (c'.node s).ir.phi
  succ : ∀ x < c.size, (c'.node x).succ =
    if x ∈ (c.node node).pred then (c.node x).succ.replace node (c.breakNode node x)
    else (c.node x).succ
  pred : ∀ x < c.size, (c'.node x).pred =
    if x = node then []
    else if x ∈ (c.node node).succ then
      ((c.node x).pred ++ (c.node node).pred.map (c.breakNode node)).erase node
    else (c.node x).pred
  break_edges : ∀ p ∈ (c.node node).pred,
    (c'.node (c.breakNode node p)).succ = (c.node node).succ ∧
      (c'.node (c.breakNode node p)).pred = [p]

/-- Eliminating a breaking PHI construct preserves meaning: every edge into the block has a
break block that stands in for it, every PHI of a successor has exactly one entry for each
predecessor, and nothing else changes. -/
theorem eliminateNodeLinkPredsToSucc_preserves (hc : c.SsaForm)
    (hb : c.blockIsBreakingPhiConstruct fuel node = .ok true)
    (h : c.eliminateNodeLinkPredsToSucc fuel node = .ok c') :
    (∀ p ∈ (c.node node).pred, StandsIn c c' node p (c.breakNode node p)) ∧
      (∀ p ∈ (c.node node).pred, ∀ q, c.breakNode node p = c.breakNode node q → p = q) ∧
      (∀ s ∈ (c.node node).succ,
        (∀ p ∈ (c.node node).pred, c.breakNode node p ∈ (c'.node s).pred) ∧
        ∀ phi' ∈ (c'.node s).ir.phi, node ∉ phi'.incoming.map (·.block) ∧
          ∀ p ∈ (c'.node s).pred, c'.Branches p s →
            (phi'.incoming.map (·.block)).count p = 1) ∧
      (∀ x < c.size, x ≠ node → x ∉ (c.node node).pred → x ∉ (c.node node).succ →
        (c'.node x).ir = (c.node x).ir) ∧
      FlattenKeeps c c' node := by
  have hphi := phiOnly_of_breaking hb
  have hisol := hc.isolated hphi
  have helim := eliminateNodeLinkPredsToSucc_ok hisol h
  have hkeeps : FlattenKeeps c c' node :=
    { helim with entries := fun s hs => helim.keepsEntries hc hphi hs, phi := helim.phi_other }
  refine ⟨fun p hp => standsIn hc hphi helim hp, fun p hp q => breakNode_inj hp, ?_, ?_, hkeeps⟩
  · intro s hs
    refine ⟨fun p hp => ?_, fun phi' => helim.incoming hc hphi hs⟩
    rw [helim.pred_succ hisol hs]
    refine (List.mem_erase_of_ne ?_).mpr (List.mem_append_right _ (List.mem_map_of_mem hp))
    have hge := c.le_breakNode node p
    have hlt := hisol.node_lt
    omega
  · intro x hx hxn hxp hxs
    have hsame : ∀ {a b : IRBlock}, a.phi = b.phi → a.operations = b.operations →
        a.terminator = b.terminator → a = b := by
      rintro ⟨⟩ ⟨⟩ rfl rfl rfl
      rfl
    refine hsame (hkeeps.phi x hx hxn hxs) (hkeeps.operations x hx hxn) ?_
    rw [hkeeps.terminator x hx hxn, if_neg hxp]

/-- The blocks 1 and 2 of a selection join two values in block 3, which branches on one of them
and passes the other one on to block 4. -/
def joinAndBreak : CFGStructurizer :=
  ofNodes
    [{ succ := [1, 2], immediateDominator := some 0, immediatePostDominator := some 6
       ir := { terminator :=
         { type := .condition, conditionalId := 50, trueBlock := some 1, falseBlock := some 2 } } },
     { succ := [3, 4], pred := [0], immediateDominator := some 0, immediatePostDominator := some 6
       ir := { terminator :=
         { type := .condition, conditionalId := 51, trueBlock := some 3, falseBlock := some 4 } } },
     { succ := [3, 5], pred := [0], immediateDominator := some 0, immediatePostDominator := some 6
       ir := { terminator :=
         { type := .condition, conditionalId := 52, trueBlock := some 3, falseBlock := some 5 } } },
     { succ := [4, 5], pred := [1, 2], immediateDominator := some 0
       immediatePostDominator := some 6
       ir := {
         phi := [{ id := 10, incoming := [⟨1, 20⟩, ⟨2, 21⟩] },
           { id := 11, incoming := [⟨1, 22⟩, ⟨2, 23⟩] }]
         terminator :=
           { type := .condition, conditionalId := 10, trueBlock := some 4,
             falseBlock := some 5 } } },
     { pred := [1, 3], immediateDominator := some 0, immediatePostDominator := some 6
       ir := { phi := [{ id := 12, incoming := [⟨1, 24⟩, ⟨3, 11⟩] }]
               terminator := { type := .ret } } },
     { pred := [2, 3], immediateDominator := some 0, immediatePostDominator := some 6
       ir := { phi := [{ id := 13, incoming := [⟨2, 25⟩, ⟨3, 26⟩] }]
               terminator := { type := .ret } } },
     { immediatePostDominator := some 6 }] 0 6

theorem joinAndBreak_ssaForm : joinAndBreak.SsaForm := by
  have hall : ∀ {P : Nat → CFGNode → Prop}, (∀ n, P n {}) →
      (∀ n < 7, P n (joinAndBreak.node n)) → ∀ n, P n (joinAndBreak.node n) :=
    fun hnone h => ofNodes_forall hnone h
  have h1 : Reaches joinAndBreak.Flows 0 1 := .single (by decide : joinAndBreak.Flows 0 1)
  have h2 : Reaches joinAndBreak.Flows 0 2 := .single (by decide : joinAndBreak.Flows 0 2)
  have hreach : ∀ a ∈ [0, 1, 2, 3], Reaches joinAndBreak.Flows 0 a := by
    intro a ha
    simp only [List.mem_cons, List.not_mem_nil, or_false] at ha
    rcases ha with rfl | rfl | rfl | rfl
    · exact .refl
    · exact h1
    · exact h2
    · exact h1.tail (by decide : joinAndBreak.Flows 1 3)
  have hblock : ∀ b, ∀ phi ∈ (joinAndBreak.node b).ir.phi, ∀ i ∈ phi.incoming,
      ∀ a, ∀ psi ∈ (joinAndBreak.node a).ir.phi, psi.id = i.id → a = i.block := by
    intro b phi hphi i hi a psi hpsi hid
    have ha : a < 7 := by
      by_contra ha
      rw [show joinAndBreak.node a = {} from ofNodes_outside (Nat.le_of_not_lt ha)] at hpsi
      exact absurd hpsi List.not_mem_nil
    exact hall (P := fun _ x => ∀ phi ∈ x.ir.phi, ∀ i ∈ phi.incoming, ∀ a < 7,
      ∀ psi ∈ (joinAndBreak.node a).ir.phi, psi.id = i.id → a = i.block) (by simp) (by decide)
      b phi hphi i hi a ha psi hpsi hid
  exact
    { toAnalysed := ofNodes_analysed rfl (by decide) (by decide) (by decide)
      reachable := fun a b hab => hreach a (by
        revert a
        exact hall (P := fun _ x => ∀ a ∈ x.pred, a ∈ [0, 1, 2, 3]) (by simp) (by decide) b)
      branches := fun a b => hall (P := fun n x => ∀ a ∈ x.pred,
        (joinAndBreak.node a).succBackEdge = none → joinAndBreak.Branches a n) (by simp)
        (by decide) b a
      phi_ids := hall (P := fun _ x => (x.ir.phi.map (·.id)).Nodup) (by simp) (by decide)
      incoming_lt := hall (P := fun _ x => ∀ phi ∈ x.ir.phi, ∀ i ∈ phi.incoming, i.block < 7)
        (by simp) (by decide)
      incoming_nodup := hall (P := fun _ x => ∀ phi ∈ x.ir.phi, (phi.incoming.map (·.block)).Nodup)
        (by simp) (by decide)
      incoming_pred := hall (P := fun b x => ∀ phi ∈ x.ir.phi, ∀ a ∈ x.pred,
        joinAndBreak.Branches a b → a ∈ phi.incoming.map (·.block)) (by simp) (by decide)
      incoming_only := hall (P := fun _ x => x.predBackEdge = none → ∀ phi ∈ x.ir.phi,
        ∀ i ∈ phi.incoming, i.block ∈ x.pred) (by simp) (by decide)
      incoming_dominates := fun b phi hphi i hi a psi hpsi hid =>
        hblock b phi hphi i hi a psi hpsi hid ▸ Dominates.refl _ _ a }

theorem joinAndBreak_breaking : joinAndBreak.blockIsBreakingPhiConstruct 10 3 = .ok true := by
  decide +kernel

/-- The join is split: either predecessor reaches the blocks 4 and 5 through a break block. -/
theorem joinAndBreak_preserves : ∃ c', joinAndBreak.eliminateNodeLinkPredsToSucc 10 3 = .ok c' ∧
    StandsIn joinAndBreak c' 3 1 7 ∧ StandsIn joinAndBreak c' 3 2 8 := by
  have hok : yields (joinAndBreak.eliminateNodeLinkPredsToSucc 10 3) (fun _ => true) = true := by
    decide +kernel
  obtain ⟨c', hc', -⟩ := exists_of_yields hok
  have h := (eliminateNodeLinkPredsToSucc_preserves joinAndBreak_ssaForm joinAndBreak_breaking
    hc').1
  exact ⟨c', hc', h 1 (by decide), h 2 (by decide)⟩

end CFGStructurizer

end DxilSpirv
