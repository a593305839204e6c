import DxilSpirv.Ssa.DuplicateCompletes

/-!
# Impossible merge constructs

The blocks to duplicate are selected before the first of them is duplicated. A block that was
selected still passes the asserts when its turn comes, and its duplication keeps its meaning
exactly if the block ends in a branch and none of its operations is decorated.
-/

namespace DxilSpirv

open DxilSpirv.Graph

namespace CFGStructurizer

variable {c c₀ c' : CFGStructurizer} {m m' : SpirvModule} {fuel fuel₀ node n a : Nat}

/-- A block on a breaking path joins several blocks and has one successor that others reach too. -/
theorem mergeCandidateIsOnBreakingPath_ok (h : mergeCandidateIsOnBreakingPath fuel c n = .ok true) :
    2 ≤ (c.node n).pred.length ∧ ∃ s, (c.node n).succ = [s] ∧ c.dominates n s = .ok false := by
  cases fuel with
  | zero =>
    rw [mergeCandidateIsOnBreakingPath] at h
    cases h
  | succ fuel =>
    rw [mergeCandidateIsOnBreakingPath] at h
    split at h
    · rename_i s hs
      split at h
      · cases h
      · rename_i hlen
        obtain ⟨dominated, hdominated, h⟩ := bind_eq_ok.mp h
        cases dominated with
        | true => cases h
        | false => exact ⟨Nat.not_lt.mp hlen, s, hs, hdominated⟩
    · cases h

/-- What the selection of a block says about the asserts of `duplicate_node`. -/
theorem isDuplicateCandidate_ok (h : c.isDuplicateCandidate fuel n = .ok true) :
    2 ≤ (c.node n).pred.length ∧ ∀ s ∈ (c.node n).succ, c.dominates n s = .ok false := by
  unfold isDuplicateCandidate at h
  split at h
  · cases h
  obtain ⟨impossible, himpossible, h⟩ := bind_eq_ok.mp h
  cases impossible with
  | false => cases h
  | true =>
    clear h
    unfold isImpossibleMerge at himpossible
    obtain ⟨breaking, hbreaking, himpossible⟩ := bind_eq_ok.mp himpossible
    cases breaking with
    | true =>
      obtain ⟨hlen, s, hs, hdom⟩ := mergeCandidateIsOnBreakingPath_ok hbreaking
      refine ⟨hlen, fun t ht => ?_⟩
      rw [hs] at ht
      exact List.mem_singleton.mp ht ▸ hdom
    | false =>
      simp only [Bool.false_eq_true, if_false] at himpossible
      split at himpossible
      · rename_i hlen
        refine ⟨hlen, ?_⟩
        obtain ⟨dominated, hdominated, himpossible⟩ := bind_eq_ok.mp himpossible
        cases dominated with
        | true => cases himpossible
        | false => exact anyM_eq_false.mp hdominated
      · cases himpossible

/-- A block that was selected on the pool `c₀`, seen in a pool `c` in which other blocks have been
duplicated: it has as many predecessors at least, and it dominates no successor. -/
structure Selected (fuel : Nat) (c₀ c : CFGStructurizer) (node : Nat) : Prop where
  candidate : c₀.isDuplicateCandidate fuel node = .ok true
  size : c₀.size ≤ c.size
  pred : (c₀.node node).pred.length ≤ (c.node node).pred.length
  succ : (c.node node).succ = (c₀.node node).succ
  inside : ∀ s ∈ (c.node node).succ, ∀ x, Anc c.idom x s → x < c₀.size
  dominates : ∀ s ∈ (c.node node).succ, c.dominates node s = .ok false

/-- On the pool of the selection itself. -/
theorem Selected.refl (h : c.isDuplicateCandidate fuel node = .ok true)
    (hidom : ∀ x y, c.idom x = some y → y < c.size)
    (hsucc : ∀ s ∈ (c.node node).succ, s < c.size) : Selected fuel c c node where
  candidate := h
  size := Nat.le_refl _
  pred := Nat.le_refl _
  succ := rfl
  inside s hs x hx := by
    rcases Relation.ReflTransGen.cases_tail hx with rfl | ⟨y, -, hyx⟩
    · exact hsucc x hs
    · exact hidom y x hyx
  dominates := (isDuplicateCandidate_ok h).2

/-- A chain that is cut at a block still avoids what it avoided. -/
theorem climbs_cut {next next' : Nat → Option Nat} {a n : Nat} (ha : next' a = some a)
    (fuel : Nat) : ∀ fuel' b, fuel ≤ fuel' → (∀ x, Anc next x b → x ≠ a → next' x = next x) →
      climbs next n fuel b = .ok false → climbs next' n fuel' b = .ok false := by
  induction fuel with
  | zero => exact fun _ _ _ _ h => nomatch h
  | succ fuel ih =>
    intro fuel' b hle hagree h
    obtain ⟨fuel', rfl⟩ : ∃ k, fuel' = k + 1 := ⟨fuel' - 1, by omega⟩
    simp only [climbs] at h ⊢
    split at h
    · cases h
    · rename_i hnb
      rw [if_neg hnb]
      by_cases hba : b = a
      · subst hba
        simp [ha]
      · rw [hagree b (.refl next b) hba]
        cases hb : next b with
        | none => rfl
        | some d =>
          rw [hb] at h
          dsimp only at h ⊢
          split at h
          · rename_i hbd
            rw [if_pos hbd]
          · rename_i hbd
            rw [if_neg hbd]
            exact ih fuel' d (by omega)
              (fun x hx => hagree x ((Anc.iff_par hb).mpr (.inr hx))) h

/-- Ancestors in the cut chain were ancestors before. -/
theorem anc_of_cut {next next' : Nat → Option Nat} {a b x : Nat} (ha : next' a = some a)
    (hagree : ∀ x, Anc next x b → x ≠ a → next' x = next x) (hx : Anc next' x b) :
    Anc next x b := by
  induction hx with
  | refl => exact .refl next b
  | @tail y z _ hyz ih =>
    by_cases hya : y = a
    · subst hya
      exact Option.some.inj (ha.symm.trans hyz) ▸ ih
    · rw [hagree y ih hya] at hyz
      exact Relation.ReflTransGen.tail ih hyz

/-- The dominators after a block was duplicated: only the block and its copies have new ones. -/
theorem duplicateNode_idom (hd : Duplicable c m a) (hcan : c.canDuplicatePhis a = .ok true)
    (h : c.duplicateNode fuel m a = .ok (c', m')) :
    c'.idom a = some a ∧ ∀ x < c.size, x ≠ a → c'.idom x = c.idom x := by
  simp only [duplicateNode, bind_eq_ok, pure_eq_ok] at h
  obtain ⟨_, -, _, hlen, b, hb, _, -, s, hs, _, -, chains, hchains, h⟩ := h
  obtain ⟨rfl, rfl⟩ := Prod.mk.inj (Except.ok.inj h)
  have hlen := check_eq_ok.mp hlen
  have hall := duplicateFor_all hd hcan hs
  have hkeep : ∀ x, (s.c.modifyAll chains.flatten
      (.mapPhi (List.map (splitCopies a s.copies)))).idom x = s.c.idom x :=
    modifyAll_field CFGNode.immediateDominator
      (fun y : CFGNode => (rfl : (y.mapPhi _).immediateDominator = y.immediateDominator)) s.c _
  refine ⟨?_, fun x hx hxa => ?_⟩
  · rw [hkeep]
    exact hall.idom_self (List.ne_nil_of_length_pos (by omega)) rfl
  · rw [hkeep]
    exact hall.idom x hx hxa

/-- A selected block stays selected while a block that it does not lead to is duplicated. -/
theorem Selected.duplicateNode (hsel : Selected fuel₀ c₀ c node) (hd : Duplicable c m a)
    (hcan : c.canDuplicatePhis a = .ok true) (h : c.duplicateNode fuel m a = .ok (c', m'))
    (hne : node ≠ a) (hlt : node < c.size) (hnot : node ∉ (c.node a).pred) :
    Selected fuel₀ c₀ c' node := by
  have hrest := (duplicateNode_ok hd hcan h).rest
  obtain ⟨hself, hidom⟩ := duplicateNode_idom hd hcan h
  have hsize : c.size ≤ c'.size := by
    rw [hrest.size]
    exact Nat.le_add_right _ _
  have hsucc : (c'.node node).succ = (c.node node).succ := by
    rw [hrest.succ node hlt, if_neg hnot]
  have hagree : ∀ s ∈ (c.node node).succ, ∀ x, Anc c.idom x s → x ≠ a →
      c'.idom x = c.idom x :=
    fun s hs x hx hxa => hidom x (Nat.lt_of_lt_of_le (hsel.inside s hs x hx) hsel.size) hxa
  refine ⟨hsel.candidate, Nat.le_trans hsel.size hsize, ?_, hsucc.trans hsel.succ, ?_, ?_⟩
  · rw [hrest.pred node hlt, if_neg hne]
    split
    · rw [List.length_append]
      exact Nat.le_trans hsel.pred (Nat.le_add_right _ _)
    · exact hsel.pred
  · intro s hs x hx
    rw [hsucc] at hs
    exact hsel.inside s hs x (anc_of_cut hself (hagree s hs) hx)
  · intro s hs
    rw [hsucc] at hs
    exact climbs_cut hself (c.size + 1) (c'.size + 1) s (by omega) (hagree s hs)
      (hsel.dominates s hs)

/-- Filtering with a test that may fail keeps elements that pass it, in their order. -/
theorem filterM_ok {f : Nat → Except Fault Bool} {l l' : List Nat} (h : l.filterM f = .ok l') :
    l'.Sublist l ∧ ∀ x ∈ l', f x = .ok true := by
  suffices hgen : ∀ (l acc l' : List Nat), List.filterAuxM f l acc = .ok l' →
      ∃ k : List Nat, l' = k.reverse ++ acc ∧ k.Sublist l ∧ ∀ x ∈ k, f x = .ok true by
    rw [List.filterM] at h
    obtain ⟨k', hk', h⟩ := bind_eq_ok.mp h
    obtain rfl := Except.ok.inj h
    obtain ⟨k, rfl, hsub, htrue⟩ := hgen l [] k' hk'
    rw [List.append_nil, List.reverse_reverse]
    exact ⟨hsub, htrue⟩
  intro l
  induction l with
  | nil =>
    intro acc l' h
    obtain rfl := Except.ok.inj h
    exact ⟨[], rfl, List.Sublist.refl _, fun x hx => absurd hx List.not_mem_nil⟩
  | cons y l ih =>
    intro acc l' h
    rw [List.filterAuxM] at h
    obtain ⟨b, hb, h⟩ := bind_eq_ok.mp h
    cases b with
    | false =>
      obtain ⟨k, rfl, hsub, htrue⟩ := ih acc l' h
      exact ⟨k, rfl, hsub.cons y, htrue⟩
    | true =>
      obtain ⟨k, rfl, hsub, htrue⟩ := ih (y :: acc) l' h
      refine ⟨y :: k, by simp, hsub.cons_cons y, fun x hx => ?_⟩
      rcases List.mem_cons.mp hx with rfl | hx
      · exact hb
      · exact htrue x hx

/-- What is left of the queue: selected blocks of the pool, none of which leads to an earlier
one. -/
structure Waiting (fuel : Nat) (c₀ c : CFGStructurizer) (queue : List Nat) : Prop where
  selected : ∀ n ∈ queue, Selected fuel c₀ c n ∧ n < c₀.size
  apart : queue.Pairwise fun a n => n ≠ a ∧ n ∉ (c.node a).pred

/-- The first block of the queue is duplicated, or it is kept. -/
theorem Waiting.step {a : Nat} {queue : List Nat} {s s' : CFGStructurizer × SpirvModule}
    (h : Waiting fuel₀ c₀ s.1 (a :: queue)) (hd : s.1.canDuplicatePhis a = .ok true →
      Duplicable s.1 s.2 a) (hstep : duplicateSelected fuel s a = .ok s') :
    Waiting fuel₀ c₀ s'.1 queue := by
  obtain ⟨hfirst, hrest⟩ := List.pairwise_cons.mp h.apart
  have hsel : ∀ n ∈ queue, Selected fuel₀ c₀ s.1 n ∧ n < c₀.size :=
    fun n hn => h.selected n (List.mem_cons_of_mem _ hn)
  obtain ⟨can, hcan, hstep⟩ := bind_eq_ok.mp hstep
  cases can with
  | false =>
    obtain rfl := Except.ok.inj hstep
    exact ⟨hsel, hrest⟩
  | true =>
    have hok : s.1.duplicateNode fuel s.2 a = .ok (s'.1, s'.2) := hstep
    have hkeeps := (duplicateNode_ok (hd hcan) hcan hok).rest
    have hle := (h.selected a (List.mem_cons_self ..)).1.size
    refine ⟨fun n hn => ⟨?_, (hsel n hn).2⟩, ?_⟩
    · obtain ⟨hne, hnot⟩ := hfirst n hn
      exact (hsel n hn).1.duplicateNode (hd hcan) hcan hok hne
        (Nat.lt_of_lt_of_le (hsel n hn).2 hle) hnot
    · refine hrest.imp_of_mem fun {b n} hb hn hbn => ⟨hbn.1, ?_⟩
      -- the copies are the only new predecessors
      have hblt := Nat.lt_of_lt_of_le (hsel b hb).2 hle
      have hnlt := Nat.lt_of_lt_of_le (hsel n hn).2 hle
      rw [hkeeps.pred b hblt]
      split
      · exact List.not_mem_nil
      · split
        · rw [List.mem_append, not_or]
          refine ⟨hbn.2, fun hm => ?_⟩
          obtain ⟨q, -, he⟩ := List.mem_map.mp hm
          have := s.1.le_breakNode a q
          omega
        · exact hbn.2

/-- The queue of an analysed pool, whose blocks come before those that they lead to. -/
theorem waiting_duplicateQueue {queue : List Nat} (h : c.duplicateQueue fuel = .ok queue)
    (hnodup : c.forwardPostVisitOrder.Nodup) (hlt : ∀ n ∈ c.forwardPostVisitOrder, n < c.size)
    (hlower : ∀ a b, a ∈ (c.node b).pred →
      c.forwardPostVisitOrder.idxOf b < c.forwardPostVisitOrder.idxOf a)
    (hidom : ∀ x y, c.idom x = some y → y < c.size)
    (hsucc : ∀ n, ∀ s ∈ (c.node n).succ, s < c.size) : Waiting fuel c c queue := by
  obtain ⟨hsub, htrue⟩ := filterM_ok h
  refine ⟨fun n hn => ⟨.refl (htrue n hn) hidom (hsucc n), ?_⟩, ?_⟩
  · exact hlt n (List.mem_reverse.mp (hsub.subset hn))
  · have hpair : c.forwardPostVisitOrder.reverse.Pairwise fun a n =>
        c.forwardPostVisitOrder.idxOf n < c.forwardPostVisitOrder.idxOf a := by
      rw [List.pairwise_reverse, List.pairwise_iff_getElem]
      intro i j hi hj hij
      rw [hnodup.idxOf_getElem, hnodup.idxOf_getElem]
      exact hij
    refine (hpair.sublist hsub).imp fun {a n} hlt => ⟨?_, fun hp => ?_⟩
    · rintro rfl
      exact Nat.lt_irrefl _ hlt
    · exact Nat.lt_asymm hlt (hlower n a hp)

/-- In the whole run, every block of the queue is still selected when its turn comes. -/
theorem Waiting.selected_of_run {queue : List Nat} {s : CFGStructurizer × SpirvModule}
    (h : Waiting fuel₀ c₀ s.1 queue)
    (hd : ∀ done a rest t, queue = done ++ a :: rest →
      done.foldlM (duplicateSelected fuel) s = .ok t → t.1.canDuplicatePhis a = .ok true →
      Duplicable t.1 t.2 a) :
    ∀ done a rest t, queue = done ++ a :: rest →
      done.foldlM (duplicateSelected fuel) s = .ok t → Selected fuel₀ c₀ t.1 a := by
  induction queue generalizing s with
  | nil => exact fun done a rest t hq _ => absurd hq (by simp)
  | cons b queue ih =>
    intro done a rest t hq hrun
    cases done with
    | nil =>
      obtain rfl := Except.ok.inj hrun
      obtain ⟨rfl, -⟩ := List.cons.inj hq
      exact (h.selected b (List.mem_cons_self ..)).1
    | cons d done =>
      obtain ⟨rfl, hrest⟩ := List.cons.inj hq
      rw [List.foldlM_cons, bind_eq_ok] at hrun
      obtain ⟨s₂, hstep, hrun⟩ := hrun
      have hwait := h.step (hd [] b queue s rfl rfl) hstep
      refine ih hwait (fun done' a' rest' t' hq' hrun' => ?_) done a rest t hrest hrun
      refine hd (b :: done') a' rest' t' (congrArg (b :: ·) hq') ?_
      rw [List.foldlM_cons, hstep, ok_bind, hrun']

/-- In a run on an analysed pool every block of the queue is selected when its turn comes. -/
theorem duplicateImpossibleMergeConstructs_selected {r : CFGStructurizer × SpirvModule}
    {queue : List Nat} (hqueue : c.duplicateQueue fuel = .ok queue)
    (hnodup : c.forwardPostVisitOrder.Nodup) (hlt : ∀ n ∈ c.forwardPostVisitOrder, n < c.size)
    (hlower : ∀ a b, a ∈ (c.node b).pred →
      c.forwardPostVisitOrder.idxOf b < c.forwardPostVisitOrder.idxOf a)
    (hidom : ∀ x y, c.idom x = some y → y < c.size)
    (hsucc : ∀ n, ∀ s ∈ (c.node n).succ, s < c.size)
    (h : c.duplicateImpossibleMergeConstructs fuel m = .ok r)
    (hd : ∀ done a rest t, queue = done ++ a :: rest →
      done.foldlM (duplicateSelected fuel) (c, m) = .ok t → t.1.canDuplicatePhis a = .ok true →
      Duplicable t.1 t.2 a) {done : List Nat} {a : Nat} {rest : List Nat}
    (ha : queue = done ++ a :: rest) :
    ∃ t, done.foldlM (duplicateSelected fuel) (c, m) = .ok t ∧ Selected fuel c t.1 a := by
  have hwait := waiting_duplicateQueue hqueue hnodup hlt hlower hidom hsucc
  have hne : queue ≠ [] := by
    rw [ha]
    exact List.append_ne_nil_of_right_ne_nil _ (List.cons_ne_nil _ _)
  rw [duplicateImpossibleMergeConstructs, hqueue, ok_bind, if_neg hne, bind_eq_ok] at h
  obtain ⟨s, hrun, -⟩ := h
  rw [ha, List.foldlM_append, bind_eq_ok] at hrun
  obtain ⟨t, ht, -⟩ := hrun
  exact ⟨t, ht, hwait.selected_of_run (s := (c, m)) hd done a rest t ha ht⟩

end CFGStructurizer

end DxilSpirv
