import DxilSpirv.Cfg.Traversal

/-!
# Merging back edges

`rewrite_multiple_back_edges` lets every header that several back edges enter be entered
through one new block. The pool it leaves is described by the search that drives it:
which headers were merged, and where each redirected edge goes.
-/

namespace DxilSpirv

open DxilSpirv.Graph Dfs

namespace CFGStructurizer

/-- The body of the successor loop of `visit_for_back_edge_analysis`. -/
def analyzeSucc (visit : CFGStructurizer → Nat → Except Fault CFGStructurizer)
    (entry : Nat) (c : CFGStructurizer) (succ : Nat) : Except Fault CFGStructurizer :=
  if (c.node succ).traversing then
    -- the list of fake predecessors keeps track of back edges
    .ok (c.modify succ fun x => { x with fakePred := x.fakePred ++ [entry] })
  else if (c.node succ).visited then .ok c
  else visit c succ

/-- A new block that does nothing but branch. -/
def branchTo (dst : Nat) (x : CFGNode) : CFGNode :=
  { x with
    succ := x.succ ++ [dst]
    ir := { x.ir with
      terminator := { x.ir.terminator with type := .branch, directBlock := some dst } } }

/-- The end of `visit_for_back_edge_analysis`: several back edges get a common block. -/
def mergeBackEdges (c : CFGStructurizer) (entry : Nat) : Except Fault CFGStructurizer :=
  if 2 ≤ (c.node entry).fakePred.length then do
    let newBackEdge := c.size
    let c ← (c.node entry).fakePred.foldlM
      (fun c n => c.retargetBranchPreTraversal n entry newBackEdge) c.createNode.1
    (c.modify newBackEdge (branchTo entry)).addBranch newBackEdge entry
  else .ok c

/-- `CFGStructurizer::visit_for_back_edge_analysis`. -/
def visitForBackEdgeAnalysis : Nat → CFGStructurizer → Nat → Except Fault CFGStructurizer
  | 0, _, _ => .error .outOfFuel
  | fuel + 1, c, entry => do
    let c := c.visitEnter entry
    let c ← (c.node entry).succ.foldlM (analyzeSucc (visitForBackEdgeAnalysis fuel) entry) c
    (c.modify entry fun x => { x with traversing := false }).mergeBackEdges entry

/-- `CFGStructurizer::rewrite_multiple_back_edges`. -/
def rewriteMultipleBackEdges (c : CFGStructurizer) : Except Fault CFGStructurizer :=
  visitForBackEdgeAnalysis c.size c.resetTraversal c.entryBlock

end CFGStructurizer

open CFGStructurizer

/-! ## Retargeting a list of blocks -/

/-- Retargeting every block of a list from one block to another succeeds and moves exactly
these edges. -/
theorem retargetAll_ok {p q : Nat} (hpq : p ≠ q) (l : List Nat) (hl : l.Nodup) :
    ∀ c : CFGStructurizer, (∀ n ∈ l, p ∈ (c.node n).succ ∧ q ∉ (c.node n).succ) →
      (∀ n ∈ l, n ∈ (c.node p).pred ∧ n ∉ (c.node q).pred) → (c.node p).pred.Nodup →
      ∃ c', l.foldlM (fun c n => c.retargetBranchPreTraversal n p q) c = .ok c' ∧
        EdgesOnly c c' ∧
        (∀ x, (c'.node x).succ =
          if x ∈ l then (c.node x).succ.replace p q else (c.node x).succ) ∧
        (∀ x, x ≠ q → (c'.node x).pred =
          if x = p then (c.node x).pred.filter (· ∉ l) else (c.node x).pred) ∧
        ∀ x ∈ (c'.node q).pred, x ∈ (c.node q).pred ∨ x ∈ l := by
  induction l with
  | nil =>
    intro c _ _ _
    refine ⟨c, rfl, .refl c, by simp, fun x _ => ?_, fun x hx => .inl hx⟩
    split <;> simp
  | cons a l ih =>
    intro c hs hp hnd
    obtain ⟨hal, hl⟩ := List.nodup_cons.mp hl
    have ha := hs a (List.mem_cons_self ..)
    have hap := hp a (List.mem_cons_self ..)
    have hsucc := c.retargeted_succ (n := a) (p := p) (q := q)
    have hpred := c.retargeted_pred (n := a) hpq
    have hne : ∀ n ∈ l, n ≠ a := fun n hn h => hal (h ▸ hn)
    have hpp : ((c.retargeted a p q).node p).pred = (c.node p).pred.erase a := by
      rw [hpred, if_pos rfl]
    have hqp : ∀ x ∈ ((c.retargeted a p q).node q).pred, x ∈ (c.node q).pred ∨ x = a := by
      intro x hx
      rw [hpred, if_neg hpq.symm, if_pos rfl] at hx
      split at hx
      · exact mem_of_mem_replace hx
      · exact mem_addUnique.mp hx
    obtain ⟨c', hok, hedges, hsucc', hpred', hq'⟩ := ih hl (c.retargeted a p q)
      (fun n hn => by
        rw [hsucc, if_neg (hne n hn)]
        exact hs n (List.mem_cons_of_mem _ hn))
      (fun n hn => by
        have := hp n (List.mem_cons_of_mem _ hn)
        refine ⟨?_, fun h => ?_⟩
        · rw [hpp]
          exact (List.mem_erase_of_ne (hne n hn)).mpr this.1
        · rcases hqp n h with h | h
          · exact this.2 h
          · exact hne n hn h)
      (by rw [hpp]; exact hnd.erase a)
    refine ⟨c', ?_, (c.retargeted_edgesOnly a p q).trans hedges, fun x => ?_, fun x hx => ?_,
      fun x hx => ?_⟩
    · rw [List.foldlM_cons, retargetBranchPreTraversal_ok c ha.1 hap.1 ha.2 hap.2, ok_bind]
      exact hok
    · rw [hsucc', hsucc]
      by_cases hxa : x = a
      · simp [hxa, hal]
      · simp [hxa]
    · rw [hpred' x hx, hpred, if_neg hx]
      by_cases hxp : x = p
      · rw [if_pos hxp, if_pos hxp, if_pos hxp, hxp, hnd.erase_eq_filter, List.filter_filter]
        refine List.filter_congr fun y _ => ?_
        by_cases hya : y = a <;> by_cases hyl : y ∈ l <;> simp [hya, hyl]
      · simp [hxp]
    · rcases hq' x hx with h | h
      · exact (hqp x h).imp_right fun h => List.mem_cons.mpr (.inl h)
      · exact .inr (List.mem_cons_of_mem _ h)

/-- What merging the back edges of the header `h` does to the edges of a pool: the sources in
`l` now branch to the new block `c.size`, which branches to the header. -/
structure Merged (c : CFGStructurizer) (h : Nat) (l : List Nat) (c' : CFGStructurizer) :
    Prop where
  pool : c' = { c with node := c'.node, size := c.size + 1 }
  node : ∀ n, n ≠ c.size → c'.node n =
    { c.node n with ir := (c'.node n).ir, succ := (c'.node n).succ, pred := (c'.node n).pred }
  fresh : (c'.node c.size).succBackEdge = none ∧ (c'.node c.size).predBackEdge = none
  succ : ∀ n, (c'.node n).succ =
    if n = c.size then [h]
    else if n ∈ l then (c.node n).succ.replace h c.size else (c.node n).succ
  pred : ∀ n, n ≠ c.size → (c'.node n).pred =
    if n = h then (c.node n).pred.filter (· ∉ l) ++ [c.size] else (c.node n).pred
  fresh_pred : ∀ n ∈ (c'.node c.size).pred, n ∈ l

/-- Merging succeeds when the recorded sources are the blocks that branch to the header. -/
theorem mergeBackEdges_ok {c : CFGStructurizer} {h : Nat} {l : List Nat}
    (hl : (c.node h).fakePred = l) (htwo : 2 ≤ l.length) (hnd : l.Nodup)
    (hedge : ∀ n ∈ l, n < c.size ∧ h ∈ (c.node n).succ ∧ n ∈ (c.node h).pred)
    (hin : ∀ n, ∀ w ∈ (c.node n).succ, w < c.size) (hh : h < c.size)
    (hpnd : (c.node h).pred.Nodup) (hpin : c.size ∉ (c.node h).pred) :
    ∃ c', c.mergeBackEdges h = .ok c' ∧ Merged c h l c' := by
  have hne : h ≠ c.size := Nat.ne_of_lt hh
  have hcn : ∀ n, n ≠ c.size → c.createNode.1.node n = c.node n := fun n hn => by simp [hn]
  have hcq : c.createNode.1.node c.size = {} := by simp
  have hln : ∀ n ∈ l, n ≠ c.size := fun n hn => Nat.ne_of_lt (hedge n hn).1
  have hlq : c.size ∉ l := fun hm => hln _ hm rfl
  obtain ⟨c₁, hok, hedges, hsucc, hpred, hq⟩ := retargetAll_ok hne l hnd c.createNode.1
    (fun n hn => by
      rw [hcn n (hln n hn)]
      exact ⟨(hedge n hn).2.1, fun hm => Nat.lt_irrefl _ (hin n _ hm)⟩)
    (fun n hn => by
      rw [hcn h hne, hcq]
      exact ⟨(hedge n hn).2.2, List.not_mem_nil⟩)
    (by rw [hcn h hne]; exact hpnd)
  have hnq := hedges.node c.size
  rw [hcq] at hnq
  have hsuccq : (c₁.node c.size).succ = [] := by
    rw [hsucc, if_neg hlq, hcq]
  have hfake : h ∉ ((c₁.modify c.size (branchTo h)).node c.size).fakeSucc := by
    rw [modify_node_self, branchTo, hnq]
    exact List.not_mem_nil
  refine ⟨((c₁.modify c.size (branchTo h)).modify c.size (.mapSucc (addUnique · h))).modify h
    (.mapPred (addUnique · c.size)), ?_, ?_⟩
  · simp only [mergeBackEdges, hl, if_pos htwo, hok, ok_bind]
    exact addBranch_ok hfake
  have hp₁ : c₁ = { c with node := c₁.node, size := c.size + 1 } := hedges.pool
  have hrest : EdgesOnly c₁ (((c₁.modify c.size (branchTo h)).modify c.size
      (.mapSucc (addUnique · h))).modify h (.mapPred (addUnique · c.size))) :=
    .trans (.trans (.modify _ _ _ fun _ => rfl) (.modify _ _ _ fun _ => rfl))
      (.modify _ _ _ fun _ => rfl)
  have hall := hedges.trans hrest
  have hbranch : ∀ n, ((c₁.modify c.size (branchTo h)).node n).succ =
      if n = c.size then [h] else (c₁.node n).succ := by
    intro n
    rw [modify_node]
    split
    · simp [branchTo, hsuccq]
    · rfl
  refine ⟨?_, ?_, ?_, ?_, ?_, ?_⟩
  · rw [hp₁]
    rfl
  · intro n hn
    have hnode := hall.node n
    rwa [hcn n hn] at hnode
  · have hnode := hall.node c.size
    rw [hcq] at hnode
    rw [hnode]
    exact ⟨rfl, rfl⟩
  · intro n
    rw [modify_mapPred_succ, modify_mapSucc_succ, hbranch]
    by_cases hn : n = c.size
    · simp [hn, addUnique]
    · rw [if_neg hn, if_neg hn, if_neg hn, hsucc, hcn n hn]
  · intro n hn
    have hstep : ((c₁.modify c.size (branchTo h)).node n).pred = (c₁.node n).pred :=
      modify_field _ _ _ _ CFGNode.pred fun _ => rfl
    rw [modify_mapPred_pred, modify_mapSucc_pred, hstep, hpred n hn, hcn n hn]
    split
    · rename_i hnh
      refine if_neg fun hm => hpin ?_
      exact hnh ▸ (List.mem_filter.mp hm).1
    · rfl
  · intro n hm
    have hstep : ((c₁.modify c.size (branchTo h)).node c.size).pred = (c₁.node c.size).pred :=
      modify_field _ _ _ _ CFGNode.pred fun _ => rfl
    rw [modify_mapPred_pred, if_neg (Ne.symm hne), modify_mapSucc_pred, hstep] at hm
    have := hq n hm
    rw [hcq] at this
    exact this.resolve_left List.not_mem_nil

/-! ## The analysis as a search -/

/-- The sources of the back edges into `h`, in the order they were found. -/
def fakes (s : Dfs Nat) (h : Nat) : List Nat :=
  (s.back.filter fun e => e.2 = h).map Prod.fst

theorem mem_fakes {s : Dfs Nat} {h x : Nat} : x ∈ fakes s h ↔ (x, h) ∈ s.back := by
  simp only [fakes, List.mem_map, List.mem_filter, decide_eq_true_eq]
  constructor
  · rintro ⟨⟨a, b⟩, ⟨he, rfl⟩, rfl⟩
    exact he
  · exact fun he => ⟨(x, h), ⟨he, rfl⟩, rfl⟩

theorem nodup_fakes {s : Dfs Nat} (hs : s.back.Nodup) (h : Nat) : (fakes s h).Nodup := by
  refine (List.nodup_map_iff_inj_on (hs.filter _)).mpr ?_
  rintro ⟨a, b⟩ ha ⟨a', b'⟩ ha' rfl
  simp only [List.mem_filter, decide_eq_true_eq] at ha ha'
  rw [ha.2, ha'.2]

theorem fakes_retreat (s : Dfs Nat) (v w h : Nat) :
    fakes (s.retreat v w) h = if h = w then fakes s h ++ [v] else fakes s h := by
  simp only [fakes, Dfs.retreat, List.filter_append, List.map_append]
  by_cases hw : h = w
  · simp [hw]
  · simp [hw, Ne.symm hw]

/-- The headers that several back edges enter, in the order they were left. -/
def mergedHeaders (s : Dfs Nat) : List Nat :=
  s.post.filter fun h => 2 ≤ (fakes s h).length

theorem mem_mergedHeaders {s : Dfs Nat} {h : Nat} :
    h ∈ mergedHeaders s ↔ h ∈ s.post ∧ 2 ≤ (fakes s h).length := by
  simp [mergedHeaders]

theorem mergedHeaders_leave (s : Dfs Nat) (v : Nat) :
    mergedHeaders (s.leave v) =
      mergedHeaders s ++ if 2 ≤ (fakes s v).length then [v] else [] := by
  change (s.post ++ [v]).filter (fun h => decide (2 ≤ (fakes s h).length)) = _
  rw [List.filter_append]
  by_cases h : 2 ≤ (fakes s v).length <;> simp [h, mergedHeaders]

/-- The block that merges the back edges into `h`. -/
def mergeBlock (c : CFGStructurizer) (s : Dfs Nat) (h : Nat) : Nat :=
  c.size + (mergedHeaders s).idxOf h

/-- Where the edge from `n` to `w` goes once the headers left so far are merged. -/
def redirect (c : CFGStructurizer) (s : Dfs Nat) (n w : Nat) : Nat :=
  if (n, w) ∈ s.back ∧ w ∈ mergedHeaders s then mergeBlock c s w else w

/-- The pool `c'` is what the analysis of `c` has made of it when the search is at `s`. -/
structure Analyzed (c : CFGStructurizer) (s : Dfs Nat) (c' : CFGStructurizer) : Prop where
  size : c'.size = c.size + (mergedHeaders s).length
  entryBlock : c'.entryBlock = c.entryBlock
  visited : ∀ n < c.size, (c'.node n).visited = decide (n ∈ s.visited)
  traversing : ∀ n < c.size, (c'.node n).traversing = decide (n ∈ s.stack)
  fakePred : ∀ n < c.size, (c'.node n).fakePred = fakes s n
  backEdge : ∀ n, (c'.node n).succBackEdge = none ∧ (c'.node n).predBackEdge = none
  succ : ∀ n < c.size, (c'.node n).succ = (c.edges n).map (redirect c s n)
  pred : ∀ n < c.size, (c'.node n).pred =
    (c.predEdges n).filter (fun x => ¬ ((x, n) ∈ s.back ∧ n ∈ mergedHeaders s)) ++
      if n ∈ mergedHeaders s then [mergeBlock c s n] else []
  merge_succ : ∀ h ∈ mergedHeaders s, (c'.node (mergeBlock c s h)).succ = [h]
  merge_pred : ∀ h ∈ mergedHeaders s, ∀ x ∈ (c'.node (mergeBlock c s h)).pred, (x, h) ∈ s.back
  outside : ∀ n, c'.size ≤ n → (c'.node n).succ = []

/-- Before the search the analysis has the freshly reset pool. -/
theorem Analyzed.reset {c : CFGStructurizer} (hc : c.WellFormed) :
    Analyzed c {} c.resetTraversal := by
  have hm : mergedHeaders {} = [] := rfl
  refine ⟨rfl, rfl, fun _ _ => rfl, fun _ _ => rfl, fun _ _ => rfl, fun _ => ⟨rfl, rfl⟩, ?_, ?_,
    by simp [hm], by simp [hm], ?_⟩
  · intro n _
    have hid : redirect c {} n = id := funext fun w => if_neg fun h => by simp [hm] at h
    rw [hid, List.map_id]
    rfl
  · intro n _
    simp [hm, resetTraversal, resetNode, predEdges]
  · intro n hn
    have := hc.outside n hn
    simp [resetTraversal, resetNode, this]

variable {c c' c'' : CFGStructurizer} {s s' : Dfs Nat} {v w : Nat}

theorem mergeBlock_congr (hm : mergedHeaders s' = mergedHeaders s) (h : Nat) :
    mergeBlock c s' h = mergeBlock c s h := by
  rw [mergeBlock, mergeBlock, hm]

/-- A step that only marks blocks and merges nothing. -/
private theorem Analyzed.mark (h : Analyzed c s c') (hm : mergedHeaders s' = mergedHeaders s)
    (hb : ∀ x h, h ∈ mergedHeaders s → ((x, h) ∈ s'.back ↔ (x, h) ∈ s.back))
    (hsize : c''.size = c'.size) (hentry : c''.entryBlock = c'.entryBlock)
    (hnode : ∀ n, c''.node n = { c'.node n with
      visited := (c''.node n).visited
      traversing := (c''.node n).traversing
      fakePred := (c''.node n).fakePred })
    (hvisited : ∀ n < c.size, (c''.node n).visited = decide (n ∈ s'.visited))
    (htraversing : ∀ n < c.size, (c''.node n).traversing = decide (n ∈ s'.stack))
    (hfake : ∀ n < c.size, (c''.node n).fakePred = fakes s' n) : Analyzed c s' c'' := by
  have hsucc : ∀ n, (c''.node n).succ = (c'.node n).succ := fun n => by rw [hnode n]
  have hpred : ∀ n, (c''.node n).pred = (c'.node n).pred := fun n => by rw [hnode n]
  have hback : ∀ x h, (x, h) ∈ s'.back ∧ h ∈ mergedHeaders s ↔
      (x, h) ∈ s.back ∧ h ∈ mergedHeaders s := fun x h => and_congr_left (hb x h)
  refine ⟨?_, hentry.trans h.entryBlock, hvisited, htraversing, hfake, ?_, ?_, ?_, ?_, ?_, ?_⟩
  · rw [hsize, h.size, hm]
  · intro n
    rw [hnode n]
    exact h.backEdge n
  · intro n hn
    rw [hsucc, h.succ n hn]
    refine List.map_congr_left fun x _ => ?_
    simp only [redirect, hm, hback, mergeBlock_congr hm]
  · intro n hn
    rw [hpred, h.pred n hn]
    simp only [hm, hback, mergeBlock_congr hm]
  · intro x hx
    rw [hm] at hx
    rw [mergeBlock_congr hm, hsucc]
    exact h.merge_succ x hx
  · intro x hx y hy
    rw [hm] at hx
    rw [mergeBlock_congr hm, hpred] at hy
    exact (hb y x hx).mpr (h.merge_pred x hx y hy)
  · intro n hn
    rw [hsucc]
    exact h.outside n (hsize ▸ hn)

/-- Entering a block. -/
private theorem Analyzed.enter (h : Analyzed c s c') :
    Analyzed c (s.enter v) (c'.visitEnter v) := by
  have hnode : ∀ n, (c'.visitEnter v).node n =
      if n = v then { c'.node v with visited := true, traversing := true } else c'.node n := by
    intro n
    simp only [visitEnter, modify_node]
  refine h.mark rfl (fun _ _ _ => .rfl) rfl rfl ?_ ?_ ?_ ?_
  · intro n
    rw [hnode]
    split
    · rename_i hn
      rw [hn]
    · rfl
  · intro n hn
    rw [hnode]
    split
    · simp [Dfs.enter, *]
    · rw [h.visited n hn]
      simp [Dfs.enter, *]
  · intro n hn
    rw [hnode]
    split
    · simp [Dfs.enter, *]
    · rw [h.traversing n hn]
      simp [Dfs.enter, *]
  · intro n hn
    rw [hnode]
    split
    · rename_i hnv
      exact (h.fakePred v (hnv ▸ hn)).trans (hnv ▸ rfl)
    · exact h.fakePred n hn

/-- Recording a back edge into a block that is still being traversed. -/
private theorem Analyzed.retreat (h : Analyzed c s c') (hs : s.Tidy) (hw : w ∈ s.stack) :
    Analyzed c (s.retreat v w) (c'.modify w fun x => { x with fakePred := x.fakePred ++ [v] }) := by
  have hwp := hs.disjoint w hw
  have hne : ∀ x ∈ s.post, x ≠ w := fun x hx he => hwp (he ▸ hx)
  refine h.mark ?_ ?_ rfl rfl ?_ ?_ ?_ ?_
  · refine List.filter_congr fun x hx => ?_
    rw [fakes_retreat, if_neg (hne x hx)]
  · intro x y hy
    have hyw := hne y (mem_mergedHeaders.mp hy).1
    simp [Dfs.retreat, hyw]
  · intro n
    rw [modify_node]
    split
    · rename_i hn
      rw [hn]
    · rfl
  · intro n hn
    refine (modify_field _ _ _ _ CFGNode.visited ?_).trans (h.visited n hn)
    exact fun _ => rfl
  · intro n hn
    refine (modify_field _ _ _ _ CFGNode.traversing ?_).trans (h.traversing n hn)
    exact fun _ => rfl
  · intro n hn
    rw [modify_node, fakes_retreat]
    split
    · rename_i hnw
      rw [hnw]
      exact congrArg (· ++ [v]) (h.fakePred w (hnw ▸ hn))
    · exact h.fakePred n hn

/-- A block that fewer than two back edges enter is left as it is. -/
private theorem Analyzed.leave (h : Analyzed c s c') {t : List Nat}
    (hst : s.stack = v :: t) (hvt : v ∉ t) (hfew : ¬ 2 ≤ (fakes s v).length) :
    Analyzed c (s.leave v) (c'.modify v fun x => { x with traversing := false }) := by
  refine h.mark ?_ (fun _ _ _ => .rfl) rfl rfl ?_ ?_ ?_ ?_
  · rw [mergedHeaders_leave, if_neg hfew, List.append_nil]
  · intro n
    rw [modify_node]
    split
    · rename_i hn
      rw [hn]
    · rfl
  · intro n hn
    refine (modify_field _ _ _ _ CFGNode.visited ?_).trans (h.visited n hn)
    exact fun _ => rfl
  · intro n hn
    rw [modify_node]
    split
    · rename_i hnv
      simp [Dfs.leave, hst, hnv, hvt]
    · rename_i hnv
      rw [h.traversing n hn]
      simp [Dfs.leave, hst, hnv]
  · intro n hn
    refine (modify_field _ _ _ _ CFGNode.fakePred ?_).trans (h.fakePred n hn)
    exact fun _ => rfl

/-- Merge blocks follow the blocks that were there before. -/
theorem mergeBlock_lt {h : Nat} (hm : h ∈ mergedHeaders s) :
    c.size ≤ mergeBlock c s h ∧ mergeBlock c s h < c.size + (mergedHeaders s).length :=
  ⟨Nat.le_add_right .., Nat.add_lt_add_left (List.idxOf_lt_length_of_mem hm) _⟩

/-- Every new block merges the back edges of some header. -/
theorem exists_mergeBlock (hs : s.Tidy) {n : Nat} (hn : c.size ≤ n)
    (hlt : n < c.size + (mergedHeaders s).length) :
    ∃ h ∈ mergedHeaders s, mergeBlock c s h = n := by
  have hi : n - c.size < (mergedHeaders s).length := by omega
  refine ⟨(mergedHeaders s)[n - c.size], List.getElem_mem hi, ?_⟩
  have hnd : (mergedHeaders s).Nodup := hs.nodup.filter _
  rw [mergeBlock, hnd.idxOf_getElem]
  omega

/-- The edges of an analysed pool stay inside it. -/
theorem Analyzed.inside (h : Analyzed c s c') (hc : c.WellFormed) (hs : s.Tidy)
    (hvis : ∀ x ∈ s.visited, x < c.size) (n : Nat) :
    ∀ w ∈ (c'.node n).succ, w < c'.size := by
  intro w hw
  by_cases hn : n < c.size
  · rw [h.succ n hn] at hw
    obtain ⟨x, hx, rfl⟩ := List.mem_map.mp hw
    have := hc.inside n x hx
    rw [h.size, redirect]
    split
    · rename_i hm
      exact (mergeBlock_lt hm.2).2
    · omega
  · by_cases hn' : n < c'.size
    · obtain ⟨x, hx, rfl⟩ := exists_mergeBlock hs (Nat.le_of_not_lt hn) (h.size ▸ hn')
      rw [h.merge_succ x hx, List.mem_singleton] at hw
      have := hvis x ((hs.settled x).mpr (.inl (mem_mergedHeaders.mp hx).1))
      rw [hw, h.size]
      omega
    · rw [h.outside n (Nat.le_of_not_lt hn')] at hw
      exact absurd hw List.not_mem_nil

/-- A header that several back edges enter is merged when it is left. -/
theorem mergedHeaders_leave_of (hmany : 2 ≤ (fakes s v).length) :
    mergedHeaders (s.leave v) = mergedHeaders s ++ [v] := by
  rw [mergedHeaders_leave, if_pos hmany]

/-- The headers merged before keep their merge blocks. -/
theorem mergeBlock_leave (hmany : 2 ≤ (fakes s v).length) {h : Nat} (hm : h ∈ mergedHeaders s) :
    mergeBlock c (s.leave v) h = mergeBlock c s h := by
  rw [mergeBlock, mergedHeaders_leave_of hmany, List.idxOf_append_of_mem hm, mergeBlock]

/-- The header that is left gets the next block. -/
theorem mergeBlock_leave_self (hmany : 2 ≤ (fakes s v).length) (hvm : v ∉ mergedHeaders s) :
    mergeBlock c (s.leave v) v = c.size + (mergedHeaders s).length := by
  rw [mergeBlock, mergedHeaders_leave_of hmany, List.idxOf_append_of_notMem hvm]
  simp

/-- Only the edges into the header that is left change. -/
theorem redirect_leave_of_ne (hmany : 2 ≤ (fakes s v).length) (n : Nat) {x : Nat} (hx : x ≠ v) :
    redirect c (s.leave v) n x = redirect c s n x := by
  have hmem : x ∈ mergedHeaders (s.leave v) ↔ x ∈ mergedHeaders s := by
    simp [mergedHeaders_leave_of hmany, hx]
  simp only [redirect, hmem]
  by_cases hxm : (n, x) ∈ s.back ∧ x ∈ mergedHeaders s
  · rw [if_pos hxm, if_pos (by exact hxm), mergeBlock_leave hmany hxm.2]
  · rw [if_neg hxm, if_neg (by exact hxm)]

/-- The sources of the back edges branch to the merge block in place of the header. -/
theorem map_redirect_leave (hc : c.WellFormed) (hv : v < c.size) (hvm : v ∉ mergedHeaders s)
    (hmany : 2 ≤ (fakes s v).length) (n : Nat) :
    (c.edges n).map (redirect c (s.leave v) n) =
      if n ∈ fakes s v then
        ((c.edges n).map (redirect c s n)).replace v (c.size + (mergedHeaders s).length)
      else (c.edges n).map (redirect c s n) := by
  have hstay : redirect c s n v = v := if_neg fun hm => hvm hm.2
  split
  · rename_i hnl
    have hlead : redirect c (s.leave v) n v = c.size + (mergedHeaders s).length := by
      rw [redirect, if_pos ⟨mem_fakes.mp hnl, by simp [mergedHeaders_leave_of hmany]⟩,
        mergeBlock_leave_self hmany hvm]
    rw [replace_map (hc.nodup_edges n) hstay ?_]
    · refine List.map_congr_left fun x _ => ?_
      by_cases hxv : x = v
      · rw [if_pos hxv, hxv, hlead]
      · rw [if_neg hxv, redirect_leave_of_ne hmany n hxv]
    · intro x _ hx
      rw [redirect] at hx
      split at hx
      · rename_i hxm
        have := (mergeBlock_lt (c := c) hxm.2).1
        omega
      · exact hx
  · rename_i hnl
    refine List.map_congr_left fun x _ => ?_
    by_cases hxv : x = v
    · rw [hxv, hstay]
      exact if_neg fun hm => hnl (mem_fakes.mpr hm.1)
    · rw [redirect_leave_of_ne hmany n hxv]

/-- The predecessors of the header that is left are those that branch to it on no back edge, and
its merge block. Those of the other blocks stay. -/
theorem predEdges_leave (hmany : 2 ≤ (fakes s v).length) (hvm : v ∉ mergedHeaders s) (n : Nat) :
    ((c.predEdges n).filter fun x => ¬ ((x, n) ∈ (s.leave v).back ∧
        n ∈ mergedHeaders (s.leave v))) ++
        (if n ∈ mergedHeaders (s.leave v) then [mergeBlock c (s.leave v) n] else []) =
      if n = v then
        (c.predEdges n).filter (· ∉ fakes s v) ++ [c.size + (mergedHeaders s).length]
      else
        ((c.predEdges n).filter fun x => ¬ ((x, n) ∈ s.back ∧ n ∈ mergedHeaders s)) ++
          if n ∈ mergedHeaders s then [mergeBlock c s n] else [] := by
  have hheaders := mergedHeaders_leave_of hmany
  by_cases hnv : n = v
  · subst hnv
    rw [mergeBlock_leave_self hmany hvm]
    simp only [hheaders, List.mem_append, List.mem_singleton, or_true, and_true, if_true]
    congr 1
    refine List.filter_congr fun x _ => ?_
    simp only [mem_fakes]
    rfl
  · have hmem : n ∈ mergedHeaders (s.leave v) ↔ n ∈ mergedHeaders s := by simp [hheaders, hnv]
    rw [if_neg hnv]
    simp only [hmem]
    congr 1
    split
    · rename_i hnm
      rw [mergeBlock_leave hmany hnm]
    · rfl

/-- The pool after the marks of a block that is left have changed. -/
private theorem node_untraversed (c : CFGStructurizer) (v n : Nat) :
    (c.modify v fun x => { x with traversing := false }).node n =
      { c.node n with traversing := if n = v then false else (c.node n).traversing } := by
  rw [modify_node]
  split
  · rename_i hn
    rw [hn]
  · rfl

/-- Merging the back edges of the header that is left succeeds. -/
private theorem Analyzed.mergeBackEdges_ok (h : Analyzed c s c') (hc : c.WellFormed) (hs : s.Tidy)
    (hsnd : s.Sound c.edges) (hvis : ∀ x ∈ s.visited, x < c.size) (hv : v < c.size)
    (hvm : v ∉ mergedHeaders s) (hmany : 2 ≤ (fakes s v).length) :
    ∃ c'', (c'.modify v fun x => { x with traversing := false }).mergeBackEdges v = .ok c'' ∧
      Merged (c'.modify v fun x => { x with traversing := false }) v (fakes s v) c'' := by
  have hsize : c.size ≤ c'.size := by
    rw [h.size]
    omega
  have hnode := node_untraversed c' v
  have hpv : ((c'.modify v fun x => { x with traversing := false }).node v).pred =
      c.predEdges v := by
    rw [hnode]
    refine (h.pred v hv).trans ?_
    simp [hvm]
  refine DxilSpirv.mergeBackEdges_ok ?_ hmany (nodup_fakes hsnd.nodup v) (fun n hn => ?_)
    (fun n w hw => ?_) (Nat.lt_of_lt_of_le hv hsize) (hpv ▸ hc.nodup_predEdges v) fun hm => ?_
  · rw [hnode, ← h.fakePred v hv]
  · have he := hsnd.edge _ (mem_fakes.mp hn)
    have hlt := hvis n (hsnd.source _ (mem_fakes.mp hn))
    refine ⟨Nat.lt_of_lt_of_le hlt hsize, ?_, ?_⟩
    · rw [hnode]
      refine (h.succ n hlt).symm ▸ List.mem_map.mpr ⟨v, he, ?_⟩
      exact if_neg fun hm => hvm hm.2
    · rw [hpv]
      exact (hc.mem_predEdges n v).mpr he
  · rw [hnode] at hw
    exact h.inside hc hs hvis n w hw
  · rw [hpv, hc.mem_predEdges] at hm
    have hlt : c'.size < c.size := hc.edge_lt hm
    omega

/-- A block that several back edges enter is given a merge block. -/
private theorem Analyzed.merge (h : Analyzed c s c') (hc : c.WellFormed) (hs : s.Tidy)
    (hsnd : s.Sound c.edges) (hvis : ∀ x ∈ s.visited, x < c.size)
    {t : List Nat} (hst : s.stack = v :: t) (hvt : v ∉ t) (hmany : 2 ≤ (fakes s v).length) :
    ∃ c'', (c'.modify v fun x => { x with traversing := false }).mergeBackEdges v = .ok c'' ∧
      Analyzed c (s.leave v) c'' := by
  have hvs : v ∈ s.stack := by simp [hst]
  have hv : v < c.size := hvis v ((hs.settled v).mpr (.inr hvs))
  have hvm : v ∉ mergedHeaders s := fun hm => hs.disjoint v hvs (mem_mergedHeaders.mp hm).1
  obtain ⟨c'', hok, hm⟩ := h.mergeBackEdges_ok hc hs hsnd hvis hv hvm hmany
  refine ⟨c'', hok, ?_⟩
  have hmark := node_untraversed c' v
  generalize hc₁ : (c'.modify v fun x => { x with traversing := false }) = c₁ at hm hmark
  have hsize₁ : c₁.size = c.size + (mergedHeaders s).length :=
    (hc₁ ▸ rfl : c₁.size = c'.size).trans h.size
  have hsucc₁ : ∀ n, (c₁.node n).succ = (c'.node n).succ := fun n => by rw [hmark]
  have hpred₁ : ∀ n, (c₁.node n).pred = (c'.node n).pred := fun n => by rw [hmark]
  have hheaders := mergedHeaders_leave_of hmany
  have hne : ∀ n, n < c.size → n ≠ c₁.size := fun n hn => by omega
  have hnode : ∀ n, n < c.size → c''.node n = { c₁.node n with
      ir := (c''.node n).ir, succ := (c''.node n).succ, pred := (c''.node n).pred } :=
    fun n hn => hm.node n (hne n hn)
  have hlt : ∀ n ∈ fakes s v, n < c.size :=
    fun n hn => hvis n (hsnd.source _ (mem_fakes.mp hn))
  refine ⟨?_, ?_, fun n hn => ?_, fun n hn => ?_, fun n hn => ?_, fun n => ?_, fun n hn => ?_,
    fun n hn => ?_, fun x hx => ?_, fun x hx y hy => ?_, fun n hn => ?_⟩
  · rw [hm.pool]
    simp only [hsize₁, hheaders, List.length_append, List.length_singleton]
    omega
  · rw [hm.pool]
    exact (hc₁ ▸ rfl : c₁.entryBlock = c'.entryBlock).trans h.entryBlock
  · rw [hnode n hn, hmark]
    exact h.visited n hn
  · rw [hnode n hn, hmark]
    by_cases hnv : n = v
    · simp [Dfs.leave, hst, hnv, hvt]
    · simp [Dfs.leave, hst, hnv, h.traversing n hn]
  · rw [hnode n hn, hmark]
    exact h.fakePred n hn
  · by_cases hn : n = c₁.size
    · rw [hn]
      exact hm.fresh
    · rw [hm.node n hn, hmark]
      exact h.backEdge n
  · rw [hm.succ, if_neg (hne n hn), hsucc₁, h.succ n hn, map_redirect_leave hc hv hvm hmany,
      hsize₁]
  · rw [hm.pred n (hne n hn), predEdges_leave hmany hvm, hpred₁, h.pred n hn, hsize₁]
    split
    · rename_i hnv
      subst hnv
      simp [hvm]
    · rfl
  · rw [hheaders] at hx
    rcases List.mem_append.mp hx with hx | hx
    · have hlt' := mergeBlock_lt (c := c) hx
      rw [mergeBlock_leave hmany hx, hm.succ, if_neg (by omega), if_neg, hsucc₁,
        h.merge_succ x hx]
      exact fun hl => absurd (hlt _ hl) (by omega)
    · rw [List.mem_singleton.mp hx, mergeBlock_leave_self hmany hvm, hm.succ, if_pos hsize₁.symm]
  · rw [hheaders] at hx
    rcases List.mem_append.mp hx with hx | hx
    · have hlt' := mergeBlock_lt (c := c) hx
      rw [mergeBlock_leave hmany hx, hm.pred _ (by omega), if_neg (by omega), hpred₁] at hy
      exact h.merge_pred x hx y hy
    · rw [List.mem_singleton.mp hx] at hy ⊢
      rw [mergeBlock_leave_self hmany hvm, ← hsize₁] at hy
      exact mem_fakes.mp (hm.fresh_pred y hy)
  · have hn : c₁.size + 1 ≤ n := by
      rw [hm.pool] at hn
      exact hn
    rw [hm.succ, if_neg (by omega), if_neg, hsucc₁]
    · refine h.outside n ?_
      rw [h.size]
      omega
    · exact fun hl => absurd (hlt _ hl) (by omega)

/-- Leaving a block. -/
private theorem Analyzed.finish (h : Analyzed c s c') (hc : c.WellFormed) (hs : s.Tidy)
    (hsnd : s.Sound c.edges) (hvis : ∀ x ∈ s.visited, x < c.size)
    {t : List Nat} (hst : s.stack = v :: t) (hvt : v ∉ t) :
    ∃ c'', (c'.modify v fun x => { x with traversing := false }).mergeBackEdges v = .ok c'' ∧
      Analyzed c (s.leave v) c'' := by
  by_cases hmany : 2 ≤ (fakes s v).length
  · exact h.merge hc hs hsnd hvis hst hvt hmany
  · have hv : v < c.size := hvis v ((hs.settled v).mpr (.inr (by simp [hst])))
    have hfew : ¬ 2 ≤ ((c'.modify v fun x => { x with traversing := false }).node
        v).fakePred.length := by
      rw [modify_node_self, h.fakePred v hv]
      exact hmany
    exact ⟨_, if_neg hfew, h.leave hst hvt hmany⟩

variable (hc : c.WellFormed)

include hc in
/-- The analysis performs the search and merges the headers it leaves. -/
theorem analysis_spec (fuel : Nat) :
    ∀ (s : Dfs Nat) (v : Nat) (c' : CFGStructurizer), s.Tidy → s.Sound c.edges →
      Analyzed c s c' → (∀ x ∈ s.visited, x < c.size) → v < c.size → v ∉ s.visited →
      unvisited (Finset.range c.size) s ≤ fuel →
      ∃ c'', visitForBackEdgeAnalysis fuel c' v = .ok c'' ∧
        Analyzed c (run c.edges fuel s v) c'' ∧
        ∀ x ∈ (run c.edges fuel s v).visited, x < c.size := by
  induction fuel with
  | zero =>
    intro s v _ _ _ _ _ hv hn hfuel
    have := unvisited_enter (Finset.mem_range.mpr hv) hn
    omega
  | succ fuel ih =>
    -- the loop over the successors, by induction on the successors left
    have hloop : ∀ (v : Nat) (l : List Nat), l.Nodup → (∀ w ∈ l, w ∈ c.edges v) →
        ∀ (s : Dfs Nat) (c' : CFGStructurizer), s.Tidy → v ∈ s.visited → s.Sound c.edges →
        (∀ w ∈ l, (v, w) ∉ s.back) → Analyzed c s c' → (∀ x ∈ s.visited, x < c.size) →
        unvisited (Finset.range c.size) s ≤ fuel →
        ∃ c'', l.foldlM (analyzeSucc (visitForBackEdgeAnalysis fuel) v) c' = .ok c'' ∧
          Analyzed c (scan c.edges fuel v l s) c'' ∧
          ∀ x ∈ (scan c.edges fuel v l s).visited, x < c.size := by
      intro v l
      induction l with
      | nil => exact fun _ _ s c' _ _ _ _ h hvis _ => ⟨c', rfl, h, hvis⟩
      | cons w l ihl =>
        intro hl hsub s c' ht hv hs hn h hvis hfuel
        have hlw := List.nodup_cons.mp hl
        have hw : w ∈ c.edges v := hsub w (List.mem_cons_self ..)
        have hwlt : w < c.size := hc.inside v w hw
        have hrest := ihl hlw.2 fun x hx => hsub x (List.mem_cons_of_mem _ hx)
        rw [scan_cons]
        simp only [List.foldlM_cons, analyzeSucc, h.traversing w hwlt, h.visited w hwlt,
          decide_eq_true_eq]
        by_cases hst : w ∈ s.stack
        · rw [if_pos hst, if_pos hst, ok_bind]
          refine hrest _ _ (ht.retreat v w) hv
            (hs.retreat hv hw (hn w (List.mem_cons_self ..))) ?_ (h.retreat ht hst) hvis hfuel
          intro x hx hm
          rcases List.mem_append.mp hm with hm | hm
          · exact hn x (List.mem_cons_of_mem _ hx) hm
          · have hxw := (Prod.mk.inj (List.mem_singleton.mp hm)).2
            exact hlw.1 (hxw ▸ hx)
        · rw [if_neg hst, if_neg hst]
          by_cases hwv : w ∈ s.visited
          · rw [if_pos hwv, if_pos hwv, ok_bind]
            exact hrest s c' ht hv hs (fun x hx => hn x (List.mem_cons_of_mem _ hx)) h hvis hfuel
          · rw [if_neg hwv, if_neg hwv]
            have hk := run_keeps c.edges fuel s w ht hwv
            have hr := run_sound c.edges hc.nodup_edges fuel s w ht hwv hs
            obtain ⟨c₁, hok, h₁, hvis₁⟩ := ih s w c' ht hs h hvis hwlt hwv hfuel
            rw [hok, ok_bind]
            refine hrest _ c₁ hk.1 (hk.2.visited v hv) hr.1 ?_ h₁ hvis₁
              (Nat.le_trans (unvisited_mono _ hk.2.visited) hfuel)
            intro x hx hm
            rcases hr.2 _ hm with h | h
            · exact hn x (List.mem_cons_of_mem _ hx) h
            · exact h hv
    intro s v c' ht hs h hvis hv hn hfuel
    have hent := unvisited_enter (Finset.mem_range.mpr hv) hn
    have hnv : ∀ w ∈ c.edges v, (v, w) ∉ s.back := fun w _ hm => hn (hs.source _ hm)
    have hte := ht.enter hn
    have hve : v ∈ (s.enter v).visited := List.mem_cons_self ..
    -- no edge out of a block that is just being entered was redirected
    have hsucc : ((c'.visitEnter v).node v).succ = c.edges v := by
      rw [h.enter.succ v hv]
      refine (List.map_congr_left fun w hw => ?_).trans (List.map_id _)
      exact if_neg fun hm => hnv w hw hm.1
    obtain ⟨c₁, hok, h₁, hvis₁⟩ := hloop v (c.edges v) (hc.nodup_edges v) (fun _ h => h)
      (s.enter v) (c'.visitEnter v) hte hve (hs.enter v) hnv h.enter
      (fun x hx => by
        rcases List.mem_cons.mp hx with rfl | hx
        · exact hv
        · exact hvis x hx)
      (by omega)
    have hk := scan_keeps c.edges fuel v (c.edges v) hte
    have hst : (scan c.edges fuel v (c.edges v) (s.enter v)).stack = v :: s.stack := hk.2.stack
    have hsnd := scan_sound c.edges hc.nodup_edges fuel (hc.nodup_edges v) (fun _ h => h) hte hve
      (hs.enter v) hnv
    obtain ⟨c₂, hok₂, h₂⟩ := h₁.finish hc hk.1 hsnd hvis₁ hst
      fun hm => hn ((ht.settled v).mpr (.inr hm))
    refine ⟨c₂, ?_, h₂, hvis₁⟩
    simp only [visitForBackEdgeAnalysis, hsucc, hok, ok_bind]
    exact hok₂

include hc in
/-- `rewrite_multiple_back_edges` always finishes, with the pool its search describes. -/
theorem rewriteMultipleBackEdges_ok :
    ∃ c', c.rewriteMultipleBackEdges = .ok c' ∧ Analyzed c c.search c' := by
  have hcard : unvisited (Finset.range c.size) {} ≤ c.size :=
    Nat.le_trans (Finset.card_filter_le _ _) (Nat.le_of_eq (Finset.card_range _))
  obtain ⟨c', hok, h, -⟩ := analysis_spec hc c.size {} c.entryBlock c.resetTraversal .empty
    ⟨List.nodup_nil, by simp, by simp⟩ (.reset hc) (by simp) hc.entry_lt (by simp) hcard
  exact ⟨c', hok, h⟩

end DxilSpirv
