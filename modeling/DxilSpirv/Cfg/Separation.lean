import DxilSpirv.Cfg.BackEdges

/-!
# Separating the back edges

Once back edges into one header are merged, the traversal of `recompute_cfg` has to record
at most one back edge at each end. What is decided here is for which reducible graphs it
can, and that the edges it then leaves in the lists form no cycle.
-/

namespace DxilSpirv

open DxilSpirv.Graph Dfs CFGStructurizer

namespace CFGStructurizer

/-- `x` branches back to the header `h`, which dominates it. -/
abbrev IsBackEdge (c : CFGStructurizer) (x h : Nat) : Prop := BackEdge c.Edge c.entryBlock x h

/-- `x` is the only block that branches back to `h`. -/
def SoleBackEdge (c : CFGStructurizer) (x h : Nat) : Prop :=
  c.IsBackEdge x h ∧ ∀ y, c.IsBackEdge y h → y = x

/-- The traversal of `c` ended with `c₂`: every back edge is unique at both ends and was
moved out of the lists, and the lists are free of cycles on the reachable blocks. -/
structure Separated (c c₂ : CFGStructurizer) : Prop where
  out_unique : ∀ x h h', c.IsBackEdge x h → c.IsBackEdge x h' → h = h'
  in_unique : ∀ x x' h, c.IsBackEdge x h → c.IsBackEdge x' h → x = x'
  recorded : ∀ x h, c.IsBackEdge x h →
    (c₂.node x).succBackEdge = some h ∧ (c₂.node h).predBackEdge = some x
  removed : ∀ x h, c.IsBackEdge x h → h ∉ (c₂.node x).succ ∧ x ∉ (c₂.node h).pred
  succ_acyclic : ∀ a, ¬ Relation.TransGen
    (fun x y => x ∈ c₂.reachableNodes ∧ y ∈ (c₂.node x).succ) a a
  pred_acyclic : ∀ a, ¬ Relation.TransGen
    (fun x y => x ∈ c₂.reachableNodes ∧ y ∈ c₂.reachableNodes ∧ x ∈ (c₂.node y).pred) a a

end CFGStructurizer

variable {c c' : CFGStructurizer} (hc : c.WellFormed) (hred : Reducible c.Edge c.entryBlock)
  (h : Analyzed c c.search c')

include hc hred in
/-- In a reducible graph the search records the back edges. -/
theorem mem_search_back {x w : Nat} : (x, w) ∈ c.search.back ↔ c.IsBackEdge x w := by
  refine (search_complete hc.toClosed).mem_back_iff
    (B := fun x w => c.Edge x w ∧ Dominates c.Edge c.entryBlock w x) (fun _ _ hb => hb.2) ?_
  intro a ha hcyc
  exact hred a ha (Relation.TransGen.mono
    (fun x w hxw => ⟨hxw.1, fun hd => hxw.2 ⟨hxw.1, hd⟩⟩) _ _ hcyc)

include hc in

/-- A header whose back edges are merged is one of the blocks. -/
theorem mergedHeaders_lt {x : Nat} (hx : x ∈ mergedHeaders c.search) : x < c.size := by
  have hreach := ((search_complete hc.toClosed).mem_post x).mp (mem_mergedHeaders.mp hx).1
  rcases Relation.ReflTransGen.cases_tail hreach with hx | ⟨y, -, hy⟩
  · exact hx ▸ hc.entry_lt
  · exact hc.inside y x hy

/-- The search of a pool is tidy. -/
theorem search_tidy (c : CFGStructurizer) : c.search.Tidy :=
  (run_keeps c.edges c.size {} c.entryBlock .empty (by simp)).1

include h in

/-- An old block has its branches with the merged back edges redirected. -/
theorem edges_of_lt {n : Nat} (hn : n < c.size) :
    c'.edges n = (c.edges n).map (redirect c c.search n) := by
  simp [edges, (h.backEdge n).1, h.succ n hn]

include h in

/-- A merge block branches to its header alone. -/
theorem edges_mergeBlock {x : Nat} (hx : x ∈ mergedHeaders c.search) :
    c'.edges (mergeBlock c c.search x) = [x] := by
  simp [edges, (h.backEdge _).1, h.merge_succ x hx]

include h in
/-- An edge of the rewritten pool is an old edge that stayed, one end of a redirected edge, or
the branch out of a merge block. -/
theorem edge_cases {a b : Nat} (hab : c'.Edge a b) :
    (a < c.size ∧ c.Edge a b ∧ ¬ ((a, b) ∈ c.search.back ∧ b ∈ mergedHeaders c.search)) ∨
    (a < c.size ∧ ∃ x ∈ mergedHeaders c.search, (a, x) ∈ c.search.back ∧ c.Edge a x ∧
      b = mergeBlock c c.search x) ∨
    (b ∈ mergedHeaders c.search ∧ a = mergeBlock c c.search b) := by
  by_cases ha : a < c.size
  · rw [CFGStructurizer.Edge, edges_of_lt h ha] at hab
    obtain ⟨x, hx, rfl⟩ := List.mem_map.mp hab
    by_cases hm : (a, x) ∈ c.search.back ∧ x ∈ mergedHeaders c.search
    · exact .inr (.inl ⟨ha, x, hm.2, hm.1, hx, if_pos hm⟩)
    · rw [redirect, if_neg hm]
      exact .inl ⟨ha, hx, hm⟩
  · by_cases ha' : a < c'.size
    · obtain ⟨x, hx, rfl⟩ := exists_mergeBlock (search_tidy c) (Nat.le_of_not_lt ha)
        (h.size ▸ ha')
      rw [CFGStructurizer.Edge, edges_mergeBlock h hx, List.mem_singleton] at hab
      subst hab
      exact .inr (.inr ⟨hx, rfl⟩)
    · simp [CFGStructurizer.Edge, edges, (h.backEdge a).1,
        h.outside a (Nat.le_of_not_lt ha')] at hab

include hc h in
/-- The rewritten pool can be traversed. -/
theorem Analyzed.closed : c'.Closed := by
  have hvis : ∀ x ∈ c.search.visited, x < c.size := by
    intro x hx
    have hcomp := search_complete hc.toClosed
    rcases Relation.ReflTransGen.cases_tail
      ((hcomp.mem_post x).mp ((hcomp.visited x).mp hx)) with hx | ⟨y, -, hy⟩
    · exact hx ▸ hc.entry_lt
    · exact hc.inside y x hy
  have hsize : c.size ≤ c'.size := by
    rw [h.size]
    omega
  refine ⟨?_, ?_, ?_⟩
  · rw [h.entryBlock]
    exact Nat.lt_of_lt_of_le hc.entry_lt hsize
  · intro a b hab
    rw [CFGStructurizer.Edge, edges, (h.backEdge a).1] at hab
    exact h.inside hc (search_tidy c) hvis a b (by simpa using hab)
  · intro n
    by_cases hn : n < c.size
    · rw [edges_of_lt h hn]
      refine (List.nodup_map_iff_inj_on (hc.nodup_edges n)).mpr ?_
      intro x hx y hy hxy
      have hxlt := hc.inside n x hx
      have hylt := hc.inside n y hy
      simp only [redirect] at hxy
      split at hxy <;> split at hxy
      · rename_i hx hy
        have := Nat.add_left_cancel hxy
        exact (List.idxOf_inj hx.2).mp this
      · rename_i hx _
        have := (mergeBlock_lt (c := c) hx.2).1
        omega
      · rename_i _ hy
        have := (mergeBlock_lt (c := c) hy.2).1
        omega
      · exact hxy
    · by_cases hn' : n < c'.size
      · obtain ⟨x, hx, rfl⟩ := exists_mergeBlock (search_tidy c) (Nat.le_of_not_lt hn)
          (h.size ▸ hn')
        rw [edges_mergeBlock h hx]
        exact List.nodup_singleton x
      · simp [edges, (h.backEdge n).1, h.outside n (Nat.le_of_not_lt hn')]

include h in
/-- A walk through the old graph is followed through the merge blocks. -/
theorem reaches_rewritten {x : Nat} (hc : c.WellFormed)
    (hx : Reaches c.Edge c.entryBlock x) : Reaches c'.Edge c'.entryBlock x := by
  rw [h.entryBlock]
  induction hx with
  | refl => exact .refl
  | @tail a b _ hab ih =>
    have ha := hc.edge_lt hab
    have hedge : c'.Edge a (redirect c c.search a b) := by
      rw [CFGStructurizer.Edge, edges_of_lt h ha]
      exact List.mem_map.mpr ⟨b, hab, rfl⟩
    rw [redirect] at hedge
    split at hedge
    · rename_i hm
      refine (ih.tail hedge).tail ?_
      rw [CFGStructurizer.Edge, edges_mergeBlock h hm.2]
      exact List.mem_singleton.mpr rfl
    · exact ih.tail hedge

/-- The blocks `p` contain a walk of the old graph to `b`, or to a source of the back edges
that `b` merges. -/
def Projects (c : CFGStructurizer) (b : Nat) (p : List Nat) : Prop :=
  (b < c.size → ∃ q, Walk c.Edge c.entryBlock b q ∧ ∀ y ∈ q, y ∈ p) ∧
    ∀ x ∈ mergedHeaders c.search, b = mergeBlock c c.search x →
      ∃ a q, Walk c.Edge c.entryBlock a q ∧ (a, x) ∈ c.search.back ∧ c.Edge a x ∧
        ∀ y ∈ q, y ∈ p

include hc h in
/-- Every walk of the rewritten graph contains one of the old graph. -/
theorem walk_projects {b : Nat} {p : List Nat} (hp : Walk c'.Edge c'.entryBlock b p) :
    Projects c b p := by
  rw [h.entryBlock] at hp
  refine Walk.snoc_induction (P := Projects c) ?_ ?_ hp
  · refine ⟨fun _ => ⟨_, .single _, fun _ hy => hy⟩, ?_⟩
    intro x hx hb
    have := (mergeBlock_lt (c := c) hx).1
    have := hc.entry_lt
    omega
  · intro a b q hq ih hab
    have hsub : ∀ q' : List Nat, (∀ y ∈ q', y ∈ q) → ∀ y ∈ q', y ∈ q ++ [b] :=
      fun q' hq' y hy => List.mem_append_left _ (hq' y hy)
    have hend : ∀ q' : List Nat, (∀ y ∈ q', y ∈ q) → ∀ y ∈ q' ++ [b], y ∈ q ++ [b] := by
      intro q' hq' y hy
      rcases List.mem_append.mp hy with hy | hy
      · exact hsub q' hq' y hy
      · exact List.mem_append_right _ hy
    rcases edge_cases h hab with ⟨ha, he, -⟩ | ⟨ha, x, hx, hax, he, rfl⟩ | ⟨hb, rfl⟩
    · obtain ⟨q', hw, hs⟩ := ih.1 ha
      refine ⟨fun _ => ⟨_, hw.snoc he, hend q' hs⟩, ?_⟩
      intro x hx hbx
      have := (mergeBlock_lt (c := c) hx).1
      have := hc.inside a b he
      omega
    · obtain ⟨q', hw, hs⟩ := ih.1 ha
      have hge := (mergeBlock_lt (c := c) hx).1
      refine ⟨fun hlt => absurd hlt (Nat.not_lt.mpr hge), ?_⟩
      intro y hy hxy
      have hxy : x = y := (List.idxOf_inj hx).mp (Nat.add_left_cancel hxy)
      subst hxy
      exact ⟨a, q', hw, hax, he, hsub q' hs⟩
    · obtain ⟨a', q', hw, -, he, hs⟩ := ih.2 b hb rfl
      refine ⟨fun _ => ⟨_, hw.snoc he, hend q' hs⟩, ?_⟩
      intro x hx hbx
      have := (mergeBlock_lt (c := c) hx).1
      have := mergedHeaders_lt hc hb
      omega

/-- The edges of the rewritten pool that lead back to a header. -/
def Returns (c : CFGStructurizer) (x w : Nat) : Prop :=
  ((x, w) ∈ c.search.back ∧ w ∉ mergedHeaders c.search) ∨
    (w ∈ mergedHeaders c.search ∧ x = mergeBlock c c.search w)

include hc hred h in
/-- The header dominates what returns to it. -/
theorem Returns.dominates {x w : Nat} (hb : Returns c x w) :
    Dominates c'.Edge c'.entryBlock w x := by
  intro p hp
  have hproj := walk_projects hc h hp
  rcases hb with ⟨hb, -⟩ | ⟨hw, rfl⟩
  · have hback := (mem_search_back hc hred).mp hb
    obtain ⟨q, hq, hs⟩ := hproj.1 (hc.edge_lt hback.2.1)
    exact hs _ (hback.2.2 q hq)
  · obtain ⟨a, q, hq, hax, -, hs⟩ := hproj.2 w hw rfl
    exact hs _ (((mem_search_back hc hred).mp hax).2.2 q hq)

include hc h in
/-- Every other edge lowers the post order of the old search, merge blocks last. -/
theorem returns_or_lower {a : Nat} (ha : Reaches c'.Edge c'.entryBlock a) :
    ¬ Relation.TransGen (fun x w => c'.Edge x w ∧ ¬ Returns c x w) a a := by
  have hcomp := search_complete hc.toClosed
  refine acyclic_of_ord_on c'.entryBlock
    (fun n => if n < c.size then c.search.post.idxOf n + 1 else 0)
    (fun _ _ hxw => hxw.1) ?_ ha
  rintro x w hx ⟨hxw, hn⟩
  rcases edge_cases h hxw with ⟨hlt, he, hm⟩ | ⟨hlt, y, hy, -, -, rfl⟩ | ⟨hw, rfl⟩
  · have hreach : x ∈ c.search.post := by
      obtain ⟨p, hp⟩ := Walk.of_reaches hx
      obtain ⟨q, hq, -⟩ := (walk_projects hc h hp).1 hlt
      exact (hcomp.mem_post x).mpr hq.reaches
    have hback : (x, w) ∉ c.search.back := by
      intro hb
      by_cases hw : w ∈ mergedHeaders c.search
      · exact hm ⟨hb, hw⟩
      · exact hn (.inl ⟨hb, hw⟩)
    have := hcomp.forward x hreach w he hback
    simp only [if_pos hlt, if_pos (hc.inside x w he)]
    omega
  · have hge := (mergeBlock_lt (c := c) hy).1
    simp only [if_pos hlt, if_neg (Nat.not_lt.mpr hge)]
    omega
  · exact absurd (.inr ⟨hw, rfl⟩) hn

include hc hred h in
/-- The search of the rewritten pool records its back edges, and they return to a header. -/
theorem mem_rewritten_back {x w : Nat} :
    ((x, w) ∈ c'.search.back ↔ c'.IsBackEdge x w) ∧ ((x, w) ∈ c'.search.back → Returns c x w) := by
  have hdom : ∀ x w, Returns c x w → Dominates c'.Edge c'.entryBlock w x :=
    fun x w hb => hb.dominates hc hred h
  have hacyc := fun a ha => returns_or_lower hc h (a := a) ha
  have hcomp := search_complete (h.closed hc)
  exact ⟨hcomp.mem_back_iff hdom hacyc, hcomp.marked_of_back hdom hacyc⟩

include hc hred in
/-- A header is left unmerged exactly when at most one block branches back to it. -/
theorem soleBackEdge_iff {x w : Nat} (hb : (x, w) ∈ c.search.back) :
    c.SoleBackEdge x w ↔ w ∉ mergedHeaders c.search := by
  have hcomp := search_complete hc.toClosed
  have hnd := nodup_fakes hcomp.nodup_back w
  have hw : w ∈ c.search.post := (hcomp.retreat x w hb).2.1
  rw [mem_mergedHeaders, not_and, Nat.not_le]
  constructor
  · rintro ⟨-, hsole⟩ -
    have hall : ∀ y ∈ fakes c.search w, y = x :=
      fun y hy => hsole y ((mem_search_back hc hred).mp (mem_fakes.mp hy))
    by_contra hlen
    match hf : fakes c.search w with
    | [] => simp [hf] at hlen
    | [_] => simp [hf] at hlen
    | y :: z :: l =>
      have hy := hall y (by simp [hf])
      have hz := hall z (by simp [hf])
      rw [hf, hy, hz] at hnd
      simp at hnd
  · intro hlen
    refine ⟨(mem_search_back hc hred).mp hb, fun y hy => ?_⟩
    have hx := mem_fakes.mpr hb
    have hy := mem_fakes.mpr ((mem_search_back hc hred).mpr hy)
    have hlen := hlen hw
    match hf : fakes c.search w with
    | [] => simp [hf] at hx
    | [z] =>
      rw [hf, List.mem_singleton] at hx hy
      rw [hx, hy]
    | y :: z :: l =>
      simp only [hf, List.length_cons] at hlen
      omega

include hc hred h in
/-- Where a returning edge of the rewritten graph comes from. -/
theorem returns_cases {x w : Nat} (hb : (x, w) ∈ c'.search.back) :
    (x < c.size ∧ c.SoleBackEdge x w ∧ w ∉ mergedHeaders c.search) ∨
      (w ∈ mergedHeaders c.search ∧ x = mergeBlock c c.search w) := by
  rcases (mem_rewritten_back hc hred h).2 hb with ⟨hb', hw⟩ | hw
  · exact .inl ⟨hc.edge_lt ((mem_search_back hc hred).mp hb').2.1,
      (soleBackEdge_iff hc hred hb').mpr hw, hw⟩
  · exact .inr hw

include hc hred h in
/-- The back edges of the rewritten graph are unique at both ends exactly when no block of the
old one is the only block that branches back to two headers. -/
theorem oneBackEdge_iff : OneBackEdge c'.search.back ↔
    ∀ x w w', c.SoleBackEdge x w → c.SoleBackEdge x w' → w = w' := by
  constructor
  · intro hone x w w' hw hw'
    -- a sole back edge is not redirected
    have hstay : ∀ w, c.SoleBackEdge x w → (x, w) ∈ c'.search.back := by
      intro w hw
      have hb := (mem_search_back hc hred).mpr hw.1
      have hm := (soleBackEdge_iff hc hred hb).mp hw
      refine (mem_rewritten_back hc hred h).1.mpr ⟨reaches_rewritten h hc hw.1.1, ?_,
        Returns.dominates hc hred h (.inl ⟨hb, hm⟩)⟩
      rw [CFGStructurizer.Edge, edges_of_lt h (hc.edge_lt hw.1.2.1)]
      exact List.mem_map.mpr ⟨w, hw.1.2.1, if_neg fun h => hm h.2⟩
    exact (Prod.mk.inj (hone _ (hstay w hw) _ (hstay w' hw') (.inl rfl))).2
  · rintro hno ⟨x, w⟩ he ⟨x', w'⟩ he' heq
    rcases returns_cases hc hred h he with ⟨hx, hs, hw⟩ | ⟨hw, hx⟩ <;>
      rcases returns_cases hc hred h he' with ⟨hx', hs', hw'⟩ | ⟨hw', hx'⟩
    · rcases heq with rfl | rfl
      · rw [hno x w w' hs hs']
      · rw [hs'.2 x hs.1]
    · have hge := (mergeBlock_lt (c := c) hw').1
      rcases heq with rfl | rfl
      · omega
      · exact absurd hw' hw
    · have hge := (mergeBlock_lt (c := c) hw).1
      rcases heq with rfl | rfl
      · omega
      · exact absurd hw hw'
    · rcases heq with heq | rfl
      · have : mergeBlock c c.search w = mergeBlock c c.search w' :=
          hx.symm.trans (heq.trans hx')
        have hww := (List.idxOf_inj hw).mp (Nat.add_left_cancel this)
        rw [show x = x' from heq, hww]
      · rw [hx, hx']

include h in
/-- The rewritten pool records only real predecessors of its blocks. -/
theorem edge_of_mem_pred (hc : c.WellFormed) {x y : Nat} (hy : y < c'.size)
    (hx : x ∈ (c'.node y).pred) : c'.Edge x y := by
  by_cases hlt : y < c.size
  · rw [h.pred y hlt] at hx
    rcases List.mem_append.mp hx with hx | hx
    · obtain ⟨hm, hn⟩ := List.mem_filter.mp hx
      have he := (hc.mem_predEdges x y).mp hm
      rw [CFGStructurizer.Edge, edges_of_lt h (hc.edge_lt he)]
      exact List.mem_map.mpr ⟨y, he, if_neg (of_decide_eq_true hn)⟩
    · split at hx
      · rename_i hm
        rw [List.mem_singleton.mp hx, CFGStructurizer.Edge, edges_mergeBlock h hm]
        exact List.mem_singleton.mpr rfl
      · exact absurd hx List.not_mem_nil
  · obtain ⟨w, hw, rfl⟩ := exists_mergeBlock (search_tidy c) (Nat.le_of_not_lt hlt) (h.size ▸ hy)
    have hb := h.merge_pred w hw x hx
    have hcomp := search_complete hc.toClosed
    have he := (hcomp.retreat x w hb).2.2.1
    rw [CFGStructurizer.Edge, edges_of_lt h (hc.edge_lt he)]
    exact List.mem_map.mpr ⟨w, he, if_pos ⟨hb, hw⟩⟩

include h in

/-- No predecessor is listed twice after the merge. -/
theorem nodup_rewritten_pred (hc : c.WellFormed) {y : Nat} (hy : y < c.size) :
    (c'.node y).pred.Nodup := by
  rw [h.pred y hy]
  refine List.nodup_append.mpr ⟨(hc.nodup_predEdges y).filter _, ?_, ?_⟩
  · split
    · exact List.nodup_singleton _
    · exact List.nodup_nil
  · intro x hx z hz hxz
    split at hz
    · rename_i hm
      have hge := (mergeBlock_lt (c := c) hm).1
      have := hc.edge_lt ((hc.mem_predEdges x y).mp (List.mem_filter.mp hx).1)
      rw [List.mem_singleton] at hz
      omega
    · exact absurd hz List.not_mem_nil

include hc hred h in
/-- When the back edges are unique, the traversal separates them. -/
theorem separated_of_oneBackEdge (hone : OneBackEdge c'.search.back) :
    Separated c' (searched c'.resetTraversal c'.search) := by
  have hclosed := h.closed hc
  have hcomp := search_complete hclosed
  have hback := fun x w => (mem_rewritten_back hc hred h (x := x) (w := w)).1
  have hpost : ∀ x w, c'.IsBackEdge x w → x ∈ c'.search.post ∧ w ∈ c'.search.post := by
    intro x w hb
    have := hcomp.retreat x w ((hback x w).mpr hb)
    exact ⟨this.1, this.2.1⟩
  have hpredEq : ∀ n, (c'.resetTraversal.node n).pred = (c'.node n).pred := by
    intro n
    simp [resetTraversal, resetNode, (h.backEdge n).2]
  have hlt : ∀ y ∈ c'.search.post, y < c'.size := by
    intro y hy
    rcases Relation.ReflTransGen.cases_tail ((hcomp.mem_post y).mp hy) with hy | ⟨z, -, hz⟩
    · exact hy ▸ hclosed.entry_lt
    · exact hclosed.inside z y hz
  refine ⟨?_, ?_, ?_, ?_, ?_, ?_⟩
  · intro x w w' hb hb'
    exact (Prod.mk.inj (hone _ ((hback x w).mpr hb) _ ((hback x w').mpr hb') (.inl rfl))).2
  · intro x x' w hb hb'
    exact (Prod.mk.inj (hone _ ((hback x w).mpr hb) _ ((hback x' w).mpr hb') (.inr rfl))).1
  · intro x w hb
    have hmem := (hback x w).mpr hb
    exact ⟨(backOf_eq_some hone).mpr hmem, (backInto_eq_some hone).mpr hmem⟩
  · intro x w hb
    have hmem := (hback x w).mpr hb
    obtain ⟨hx, hw⟩ := hpost x w hb
    have hof : backOf c'.search.back x = some w := (backOf_eq_some hone).mpr hmem
    have hinto : backInto c'.search.back w = some x := (backInto_eq_some hone).mpr hmem
    have hwlt : w < c.size := by
      rcases returns_cases hc hred h hmem with ⟨-, hs, -⟩ | ⟨hw, -⟩
      · exact hc.inside x w hs.1.2.1
      · exact mergedHeaders_lt hc hw
    simp only [searched, if_pos hx, if_pos hw, hof, hinto, eraseBackEdge]
    constructor
    · exact (hclosed.nodup_edges x).not_mem_erase
    · rw [hpredEq]
      exact (nodup_rewritten_pred h hc hwlt).not_mem_erase
  · intro a
    refine acyclic_of_ord (fun n => c'.search.post.idxOf n) ?_ a
    rintro x y ⟨hx, hy⟩
    have hx : x ∈ c'.search.post := (hcomp.visited x).mp hx
    simp only [searched, if_pos hx] at hy
    refine hcomp.forward x hx y ?_ ?_
    · unfold eraseBackEdge at hy
      split at hy
      · exact List.mem_of_mem_erase hy
      · exact hy
    · intro hb
      rw [(backOf_eq_some hone).mpr hb] at hy
      exact (hclosed.nodup_edges x).not_mem_erase hy
  · intro a
    refine acyclic_of_ord (fun n => c'.search.post.idxOf n) ?_ a
    rintro x y ⟨hx, hy, hxy⟩
    have hx : x ∈ c'.search.post := (hcomp.visited x).mp hx
    have hy : y ∈ c'.search.post := (hcomp.visited y).mp hy
    simp only [searched, if_pos hy, hpredEq] at hxy
    have hmem : x ∈ (c'.node y).pred := by
      unfold eraseBackEdge at hxy
      split at hxy
      · exact List.mem_of_mem_erase hxy
      · exact hxy
    refine hcomp.forward x hx y (edge_of_mem_pred h hc (hlt y hy) hmem) fun hb => ?_
    rw [(backInto_eq_some hone).mpr hb] at hxy
    refine (nodup_rewritten_pred h hc ?_).not_mem_erase hxy
    rcases returns_cases hc hred h hb with ⟨-, hs, -⟩ | ⟨hw, -⟩
    · exact hc.inside x y hs.1.2.1
    · exact mergedHeaders_lt hc hw

include hc hred in
/-- The traversal after the rewriting asserts on, or separates, the back edges it is left with. -/
theorem visitEntry_rewritten (hok : c.rewriteMultipleBackEdges = .ok c') :
    (OneBackEdge c'.search.back ↔
      ∀ x w w', c.SoleBackEdge x w → c.SoleBackEdge x w' → w = w') ∧
    (¬ OneBackEdge c'.search.back → c'.visitEntry = .error .assertion) ∧
    (OneBackEdge c'.search.back → ∃ c₂, c'.visitEntry = .ok c₂ ∧ Separated c' c₂) := by
  obtain ⟨c₁, hok', h⟩ := rewriteMultipleBackEdges_ok hc
  rw [hok] at hok'
  obtain rfl := Except.ok.inj hok'
  have hvisit : c'.visitEntry = searchResult c'.resetTraversal c'.search :=
    visit_reset (h.closed hc)
  refine ⟨oneBackEdge_iff hc hred h, fun hn => ?_, fun hone => ?_⟩
  · rw [hvisit, searchResult_error hn]
  · exact ⟨_, hvisit.trans (searchResult_ok hone), separated_of_oneBackEdge hc hred h hone⟩

/-- On a reducible graph the rewriting lets `visit` separate all back edges exactly when no
block is the only one to branch back to each of two headers. -/
theorem rewriteMultipleBackEdges_separates_iff (c : CFGStructurizer) (hc : c.WellFormed)
    (hred : Reducible c.Edge c.entryBlock) :
    (∃ c₁ c₂, c.rewriteMultipleBackEdges = .ok c₁ ∧ c₁.visitEntry = .ok c₂ ∧ Separated c₁ c₂) ↔
      ∀ x w w', c.SoleBackEdge x w → c.SoleBackEdge x w' → w = w' := by
  constructor
  · rintro ⟨c₁, c₂, hok, hvisit, -⟩
    obtain ⟨hiff, herr, -⟩ := visitEntry_rewritten hc hred hok
    refine hiff.mp ?_
    by_contra hn
    rw [herr hn] at hvisit
    cases hvisit
  · intro hno
    obtain ⟨c₁, hok, -⟩ := rewriteMultipleBackEdges_ok hc
    obtain ⟨hiff, -, hsep⟩ := visitEntry_rewritten hc hred hok
    obtain ⟨c₂, hvisit, hs⟩ := hsep (hiff.mpr hno)
    exact ⟨c₁, c₂, hok, hvisit, hs⟩

/-- A loop that its only block and the next one branch back to. -/
def twoLatches : CFGStructurizer := ofNodes
  [{ succ := [1], ir := { terminator := { type := .branch, directBlock := some 1 } } },
    { succ := [1, 2], pred := [0, 1, 2],
      ir := { terminator := { type := .condition, trueBlock := some 1, falseBlock := some 2 } } },
    { succ := [1, 3], pred := [1],
      ir := { terminator := { type := .condition, trueBlock := some 1, falseBlock := some 3 } } },
    { pred := [2], ir := { terminator := { type := .ret } } }, {}] 0 4

/-- Nested loops that share their latch `3`, the only block to branch back to `1` and to `2`. -/
def sharedLatch : CFGStructurizer := ofNodes
  [{ succ := [1], ir := { terminator := { type := .branch, directBlock := some 1 } } },
    { succ := [2], pred := [0, 3],
      ir := { terminator := { type := .branch, directBlock := some 2 } } },
    { succ := [3], pred := [1, 3],
      ir := { terminator := { type := .branch, directBlock := some 3 } } },
    { succ := [1, 2, 4], pred := [2],
      ir := { terminator := { type := .switch, cases := [{ node := 1 }, { node := 2, value := 1 },
        { node := 4, isDefault := true }] } } },
    { pred := [3], ir := { terminator := { type := .ret } } }, {}] 0 5

/-- The loop with two latches is well-formed. -/
theorem twoLatches_wellFormed : twoLatches.WellFormed :=
  ofNodes_wellFormed rfl (by decide) (by decide) (by decide) (by decide) (by decide) (by decide)
    (by decide) (by decide)

/-- The two loops with one latch are well-formed. -/
theorem sharedLatch_wellFormed : sharedLatch.WellFormed :=
  ofNodes_wellFormed rfl (by decide) (by decide) (by decide) (by decide) (by decide) (by decide)
    (by decide) (by decide)

/-- The header of the loop with two latches dominates both. -/
private theorem twoLatches_dominates : Dominates twoLatches.Edge 0 1 2 :=
  .of_cut (S := (· = 2)) (by decide)
    (fun x y hxy => ofNodes_forall_edge (P := fun x y => y = 2 → x = 2 ∨ x = 1) (by decide) hxy) rfl

/-- The loop with two latches is reducible. -/
theorem twoLatches_reducible : Reducible twoLatches.Edge 0 := by
  refine .of_rank (fun n => 4 - n) fun x y hxy => ?_
  rcases ofNodes_forall_edge (P := fun x y => 4 - y < 4 - x ∨ y = 1 ∧ (x = 1 ∨ x = 2))
    (by decide) hxy with h | ⟨rfl, rfl | rfl⟩
  · exact .inl h
  · exact .inr (.refl _ _ _)
  · exact .inr twoLatches_dominates

/-- Several back edges into one header are merged and then separated. -/
theorem twoLatches_separates :
    ∃ c₁ c₂, twoLatches.rewriteMultipleBackEdges = .ok c₁ ∧ c₁.visitEntry = .ok c₂ ∧
      Separated c₁ c₂ := by
  refine (rewriteMultipleBackEdges_separates_iff twoLatches twoLatches_wellFormed
    twoLatches_reducible).mpr ?_
  -- nothing is branched back to but the header
  have hheader : ∀ x w, twoLatches.IsBackEdge x w → w = 1 := by
    rintro x w ⟨-, hxw, hd⟩
    rcases ofNodes_forall_edge (P := fun x w => w = 1 ∨ (x = 1 ∧ w = 2) ∨ (x = 2 ∧ w = 3))
      (by decide) hxw with h | ⟨rfl, rfl⟩ | ⟨rfl, rfl⟩
    · exact h
    · have hw : Walk twoLatches.Edge 0 1 [0, 1] := .cons (by decide) (.single 1)
      exact absurd (hd _ hw) (by decide)
    · have hw : Walk twoLatches.Edge 0 2 [0, 1, 2] :=
        .cons (by decide) (.cons (by decide) (.single 2))
      exact absurd (hd _ hw) (by decide)
  exact fun x w w' hw hw' => (hheader x w hw.1).trans (hheader x w' hw'.1).symm

/-- The outer header dominates the shared latch. -/
private theorem sharedLatch_dominates_outer : Dominates sharedLatch.Edge 0 1 3 :=
  .of_cut (S := fun n => n = 2 ∨ n = 3) (by decide) (fun x y hxy =>
    ofNodes_forall_edge (P := fun x y => y = 2 ∨ y = 3 → (x = 2 ∨ x = 3) ∨ x = 1) (by decide) hxy)
    (.inr rfl)

/-- The inner header dominates the shared latch. -/
private theorem sharedLatch_dominates_inner : Dominates sharedLatch.Edge 0 2 3 :=
  .of_cut (S := (· = 3)) (by decide) (fun x y hxy =>
    ofNodes_forall_edge (P := fun x y => y = 3 → x = 3 ∨ x = 2) (by decide) hxy) rfl

/-- The two loops with one latch are reducible. -/
theorem sharedLatch_reducible : Reducible sharedLatch.Edge 0 := by
  refine .of_rank (fun n => 5 - n) fun x y hxy => ?_
  rcases ofNodes_forall_edge (P := fun x y => 5 - y < 5 - x ∨ (y = 1 ∨ y = 2) ∧ x = 3)
    (by decide) hxy with h | ⟨rfl | rfl, rfl⟩
  · exact .inl h
  · exact .inr sharedLatch_dominates_outer
  · exact .inr sharedLatch_dominates_inner

/-- The rewriting leaves both back edges of the shared latch, and the traversal cannot record
the second one. -/
theorem sharedLatch_not_separated : sharedLatch.WellFormed ∧ Reducible sharedLatch.Edge 0 ∧
    ¬ ∃ c₁ c₂, sharedLatch.rewriteMultipleBackEdges = .ok c₁ ∧ c₁.visitEntry = .ok c₂ ∧
      Separated c₁ c₂ := by
  refine ⟨sharedLatch_wellFormed, sharedLatch_reducible, ?_⟩
  rintro ⟨c₁, c₂, hok, hvisit, -⟩
  obtain ⟨hiff, herr, -⟩ :=
    visitEntry_rewritten sharedLatch_wellFormed sharedLatch_reducible hok
  have hreach : Reaches sharedLatch.Edge 0 3 := by
    have hw : Walk sharedLatch.Edge 0 3 [0, 1, 2, 3] :=
      .cons (by decide) (.cons (by decide) (.cons (by decide) (.single 3)))
    exact hw.reaches
  have houter : sharedLatch.SoleBackEdge 3 1 := by
    refine ⟨⟨hreach, by decide, sharedLatch_dominates_outer⟩, ?_⟩
    rintro y ⟨-, hy, hd⟩
    rcases ofNodes_forall_edge (P := fun y w => w = 1 → y = 3 ∨ y = 0) (by decide) hy rfl
      with h | rfl
    · exact h
    · exact absurd (dominates_root.mp hd) (by decide)
  have hinner : sharedLatch.SoleBackEdge 3 2 := by
    refine ⟨⟨hreach, by decide, sharedLatch_dominates_inner⟩, ?_⟩
    rintro y ⟨-, hy, hd⟩
    rcases ofNodes_forall_edge (P := fun y w => w = 2 → y = 3 ∨ y = 1) (by decide) hy rfl
      with h | rfl
    · exact h
    · have hw : Walk sharedLatch.Edge 0 1 [0, 1] := .cons (by decide) (.single 1)
      exact absurd (hd _ hw) (by decide)
  have hone : OneBackEdge c₁.search.back := by
    by_contra hn
    rw [herr hn] at hvisit
    cases hvisit
  exact absurd (hiff.mp hone 3 1 2 houter hinner) (by decide)

end DxilSpirv
