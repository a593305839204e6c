import DxilSpirv.Cfg.Frontiers
import DxilSpirv.Ssa.Form

/-!
# What a recomputation keeps

A pass that edits the graph and recomputes the analyses goes on with the graph it left: the
edges are the same, apart from the branches of dead blocks that are forgotten and the true
branches of transposed loop exits. Such a branch gives a continue block its first return.
-/

namespace DxilSpirv

open DxilSpirv.Graph Dfs CFGStructurizer

namespace CFGStructurizer

/-- A block that returns. -/
def Returns (c : CFGStructurizer) (n : Nat) : Prop := (c.node n).ir.terminator.type = .ret

instance (c : CFGStructurizer) (n : Nat) : Decidable (c.Returns n) :=
  inferInstanceAs (Decidable (_ = _))

/-- A pool whose edges are recorded at both ends as far as the entry block reaches, where the
terminators follow the edges and returning blocks have none. -/
structure Recorded (c : CFGStructurizer) : Prop extends Closed c where
  edge_lt : ∀ a b, c.Edge a b → a < c.size
  nodup_predEdges : ∀ b, (c.predEdges b).Nodup
  pred_edge : ∀ a b, a ∈ c.predEdges b → c.Edge a b
  edge_pred : ∀ a b, Reaches c.Edge c.entryBlock a → c.Edge a b → a ∈ c.predEdges b
  branches : ∀ a b, c.Branches a b → c.Edge a b
  returns : ∀ n, c.Returns n → c.edges n = [] ∧ (c.node n).predBackEdge = none

/-- A recorded pool after `recompute_cfg`: the forward order lists the reached blocks, and dead
predecessors are pruned. -/
structure Settled (c : CFGStructurizer) : Prop extends Recorded c where
  mem_order : ∀ n, n ∈ c.forwardPostVisitOrder ↔ Reaches c.Edge c.entryBlock n
  pred_reached : ∀ b ∈ c.forwardPostVisitOrder, ∀ a ∈ c.predEdges b, a ∈ c.forwardPostVisitOrder
  /-- The source of a back edge is reached from its target. -/
  backEdge : ∀ n b, (c.node n).predBackEdge = some b →
    (c.node b).succBackEdge = some n ∧ b ∈ c.forwardPostVisitOrder ∧ Reaches c.Edge n b

/-- A well formed pool is recorded when its terminators follow the edges, which is checked block by
block. -/
theorem WellFormed.recorded {c : CFGStructurizer} (hc : c.WellFormed)
    (hbranches : ∀ a < c.size, ∀ b ∈ (c.node a).ir.terminator.targets, b ∈ c.edges a)
    (hreturns : ∀ n < c.size, c.Returns n → c.edges n = [] ∧ (c.node n).predBackEdge = none) :
    c.Recorded where
  toClosed := hc.toClosed
  edge_lt a b hab := by
    by_contra ha
    rw [Edge, edges, hc.outside a (Nat.le_of_not_lt ha)] at hab
    exact List.not_mem_nil hab
  nodup_predEdges := hc.nodup_predEdges
  pred_edge a b := (hc.mem_predEdges a b).mp
  edge_pred a b _ := (hc.mem_predEdges a b).mpr
  branches a b hab := by
    by_cases ha : a < c.size
    · exact hbranches a ha b hab
    · rw [Branches, hc.outside a (Nat.le_of_not_lt ha)] at hab
      exact absurd hab List.not_mem_nil
  returns n hn := by
    by_cases hlt : n < c.size
    · exact hreturns n hlt hn
    · rw [CFGStructurizer.Returns, hc.outside n (Nat.le_of_not_lt hlt)] at hn
      cases hn

/-- Reached blocks are blocks of the pool. -/
theorem Settled.order_lt {c : CFGStructurizer} (hc : c.Settled) {n : Nat}
    (hn : n ∈ c.forwardPostVisitOrder) : n < c.size := by
  rcases Relation.ReflTransGen.cases_tail ((hc.mem_order n).mp hn) with h | ⟨y, -, hy⟩
  · exact h ▸ hc.entry_lt
  · exact hc.inside y n hy

end CFGStructurizer

/-! ## Steps that keep the edges -/

/-- The contents and the edges of all blocks are the same, and so are the reached blocks. -/
structure SameEdges (c c' : CFGStructurizer) : Prop where
  size : c'.size = c.size
  entryBlock : c'.entryBlock = c.entryBlock
  order : c'.forwardPostVisitOrder = c.forwardPostVisitOrder
  node : ∀ n, (c'.node n).ir = (c.node n).ir ∧ (c'.node n).succ = (c.node n).succ ∧
    (c'.node n).pred = (c.node n).pred ∧ (c'.node n).succBackEdge = (c.node n).succBackEdge ∧
    (c'.node n).predBackEdge = (c.node n).predBackEdge

namespace SameEdges

variable {c c' c'' : CFGStructurizer}

/-- A pool has the edges it has. -/
theorem refl (c : CFGStructurizer) : SameEdges c c :=
  ⟨rfl, rfl, rfl, fun _ => ⟨rfl, rfl, rfl, rfl, rfl⟩⟩

/-- Two steps that keep the edges keep the edges. -/
theorem trans (h : SameEdges c c') (h' : SameEdges c' c'') : SameEdges c c'' := by
  refine ⟨h'.size.trans h.size, h'.entryBlock.trans h.entryBlock, h'.order.trans h.order, ?_⟩
  intro n
  obtain ⟨ir, succ, pred, back, into⟩ := h.node n
  obtain ⟨ir', succ', pred', back', into'⟩ := h'.node n
  exact ⟨ir'.trans ir, succ'.trans succ, pred'.trans pred, back'.trans back, into'.trans into⟩

/-- A write to the other fields of one block. -/
theorem modify (c : CFGStructurizer) (n : Nat) (f : CFGNode → CFGNode)
    (hf : ∀ x, (f x).ir = x.ir ∧ (f x).succ = x.succ ∧ (f x).pred = x.pred ∧
      (f x).succBackEdge = x.succBackEdge ∧ (f x).predBackEdge = x.predBackEdge) :
    SameEdges c (c.modify n f) :=
  ⟨rfl, rfl, rfl, fun m => ⟨modify_field c n m f _ fun x => (hf x).1,
    modify_field c n m f _ fun x => (hf x).2.1, modify_field c n m f _ fun x => (hf x).2.2.1,
    modify_field c n m f _ fun x => (hf x).2.2.2.1, modify_field c n m f _ fun x => (hf x).2.2.2.2⟩⟩

/-- A write to the other fields of some blocks. -/
theorem modifyAll (c : CFGStructurizer) (l : List Nat) (f : CFGNode → CFGNode)
    (hf : ∀ x, (f x).ir = x.ir ∧ (f x).succ = x.succ ∧ (f x).pred = x.pred ∧
      (f x).succBackEdge = x.succBackEdge ∧ (f x).predBackEdge = x.predBackEdge) :
    SameEdges c (c.modifyAll l f) := by
  induction l generalizing c with
  | nil => exact .refl c
  | cons n l ih => exact (SameEdges.modify c n f hf).trans (ih _)

/-- The branches of every block, back edge included, are the same. -/
theorem edges (h : SameEdges c c') (n : Nat) : c'.edges n = c.edges n := by
  obtain ⟨_, succ, _, back, _⟩ := h.node n
  rw [CFGStructurizer.edges, CFGStructurizer.edges, succ, back]

/-- The predecessors of every block, back edge included, are the same. -/
theorem predEdges (h : SameEdges c c') (n : Nat) : c'.predEdges n = c.predEdges n := by
  obtain ⟨_, _, pred, _, into⟩ := h.node n
  rw [CFGStructurizer.predEdges, CFGStructurizer.predEdges, pred, into]

/-- The edge relation is the same. -/
theorem edge (h : SameEdges c c') : c'.Edge = c.Edge := by
  funext a b
  rw [CFGStructurizer.Edge, CFGStructurizer.Edge, h.edges]

/-- The same blocks return. -/
theorem returns (h : SameEdges c c') (n : Nat) : c'.Returns n ↔ c.Returns n := by
  rw [CFGStructurizer.Returns, CFGStructurizer.Returns, (h.node n).1]

/-- Edges that are recorded at both ends stay so. -/
theorem recorded (h : SameEdges c c') (hc : c.Recorded) : c'.Recorded := by
  constructor
  · refine ⟨?_, ?_, ?_⟩
    · rw [h.entryBlock, h.size]
      exact hc.entry_lt
    · rw [h.edge, h.size]
      exact hc.inside
    · intro n
      rw [h.edges]
      exact hc.nodup_edges n
  · rw [h.edge, h.size]
    exact hc.edge_lt
  · intro b
    rw [h.predEdges]
    exact hc.nodup_predEdges b
  · intro a b
    rw [h.predEdges, h.edge]
    exact hc.pred_edge a b
  · intro a b
    rw [h.predEdges, h.edge, h.entryBlock]
    exact hc.edge_pred a b
  · intro a b
    rw [CFGStructurizer.Branches, (h.node a).1, h.edge]
    exact hc.branches a b
  · intro n
    rw [h.returns, h.edges, (h.node n).2.2.2.2]
    exact hc.returns n

/-- A settled pool stays settled. -/
theorem settled (h : SameEdges c c') (hc : c.Settled) : c'.Settled := by
  refine ⟨h.recorded hc.toRecorded, ?_, ?_, ?_⟩
  · intro n
    rw [h.order, h.edge, h.entryBlock]
    exact hc.mem_order n
  · intro b
    rw [h.order, h.predEdges]
    exact hc.pred_reached b
  · intro n b
    rw [(h.node n).2.2.2.2, (h.node b).2.2.2.1, h.order, h.edge]
    exact hc.backEdge n b

/-- Setting dominators keeps the edges. -/
theorem forwardFrame : Frame .setImmediateDominator SameEdges where
  refl := .refl
  trans _ _ _ := .trans
  write c n _ := .modify c n _ (by exact fun _ => ⟨rfl, rfl, rfl, rfl, rfl⟩)

/-- Setting post-dominators keeps the edges. -/
theorem backwardFrame : Frame .setImmediatePostDominator SameEdges where
  refl := .refl
  trans _ _ _ := .trans
  write c n _ := .modify c n _ (by exact fun _ => ⟨rfl, rfl, rfl, rfl, rfl⟩)

/-- `build_immediate_dominators` changes no edge. -/
theorem buildImmediateDominators {fuel : Nat} (h : c.buildImmediateDominators fuel = .ok c') :
    SameEdges c c' :=
  foldlM_invariant (P := SameEdges c)
    (fun _ _ _ _ hs hstep => hs.trans (forwardFrame.recomputeImmediateDominator hstep)) (.refl c) h

/-- `build_immediate_post_dominators` changes no edge. -/
theorem buildImmediatePostDominators {fuel : Nat}
    (h : c.buildImmediatePostDominators fuel = .ok c') : SameEdges c c' :=
  foldlM_invariant (P := SameEdges c)
    (fun _ _ _ _ hs hstep => hs.trans (backwardFrame.recomputeImmediatePostDominator hstep))
    (.refl c) h

/-- `build_reachability` changes no edge. -/
theorem buildReachability (c : CFGStructurizer) : SameEdges c c.buildReachability := by
  have hfold : ∀ (l : List Nat) (s : CFGStructurizer), SameEdges c s →
      SameEdges c (l.foldl visitReachability s) := by
    intro l
    induction l with
    | nil => exact fun _ hs => hs
    | cons n l ih => exact fun s hs => ih _ ⟨hs.size, hs.entryBlock, hs.order, hs.node⟩
  exact hfold _ _ ⟨rfl, rfl, rfl, fun _ => ⟨rfl, rfl, rfl, rfl, rfl⟩⟩

/-- A pass over the frontiers keeps the edges. -/
theorem computeDominanceFrontier (h : c.computeDominanceFrontier = .ok c') : SameEdges c c' := by
  refine foldlM_invariant (P := SameEdges c) ?_
    (.modifyAll c _ _ (by exact fun _ => ⟨rfl, rfl, rfl, rfl, rfl⟩)) h
  intro n _ s s' hs hstep
  refine foldlM_invariant (P := SameEdges c) ?_ hs hstep
  intro p _ s s' hs hstep
  have hown : SameEdges c (if (s.node p).immediateDominator = some n then s
      else s.modify n fun x =>
        { x with dominanceFrontier := addUnique x.dominanceFrontier p }) := by
    split
    · exact hs
    · exact hs.trans (.modify s n _ (by exact fun _ => ⟨rfl, rfl, rfl, rfl, rfl⟩))
  dsimp only at hstep
  split at hstep
  · refine foldlM_invariant (P := SameEdges c) ?_ hown hstep
    intro f _ s s' hs hstep
    obtain ⟨r, -, hstep⟩ := bind_eq_ok.mp hstep
    split at hstep
    · obtain rfl := Except.ok.inj hstep
      exact hs
    · obtain rfl := Except.ok.inj hstep
      exact hs.trans (.modify s _ _ (by exact fun _ => ⟨rfl, rfl, rfl, rfl, rfl⟩))
  · obtain rfl := Except.ok.inj hstep
    exact hown

/-- A change of the post dominance frontiers changes no edge. -/
theorem of_postFrontierOnly (h : PostFrontierOnly c c') : SameEdges c c' := by
  refine ⟨by rw [h.pool], by rw [h.pool], by rw [h.pool], fun n => ?_⟩
  rw [h.node n]
  exact ⟨rfl, rfl, rfl, rfl, rfl⟩

/-- A fake branch is no edge. -/
theorem addFakeBranch (c : CFGStructurizer) (n f : Nat) : SameEdges c (c.addFakeBranch n f) := by
  unfold CFGStructurizer.addFakeBranch
  split
  · exact .refl c
  · exact .trans (.modify _ _ _ (by exact fun _ => ⟨rfl, rfl, rfl, rfl, rfl⟩))
      (.modify _ _ _ (by exact fun _ => ⟨rfl, rfl, rfl, rfl, rfl⟩))

/-- The backwards traversal from one block keeps the edges. -/
theorem backwardsVisitBlock (fuel : Nat) : ∀ (c : CFGStructurizer) (n : Nat) (c' : CFGStructurizer),
    CFGStructurizer.backwardsVisitBlock fuel c n = .ok c' → SameEdges c c' := by
  induction fuel with
  | zero => exact fun c n c' h => nomatch h
  | succ fuel ih =>
    intro c n c' h
    simp only [CFGStructurizer.backwardsVisitBlock, bind_eq_ok, pure_eq_ok] at h
    obtain ⟨c₁, hloop, h⟩ := h
    obtain rfl := Except.ok.inj h
    have h₁ : SameEdges c c₁ := by
      refine foldlM_invariant (P := SameEdges c) ?_
        (.modify c n _ (by exact fun _ => ⟨rfl, rfl, rfl, rfl, rfl⟩)) hloop
      intro p _ s s' hs hstep
      split at hstep
      · obtain rfl := Except.ok.inj hstep
        exact hs
      · exact hs.trans (ih s p s' hstep)
    refine h₁.trans ?_
    have hm := SameEdges.modify c₁ n
      (fun x => { x with backwardPostVisitOrder := c₁.backwardPostVisitOrder.length })
      (by exact fun _ => ⟨rfl, rfl, rfl, rfl, rfl⟩)
    exact ⟨rfl, rfl, rfl, hm.node⟩

/-- The backward visit changes no edge. -/
theorem backwardsVisitBlocks {fuel : Nat} {l : List Nat}
    (h : l.foldlM (CFGStructurizer.backwardsVisitBlock fuel) c = .ok c') : SameEdges c c' :=
  foldlM_invariant (P := SameEdges c)
    (fun n _ s s' hs hstep => hs.trans (SameEdges.backwardsVisitBlock fuel s n s' hstep))
      (.refl c) h

/-- The leaves are attached by fake branches. -/
theorem attachLeaves (c : CFGStructurizer) (l : List Nat) : SameEdges c (c.attachLeaves l) :=
  .trans (.modify _ _ _ (by exact fun _ => ⟨rfl, rfl, rfl, rfl, rfl⟩))
    (.modifyAll _ _ _ (by exact fun _ => ⟨rfl, rfl, rfl, rfl, rfl⟩))

end SameEdges

/-! ## The forward half -/

variable {o : Option Nat} {l : List Nat}

/-- Separating a back edge keeps the edges. -/
theorem mem_separated (hl : l.Nodup) (ho : ∀ m, o = some m → m ∈ l) {x : Nat} :
    x ∈ eraseBackEdge o l ++ o.toList ↔ x ∈ l := by
  rw [List.mem_append, mem_eraseBackEdge hl, Option.mem_toList]
  constructor
  · rintro (h | h)
    · exact h.1
    · exact ho x h
  · intro h
    by_cases hx : o = some x
    · exact .inr hx
    · exact .inl ⟨h, hx⟩

/-- A back edge that is set apart is listed once. -/
theorem nodup_separated (hl : l.Nodup) : (eraseBackEdge o l ++ o.toList).Nodup := by
  cases o with
  | none => simpa [eraseBackEdge] using hl
  | some m =>
    refine List.nodup_append.mpr ⟨hl.erase m, List.nodup_singleton m, ?_⟩
    rintro a ha b hb rfl
    exact hl.not_mem_erase (List.mem_singleton.mp hb ▸ ha)

section Visited

/-- The visit leaves the operations of a block as they were. -/
theorem visited_ir (c : CFGStructurizer) (n : Nat) : ((visited c).node n).ir = (c.node n).ir := by
  rw [visited_node]
  split <;> rfl

/-- After the visit the same blocks return. -/
theorem visited_returns (c : CFGStructurizer) (n : Nat) :
    (visited c).Returns n ↔ c.Returns n := by
  rw [CFGStructurizer.Returns, visited_ir, CFGStructurizer.Returns]

/-- The back edges of a visited pool are those the search found. -/
theorem visited_backEdges (c : CFGStructurizer) (n : Nat) :
    ((visited c).node n).succBackEdge = backOf c.search.back n ∧
      ((visited c).node n).predBackEdge = backInto c.search.back n := by
  rw [visited_node]
  split <;> exact ⟨rfl, rfl⟩

/-- The predecessors of a visited pool: those the search reached, without the back edge. -/
theorem visited_pred (c : CFGStructurizer) (n : Nat) : ((visited c).node n).pred =
    if n ∈ c.search.post then (eraseBackEdge (backInto c.search.back n) (c.predEdges n)).filter
      (· ∈ c.search.visited)
    else c.predEdges n := by
  rw [visited_node]
  by_cases hn : n ∈ c.search.post
  · rw [if_pos hn, if_pos hn, CFGNode.mapPred_pred]
    exact congrArg _ (if_pos hn)
  · rw [if_neg hn, if_neg hn]
    exact if_neg hn

variable {c : CFGStructurizer} (hc : c.Recorded) (hone : OneBackEdge c.search.back)

include hc

/-- A back edge of the search is an edge from a reached block that its target reaches. -/
theorem back_spec {a b : Nat} (h : (a, b) ∈ c.search.back) :
    c.Edge a b ∧ a ∈ c.search.post ∧ Reaches c.Edge b a := by
  have hcomp := search_complete hc.toClosed
  obtain ⟨ha, -, hab, -, hba⟩ := hcomp.retreat a b h
  exact ⟨hab, ha, hba.mono fun _ _ h => h.edge⟩

/-- No back edge enters or leaves a block without edges. -/
theorem not_back_of_edges {a b : Nat} (h : (a, b) ∈ c.search.back) : c.edges b ≠ [] := by
  obtain ⟨hab, -, hba⟩ := back_spec hc h
  intro hnil
  rcases Relation.ReflTransGen.cases_head hba with rfl | ⟨x, hbx, -⟩
  · rw [Edge, hnil] at hab
    exact absurd hab List.not_mem_nil
  · rw [Edge, hnil] at hbx
    exact absurd hbx List.not_mem_nil

include hone

/-- The visit moves a back edge behind the other branches. -/
theorem visited_edges (n : Nat) : (visited c).edges n =
    eraseBackEdge (backOf c.search.back n) (c.edges n) ++ (backOf c.search.back n).toList := by
  have hcomp := search_complete hc.toClosed
  rw [edges, visited_succ, (visited_backEdges c n).1]
  by_cases hn : n ∈ c.search.post
  · rw [show ((searched c.resetTraversal c.search).node n).succ =
      eraseBackEdge (backOf c.search.back n) (c.edges n) from if_pos hn]
  · have hnone : backOf c.search.back n = none := by
      by_contra hsome
      obtain ⟨m, hm⟩ := Option.ne_none_iff_exists'.mp hsome
      exact hn (hcomp.retreat n m ((backOf_eq_some hone).mp hm)).1
    rw [show ((searched c.resetTraversal c.search).node n).succ = c.edges n from if_neg hn, hnone]
    rfl

/-- The traversal keeps the edges. -/
theorem visited_edge {a b : Nat} : (visited c).Edge a b ↔ c.Edge a b := by
  rw [Edge, visited_edges hc hone, mem_separated (hc.nodup_edges a)]
  · rfl
  · exact fun m hm => (back_spec hc ((backOf_eq_some hone).mp hm)).1

/-- The traversal keeps the predecessors of dead blocks, and the reached ones of reached blocks. -/
theorem mem_visited_predEdges {a b : Nat} : a ∈ (visited c).predEdges b ↔
    a ∈ c.predEdges b ∧ (b ∈ c.search.post → a ∈ c.search.post) := by
  have hcomp := search_complete hc.toClosed
  have hmem : ∀ m, backInto c.search.back b = some m → m ∈ c.predEdges b ∧ m ∈ c.search.post := by
    intro m hm
    obtain ⟨hmb, hpost, -⟩ := back_spec hc ((backInto_eq_some hone).mp hm)
    exact ⟨hc.edge_pred m b ((hcomp.mem_post m).mp hpost) hmb, hpost⟩
  rw [predEdges, visited_pred, (visited_backEdges c b).2]
  by_cases hb : b ∈ c.search.post
  · rw [if_pos hb, List.mem_append, List.mem_filter, mem_eraseBackEdge (hc.nodup_predEdges b),
      decide_eq_true_eq, hcomp.visited, Option.mem_toList]
    constructor
    · rintro (⟨⟨h, -⟩, hpost⟩ | h)
      · exact ⟨h, fun _ => hpost⟩
      · exact ⟨(hmem a h).1, fun _ => (hmem a h).2⟩
    · rintro ⟨h, hpost⟩
      by_cases ha : backInto c.search.back b = some a
      · exact .inr ha
      · exact .inl ⟨⟨h, ha⟩, hpost hb⟩
  · have hnone : backInto c.search.back b = none := by
      by_contra hsome
      obtain ⟨m, hm⟩ := Option.ne_none_iff_exists'.mp hsome
      exact hb (hcomp.retreat m b ((backInto_eq_some hone).mp hm)).2.1
    rw [if_neg hb, hnone]
    simp [hb]

/-- No predecessor of a visited pool is listed twice. -/
theorem nodup_visited_predEdges (b : Nat) : ((visited c).predEdges b).Nodup := by
  have hsep := nodup_separated (o := backInto c.search.back b) (hc.nodup_predEdges b)
  rw [predEdges, visited_pred, (visited_backEdges c b).2]
  by_cases hb : b ∈ c.search.post
  · rw [if_pos hb]
    exact hsep.sublist (List.filter_sublist.append_right _)
  · have hnone : backInto c.search.back b = none := by
      by_contra hsome
      obtain ⟨m, hm⟩ := Option.ne_none_iff_exists'.mp hsome
      exact hb ((search_complete hc.toClosed).retreat m b ((backInto_eq_some hone).mp hm)).2.1
    rw [if_neg hb, hnone]
    simpa using hc.nodup_predEdges b

/-- A returning block is not touched by back edges. -/
theorem visited_returning {n : Nat} (hn : c.Returns n) :
    backOf c.search.back n = none ∧ backInto c.search.back n = none := by
  have hnil := (hc.returns n hn).1
  constructor
  · by_contra hsome
    obtain ⟨m, hm⟩ := Option.ne_none_iff_exists'.mp hsome
    have hedge := (back_spec hc ((backOf_eq_some hone).mp hm)).1
    rw [Edge, hnil] at hedge
    exact List.not_mem_nil hedge
  · by_contra hsome
    obtain ⟨m, hm⟩ := Option.ne_none_iff_exists'.mp hsome
    exact not_back_of_edges hc ((backInto_eq_some hone).mp hm) hnil

/-- A returning block loses its dead predecessors at most. -/
theorem visited_pred_returning {n : Nat} (hn : c.Returns n) :
    ((visited c).node n).pred.length ≤ (c.node n).pred.length := by
  have hpreds : c.predEdges n = (c.node n).pred := by
    rw [predEdges, (hc.returns n hn).2]
    exact List.append_nil _
  rw [visited_pred, (visited_returning hc hone hn).2, hpreds]
  split
  · exact List.length_filter_le ..
  · exact Nat.le_refl _

/-- The traversal of a recorded pool leaves a settled one. -/
theorem visited_settled : (visited c).Settled := by
  have hcomp := search_complete hc.toClosed
  have hedge : (visited c).Edge = c.Edge := funext fun a => funext fun b =>
    propext (visited_edge hc hone)
  refine ⟨⟨⟨?_, ?_, ?_⟩, ?_, ?_, ?_, ?_, ?_, ?_⟩, ?_, ?_, ?_⟩
  · rw [visited_entryBlock, visited_size]
    exact hc.entry_lt
  · rw [hedge, visited_size]
    exact hc.inside
  · intro n
    rw [visited_edges hc hone]
    exact nodup_separated (hc.nodup_edges n)
  · rw [hedge, visited_size]
    exact hc.edge_lt
  · exact nodup_visited_predEdges hc hone
  · intro a b h
    rw [hedge]
    exact hc.pred_edge a b ((mem_visited_predEdges hc hone).mp h).1
  · intro a b ha hab
    rw [hedge, visited_entryBlock] at ha
    rw [hedge] at hab
    exact (mem_visited_predEdges hc hone).mpr
      ⟨hc.edge_pred a b ha hab, fun _ => (hcomp.mem_post a).mpr ha⟩
  · intro a b h
    rw [hedge]
    rw [Branches, visited_ir] at h
    exact hc.branches a b h
  · intro n hn
    rw [visited_returns] at hn
    obtain ⟨hof, hinto⟩ := visited_returning hc hone hn
    rw [visited_edges hc hone, hof, (hc.returns n hn).1, (visited_backEdges c n).2]
    exact ⟨rfl, hinto⟩
  · intro n
    rw [visited_order, hedge, visited_entryBlock]
    exact hcomp.mem_post n
  · intro b hb a ha
    rw [visited_order] at hb ⊢
    exact ((mem_visited_predEdges hc hone).mp ha).2 hb
  · intro n b h
    rw [(visited_backEdges c n).2, backInto_eq_some hone] at h
    obtain ⟨-, hpost, hreach⟩ := back_spec hc h
    rw [(visited_backEdges c b).1, visited_order, hedge]
    exact ⟨(backOf_eq_some hone).mpr h, hpost, hreach⟩

end Visited

end DxilSpirv
