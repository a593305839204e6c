import DxilSpirv.Cfg.LoopExits

/-!
# What the backwards half leaves alone

The backwards traversal and the post-dominators only write their own fields, apart from the
true branches that a transposed loop exit receives. These join blocks that the forward
traversal reached, and no edge is lost.
-/

namespace DxilSpirv

open CFGStructurizer

/-- The pool `c'` has the forward analyses of `c` and all its edges. -/
structure Grown (c c' : CFGStructurizer) : Prop where
  pool : c' = { c with
    node := c'.node
    backwardPostVisitOrder := c'.backwardPostVisitOrder }
  node : ∀ n, c'.node n = { c.node n with
    backwardPostVisitOrder := (c'.node n).backwardPostVisitOrder
    backwardVisited := (c'.node n).backwardVisited
    traversing := (c'.node n).traversing
    immediatePostDominator := (c'.node n).immediatePostDominator
    dominanceFrontier := (c'.node n).dominanceFrontier
    postDominanceFrontier := (c'.node n).postDominanceFrontier
    succ := (c'.node n).succ
    pred := (c'.node n).pred
    fakeSucc := (c'.node n).fakeSucc
    fakePred := (c'.node n).fakePred }
  succ : ∀ n, ∀ f ∈ (c.node n).succ, f ∈ (c'.node n).succ
  pred : ∀ n, ∀ p ∈ (c.node n).pred, p ∈ (c'.node n).pred

namespace Grown

variable {c c' c'' : CFGStructurizer}

/-- A pool has its own analyses and edges. -/
theorem refl (c : CFGStructurizer) : Grown c c :=
  ⟨rfl, fun _ => rfl, fun _ _ h => h, fun _ _ h => h⟩

/-- What two steps grow, both grow together. -/
theorem trans (h : Grown c c') (h' : Grown c' c'') : Grown c c'' := by
  refine ⟨?_, fun n => ?_, fun n f hf => h'.succ n f (h.succ n f hf),
    fun n p hp => h'.pred n p (h.pred n p hp)⟩
  · rw [h'.pool, h.pool]
  · rw [h'.node n, h.node n]

/-- The visit order is the same. -/
theorem order_eq (h : Grown c c') : c'.forwardPostVisitOrder = c.forwardPostVisitOrder := by
  rw [h.pool]

end Grown

/-- In the pool `c`, the continue block `n` of a loop is to branch to `f`: the loop is left through
`f` alone and for good, and a switch of the loop owns `f` as a case label. -/
structure CFGStructurizer.TransposedExit (c : CFGStructurizer) (header n f : Nat) : Prop where
  header_mem : header ∈ c.forwardPostVisitOrder
  source_mem : n ∈ c.forwardPostVisitOrder
  exit_mem : f ∈ c.forwardPostVisitOrder
  backEdge : (c.node header).predBackEdge = some n
  exits : ∀ g, c.LoopExit header n g ↔ g = f
  leaves : ∃ fuel, c.transposeLoopExit fuel header [f] = .ok true
  owned : c.ownedBySwitch header f = .ok true

/-- Between the pools `c` and `c'` the exit `f` of a loop was transposed to its continue block
`n`. -/
def Transposed (c c' : CFGStructurizer) (n f : Nat) : Prop :=
  ∃ s header, Grown c s ∧ Grown s c' ∧ s.TransposedExit header n f

/-- The pool `c'` was made from `c` by the backwards half of `recompute_cfg`. -/
structure BackwardOnly (c c' : CFGStructurizer) : Prop where
  pool : c' = { c with
    node := c'.node
    backwardPostVisitOrder := c'.backwardPostVisitOrder }
  node : ∀ n, c'.node n = { c.node n with
    backwardPostVisitOrder := (c'.node n).backwardPostVisitOrder
    backwardVisited := (c'.node n).backwardVisited
    traversing := (c'.node n).traversing
    immediatePostDominator := (c'.node n).immediatePostDominator
    succ := (c'.node n).succ
    pred := (c'.node n).pred
    fakeSucc := (c'.node n).fakeSucc
    fakePred := (c'.node n).fakePred }
  succ : ∀ n, ∀ f ∈ (c.node n).succ, f ∈ (c'.node n).succ
  pred : ∀ n, ∀ p ∈ (c.node n).pred, p ∈ (c'.node n).pred
  added : ∀ n, ∀ f ∈ (c'.node n).succ, f ∈ (c.node n).succ ∨ Transposed c c' n f

namespace BackwardOnly

variable {c c' c'' : CFGStructurizer}

/-- The backwards half of `recompute_cfg` keeps the forward analyses. -/
theorem grown (h : BackwardOnly c c') : Grown c c' := by
  refine ⟨h.pool, fun n => ?_, h.succ, h.pred⟩
  rw [h.node n]

/-- A pool that did not change was made from itself. -/
theorem refl (c : CFGStructurizer) : BackwardOnly c c :=
  ⟨rfl, fun _ => rfl, fun _ _ h => h, fun _ _ h => h, fun _ _ h => .inl h⟩

/-- The backwards half keeps the visit order. -/
theorem order_eq (h : BackwardOnly c c') : c'.forwardPostVisitOrder = c.forwardPostVisitOrder := by
  rw [h.pool]

/-- Two backwards steps make one. -/
theorem trans (h : BackwardOnly c c') (h' : BackwardOnly c' c'') : BackwardOnly c c'' := by
  refine ⟨?_, fun n => ?_, fun n f hf => h'.succ n f (h.succ n f hf),
    fun n p hp => h'.pred n p (h.pred n p hp), fun n f hf => ?_⟩
  · rw [h'.pool, h.pool]
  · rw [h'.node n, h.node n]
  · rcases h'.added n f hf with hf | ⟨s, header, hs, hs', hexit⟩
    · refine (h.added n f hf).imp_right ?_
      rintro ⟨s, header, hs, hs', hexit⟩
      exact ⟨s, header, hs, hs'.trans h'.grown, hexit⟩
    · exact .inr ⟨s, header, h.grown.trans hs, hs', hexit⟩

/-- A write to the order of the traversal. -/
theorem visitOrder (c : CFGStructurizer) (l : List Nat) :
    BackwardOnly c { c with backwardPostVisitOrder := l } :=
  ⟨rfl, fun _ => rfl, fun _ _ h => h, fun _ _ h => h, fun _ _ h => .inl h⟩

/-- A write to the backward fields of one block. -/
theorem modify (c : CFGStructurizer) (n : Nat) (f : CFGNode → CFGNode)
    (hf : ∀ x, f x = { x with
      backwardPostVisitOrder := (f x).backwardPostVisitOrder
      backwardVisited := (f x).backwardVisited
      traversing := (f x).traversing
      immediatePostDominator := (f x).immediatePostDominator
      fakeSucc := (f x).fakeSucc
      fakePred := (f x).fakePred }) : BackwardOnly c (c.modify n f) := by
  have hsucc : ∀ m, ((c.modify n f).node m).succ = (c.node m).succ :=
    fun m => modify_field c n m f CFGNode.succ fun x => by rw [hf x]
  have hpred : ∀ m, ((c.modify n f).node m).pred = (c.node m).pred :=
    fun m => modify_field c n m f CFGNode.pred fun x => by rw [hf x]
  refine ⟨rfl, fun m => ?_, fun m g hg => ?_, fun m g hg => ?_, fun m g hg => ?_⟩
  · rw [modify_node]
    split
    · rename_i h
      rw [h]
      conv_lhs => rw [hf]
      rw [hf]
    · rfl
  · rw [hsucc]
    exact hg
  · rw [hpred]
    exact hg
  · rw [hsucc] at hg
    exact .inl hg

end BackwardOnly

/-- Edges and back edges lead from reached blocks to reached blocks. -/
structure Enclosed (c : CFGStructurizer) : Prop where
  succ : ∀ a ∈ c.forwardPostVisitOrder, ∀ b ∈ (c.node a).succ, b ∈ c.forwardPostVisitOrder
  backEdge : ∀ n b, (c.node n).predBackEdge = some b → b ∈ c.forwardPostVisitOrder

/-- A pool stays enclosed through the backwards half. -/
theorem Enclosed.mono {c c' : CFGStructurizer} (he : Enclosed c) (h : BackwardOnly c c') :
    Enclosed c' := by
  refine ⟨fun a ha b hb => ?_, fun n b hb => ?_⟩
  · rw [h.order_eq] at ha ⊢
    rcases h.added a b hb with hb | ⟨s, header, hs, -, hexit⟩
    · exact he.succ a ha b hb
    · exact hs.order_eq ▸ hexit.exit_mem
  · rw [h.node n] at hb
    rw [h.order_eq]
    exact he.backEdge n b hb

variable {c c' : CFGStructurizer} {fuel n f header continueBlock : Nat}

/-- A fake branch is a backwards step. -/
theorem backwardOnly_addFakeBranch (c : CFGStructurizer) (n f : Nat) :
    BackwardOnly c (c.addFakeBranch n f) := by
  unfold addFakeBranch
  split
  · exact .refl c
  · exact .trans (.modify _ _ _ fun _ => rfl) (.modify _ _ _ fun _ => rfl)

/-- A new branch changes the lists of its ends only. -/
theorem addBranch_node (c : CFGStructurizer) (n f m : Nat) :
    ((c.modify n (.mapSucc (addUnique · f))).modify f (.mapPred (addUnique · n))).node m =
      { c.node m with
        succ := if m = n then addUnique (c.node m).succ f else (c.node m).succ
        pred := if m = f then addUnique (c.node m).pred n else (c.node m).pred } := by
  simp only [modify_node]
  rcases eq_or_ne m f with rfl | hf
  · rcases eq_or_ne m n with rfl | hn
    · simp [CFGNode.mapSucc, CFGNode.mapPred]
    · simp [CFGNode.mapPred, hn]
  · rcases eq_or_ne m n with rfl | hn
    · simp [CFGNode.mapSucc, hf]
    · simp [hf, hn]

/-- The true branch of a transposed exit. -/
theorem backwardOnly_addBranch (hexit : c.TransposedExit header n f)
    (h : c.addBranch n f = .ok c') : BackwardOnly c c' := by
  unfold addBranch at h
  obtain ⟨-, -, h⟩ := bind_eq_ok.mp h
  obtain rfl := Except.ok.inj h
  have hgrown : Grown c ((c.modify n (.mapSucc (addUnique · f))).modify f
      (.mapPred (addUnique · n))) := by
    refine ⟨rfl, fun m => ?_, fun m g hg => ?_, fun m g hg => ?_⟩
    · rw [addBranch_node]
    · rw [modify_mapPred_succ, modify_mapSucc_succ]
      split
      · exact mem_addUnique.mpr (.inl hg)
      · exact hg
    · rw [modify_mapPred_pred, modify_mapSucc_pred]
      split
      · exact mem_addUnique.mpr (.inl hg)
      · exact hg
  refine ⟨rfl, fun m => ?_, hgrown.succ, hgrown.pred, fun m g hg => ?_⟩
  · rw [addBranch_node]
  · rw [modify_mapPred_succ, modify_mapSucc_succ] at hg
    split at hg
    · rename_i hm
      rcases mem_addUnique.mp hg with hg | rfl
      · exact .inl hg
      · exact .inr ⟨c, header, .refl c, hgrown, hm ▸ hexit⟩
    · exact .inl hg

/-- The traversal from one block. -/
theorem backwardOnly_backwardsVisitBlock (fuel : Nat) :
    ∀ (c : CFGStructurizer) (n : Nat) (c' : CFGStructurizer),
      backwardsVisitBlock fuel c n = .ok c' → BackwardOnly c c' := by
  induction fuel with
  | zero => exact fun c n c' h => nomatch h
  | succ fuel ih =>
    intro c n c' h
    simp only [backwardsVisitBlock, bind_eq_ok, pure_eq_ok] at h
    obtain ⟨c₁, hloop, h⟩ := h
    obtain rfl := Except.ok.inj h
    have h₁ : BackwardOnly c c₁ := by
      refine foldlM_invariant (P := BackwardOnly c) ?_ (.modify c n _ fun _ => rfl) hloop
      intro p _ s s' hs hstep
      split at hstep
      · obtain rfl := Except.ok.inj hstep
        exact hs
      · exact hs.trans (ih s p s' hstep)
    exact (h₁.trans (.modify c₁ n (fun x =>
      { x with backwardPostVisitOrder := c₁.backwardPostVisitOrder.length }) fun _ => rfl)).trans
      (.visitOrder _ _)

/-- The backward visit of some blocks is a backwards step. -/
theorem backwardOnly_backwardsVisitBlocks {l : List Nat}
    (h : l.foldlM (backwardsVisitBlock fuel) c = .ok c') : BackwardOnly c c' :=
  foldlM_invariant (P := BackwardOnly c)
    (fun n _ s s' hs hstep => hs.trans (backwardOnly_backwardsVisitBlock fuel s n s' hstep))
    (.refl c) h

/-- The exits of the loop of a reached block are reached. -/
theorem loopExits_reached (he : Enclosed c) (hn : header ∈ c.forwardPostVisitOrder)
    {exits : List Nat} (h : c.loopExits fuel header continueBlock = .ok exits) :
    ∀ f ∈ exits, f ∈ c.forwardPostVisitOrder := by
  intro f hf
  have hpath := ((mem_loopExits h f).mp hf).1
  clear hf
  induction hpath with
  | refl => exact hn
  | tail _ hstep ih => exact he.succ _ ih _ hstep.2

/-- A loop exit is transposed only when it is the only one. -/
theorem exits_of_transposeLoopExit {exits : List Nat}
    (h : c.transposeLoopExit fuel header exits = .ok true) : ∃ f, exits = [f] := by
  unfold transposeLoopExit at h
  split at h
  · exact ⟨_, rfl⟩
  · cases h

/-- The branches to the exits of a loop: a true one is that of a transposed exit. -/
theorem backwardOnly_linkExits {exits : List Nat} (he : Enclosed c)
    (hn : header ∈ c.forwardPostVisitOrder)
    (hback : (c.node header).predBackEdge = some continueBlock)
    (hexits : c.loopExits fuel header continueBlock = .ok exits)
    (h : c.linkExits fuel header continueBlock exits = .ok c') : BackwardOnly c c' := by
  simp only [linkExits, bind_eq_ok] at h
  obtain ⟨transpose, htranspose, h⟩ := h
  split at h
  · rename_i ht
    rw [ht] at htranspose
    obtain ⟨f, rfl⟩ := exits_of_transposeLoopExit htranspose
    simp only [List.foldlM_cons, List.foldlM_nil, transposeExit, bind_eq_ok, pure_eq_ok] at h
    obtain ⟨s, ⟨owned, howned, hs⟩, h⟩ := h
    obtain rfl := Except.ok.inj h
    split at hs
    · rename_i hown
      rw [hown] at howned
      have hexit : c.TransposedExit header continueBlock f :=
        ⟨hn, he.backEdge header continueBlock hback,
          loopExits_reached he hn hexits f (List.mem_singleton_self f), hback,
          fun g => by rw [← mem_loopExits hexits, List.mem_singleton], ⟨fuel, htranspose⟩, howned⟩
      exact backwardOnly_addBranch hexit hs
    · obtain rfl := Except.ok.inj hs
      exact backwardOnly_addFakeBranch ..
  · refine foldlM_invariant (P := BackwardOnly c) ?_ (.refl c) h
    intro f hf s s' hs hstep
    simp only [linkExit, bind_eq_ok] at hstep
    obtain ⟨r, -, hstep⟩ := hstep
    split at hstep
    · obtain rfl := Except.ok.inj hstep
      exact hs.trans (backwardOnly_addFakeBranch ..)
    · obtain rfl := Except.ok.inj hstep
      exact hs

/-- The patch for one loop. -/
theorem backwardOnly_linkContinueBlock (he : Enclosed c)
    (hn : header ∈ c.forwardPostVisitOrder)
    (hback : (c.node header).predBackEdge = some continueBlock)
    (h : c.linkContinueBlock fuel header continueBlock = .ok c') : BackwardOnly c c' := by
  simp only [linkContinueBlock, bind_eq_ok, pure_eq_ok] at h
  obtain ⟨exits, hexits, c₁, h₁, h⟩ := h
  obtain rfl := Except.ok.inj h
  refine (backwardOnly_linkExits he hn hback hexits h₁).trans ?_
  unfold markLinked
  split
  · exact .modify _ _ _ fun _ => rfl
  · exact .refl _

/-- To link the continue blocks is a backwards step. -/
theorem backwardOnly_linkContinueBlocks (he : Enclosed c) {r : Bool}
    (h : c.linkContinueBlocks fuel = .ok (c', r)) : BackwardOnly c c' := by
  refine foldlM_invariant (P := fun s : CFGStructurizer × Bool => BackwardOnly c s.1) ?_
    (.refl c) h
  rintro n hn ⟨s, r⟩ ⟨s', r'⟩ hs hstep
  dsimp only at hs hstep
  split at hstep
  · rename_i b hb
    split at hstep
    · exact (Prod.mk.inj (Except.ok.inj hstep)).1 ▸ hs
    · simp only [bind_eq_ok] at hstep
      obtain ⟨s₁, h₁, hstep⟩ := hstep
      obtain rfl := (Prod.mk.inj (Except.ok.inj hstep)).1
      have hes := he.mono hs
      refine hs.trans (backwardOnly_linkContinueBlock hes ?_ hb h₁)
      rw [hs.order_eq]
      exact List.mem_reverse.mp hn
  · exact (Prod.mk.inj (Except.ok.inj hstep)).1 ▸ hs

/-- To set backward orders is a backwards step. -/
theorem backwardOnly_modifyAll (c : CFGStructurizer) (l : List Nat) (f : CFGNode → CFGNode)
    (hf : ∀ x, f x = { x with
      backwardPostVisitOrder := (f x).backwardPostVisitOrder
      backwardVisited := (f x).backwardVisited
      traversing := (f x).traversing
      immediatePostDominator := (f x).immediatePostDominator }) :
    BackwardOnly c (c.modifyAll l f) := by
  induction l generalizing c with
  | nil => exact .refl c
  | cons n l ih => exact (BackwardOnly.modify c n f fun x => by rw [hf x]).trans (ih _)

/-- To attach the leaves is a backwards step. -/
theorem backwardOnly_attachLeaves (c : CFGStructurizer) (l : List Nat) :
    BackwardOnly c (c.attachLeaves l) :=
  .trans (.modify _ _ _ fun _ => rfl) (backwardOnly_modifyAll _ _ _ fun _ => rfl)

/-- The backwards traversal. -/
theorem backwardOnly_backwardsVisit (he : Enclosed c) (h : c.backwardsVisit fuel = .ok c') :
    BackwardOnly c c' := by
  simp only [backwardsVisit, bind_eq_ok] at h
  obtain ⟨c₂, h₂, ⟨c₃, r⟩, h₃, h⟩ := h
  have hstart := backwardOnly_modifyAll c c.forwardPostVisitOrder
    (fun x => { x with backwardVisited := false, traversing := false }) fun _ => rfl
  have hvisit := hstart.trans (backwardOnly_backwardsVisitBlocks h₂)
  have hlink := hvisit.trans (backwardOnly_linkContinueBlocks (he.mono hvisit) h₃)
  split at h
  · simp only [bind_eq_ok, pure_eq_ok] at h
    obtain ⟨c₄, h₄, h⟩ := h
    obtain rfl := Except.ok.inj h
    exact (hlink.trans (.trans (backwardOnly_modifyAll _ _ _ fun _ => rfl)
      (backwardOnly_backwardsVisitBlocks h₄))).trans (backwardOnly_attachLeaves ..)
  · obtain rfl := Except.ok.inj h
    exact hlink.trans (backwardOnly_attachLeaves ..)

/-- Setting post-dominators is part of the backwards half. -/
theorem backwardOnly_frame : Frame .setImmediatePostDominator BackwardOnly where
  refl := .refl
  trans _ _ _ := .trans
  write c n _ := .modify c n _ fun _ => rfl

/-- The post-dominator pass. -/
theorem backwardOnly_buildImmediatePostDominators
    (h : c.buildImmediatePostDominators fuel = .ok c') : BackwardOnly c c' :=
  foldlM_invariant (P := BackwardOnly c)
    (fun _ _ _ _ hs hstep => hs.trans (backwardOnly_frame.recomputeImmediatePostDominator hstep))
    (.refl c) h

end DxilSpirv
