import DxilSpirv.Ssa.Settled

/-!
# True branches of transposed loop exits

The backwards traversal gives the continue block of an infinite loop a true branch to the exit of
the loop. The graph stays settled, and the continue block, which was not visited from any leaf, had
no branch to a returning block before.
-/

namespace DxilSpirv

open DxilSpirv.Graph Dfs CFGStructurizer

variable {c c' : CFGStructurizer} {fuel header continueBlock : Nat}

/-! ## The exits of a loop -/

/-- The header of a loop is in the loop, once it reaches the continue block. -/
theorem header_inLoop (hc : c.Settled) {b : Nat} (hheader : header ∈ c.forwardPostVisitOrder)
    (hb : Reaches c.Edge header b) : c.InLoop header b header := by
  have hreach := (hc.mem_order header).mp hheader
  -- a path from the header, followed backwards until it first returns to the header
  have hback : ∀ x, Reaches c.Edge header x → c.InLoop header b x → c.InLoop header b header := by
    intro x hx hloop
    induction hx with
    | refl => exact hloop
    | tail hab hbx ih =>
      rename_i a x
      by_cases hxh : x = header
      · exact hxh ▸ hloop
      · exact ih (hloop.tail ⟨hxh, hc.edge_pred a x (hreach.trans hab) hbx⟩)
  exact hback b hb .refl

/-- The header of a loop is no exit of the loop. -/
theorem loopExits_ne_header (hc : c.Settled) (hheader : header ∈ c.forwardPostVisitOrder)
    (hb : (c.node header).predBackEdge = some continueBlock) {exits : List Nat}
    (h : c.loopExits fuel header continueBlock = .ok exits) : ∀ f ∈ exits, f ≠ header := by
  rintro f hf rfl
  exact ((mem_loopExits h f).mp hf).2
    (header_inLoop hc hheader (hc.backEdge f continueBlock hb).2.2)

/-! ## One true branch -/

@[simp] theorem CFGStructurizer.modify_mapSucc_succBackEdge (c : CFGStructurizer) (n m : Nat)
    (g : List Nat → List Nat) :
    ((c.modify n (.mapSucc g)).node m).succBackEdge = (c.node m).succBackEdge :=
  modify_field c n m _ _ fun _ => rfl

@[simp] theorem CFGStructurizer.modify_mapPred_succBackEdge (c : CFGStructurizer) (n m : Nat)
    (g : List Nat → List Nat) :
    ((c.modify n (.mapPred g)).node m).succBackEdge = (c.node m).succBackEdge :=
  modify_field c n m _ _ fun _ => rfl

/-- A branch that is not the back edge is added without a duplicate. -/
theorem nodup_addUnique_append {l : List Nat} {o : Option Nat} {n : Nat} (h : (l ++ o.toList).Nodup)
    (hn : o ≠ some n) : (addUnique l n ++ o.toList).Nodup := by
  obtain ⟨hl, ho, hdisj⟩ := List.nodup_append.mp h
  refine List.nodup_append.mpr ⟨nodup_addUnique hl n, ho, ?_⟩
  rintro a ha b hb rfl
  rcases mem_addUnique.mp ha with ha | rfl
  · exact hdisj a ha a hb rfl
  · exact hn (Option.mem_toList.mp hb)

/-- An edge was added from a reached block to another one that it had no edge to. -/
structure AddedEdge (c : CFGStructurizer) (n f : Nat) (c' : CFGStructurizer) : Prop where
  size : c'.size = c.size
  entryBlock : c'.entryBlock = c.entryBlock
  order : c'.forwardPostVisitOrder = c.forwardPostVisitOrder
  ir : ∀ x, (c'.node x).ir = (c.node x).ir
  backEdges : ∀ x, (c'.node x).succBackEdge = (c.node x).succBackEdge ∧
    (c'.node x).predBackEdge = (c.node x).predBackEdge
  succ : ∀ x, (c'.node x).succ = if x = n then addUnique (c.node x).succ f else (c.node x).succ
  pred : ∀ x, (c'.node x).pred = if x = f then addUnique (c.node x).pred n else (c.node x).pred

/-- `add_branch` adds one edge. -/
theorem addedEdge_of_addBranch {n f : Nat} (h : c.addBranch n f = .ok c') : AddedEdge c n f c' := by
  unfold addBranch at h
  obtain ⟨-, -, h⟩ := bind_eq_ok.mp h
  obtain rfl := Except.ok.inj h
  refine ⟨rfl, rfl, rfl, ?_, ?_, ?_, ?_⟩
  · intro x
    rw [modify_mapPred_ir, modify_mapSucc_ir]
  · intro x
    constructor
    · rw [modify_mapPred_succBackEdge, modify_mapSucc_succBackEdge]
    · rw [modify_mapPred_predBackEdge, modify_mapSucc_predBackEdge]
  · intro x
    rw [modify_mapPred_succ, modify_mapSucc_succ]
  · intro x
    rw [modify_mapPred_pred, modify_mapSucc_pred]

namespace AddedEdge

variable {n f : Nat} (h : AddedEdge c n f c')

include h

/-- The edges after one is added. -/
theorem edge {a b : Nat} : c'.Edge a b ↔ c.Edge a b ∨ a = n ∧ b = f := by
  rw [Edge, edges, h.succ, (h.backEdges a).1, Edge, edges]
  by_cases ha : a = n
  · rw [if_pos ha, List.mem_append, List.mem_append, mem_addUnique]
    tauto
  · rw [if_neg ha]
    tauto

/-- The recorded predecessors after an edge is added. -/
theorem predEdge {a b : Nat} : a ∈ c'.predEdges b ↔ a ∈ c.predEdges b ∨ a = n ∧ b = f := by
  rw [predEdges, h.pred, (h.backEdges b).2, predEdges]
  by_cases hb : b = f
  · rw [if_pos hb, List.mem_append, List.mem_append, mem_addUnique]
    tauto
  · rw [if_neg hb]
    tauto

/-- An added edge changes no terminator. -/
theorem returns (x : Nat) : c'.Returns x ↔ c.Returns x := by
  rw [CFGStructurizer.Returns, h.ir, CFGStructurizer.Returns]

/-- A settled pool stays settled, unless the new edge repeats a back edge. -/
theorem settled (hc : c.Settled) (hn : n ∈ c.forwardPostVisitOrder)
    (hf : f ∈ c.forwardPostVisitOrder) (hreturns : ¬ c.Returns n)
    (hne : (c.node n).succBackEdge ≠ some f) (hne' : (c.node f).predBackEdge ≠ some n) :
    c'.Settled := by
  have hedge := fun a b => h.edge (a := a) (b := b)
  have hpred := fun a b => h.predEdge (a := a) (b := b)
  have hmono : ∀ a b, Reaches c.Edge a b → Reaches c'.Edge a b := fun a b hab =>
    hab.mono fun x y hxy => (hedge x y).mpr (.inl hxy)
  have hreach : ∀ x, Reaches c'.Edge c.entryBlock x ↔ Reaches c.Edge c.entryBlock x := by
    intro x
    refine ⟨fun hx => ?_, hmono _ x⟩
    induction hx with
    | refl => exact .refl
    | tail _ hab ih =>
      rcases (hedge _ _).mp hab with hab | ⟨-, rfl⟩
      · exact ih.tail hab
      · exact (hc.mem_order _).mp hf
  refine ⟨⟨⟨?_, ?_, ?_⟩, ?_, ?_, ?_, ?_, ?_, ?_⟩, ?_, ?_, ?_⟩
  · rw [h.entryBlock, h.size]
    exact hc.entry_lt
  · intro a b hab
    rw [h.size]
    rcases (hedge a b).mp hab with hab | ⟨-, rfl⟩
    · exact hc.inside a b hab
    · exact hc.order_lt hf
  · intro x
    rw [edges, h.succ, (h.backEdges x).1]
    by_cases hx : x = n
    · subst hx
      rw [if_pos rfl]
      exact nodup_addUnique_append (hc.nodup_edges x) hne
    · rw [if_neg hx]
      exact hc.nodup_edges x
  · intro a b hab
    rw [h.size]
    rcases (hedge a b).mp hab with hab | ⟨rfl, -⟩
    · exact hc.edge_lt a b hab
    · exact hc.order_lt hn
  · intro x
    rw [predEdges, h.pred, (h.backEdges x).2]
    by_cases hx : x = f
    · subst hx
      rw [if_pos rfl]
      exact nodup_addUnique_append (hc.nodup_predEdges x) hne'
    · rw [if_neg hx]
      exact hc.nodup_predEdges x
  · intro a b hab
    rw [hpred] at hab
    exact (hedge a b).mpr (hab.imp_left (hc.pred_edge a b))
  · intro a b ha hab
    rw [h.entryBlock, hreach] at ha
    exact (hpred a b).mpr (((hedge a b).mp hab).imp_left (hc.edge_pred a b ha))
  · intro a b hab
    rw [Branches, h.ir] at hab
    exact (hedge a b).mpr (.inl (hc.branches a b hab))
  · intro x hx
    rw [h.returns] at hx
    obtain ⟨hnil, hback⟩ := hc.returns x hx
    have hxn : x ≠ n := fun he => hreturns (he ▸ hx)
    rw [edges, h.succ, if_neg hxn, (h.backEdges x).1, (h.backEdges x).2]
    exact ⟨hnil, hback⟩
  · intro x
    rw [h.order, h.entryBlock, hreach]
    exact hc.mem_order x
  · intro b hb a ha
    rw [h.order] at hb ⊢
    rcases (hpred a b).mp ha with ha | ⟨rfl, -⟩
    · exact hc.pred_reached b hb a ha
    · exact hn
  · intro x b hb
    rw [(h.backEdges x).2] at hb
    rw [(h.backEdges b).1, h.order]
    obtain ⟨hsucc, hmem, hxb⟩ := hc.backEdge x b hb
    exact ⟨hsucc, hmem, hmono x b hxb⟩

end AddedEdge

/-! ## The traversal from the leaves -/

/-- Visited blocks stay visited. -/
def Marks (c c' : CFGStructurizer) : Prop :=
  ∀ n, (c.node n).backwardVisited = true → (c'.node n).backwardVisited = true

/-- A pool keeps its marks. -/
theorem Marks.refl (c : CFGStructurizer) : Marks c c := fun _ h => h

/-- Marks that two steps keep, both together keep. -/
theorem Marks.trans {c₁ c₂ c₃ : CFGStructurizer} (h : Marks c₁ c₂) (h' : Marks c₂ c₃) :
    Marks c₁ c₃ :=
  fun n hn => h' n (h n hn)

/-- A write that does not clear the mark of a block. -/
theorem Marks.modify (c : CFGStructurizer) (n : Nat) (f : CFGNode → CFGNode)
    (hf : ∀ x, x.backwardVisited = true → (f x).backwardVisited = true) :
    Marks c (c.modify n f) := by
  intro m hm
  rw [modify_node]
  split
  · rename_i h
    exact hf _ (h ▸ hm)
  · exact hm

/-- The traversal from a block marks the block and its predecessors. -/
theorem backwardsVisitBlock_marks (fuel : Nat) : ∀ (c : CFGStructurizer) (n : Nat)
    (c' : CFGStructurizer), backwardsVisitBlock fuel c n = .ok c' →
      Marks c c' ∧ (c'.node n).backwardVisited = true ∧
        ∀ p ∈ (c.node n).pred, (c'.node p).backwardVisited = true := by
  induction fuel with
  | zero => exact fun c n c' h => nomatch h
  | succ fuel ih =>
    intro c n c' h
    simp only [backwardsVisitBlock, bind_eq_ok, pure_eq_ok] at h
    obtain ⟨c₁, hloop, h⟩ := h
    obtain rfl := Except.ok.inj h
    have hstep : ∀ p s s', (if (s.node p).backwardVisited then Except.ok s
        else backwardsVisitBlock fuel s p) = .ok s' →
        Marks s s' ∧ (s'.node p).backwardVisited = true := by
      intro p s s' h
      split at h
      · rename_i hp
        obtain rfl := Except.ok.inj h
        exact ⟨.refl s, hp⟩
      · exact ⟨(ih s p s' h).1, (ih s p s' h).2.1⟩
    have hfold : ∀ (l : List Nat) (s s' : CFGStructurizer),
        l.foldlM (fun s p => if (s.node p).backwardVisited then Except.ok s
          else backwardsVisitBlock fuel s p) s = .ok s' →
        Marks s s' ∧ ∀ p ∈ l, (s'.node p).backwardVisited = true := by
      intro l
      induction l with
      | nil =>
        intro s s' h
        obtain rfl := Except.ok.inj h
        exact ⟨.refl s, by simp⟩
      | cons p l ihl =>
        intro s s' h
        rw [List.foldlM_cons, bind_eq_ok] at h
        obtain ⟨t, ht, h⟩ := h
        obtain ⟨hm, hp⟩ := hstep p s t ht
        obtain ⟨hm', hl⟩ := ihl t s' h
        exact ⟨hm.trans hm', List.forall_mem_cons.mpr ⟨hm' p hp, hl⟩⟩
    obtain ⟨hmarks, hpreds⟩ := hfold _ _ _ hloop
    have hstart : Marks c (c.modify n (.setBackwardVisited true)) := .modify c n _ fun _ _ => rfl
    have hlast : Marks c₁ (c₁.modify n fun x =>
        { x with backwardPostVisitOrder := c₁.backwardPostVisitOrder.length }) :=
      .modify c₁ n _ fun _ h => h
    refine ⟨(hstart.trans hmarks).trans hlast, ?_, fun p hp => hlast p (hpreds p ?_)⟩
    · refine hlast n (hmarks n ?_)
      rw [modify_node_self]
      rfl
    · refine List.mem_append_left _ ?_
      rwa [modify_node_self]

/-- The traversal from all leaves marks the predecessors of the leaves. -/
theorem backwardsVisitBlocks_marks {l : List Nat} :
    ∀ {c : CFGStructurizer}, l.foldlM (backwardsVisitBlock fuel) c = .ok c' →
      Marks c c' ∧ ∀ n ∈ l, ∀ p ∈ (c.node n).pred, (c'.node p).backwardVisited = true := by
  induction l with
  | nil =>
    intro c h
    obtain rfl := Except.ok.inj h
    exact ⟨.refl c, by simp⟩
  | cons n l ih =>
    intro c h
    rw [List.foldlM_cons, bind_eq_ok] at h
    obtain ⟨t, ht, h⟩ := h
    obtain ⟨hm, -, hpreds⟩ := backwardsVisitBlock_marks fuel c n t ht
    obtain ⟨hm', hrest⟩ := ih h
    refine ⟨hm.trans hm', List.forall_mem_cons.mpr ⟨fun p hp => hm' p (hpreds p hp), ?_⟩⟩
    intro m hmem p hp
    refine hrest m hmem p ?_
    rwa [((SameEdges.backwardsVisitBlock fuel c n t ht).node m).2.2.1]

/-! ## All true branches -/

/-- Whether a block has an edge to a returning block. -/
def CFGStructurizer.LeadsToReturn (c : CFGStructurizer) (n : Nat) : Prop :=
  ∃ y, c.Edge n y ∧ c.Returns y

/-- What a recomputation keeps: the blocks, the edges, and the predecessors of returning blocks,
unless a block got its first edge to a returning block. -/
structure KeepsReturns (c c' : CFGStructurizer) : Prop where
  size : c'.size = c.size
  entryBlock : c'.entryBlock = c.entryBlock
  ir : ∀ n, (c'.node n).ir = (c.node n).ir
  edge : ∀ a b, c.Edge a b → c'.Edge a b
  pred : (∀ n, c.Returns n → (c'.node n).pred.length ≤ (c.node n).pred.length) ∨
    ∃ n < c.size, ¬ c.Returns n ∧ ¬ c.LeadsToReturn n ∧ c'.LeadsToReturn n

namespace KeepsReturns

variable {c'' : CFGStructurizer}

/-- The same blocks return. -/
theorem returns (h : KeepsReturns c c') (n : Nat) : c'.Returns n ↔ c.Returns n := by
  rw [CFGStructurizer.Returns, h.ir, CFGStructurizer.Returns]

/-- A block that leads to a return still does. -/
theorem leadsToReturn (h : KeepsReturns c c') {n : Nat} (hn : c.LeadsToReturn n) :
    c'.LeadsToReturn n := by
  obtain ⟨y, hny, hy⟩ := hn
  exact ⟨y, h.edge n y hny, (h.returns y).mpr hy⟩

/-- Two steps that keep the returns keep them together. -/
theorem trans (h : KeepsReturns c c') (h' : KeepsReturns c' c'') : KeepsReturns c c'' := by
  refine ⟨h'.size.trans h.size, h'.entryBlock.trans h.entryBlock,
    fun n => (h'.ir n).trans (h.ir n), fun a b hab => h'.edge a b (h.edge a b hab), ?_⟩
  rcases h.pred with hle | ⟨n, hn, hret, hno, hyes⟩
  · rcases h'.pred with hle' | ⟨n, hn, hret, hno, hyes⟩
    · exact .inl fun n hn => (hle' n ((h.returns n).mpr hn)).trans (hle n hn)
    · exact .inr ⟨n, h.size ▸ hn, fun hr => hret ((h.returns n).mpr hr),
        fun hl => hno (h.leadsToReturn hl), hyes⟩
  · exact .inr ⟨n, hn, hret, hno, h'.leadsToReturn hyes⟩

/-- A step that keeps the edges keeps the returns. -/
theorem of_sameEdges (h : SameEdges c c') : KeepsReturns c c' := by
  refine ⟨h.size, h.entryBlock, fun n => (h.node n).1, fun a b hab => ?_, .inl fun n _ => ?_⟩
  · rwa [h.edge]
  · rw [(h.node n).2.2.1]

end KeepsReturns

/-- The first edge from a block to a returning block, or an edge to another block. -/
theorem AddedEdge.keepsReturns {n f : Nat} (h : AddedEdge c n f c') (hn : n < c.size)
    (hret : ¬ c.Returns n) (hno : ¬ c.LeadsToReturn n) : KeepsReturns c c' := by
  refine ⟨h.size, h.entryBlock, h.ir, fun a b hab => h.edge.mpr (.inl hab), ?_⟩
  by_cases hf : c.Returns f
  · exact .inr ⟨n, hn, hret, hno, f, h.edge.mpr (.inr ⟨rfl, rfl⟩), (h.returns f).mpr hf⟩
  · refine .inl fun x hx => ?_
    rw [h.pred, if_neg fun he : x = f => hf (he ▸ hx)]

/-- The marks between the first traversal and the second one: every block with an edge to a
returning block was visited. -/
structure Linking (c : CFGStructurizer) : Prop extends Settled c where
  marked : ∀ n ∈ c.forwardPostVisitOrder, c.LeadsToReturn n → (c.node n).backwardVisited = true

/-- The invariant of the linking is kept by a step that keeps edges and marks. -/
theorem Linking.of_sameEdges (hc : Linking c) (h : SameEdges c c') (hmarks : Marks c c') :
    Linking c' := by
  refine ⟨h.settled hc.toSettled, fun n hn hl => hmarks n (hc.marked n ?_ ?_)⟩
  · rwa [h.order] at hn
  · obtain ⟨y, hny, hy⟩ := hl
    rw [h.edge] at hny
    exact ⟨y, hny, (h.returns y).mp hy⟩

/-- A settled pool branches to visited blocks only. -/
theorem CFGStructurizer.Settled.enclosed (hc : c.Settled) : Enclosed c := by
  refine ⟨fun a ha b hb => ?_, fun n b hb => (hc.backEdge n b hb).2.1⟩
  exact (hc.mem_order b).mpr (((hc.mem_order a).mp ha).tail (List.mem_append_left _ hb))

/-- The source of a back edge does not return. -/
theorem CFGStructurizer.Settled.not_returns (hc : c.Settled) {n b : Nat}
    (hb : (c.node n).predBackEdge = some b) :
    ¬ c.Returns b := by
  intro hret
  have hnil := (hc.returns b hret).1
  rw [edges, (hc.backEdge n b hb).1] at hnil
  simp at hnil

/-- A fake branch removes no mark. -/
theorem marks_addFakeBranch (c : CFGStructurizer) (n f : Nat) : Marks c (c.addFakeBranch n f) := by
  unfold addFakeBranch
  split
  · exact .refl c
  · exact .trans (.modify c n _ (by exact fun _ h => h)) (.modify _ f _ (by exact fun _ h => h))

/-- A mark removes no other. -/
theorem marks_markLinked (c : CFGStructurizer) (n : Nat) : Marks c (c.markLinked n) := by
  unfold markLinked
  split
  · exact .modify c n _ (by exact fun _ _ => rfl)
  · exact .refl c

/-- A mark is no edge. -/
theorem sameEdges_markLinked (c : CFGStructurizer) (n : Nat) : SameEdges c (c.markLinked n) := by
  unfold markLinked
  split
  · exact .modify c n _ (by exact fun _ => ⟨rfl, rfl, rfl, rfl, rfl⟩)
  · exact .refl c

/-- The patch for one loop whose continue block was not visited. -/
theorem linkContinueBlock_keeps (hc : Linking c) (hheader : header ∈ c.forwardPostVisitOrder)
    (hb : (c.node header).predBackEdge = some continueBlock)
    (hmark : (c.node continueBlock).backwardVisited = false)
    (h : c.linkContinueBlock fuel header continueBlock = .ok c') :
    Linking c' ∧ KeepsReturns c c' ∧ Marks c c' := by
  simp only [linkContinueBlock, bind_eq_ok, pure_eq_ok] at h
  obtain ⟨exits, hexits, c₁, h₁, h⟩ := h
  obtain rfl := Except.ok.inj h
  obtain ⟨hsucc, hmem, -⟩ := hc.backEdge header continueBlock hb
  have hlast := sameEdges_markLinked c₁ continueBlock
  have hlastMarks := marks_markLinked c₁ continueBlock
  -- fake branches only, or one true branch
  have hcases : (SameEdges c c₁ ∧ Marks c c₁) ∨
      ∃ f ∈ exits, AddedEdge c continueBlock f c₁ ∧ Marks c c₁ := by
    simp only [linkExits, bind_eq_ok] at h₁
    obtain ⟨transpose, htranspose, h₁⟩ := h₁
    split at h₁
    · rename_i ht
      obtain ⟨f, rfl⟩ := exits_of_transposeLoopExit (ht ▸ htranspose)
      simp only [List.foldlM_cons, List.foldlM_nil, transposeExit, bind_eq_ok, pure_eq_ok] at h₁
      obtain ⟨t, ⟨owned, -, ht⟩, h₁⟩ := h₁
      obtain rfl := Except.ok.inj h₁
      split at ht
      · refine .inr ⟨f, List.mem_singleton_self f, addedEdge_of_addBranch ht, ?_⟩
        unfold addBranch at ht
        obtain ⟨-, -, ht⟩ := bind_eq_ok.mp ht
        obtain rfl := Except.ok.inj ht
        exact .trans (.modify c _ _ (by exact fun _ h => h)) (.modify _ f _ (by exact fun _ h => h))
      · obtain rfl := Except.ok.inj ht
        exact .inl ⟨.addFakeBranch .., marks_addFakeBranch _ _ _⟩
    · refine .inl (foldlM_invariant (P := fun s => SameEdges c s ∧ Marks c s) ?_
        ⟨.refl c, .refl c⟩ h₁)
      intro f _ s s' hs hstep
      simp only [linkExit, bind_eq_ok] at hstep
      obtain ⟨r, -, hstep⟩ := hstep
      split at hstep
      · obtain rfl := Except.ok.inj hstep
        exact ⟨hs.1.trans (.addFakeBranch ..), hs.2.trans (marks_addFakeBranch _ _ _)⟩
      · obtain rfl := Except.ok.inj hstep
        exact hs
  rcases hcases with ⟨hsame, hmarks⟩ | ⟨f, hf, hadded, hmarks⟩
  · exact ⟨hc.of_sameEdges (hsame.trans hlast) (hmarks.trans hlastMarks),
      .of_sameEdges (hsame.trans hlast), hmarks.trans hlastMarks⟩
  · have hret := hc.toSettled.not_returns hb
    have hno : ¬ c.LeadsToReturn continueBlock := fun hl => by
      rw [hc.marked continueBlock hmem hl] at hmark
      cases hmark
    have hfh := loopExits_ne_header hc.toSettled hheader hb hexits f hf
    have hfmem := loopExits_reached hc.toSettled.enclosed hheader hexits f hf
    have hsettled : c₁.Settled := by
      refine hadded.settled hc.toSettled hmem hfmem hret ?_ ?_
      · rw [hsucc]
        exact fun he => hfh (Option.some.inj he).symm
      · intro he
        rw [(hc.backEdge f continueBlock he).1] at hsucc
        exact hfh (Option.some.inj hsucc)
    refine ⟨⟨hlast.settled hsettled, fun n hn hl => ?_⟩,
      (hadded.keepsReturns (hc.order_lt hmem) hret hno).trans (.of_sameEdges hlast),
      hmarks.trans hlastMarks⟩
    obtain ⟨y, hny, hy⟩ := hl
    rw [hlast.edge, hadded.edge] at hny
    rw [hlast.order, hadded.order] at hn
    rcases hny with hny | ⟨rfl, rfl⟩
    · refine hlastMarks n (hmarks n (hc.marked n hn ⟨y, hny, ?_⟩))
      rwa [hlast.returns, hadded.returns] at hy
    · have hnonempty : (c₁.node n).succ ≠ [] := by
        rw [hadded.succ, if_pos rfl]
        exact List.ne_nil_of_mem (mem_addUnique.mpr (.inr rfl))
      rw [markLinked, if_pos (.inl hnonempty), modify_node_self]
      rfl

/-- The patches for all loops. -/
theorem linkContinueBlocks_keeps (hc : Linking c) {r : Bool}
    (h : c.linkContinueBlocks fuel = .ok (c', r)) : Linking c' ∧ KeepsReturns c c' := by
  have hinv : Linking c' ∧ KeepsReturns c c' ∧
      c'.forwardPostVisitOrder = c.forwardPostVisitOrder := by
    refine foldlM_invariant (P := fun s : CFGStructurizer × Bool => Linking s.1 ∧
      KeepsReturns c s.1 ∧ s.1.forwardPostVisitOrder = c.forwardPostVisitOrder) ?_
      ⟨hc, .of_sameEdges (.refl c), rfl⟩ h
    rintro n hn ⟨s, r⟩ ⟨s', r'⟩ ⟨hs, hkeep, horder⟩ hstep
    dsimp only at hs hkeep horder hstep
    split at hstep
    · rename_i b hb
      split at hstep
      · obtain rfl := (Prod.mk.inj (Except.ok.inj hstep)).1
        exact ⟨hs, hkeep, horder⟩
      · rename_i hmark
        simp only [bind_eq_ok] at hstep
        obtain ⟨s₁, h₁, hstep⟩ := hstep
        obtain rfl := (Prod.mk.inj (Except.ok.inj hstep)).1
        have hmem : n ∈ s.forwardPostVisitOrder := horder ▸ List.mem_reverse.mp hn
        obtain ⟨hs₁, hkeep₁, -⟩ := linkContinueBlock_keeps hs hmem hb (by simpa using hmark) h₁
        refine ⟨hs₁, hkeep.trans hkeep₁, ?_⟩
        have henclosed := hs.toSettled.enclosed
        rw [(backwardOnly_linkContinueBlock henclosed hmem hb h₁).order_eq,
          horder]
    · obtain rfl := (Prod.mk.inj (Except.ok.inj hstep)).1
      exact ⟨hs, hkeep, horder⟩
  exact ⟨hinv.1, hinv.2.1⟩

/-- The backwards traversal keeps a settled pool settled. -/
theorem backwardsVisit_keeps (hc : c.Settled) (h : c.backwardsVisit fuel = .ok c') :
    c'.Settled ∧ KeepsReturns c c' := by
  simp only [backwardsVisit, bind_eq_ok] at h
  obtain ⟨c₂, h₂, ⟨c₃, r⟩, h₃, h⟩ := h
  have hstart : SameEdges c (c.modifyAll c.forwardPostVisitOrder fun x =>
      { x with backwardVisited := false, traversing := false }) :=
    .modifyAll c _ _ (by exact fun _ => ⟨rfl, rfl, rfl, rfl, rfl⟩)
  have hvisit := hstart.trans (.backwardsVisitBlocks h₂)
  have hlinking : Linking c₂ := by
    refine ⟨hvisit.settled hc, fun n hn hl => ?_⟩
    obtain ⟨y, hny, hy⟩ := hl
    rw [hvisit.order] at hn
    rw [hvisit.edge] at hny
    rw [hvisit.returns] at hy
    have hreach := (hc.mem_order n).mp hn
    obtain ⟨hnil, hback⟩ := hc.returns y hy
    -- the returning block is a leaf that records the block as a predecessor
    have hpred : n ∈ (c.node y).pred := by
      have hmem := hc.edge_pred n y hreach hny
      rwa [predEdges, hback, Option.toList_none, List.append_nil] at hmem
    refine (backwardsVisitBlocks_marks h₂).2 y ?_ n ?_
    · rw [edges, List.append_eq_nil_iff, Option.toList_eq_nil_iff] at hnil
      rw [leafNodes, List.mem_filter, hstart.order, (hstart.node y).2.1, (hstart.node y).2.2.2.1,
        hnil.1, hnil.2]
      exact ⟨(hc.mem_order y).mpr (hreach.tail hny), by simp⟩
    · rwa [(hstart.node y).2.2.1]
  obtain ⟨hlinked, hkeep⟩ := linkContinueBlocks_keeps hlinking h₃
  have hkeep' := (KeepsReturns.of_sameEdges hvisit).trans hkeep
  have hlast : SameEdges c₃ c' := by
    split at h
    · simp only [bind_eq_ok, pure_eq_ok] at h
      obtain ⟨c₄, h₄, h⟩ := h
      obtain rfl := Except.ok.inj h
      exact ((SameEdges.modifyAll _ _ _ (by exact fun _ => ⟨rfl, rfl, rfl, rfl, rfl⟩)).trans
        (.backwardsVisitBlocks h₄)).trans (.attachLeaves ..)
    · obtain rfl := Except.ok.inj h
      exact .attachLeaves ..
  exact ⟨hlast.settled hlinked.toSettled, hkeep'.trans (.of_sameEdges hlast)⟩

/-- Recomputing the analyses of a recorded pool settles it. -/
theorem recomputeCfg_keeps (hc : c.Recorded) (h : c.recomputeCfg fuel = .ok c') :
    c'.Settled ∧ KeepsReturns c c' := by
  simp only [recomputeCfg, recomputeForward, bind_eq_ok, pure_eq_ok] at h
  obtain ⟨c₃, ⟨c₁, h₁, c₂, h₂, h₃⟩, c₄, h₄, c₅, h₅, c₆, h₆, h₇⟩ := h
  obtain rfl := Except.ok.inj h₃
  have hone : OneBackEdge c.search.back := by
    by_contra hone
    rw [visit_reset hc.toClosed, searchResult_error hone] at h₁
    cases h₁
  rw [visit_reset hc.toClosed, searchResult_ok hone] at h₁
  obtain rfl := Except.ok.inj h₁
  have hforward : SameEdges (visited c) c₂.buildReachability :=
    (SameEdges.buildImmediateDominators h₂).trans (.buildReachability c₂)
  have hvisited : KeepsReturns c (visited c) := by
    refine ⟨visited_size c, visited_entryBlock c, visited_ir c, fun a b hab => ?_,
      .inl fun n hn => ?_⟩
    · exact (visited_edge hc hone).mpr hab
    · exact visited_pred_returning hc hone hn
  have hsettled := hforward.settled (visited_settled hc hone)
  obtain ⟨hback, hkeep⟩ := backwardsVisit_keeps hsettled h₄
  have hlast : SameEdges c₄ c' :=
    ((SameEdges.buildImmediatePostDominators h₅).trans (.computeDominanceFrontier h₆)).trans
      (.of_postFrontierOnly (PostFrontierOnly.of_compute h₇))
  exact ⟨hlast.settled hback, ((hvisited.trans (.of_sameEdges hforward)).trans hkeep).trans
    (.of_sameEdges hlast)⟩

end DxilSpirv
