import DxilSpirv.Cfg.Completion
import DxilSpirv.Cfg.SplitOff
import DxilSpirv.Ssa.Form

/-!
# Moving the edges of the predecessors

Two passes give each predecessor of a block a block of its own. Where the dominators above the
predecessors and the post-dominators below them are known, every edge can be moved. While they
are moved, the post-dominator of a predecessor may become a new block: it counts as low as the
block that it stands for.
-/

namespace DxilSpirv

open DxilSpirv.Graph

namespace CFGStructurizer

/-- An edge of the graph that the backwards traversal walked, fake branches included. -/
def Leads (c : CFGStructurizer) (a b : Nat) : Prop := b ∈ (c.node a).succ ++ (c.node a).fakeSucc

/-- What a pass may assume about the blocks around a block whose incoming edges it moves: the graph
is analysed, and the dominators above the predecessors and the post-dominators below them are
known. -/
structure Surrounded (c : CFGStructurizer) (node : Nat) : Prop extends Analysed c where
  /-- Every block above a predecessor has a dominator. -/
  known : ∀ p ∈ (c.node node).pred, ∀ x, Anc c.idom x p → (c.idom x).isSome
  /-- Control reaches the blocks above a predecessor from their dominators. -/
  reaches : ∀ p ∈ (c.node node).pred, ∀ x y, Anc c.idom x p → c.idom x = some y →
    Reaches c.Flows y x
  leads_acyclic : ∀ a, ¬ Relation.TransGen c.Leads a a
  fakeSucc_lt : ∀ a, ∀ b ∈ (c.node a).fakeSucc, b < c.size
  /-- Every block below a predecessor has a post-dominator, which control can reach from it. -/
  post : ∀ p ∈ (c.node node).pred, ∀ x, Relation.TransGen c.Leads p x → x ≠ c.exitBlock →
    ∃ y, c.ipdom x = some y ∧ (y = c.exitBlock ∨ Relation.TransGen c.Leads x y)
  exit_ipdom : c.ipdom c.exitBlock = some c.exitBlock
  exit_last : ∀ x, c.backwardOrder x ≤ c.backwardOrder c.exitBlock
  exit_edges : c.exitBlock < c.size ∧ (c.node c.exitBlock).succ = [] ∧
    (c.node c.exitBlock).pred = []

/-- A block above one of the predecessors. -/
def Above (c : CFGStructurizer) (node x : Nat) : Prop :=
  ∃ p ∈ (c.node node).pred, Anc c.idom x p

/-- The exit and what control reaches from a predecessor. -/
def Below (c : CFGStructurizer) (node x : Nat) : Prop :=
  x = c.exitBlock ∨ ∃ p ∈ (c.node node).pred, Relation.TransGen c.Leads p x

/-- How far a block is from the exit: new blocks are as far as the block they stand for. -/
noncomputable def exitRank (c : CFGStructurizer) (node x : Nat) : Nat :=
  if x = c.exitBlock then 0
  else if x < c.size then height c.Leads c.size x + 1
  else height c.Leads c.size node + 1

namespace Surrounded

variable {c c' c₁ c₂ : CFGStructurizer} {fuel node p x y : Nat}

theorem isolated (h : Surrounded c node) (hp : p ∈ (c.node node).pred) : c.Isolated node where
  node_lt := (h.inside p node (h.flows_of_pred p node hp)).2
  pred_lt x q hq := (h.inside q x (h.flows_of_pred q x hq)).1
  succ_lt s hs := (h.inside node s hs).2
  nodup_pred := h.nodup_pred node
  nodup_succ := h.nodup_succ node
  notMem_pred := h.notMem_pred node
  notMem_succ := h.notMem_succ node

/-- Nothing above a predecessor is below the block. -/
theorem above_ne (h : Surrounded c node) (hx : Above c node x) : x ≠ node ∧ x < c.size := by
  obtain ⟨p, hp, hanc⟩ := hx
  have hflow := h.flows_of_pred p node hp
  have hreach : Reaches c.Flows x p := by
    induction hanc with
    | refl => exact .refl
    | tail hyp hyx ih => exact (h.reaches p hp _ _ hyp hyx).trans ih
  constructor
  · rintro rfl
    exact h.acyclic x (Relation.TransGen.tail' hreach hflow)
  · rcases Relation.ReflTransGen.cases_head hreach with rfl | ⟨y, hy, -⟩
    · exact (h.inside x node hflow).1
    · exact (h.inside x y hy).1

/-- Blocks above a predecessor have their dominators above it. -/
theorem above_up (h : Surrounded c node) (hx : Above c node x) :
    ∃ y, c.idom x = some y ∧ Above c node y := by
  obtain ⟨p, hp, hanc⟩ := hx
  obtain ⟨y, hy⟩ := Option.isSome_iff_exists.mp (h.known p hp x hanc)
  exact ⟨y, hy, p, hp, Relation.ReflTransGen.tail hanc hy⟩

/-- Climbing the dominators above the predecessors ends. -/
theorem climbing (h : Surrounded c node) :
    Climbing c.idom (height (fun a b => c.Flows b a) c.size) (Above c node) := by
  intro x hx
  obtain ⟨y, hy, hAy⟩ := h.above_up hx
  refine ⟨y, hy, hAy, ?_⟩
  obtain ⟨p, hp, hanc⟩ := hx
  have hacyclic : ∀ a, ¬ Relation.TransGen (fun a b => c.Flows b a) a a := fun a ha =>
    h.acyclic a (Relation.transGen_swap.mp ha)
  rcases Relation.reflTransGen_iff_eq_or_transGen.mp (h.reaches p hp x y hanc hy) with he | hyx
  · exact .inl he.symm
  · exact .inr (height_lt_of_transGen hacyclic (h.above_ne hAy).2
      (Relation.transGen_swap.mpr hyx))

theorem climbing_le (h : Surrounded c node) (hx : Above c node x) :
    height (fun a b => c.Flows b a) c.size x ≤ c.size := by
  refine Nat.le_of_lt (height_lt (fun a ha => ?_) (h.above_ne hx).2)
  exact h.acyclic a (Relation.transGen_swap.mp ha)

theorem leads_lt (h : Surrounded c node) (hxy : Relation.TransGen c.Leads x y) : y < c.size := by
  obtain ⟨z, -, hzy⟩ := Relation.TransGen.tail'_iff.mp hxy
  rcases List.mem_append.mp hzy with hy | hy
  · exact (h.inside z y hy).2
  · exact h.fakeSucc_lt z y hy

/-- Ranks fall towards the exit. -/
theorem exitRank_lt (h : Surrounded c node) (hx : x < c.size) (hne : x ≠ c.exitBlock)
    (hxy : Relation.TransGen c.Leads x y) : c.exitRank node y < c.exitRank node x := by
  have hlt := height_lt_of_transGen h.leads_acyclic (h.leads_lt hxy) hxy
  simp only [exitRank, if_neg hne, if_pos hx]
  split
  · omega
  · rw [if_pos (h.leads_lt hxy)]
    omega

/-- No rank exceeds the number of blocks. -/
theorem exitRank_le (h : Surrounded c node) (hn : node < c.size) (x : Nat) :
    c.exitRank node x ≤ c.size := by
  unfold exitRank
  split
  · omega
  · split
    · rename_i hx
      exact height_lt h.leads_acyclic hx
    · exact height_lt h.leads_acyclic hn

/-- Control leads from a predecessor to the block. -/
theorem leads_node (h : Surrounded c node) (hp : p ∈ (c.node node).pred) :
    Relation.TransGen c.Leads p node :=
  .single (List.mem_append_left _ (h.flows_of_pred p node hp))

/-- The exit has no edges, so it is neither the block nor a predecessor. -/
theorem ne_exit (h : Surrounded c node) (hp : p ∈ (c.node node).pred) :
    node ≠ c.exitBlock ∧ p ≠ c.exitBlock := by
  constructor
  · rintro rfl
    rw [h.exit_edges.2.2] at hp
    exact absurd hp List.not_mem_nil
  · rintro rfl
    have hflow : node ∈ (c.node c.exitBlock).succ := h.flows_of_pred _ node hp
    rw [h.exit_edges.2.1] at hflow
    exact absurd hflow List.not_mem_nil

/-- A new block is as far from the exit as the block that it stands for. -/
theorem exitRank_new (h : Surrounded c node) (hp : p ∈ (c.node node).pred) (hx : c.size ≤ x) :
    c.exitRank node x = c.exitRank node node := by
  have hexit := h.exit_edges.1
  have hnlt := (h.isolated hp).node_lt
  simp [exitRank, (h.ne_exit hp).1, hnlt, Nat.not_lt.mpr hx, show x ≠ c.exitBlock by omega]

end Surrounded

variable {c c' c₁ c₂ : CFGStructurizer} {fuel node p x y : Nat}

/-- The pool `c₁` is `c'` with one more block, which has the post-dominator of `node` and which no
edge leads to. -/
structure Prepared (c' : CFGStructurizer) (node : Nat) (c₁ : CFGStructurizer) : Prop where
  size : c₁.size = c'.size + 1
  idom : ∀ x ≠ c'.size, c₁.idom x = c'.idom x
  ipdom : ∀ x, c₁.ipdom x = if x = c'.size then c'.ipdom node else c'.ipdom x
  backwardOrder : ∀ x, c₁.backwardOrder x = if x = c'.size then 0 else c'.backwardOrder x
  succ : ∀ x ≠ c'.size, (c₁.node x).succ = (c'.node x).succ
  fakeSucc : ∀ x ≠ c'.size, (c₁.node x).fakeSucc = (c'.node x).fakeSucc
  pred : (c₁.node node).pred = (c'.node node).pred
  pred_new : (c₁.node c'.size).pred = []

/-- The blocks whose post-dominators are known in a pool with new blocks. -/
def BelowNow (c : CFGStructurizer) (node : Nat) (c' : CFGStructurizer) (x : Nat) : Prop :=
  Below c node x ∨ (c.size ≤ x ∧ x < c'.size)

/-- What the edges moved so far leave of the post-dominators. -/
structure StillLeads (c : CFGStructurizer) (node : Nat) (c' : CFGStructurizer) : Prop where
  fakeSucc : ∀ x < c.size, (c'.node x).fakeSucc = (c.node x).fakeSucc
  leads : LeadsTo c' (c.exitRank node) (BelowNow c node c') c.exitBlock

theorem StillLeads.refl (h : Surrounded c node) (hn : node < c.size) : StillLeads c node c where
  fakeSucc _ _ := rfl
  leads :=
    { mem := .inl (.inl rfl)
      exit := h.exit_ipdom
      up := by
        rintro x (hx | hx) hne
        · obtain ⟨p, hp, hpx⟩ := hx.resolve_left hne
          have hlt := h.leads_lt hpx
          obtain ⟨y, hy, rfl | hxy⟩ := h.post p hp x hpx hne
          · refine ⟨_, hy, .inl (.inl rfl), ?_⟩
            simp [exitRank, hne, hlt]
          · exact ⟨y, hy, .inl (.inr ⟨p, hp, hpx.trans hxy⟩), h.exitRank_lt hlt hne hxy⟩
        · omega
      size := fun x _ => h.exitRank_le hn x
      order := fun x _ => h.exit_last x }

/-- A new block takes the post-dominator of the block that it stands for. -/
theorem StillLeads.prepare (h : Surrounded c node) (hp : p ∈ (c.node node).pred)
    (hsize : c.size ≤ c'.size) (hpost : StillLeads c node c') (hprep : Prepared c' node c₁) :
    LeadsTo c₁ (c.exitRank node) (BelowNow c node c₁) c.exitBlock := by
  have hexit := h.exit_edges.1
  have hn := (h.isolated hp).node_lt
  have hmono : ∀ x, BelowNow c node c' x → BelowNow c node c₁ x :=
    fun x hx => hx.imp_right fun hx => ⟨hx.1, by rw [hprep.size]; omega⟩
  have hback : ∀ x, x ≠ c'.size → BelowNow c node c₁ x → BelowNow c node c' x :=
    fun x hxs hx => hx.imp_right fun hx => by
      rw [hprep.size] at hx
      omega
  refine ⟨.inl (.inl rfl), ?_, ?_, ?_, ?_⟩
  · rw [hprep.ipdom, if_neg (by omega)]
    exact hpost.leads.exit
  · intro x hx hne
    rw [hprep.ipdom]
    by_cases hxs : x = c'.size
    · subst hxs
      rw [if_pos rfl]
      obtain ⟨y, hy, hDy, hlt⟩ := hpost.leads.up node (.inl (.inr ⟨p, hp, h.leads_node hp⟩))
        (h.ne_exit hp).1
      exact ⟨y, hy, hmono y hDy, h.exitRank_new hp hsize ▸ hlt⟩
    · rw [if_neg hxs]
      obtain ⟨y, hy, hDy, hlt⟩ := hpost.leads.up x (hback x hxs hx) hne
      exact ⟨y, hy, hmono y hDy, hlt⟩
  · intro x _
    have := h.exitRank_le hn x
    rw [hprep.size]
    omega
  · intro x hx
    rw [hprep.backwardOrder, hprep.backwardOrder, if_neg (show c.exitBlock ≠ c'.size by omega)]
    split
    · exact Nat.zero_le _
    · rename_i hxs
      exact hpost.leads.order x (hback x hxs hx)

/-- Once the post-dominator of the predecessor is known again, all of them are. -/
theorem StillLeads.step (h : Surrounded c node) (hp : p ∈ (c.node node).pred)
    (hleads : LeadsTo c₁ (c.exitRank node) (BelowNow c node c₁) c.exitBlock)
    (hfake : ∀ x < c.size, (c₂.node x).fakeSucc = (c.node x).fakeSucc)
    (hsize : c₂.size = c₁.size) (hipdom : ∀ x ≠ p, c₂.ipdom x = c₁.ipdom x)
    (hipdom_p : ∃ d, c₂.ipdom p = some d ∧ BelowNow c node c₁ d ∧
      c.exitRank node d < c.exitRank node p)
    (horder : ∀ x, c₂.backwardOrder x = c₁.backwardOrder x) : StillLeads c node c₂ where
  fakeSucc := hfake
  leads := by
    have hnow : ∀ x, BelowNow c node c₂ x ↔ BelowNow c node c₁ x := by
      intro x
      rw [BelowNow, BelowNow, hsize]
    refine ⟨(hnow _).mpr hleads.mem, ?_, fun x hx hne => ?_, fun x hx => ?_, fun x hx => ?_⟩
    · rw [hipdom _ (h.ne_exit hp).2.symm]
      exact hleads.exit
    · by_cases hxp : x = p
      · subst hxp
        obtain ⟨d, hd, hDd, hlt⟩ := hipdom_p
        exact ⟨d, hd, (hnow d).mpr hDd, hlt⟩
      · rw [hipdom x hxp]
        obtain ⟨y, hy, hDy, hlt⟩ := hleads.up x ((hnow x).mp hx) hne
        exact ⟨y, hy, (hnow y).mpr hDy, hlt⟩
    · rw [hsize]
      exact hleads.size x ((hnow x).mp hx)
    · rw [horder, horder]
      exact hleads.order x ((hnow x).mp hx)

variable {Q : Nat → IRBlock → Prop} {nodeIr : IRBlock} {done rest : List Nat}

/-- The edge of a predecessor can be moved to a new block. -/
theorem Surrounded.retargetBranch_completes (h : Surrounded c node)
    (hpreds : (c.node node).pred = done ++ p :: rest) (hsplit : SplitOff c node Q done nodeIr c')
    (hidom : ∀ x < c.size, x ≠ node → c'.idom x = c.idom x) (hpost : StillLeads c node c')
    (hprep : Prepared c' node c₁) (hfuel : 2 * (c'.size + 1) < fuel) :
    ∃ c₂, c₁.retargetBranch fuel p node c'.size = .ok c₂ ∧ (∀ x ≠ p, c₂.ipdom x = c₁.ipdom x) ∧
      ∃ d, c₂.ipdom p = some d ∧ BelowNow c node c₁ d ∧ c.exitRank node d < c.exitRank node p := by
  have hpmem : p ∈ (c.node node).pred := by simp [hpreds]
  have hisol := h.isolated hpmem
  have hpdone := (hsplit.breakNode_eq hpreds hisol.nodup_pred).1
  have hle : c.size ≤ c'.size := by rw [hsplit.size]; omega
  have hnlt := hisol.node_lt
  have hplt := hisol.pred_lt node p hpmem
  have hns : node ≠ c'.size := by omega
  have hps : p ≠ c'.size := by omega
  have hnew : ∀ x, Above c node x → x ≠ c'.size := fun x hx => by
    have := (h.above_ne hx).2
    omega
  have hidom₁ : ∀ x, Above c node x → c₁.idom x = c.idom x := by
    intro x hx
    rw [hprep.idom x (hnew x hx)]
    exact hidom x (h.above_ne hx).2 (h.above_ne hx).1
  have hpred : (c₁.node node).pred = p :: rest := by
    rw [hprep.pred, hsplit.pred node hnlt, if_pos rfl, hpreds, List.drop_left]
  have hsucc : (c₁.node p).succ = (c.node p).succ := by
    rw [hprep.succ p hps, hsplit.succ p hplt, if_neg hpdone]
  have hfake : (c₁.node p).fakeSucc = (c.node p).fakeSucc := by
    rw [hprep.fakeSucc p hps, hpost.fakeSucc p hplt]
  have hflow : node ∈ (c.node p).succ := h.flows_of_pred p node hpmem
  have hleads := hpost.prepare h hpmem hle hprep
  have hexit : c.exitRank node c.exitBlock < c.exitRank node p := by
    simp [exitRank, (h.ne_exit hpmem).2, hplt]
  have htarget : ∀ x, Relation.TransGen c.Leads p x →
      BelowNow c node c₁ x ∧ c.exitRank node x < c.exitRank node p :=
    fun x hx => ⟨.inl (.inr ⟨p, hpmem, hx⟩), h.exitRank_lt hplt (h.ne_exit hpmem).2 hx⟩
  refine CFGStructurizer.retargetBranch_completes (h.climbing.congr hidom₁)
    (fun x hx => Nat.le_trans (h.climbing_le hx) (by rw [hprep.size]; omega))
    (fun hn => (h.above_ne hn).1 rfl) (fun hs => hnew _ hs rfl) hns ⟨p, hpmem, .refl _ _⟩
    ?_ ?_ ⟨?_, ?_⟩ ⟨?_, ?_⟩ (hleads.below hexit) (fun hp => Nat.lt_irrefl _ hp.2) ?_
    (by rwa [hprep.size])
  · intro x hx
    rw [hpred] at hx
    exact ⟨x, by rw [hpreds]; exact List.mem_append_right _ hx, .refl _ _⟩
  · intro x hx
    rw [hprep.pred_new] at hx
    exact absurd hx List.not_mem_nil
  · rw [hsucc]
    exact hflow
  · rw [hpred]
    exact List.mem_cons_self ..
  · rw [hsucc]
    intro hx
    have := (h.inside p _ hx).2
    omega
  · rw [hprep.pred_new]
    exact List.not_mem_nil
  · intro x hx
    rw [hsucc, hfake] at hx
    rcases List.mem_append.mp hx with hx | hx
    · rcases mem_of_mem_replace hx with hx | rfl
      · exact htarget x (.single (List.mem_append_left _ hx))
      · refine ⟨.inr ⟨hle, by rw [hprep.size]; omega⟩, ?_⟩
        rw [h.exitRank_new hpmem hle]
        exact (htarget node (h.leads_node hpmem)).2
    · exact htarget x (.single (List.mem_append_right _ hx))

/-- Moving the edge of a predecessor affects no other dominators than those of its two targets. -/
theorem Surrounded.retargetBranch_idom (h : Surrounded c node)
    (hp : p ∈ (c.node node).pred) (hsplit : SplitOff c node Q done nodeIr c')
    (hidom : ∀ x < c.size, x ≠ node → c'.idom x = c.idom x) (hprep : Prepared c' node c₁)
    (hok : c₁.retargetBranch fuel p node c'.size = .ok c₂) :
    ∀ x < c.size, x ≠ node → c₂.idom x = c.idom x := by
  have hle : c.size ≤ c'.size := by rw [hsplit.size]; omega
  have hnlt := (h.isolated hp).node_lt
  have hns : node ≠ c'.size := by omega
  have hidom₁ : ∀ x < c.size, x ≠ node → c₁.idom x = c.idom x := fun x hx hxn =>
    (hprep.idom x (by omega)).trans (hidom x hx hxn)
  intro x hx hxn
  rw [← hidom₁ x hx hxn]
  refine CFGStructurizer.retargetBranch_idom (D := Above c node) ?_
    (fun hn => (h.above_ne hn).1 rfl) (fun hn => ?_) hns ⟨p, hp, .refl _ _⟩ ?_ ?_ hok x hxn
    (by omega)
  · intro y hy
    rw [hidom₁ y (h.above_ne hy).2 (h.above_ne hy).1]
    exact h.above_up hy
  · have := (h.above_ne hn).2
    omega
  · intro q hq
    rw [hprep.pred, hsplit.pred node hnlt, if_pos rfl] at hq
    exact ⟨q, List.mem_of_mem_drop hq, .refl _ _⟩
  · intro q hq
    rw [hprep.pred_new] at hq
    exact absurd hq List.not_mem_nil

end CFGStructurizer

end DxilSpirv
