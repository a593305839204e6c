import DxilSpirv.Cfg.Node
import DxilSpirv.Graph.Walk

/-!
# Functions in SSA form over an analysed graph

After the traversal the `succ`/`pred` lists hold the forward edges. A pass may leave blocks
behind that nothing leads to, and the backwards traversal may add edges from continue blocks
that no terminator takes, so a PHI owes an entry to the predecessors that branch to it.
-/

namespace DxilSpirv

open DxilSpirv.Graph

namespace CFGStructurizer

/-- A forward edge. -/
def Flows (c : CFGStructurizer) (a b : Nat) : Prop := b ∈ (c.node a).succ

instance (c : CFGStructurizer) (a b : Nat) : Decidable (c.Flows a b) :=
  inferInstanceAs (Decidable (b ∈ (c.node a).succ))

/-- Control really passes from `a` to `b`. -/
def Branches (c : CFGStructurizer) (a b : Nat) : Prop := b ∈ (c.node a).ir.terminator.targets

instance (c : CFGStructurizer) (a b : Nat) : Decidable (c.Branches a b) :=
  inferInstanceAs (Decidable (b ∈ (c.node a).ir.terminator.targets))

/-- The edge lists of an analysed graph: forward edges inside the pool without cycles or
repetitions, and predecessors that are recorded at both ends. -/
structure Analysed (c : CFGStructurizer) : Prop where
  acyclic : ∀ a, ¬ Relation.TransGen c.Flows a a
  flows_of_pred : ∀ a b, a ∈ (c.node b).pred → c.Flows a b
  inside : ∀ a b, c.Flows a b → a < c.size ∧ b < c.size
  nodup_succ : ∀ a, (c.node a).succ.Nodup
  nodup_pred : ∀ a, (c.node a).pred.Nodup

/-- The PHIs of an analysed graph are in SSA form. -/
structure SsaForm (c : CFGStructurizer) : Prop extends Analysed c where
  /-- Dead predecessors are pruned. -/
  reachable : ∀ a b, a ∈ (c.node b).pred → Reaches c.Flows c.entryBlock a
  /-- Only the exits of a continue block can have edges that its terminator does not take. -/
  branches : ∀ a b, a ∈ (c.node b).pred → (c.node a).succBackEdge = none → c.Branches a b
  phi_ids : ∀ b, ((c.node b).ir.phi.map (·.id)).Nodup
  incoming_lt : ∀ b, ∀ phi ∈ (c.node b).ir.phi, ∀ i ∈ phi.incoming, i.block < c.size
  incoming_nodup : ∀ b, ∀ phi ∈ (c.node b).ir.phi, (phi.incoming.map (·.block)).Nodup
  /-- Every forward predecessor has an entry. -/
  incoming_pred : ∀ b, ∀ phi ∈ (c.node b).ir.phi, ∀ a ∈ (c.node b).pred, c.Branches a b →
    a ∈ phi.incoming.map (·.block)
  /-- Only loop headers have entries that do not come from a forward predecessor. -/
  incoming_only : ∀ b, (c.node b).predBackEdge = none → ∀ phi ∈ (c.node b).ir.phi,
    ∀ i ∈ phi.incoming, i.block ∈ (c.node b).pred
  /-- The definition of an incoming value dominates the block it arrives from. -/
  incoming_dominates : ∀ b, ∀ phi ∈ (c.node b).ir.phi, ∀ i ∈ phi.incoming, ∀ a,
    ∀ psi ∈ (c.node a).ir.phi, psi.id = i.id → Dominates c.Flows c.entryBlock a i.block

/-- No block has an edge to itself. -/
theorem Analysed.notMem_succ {c : CFGStructurizer} (h : c.Analysed) (n : Nat) :
    n ∉ (c.node n).succ :=
  fun hn => h.acyclic n (.single hn)

theorem Analysed.notMem_pred {c : CFGStructurizer} (h : c.Analysed) (n : Nat) :
    n ∉ (c.node n).pred :=
  fun hn => h.acyclic n (.single (h.flows_of_pred n n hn))

/-- A value that arrives at a block outside of loops is not one of the PHIs of the block. -/
theorem SsaForm.incoming_ne {c : CFGStructurizer} (h : c.SsaForm) {n : Nat}
    (hback : (c.node n).predBackEdge = none) {phi psi : PHI} (hphi : phi ∈ (c.node n).ir.phi)
    (hpsi : psi ∈ (c.node n).ir.phi) {i : IncomingValue} (hi : i ∈ phi.incoming) :
    psi.id ≠ i.id := by
  intro heq
  have hpred := h.incoming_only n hback phi hphi i hi
  have hdom := h.incoming_dominates n phi hphi i hi n psi hpsi heq
  -- a predecessor that the block dominates would close a cycle
  have hreach := hdom.reaches (h.reachable _ n hpred)
  exact h.acyclic n (Relation.TransGen.tail' hreach (h.flows_of_pred _ n hpred))

variable {nodes : List CFGNode} {entryBlock exitBlock : Nat}

/-- A property of all blocks is checked on the blocks of the pool. -/
theorem ofNodes_forall {P : Nat → CFGNode → Prop} (hnone : ∀ n, P n {})
    (h : ∀ n < nodes.length, P n ((ofNodes nodes entryBlock exitBlock).node n)) (n : Nat) :
    P n ((ofNodes nodes entryBlock exitBlock).node n) := by
  by_cases hn : n < nodes.length
  · exact h n hn
  · rw [ofNodes_outside (Nat.le_of_not_lt hn)]
    exact hnone n

/-- A pool whose edges lead to later blocks is analysed. -/
theorem ofNodes_analysed {c : CFGStructurizer} (hc : c = ofNodes nodes entryBlock exitBlock)
    (hsucc : ∀ a < nodes.length, ∀ b ∈ (c.node a).succ, a < b ∧ b < nodes.length)
    (hpred : ∀ b < nodes.length, ∀ a ∈ (c.node b).pred, b ∈ (c.node a).succ)
    (hnodup : ∀ a < nodes.length, (c.node a).succ.Nodup ∧ (c.node a).pred.Nodup) :
    c.Analysed := by
  subst hc
  have hlater : ∀ a b, (ofNodes nodes entryBlock exitBlock).Flows a b →
      a < b ∧ a < nodes.length ∧ b < nodes.length := by
    intro a b hab
    have ha : a < nodes.length := by
      by_contra ha
      rw [Flows, ofNodes_outside (Nat.le_of_not_lt ha)] at hab
      exact absurd hab List.not_mem_nil
    exact ⟨(hsucc a ha b hab).1, ha, (hsucc a ha b hab).2⟩
  have hnd : ∀ n, ((ofNodes nodes entryBlock exitBlock).node n).succ.Nodup ∧
      ((ofNodes nodes entryBlock exitBlock).node n).pred.Nodup :=
    ofNodes_forall (P := fun _ x => x.succ.Nodup ∧ x.pred.Nodup)
      (fun _ => ⟨List.nodup_nil, List.nodup_nil⟩) hnodup
  refine ⟨?_, ?_, fun a b hab => (hlater a b hab).2, fun a => (hnd a).1, fun a => (hnd a).2⟩
  · refine acyclic_of_ord (fun n => nodes.length - n) fun a b hab => ?_
    have := hlater a b hab
    omega
  · intro a b hab
    by_cases hb : b < nodes.length
    · exact hpred b hb a hab
    · rw [ofNodes_outside (Nat.le_of_not_lt hb)] at hab
      exact absurd hab List.not_mem_nil

end CFGStructurizer

end DxilSpirv
