import DxilSpirv.Ssa.BreakingReturn
import DxilSpirv.Ssa.Execution

/-!
# Executions through a split return

Once every predecessor of a returning block has a return of its own, an execution takes the same
steps as before and only the block it ends in is another one. The new returns do not have the
return value of the old one.
-/

namespace DxilSpirv

open DxilSpirv.Graph CFGStructurizer

variable {fuel split : Nat} {c c' : CFGStructurizer} {V W : Type}

/-- How the state of an execution before the split is found again afterwards. -/
inductive Tracks (c : CFGStructurizer) (split : Nat) :
    Option (Nat × Config V W) → Option (Nat × Config V W) → Prop
  | ended : Tracks c split none none
  | same {n : Nat} (s : Config V W) (hne : n ≠ split) (hreach : Reaches c.Edge c.entryBlock n) :
    Tracks c split (some (n, s)) (some (n, s))
  | moved {p : Nat} (s : Config V W) (hp : p ∈ (c.node split).pred) :
    Tracks c split (some (split, s)) (some (c.breakNode split p, s))

/-- Entering a block without PHIs and operations changes nothing. -/
theorem Machine.enter_empty (m : Machine V W) (p : Nat) (s : Config V W) :
    m.run [] { s with env := enter p [] s.env } = s := rfl

/-- A split block is not the entry: its predecessors could not be reached. -/
theorem SplitReturn.ne_entry (hc : c.Settled) (hs : SplitReturn c split) :
    c.entryBlock ≠ split := by
  rintro rfl
  obtain ⟨p, hp⟩ := List.exists_mem_of_length_pos (Nat.lt_of_succ_lt hs.preds)
  have hreach := (hc.mem_order p).mp
    (hc.pred_reached _ hs.mem p (List.mem_append_left _ hp))
  have hnone : ∀ b, ¬ c.Edge c.entryBlock b := by
    intro b hb
    rw [Edge, (hc.returns _ hs.returns).1] at hb
    exact List.not_mem_nil hb
  rcases Relation.ReflTransGen.cases_head hreach with hp' | ⟨b, hb, -⟩
  · rw [← hp'] at hp
    exact hnone c.entryBlock (hc.pred_edge c.entryBlock c.entryBlock (List.mem_append_left _ hp))
  · exact hnone b hb

namespace SplitUp

variable (hc : c.Settled) (hs : SplitReturn c split) (h : SplitUp c split c') (m : Machine V W)

include hc hs h

omit hc hs in
/-- Contents of a block other than the split one: the branch may be moved. -/
theorem ir_old {n : Nat} (hn : n < c.size) (hne : n ≠ split) :
    (c'.node n).ir.phi = (c.node n).ir.phi ∧
      (c'.node n).ir.operations = (c.node n).ir.operations ∧
      (∀ e, c'.ending n e = (c.ending n e : TerminatorType × Option V)) ∧
      ∀ e : Env V, m.next (c'.node n).ir.terminator e =
        (m.next (c.node n).ir.terminator e).map (c.moved split n) := by
  rw [h.off.ir n hn hne]
  by_cases hmem : n ∈ (c.node split).pred
  · rw [if_pos hmem]
    refine ⟨rfl, rfl, fun e => ?_, fun e => ?_⟩
    · rw [ending, ending, h.off.ir n hn hne, if_pos hmem]
      rfl
    · rw [m.next_retarget]
      congr 1
      funext x
      by_cases hx : x = split
      · rw [if_pos hx, hx, moved_split hmem]
      · rw [if_neg hx, moved_of_ne hx]
  · rw [if_neg hmem]
    refine ⟨rfl, rfl, fun e => ?_, fun e => ?_⟩
    · rw [ending, ending, h.off.ir n hn hne, if_neg hmem]
    · have hid : c.moved split n = id := funext fun x => moved_of_notMem hmem x
      rw [hid, Option.map_id]
      rfl

/-- One more step of an execution is found again. -/
theorem tracks_step {n : Nat} {s : Config V W} (hne : n ≠ split)
    (hreach : Reaches c.Edge c.entryBlock n) :
    Tracks c split
      ((m.next (c.node n).ir.terminator s.env).map fun x => (x, m.run (c.node x).ir.operations
        { s with env := enter n (c.node x).ir.phi s.env }))
      ((m.next (c'.node n).ir.terminator s.env).map fun x => (x, m.run (c'.node x).ir.operations
        { s with env := enter n (c'.node x).ir.phi s.env })) := by
  have hn := hc.order_lt ((hc.mem_order n).mpr hreach)
  rw [(h.ir_old m hn hne).2.2.2]
  cases hnext : m.next (c.node n).ir.terminator s.env with
  | none => exact .ended
  | some x =>
    have hedge := hc.branches n x (m.next_mem_targets hnext)
    have hx := hc.inside n x hedge
    by_cases hsplit : x = split
    · subst hsplit
      -- the branch is taken into the split block, which records it
      have hmem : n ∈ (c.node x).pred := by
        have hrec := hc.edge_pred n x hreach hedge
        rwa [predEdges, (hc.returns x hs.returns).2, Option.toList_none, List.append_nil] at hrec
      have hdummy : (c'.node (c.breakNode x n)).ir = _ := h.off.break_ir n hmem
      simp only [Option.map_some, moved_split hmem, hdummy, hs.operations, hs.phi,
        m.enter_empty]
      exact .moved s hmem
    · obtain ⟨hphi, hops, -⟩ := h.ir_old m hx hsplit
      simp only [Option.map_some, moved_of_ne hsplit, hphi, hops]
      exact .same _ hsplit (hreach.tail hedge)

/-- Executions before and after the split take the same steps. -/
theorem tracks (s : Config V W) (k : Nat) :
    Tracks c split (c.execute m s k) (c'.execute m s k) := by
  have hentry := hs.ne_entry hc
  induction k with
  | zero =>
    simp only [execute, h.back.entryBlock]
    rw [(h.ir_old m hc.entry_lt hentry).2.1]
    exact .same _ hentry .refl
  | succ k ih =>
    simp only [execute]
    generalize c.execute m s k = before at ih ⊢
    generalize c'.execute m s k = after at ih ⊢
    cases ih with
    | ended => exact .ended
    | same r hne hreach => exact h.tracks_step hc hs m hne hreach
    | @moved p r hp =>
      -- both returns end the execution
      have hret : (c.node split).ir.terminator.type = .ret := hs.returns
      have hdummy : (c'.node (c.breakNode split p)).ir = _ := h.off.break_ir p hp
      have hold : m.next (c.node split).ir.terminator r.env = none := by
        simp only [Machine.next, hret]
      have hnew : m.next (c'.node (c.breakNode split p)).ir.terminator r.env = none := by
        simp only [hdummy, Machine.next]
      simp only [Option.bind_some, hold, hnew, Option.map_none]
      exact .ended

end SplitUp

/-- What the executions of one machine keep: one that ends in the split block ends in a return with
the same value after the same operations, and all others take the same steps. -/
structure KeepsRun (m : Machine V W) (s : Config V W) (c : CFGStructurizer) (split : Nat)
    (c' : CFGStructurizer) : Prop where
  reached : ∀ k r, c.execute m s k = some (split, r) → ∃ n, c'.execute m s k = some (n, r) ∧
    c'.Returns n ∧ c'.ending n r.env = c.ending split r.env
  others : ∀ k n r, n ≠ split → c.execute m s k = some (n, r) → c'.execute m s k = some (n, r) ∧
    c'.ending n r.env = c.ending n r.env
  ended : ∀ k, c.execute m s k = none → c'.execute m s k = none

/-- The executions are kept unless one ends in the split block and returns a value there. -/
theorem SplitUp.keepsRun_iff (hc : c.Settled) (hs : SplitReturn c split) (h : SplitUp c split c')
    (m : Machine V W) (s : Config V W) : KeepsRun m s c split c' ↔
      (c.node split).ir.terminator.returnValue = 0 ∨ ∀ k r, c.execute m s k ≠ some (split, r) := by
  have hdummy : ∀ p ∈ (c.node split).pred, ∀ e : Env V,
      c'.ending (c.breakNode split p) e = (.ret, none) := by
    intro p hp e
    have hir : (c'.node (c.breakNode split p)).ir = _ := h.off.break_ir p hp
    simp only [ending, hir, if_true]
  have hret : (c.node split).ir.terminator.type = .ret := hs.returns
  constructor
  · intro hkeep
    by_contra hnot
    rw [not_or, not_forall] at hnot
    obtain ⟨hvalue, k, hk⟩ := hnot
    rw [not_forall] at hk
    obtain ⟨r, hr⟩ := hk
    rw [not_not] at hr
    obtain ⟨n, hn, -, hending⟩ := hkeep.reached k r hr
    have htracks := h.tracks hc hs m s k
    rw [hr, hn] at htracks
    cases htracks with
    | same _ hne _ => exact hne rfl
    | moved _ hp =>
      rw [hdummy _ hp, ending, if_neg hvalue] at hending
      cases (Prod.mk.inj hending).2
  · intro hcond
    refine ⟨fun k r hr => ?_, fun k n r hne hr => ?_, fun k hnone => ?_⟩
    · have hzero := hcond.resolve_right fun hnever => hnever k r hr
      have htracks := h.tracks hc hs m s k
      rw [hr] at htracks
      generalize hn : c'.execute m s k = x at htracks
      cases htracks with
      | same _ hne _ => exact absurd rfl hne
      | @moved p _ hp =>
        have hir : (c'.node (c.breakNode split p)).ir = _ := h.off.break_ir p hp
        refine ⟨_, rfl, ?_, ?_⟩
        · rw [CFGStructurizer.Returns, hir]
        · rw [hdummy p hp, ending, if_pos hzero, hret]
    · have htracks := h.tracks hc hs m s k
      rw [hr] at htracks
      generalize hn : c'.execute m s k = x at htracks
      cases htracks with
      | same _ _ hreach =>
        exact ⟨rfl, (h.ir_old m (hc.order_lt ((hc.mem_order n).mpr hreach)) hne).2.2.1 _⟩
      | moved _ _ => exact absurd rfl hne
    · have htracks := h.tracks hc hs m s k
      rw [hnone] at htracks
      generalize hn : c'.execute m s k = x at htracks
      cases htracks with
      | ended => rfl

/-- Recomputing the analyses does not touch what executions depend on. -/
theorem KeepsReturns.keepsRun_iff {c'' : CFGStructurizer} (h : KeepsReturns c' c'')
    (m : Machine V W) (s : Config V W) :
    KeepsRun m s c split c'' ↔ KeepsRun m s c split c' := by
  have hrun : c''.execute m s = c'.execute m s :=
    funext fun k => execute_congr m h.entryBlock h.ir s k
  have hending : ∀ n (e : Env V), c''.ending n e = c'.ending n e := fun n e =>
    ending_congr (h.ir n) e
  have hreturns : ∀ n, c''.Returns n ↔ c'.Returns n := h.returns
  constructor
  · rintro ⟨reached, others, ended⟩
    simp only [hrun, hending, hreturns] at reached others ended
    exact ⟨reached, others, ended⟩
  · rintro ⟨reached, others, ended⟩
    refine ⟨?_, ?_, ?_⟩
    · simpa only [hrun, hending, hreturns] using reached
    · simpa only [hrun, hending] using others
    · simpa only [hrun] using ended

end DxilSpirv
