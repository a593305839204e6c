import Mathlib.Algebra.Order.BigOperators.Group.Finset
import DxilSpirv.Ssa.ReturnRuns

/-!
# Iterating the split of breaking returns

Every iteration takes away predecessors that share a return. Recomputing the analyses may give a
return more predecessors, but only where a loop gets its first true branch to a return, and there
are no more of those than blocks.
-/

namespace DxilSpirv

open DxilSpirv.Graph CFGStructurizer

namespace CFGStructurizer

variable (c : CFGStructurizer)

open Classical in
/-- The blocks that neither return nor have an edge to a returning block. -/
noncomputable def unreturning : Finset Nat :=
  (Finset.range c.size).filter fun n => ¬ c.Returns n ∧ ¬ c.LeadsToReturn n

/-- The blocks that return. -/
def returning : Finset Nat := (Finset.range c.size).filter c.Returns

/-- How many predecessors share a return with another one. -/
def sharedReturns : Nat := ∑ n ∈ c.returning, ((c.node n).pred.length - 1)

/-- What every iteration decreases. -/
noncomputable def returnMeasure : Nat × Nat := (c.unreturning.card, c.sharedReturns)

end CFGStructurizer

variable {fuel split : Nat} {c c' : CFGStructurizer}

theorem mem_unreturning {n : Nat} :
    n ∈ c.unreturning ↔ n < c.size ∧ ¬ c.Returns n ∧ ¬ c.LeadsToReturn n := by
  classical
  rw [unreturning, Finset.mem_filter, Finset.mem_range]

theorem mem_returning {n : Nat} : n ∈ c.returning ↔ n < c.size ∧ c.Returns n := by
  rw [returning, Finset.mem_filter, Finset.mem_range]

namespace SplitUp

variable (hc : c.Settled) (hs : SplitReturn c split) (h : SplitUp c split c')

include hc hs h

omit hc hs in
theorem returns_breakNode {p : Nat} (hp : p ∈ (c.node split).pred) :
    c'.Returns (c.breakNode split p) := by
  have hir : (c'.node (c.breakNode split p)).ir = _ := h.off.break_ir p hp
  rw [CFGStructurizer.Returns, hir]

/-- A block that leads to a return still does, be it to its own. -/
theorem leadsToReturn {n : Nat} (hn : c.LeadsToReturn n) : c'.LeadsToReturn n := by
  obtain ⟨y, hny, hy⟩ := hn
  refine ⟨c.moved split n y, (h.edge_iff hc hs).mpr ⟨y, hny, rfl⟩, ?_⟩
  by_cases hmoved : n ∈ (c.node split).pred ∧ y = split
  · rw [hmoved.2, moved_split hmoved.1]
    exact h.returns_breakNode hmoved.1
  · rw [moved, if_neg hmoved]
    exact (h.returns_old (hc.inside n y hny)).mpr hy

theorem unreturning_subset : c'.unreturning ⊆ c.unreturning := by
  intro n hn
  obtain ⟨hlt, hret, hlead⟩ := mem_unreturning.mp hn
  rcases (h.lt_size_iff hc hs).mp hlt with hold | ⟨p, hp, rfl⟩
  · exact mem_unreturning.mpr ⟨hold, fun hr => hret ((h.returns_old hold).mpr hr),
      fun hl => hlead (h.leadsToReturn hc hs hl)⟩
  · exact absurd (h.returns_breakNode hp) hret

/-- The returns of the new pool share fewer predecessors. -/
theorem sharedReturns_lt : c'.sharedReturns < c.sharedReturns := by
  -- the new returns have one predecessor each
  have hnew : c'.sharedReturns = ∑ n ∈ c.returning, ((c'.node n).pred.length - 1) := by
    refine (Finset.sum_subset (fun n hn => ?_) fun n hn hout => ?_).symm
    · obtain ⟨hlt, hret⟩ := mem_returning.mp hn
      exact mem_returning.mpr ⟨Nat.lt_of_lt_of_le hlt h.back.size, (h.returns_old hlt).mpr hret⟩
    · obtain ⟨hlt, hret⟩ := mem_returning.mp hn
      rcases (h.lt_size_iff hc hs).mp hlt with hold | ⟨p, hp, rfl⟩
      · exact absurd (mem_returning.mpr ⟨hold, (h.returns_old hold).mp hret⟩) hout
      · rw [h.off.break_pred p hp]
        rfl
  have hsplit : c'.predEdges split = [] := by
    rw [h.predEdges_old hc hs (hc.order_lt hs.mem), if_pos rfl]
  have hnil : (c'.node split).pred = [] := (List.append_eq_nil_iff.mp hsplit).1
  rw [hnew, sharedReturns]
  refine Finset.sum_lt_sum (fun n hn => ?_) ⟨split, ?_, ?_⟩
  · by_cases hne : n = split
    · rw [hne, hnil]
      exact Nat.zero_le _
    · have hsucc : (c.node split).succ = [] :=
        (List.append_eq_nil_iff.mp (hc.returns split hs.returns).1).1
      rw [h.off.pred n (mem_returning.mp hn).1, if_neg hne, hsucc, if_neg List.not_mem_nil]
  · exact mem_returning.mpr ⟨hc.order_lt hs.mem, hs.returns⟩
  · have hpreds := hs.preds
    rw [hnil, List.length_nil]
    omega

end SplitUp

/-- What a recomputation does to the measure. -/
theorem KeepsReturns.measure (h : KeepsReturns c c') :
    c'.unreturning.card < c.unreturning.card ∨
      c'.unreturning.card ≤ c.unreturning.card ∧ c'.sharedReturns ≤ c.sharedReturns := by
  have hsub : c'.unreturning ⊆ c.unreturning := by
    intro n hn
    obtain ⟨hlt, hret, hlead⟩ := mem_unreturning.mp hn
    exact mem_unreturning.mpr ⟨h.size ▸ hlt, fun hr => hret ((h.returns n).mpr hr),
      fun hl => hlead (h.leadsToReturn hl)⟩
  rcases h.pred with hle | ⟨n, hn, hret, hno, hyes⟩
  · refine .inr ⟨Finset.card_le_card hsub, ?_⟩
    have hsame : c'.returning = c.returning := by
      ext n
      rw [mem_returning, mem_returning, h.size, h.returns]
    rw [sharedReturns, sharedReturns, hsame]
    exact Finset.sum_le_sum fun n hn =>
      Nat.sub_le_sub_right (hle n (mem_returning.mp hn).2) 1
  · refine .inl (Finset.card_lt_card ⟨hsub, fun hsup => ?_⟩)
    exact (mem_unreturning.mp (hsup (mem_unreturning.mpr ⟨hn, hret, hno⟩))).2.2 hyes

/-- The parts of an iteration that splits a return. -/
theorem cleanupBreakingReturnConstructs_split (hc : c.Settled)
    (h : c.cleanupBreakingReturnConstructs fuel = .ok (c', true)) :
    ∃ returns split c₁,
      c.forwardPostVisitOrder.foldlM (c.classifyReturn fuel) (0, none) = .ok (returns, some split) ∧
      SplitReturn c split ∧ SplitUp c split c₁ ∧ c₁.recomputeCfg fuel = .ok c' := by
  simp only [cleanupBreakingReturnConstructs, bind_eq_ok] at h
  obtain ⟨⟨returns, candidate⟩, hfold, h⟩ := h
  split at h
  · cases h
  · dsimp only at h
    cases candidate with
    | none => cases h
    | some split =>
      simp only [bind_eq_ok] at h
      obtain ⟨c₁, h₁, c₂, h₂, h⟩ := h
      obtain rfl := (Prod.mk.inj (Except.ok.inj h)).1
      have hs := splitReturn_of_classify hfold split rfl
      have hsucc : (c.node split).succ = [] :=
        (List.append_eq_nil_iff.mp (hc.returns split hs.returns).1).1
      exact ⟨returns, split, c₁, hfold, hs, duplicateReturns_ok (hs.isolated hc) hsucc h₁, h₂⟩

/-- An iteration that does nothing leaves the pool alone. -/
theorem cleanupBreakingReturnConstructs_false
    (h : c.cleanupBreakingReturnConstructs fuel = .ok (c', false)) : c' = c := by
  simp only [cleanupBreakingReturnConstructs, bind_eq_ok] at h
  obtain ⟨⟨returns, candidate⟩, -, h⟩ := h
  split at h
  · exact (Prod.mk.inj (Except.ok.inj h)).1.symm
  · dsimp only at h
    cases candidate with
    | none => exact (Prod.mk.inj (Except.ok.inj h)).1.symm
    | some split =>
      simp only [bind_eq_ok] at h
      obtain ⟨c₁, -, c₂, -, h⟩ := h
      cases (Prod.mk.inj (Except.ok.inj h)).2

/-- An iteration that splits a return leaves a settled pool with a smaller measure. -/
theorem cleanupBreakingReturnConstructs_decreases (hc : c.Settled)
    (h : c.cleanupBreakingReturnConstructs fuel = .ok (c', true)) :
    c'.Settled ∧ Prod.Lex (· < ·) (· < ·) c'.returnMeasure c.returnMeasure := by
  obtain ⟨returns, split, c₁, -, hs, hup, hrec⟩ := cleanupBreakingReturnConstructs_split hc h
  obtain ⟨hsettled, hkeep⟩ := recomputeCfg_keeps (hup.recorded hc hs) hrec
  refine ⟨hsettled, ?_⟩
  have hcard := Finset.card_le_card (hup.unreturning_subset hc hs)
  have hshared := hup.sharedReturns_lt hc hs
  rw [Prod.lex_iff, returnMeasure, returnMeasure]
  rcases hkeep.measure with hlt | ⟨hle, hle'⟩
  · exact .inl (Nat.lt_of_lt_of_le hlt hcard)
  · rcases Nat.lt_or_eq_of_le (hle.trans hcard) with hlt | heq
    · exact .inl hlt
    · exact .inr ⟨heq, Nat.lt_of_le_of_lt hle' hshared⟩

/-- The pass is not repeated for ever. -/
theorem cleanupBreakingReturnConstructs_terminates (hc : c.Settled) :
    ¬ ∃ f : Nat → CFGStructurizer, f 0 = c ∧
      ∀ n, ∃ fuel, (f n).cleanupBreakingReturnConstructs fuel = .ok (f (n + 1), true) := by
  rintro ⟨f, rfl, hstep⟩
  have hsettled : ∀ n, (f n).Settled := by
    intro n
    induction n with
    | zero => exact hc
    | succ n ih =>
      obtain ⟨fuel, h⟩ := hstep n
      exact (cleanupBreakingReturnConstructs_decreases ih h).1
  have hwf : WellFounded (Prod.Lex (· < · : Nat → Nat → Prop) (· < · : Nat → Nat → Prop)) :=
    WellFounded.prod_lex Nat.lt_wfRel.wf Nat.lt_wfRel.wf
  refine (wellFounded_iff_isEmpty_descending_chain.mp hwf).false
    ⟨fun n => (f n).returnMeasure, fun n => ?_⟩
  obtain ⟨fuel, h⟩ := hstep n
  exact (cleanupBreakingReturnConstructs_decreases (hsettled n) h).2

/-! ## The iteration -/

/-- Each iteration keeps what is executed exactly where the split block returns no value or is not
executed, and the iteration ends. -/
theorem cleanupBreakingReturnConstructs_preserves_iff (hc : c.Settled) :
    (∀ fuel c', c.cleanupBreakingReturnConstructs fuel = .ok (c', false) → c' = c) ∧
    (∀ fuel c', c.cleanupBreakingReturnConstructs fuel = .ok (c', true) →
      c'.Settled ∧ ∃ returns split,
        c.forwardPostVisitOrder.foldlM (c.classifyReturn fuel) (0, none) =
          .ok (returns, some split) ∧ c.Returns split ∧
        ∀ (V W : Type) (m : Machine V W) (s : Config V W), KeepsRun m s c split c' ↔
          (c.node split).ir.terminator.returnValue = 0 ∨
            ∀ k r, c.execute m s k ≠ some (split, r)) ∧
    ¬ ∃ f : Nat → CFGStructurizer, f 0 = c ∧
      ∀ n, ∃ fuel, (f n).cleanupBreakingReturnConstructs fuel = .ok (f (n + 1), true) := by
  refine ⟨fun fuel c' h => cleanupBreakingReturnConstructs_false h, fun fuel c' h => ?_,
    cleanupBreakingReturnConstructs_terminates hc⟩
  obtain ⟨returns, split, c₁, hfold, hs, hup, hrec⟩ := cleanupBreakingReturnConstructs_split hc h
  obtain ⟨hsettled, hkeep⟩ := recomputeCfg_keeps (hup.recorded hc hs) hrec
  refine ⟨hsettled, returns, split, hfold, hs.returns, fun V W m s => ?_⟩
  rw [hkeep.keepsRun_iff m s]
  exact hup.keepsRun_iff hc hs m s

/-- Two blocks leave early through a return that they share, and the other return merges the
rest. -/
def earlyReturns (value : Nat) : CFGStructurizer := ofNodes
  [{ succ := [1, 2],
     ir := { terminator :=
      { type := .condition, conditionalId := 1, trueBlock := some 1, falseBlock := some 2 } } },
    { succ := [3, 4], pred := [0],
      ir := { terminator :=
        { type := .condition, conditionalId := 1, trueBlock := some 3, falseBlock := some 4 } } },
    { succ := [3, 4], pred := [0],
      ir := { terminator :=
        { type := .condition, conditionalId := 1, trueBlock := some 3, falseBlock := some 4 } } },
    { pred := [1, 2], ir := { terminator := { type := .ret, returnValue := value } } },
    { succ := [5], pred := [1, 2],
      ir := { terminator := { type := .branch, directBlock := some 5 } } },
    { pred := [4], ir := { terminator := { type := .ret, returnValue := value } } }, {}] 0 6

theorem earlyReturns_recorded {value : Nat} (h : value = 0 ∨ value = 7) :
    (earlyReturns value).Recorded := by
  rcases h with rfl | rfl
  · exact (ofNodes_wellFormed rfl (by decide) (by decide) (by decide) (by decide) (by decide)
      (by decide) (by decide) (by decide)).recorded (by decide) (by decide)
  · exact (ofNodes_wellFormed rfl (by decide) (by decide) (by decide) (by decide) (by decide)
      (by decide) (by decide) (by decide)).recorded (by decide) (by decide)

/-- A machine whose branches are all taken. -/
def alwaysTrue : Machine Nat Unit where
  exec _ _ _ w := (0, w)
  truth _ := true
  word _ := 0

/-- Without a return value the iteration is right. -/
theorem earlyReturns_preserves : ∃ c, (earlyReturns 0).recomputeCfg 40 = .ok c ∧
    (∀ fuel c', c.cleanupBreakingReturnConstructs fuel = .ok (c', false) → c' = c) ∧
    (∀ fuel c', c.cleanupBreakingReturnConstructs fuel = .ok (c', true) →
      c'.Settled ∧ ∃ returns split,
        c.forwardPostVisitOrder.foldlM (c.classifyReturn fuel) (0, none) =
          .ok (returns, some split) ∧ c.Returns split ∧
        ∀ (V W : Type) (m : Machine V W) (s : Config V W), KeepsRun m s c split c' ↔
          (c.node split).ir.terminator.returnValue = 0 ∨
            ∀ k r, c.execute m s k ≠ some (split, r)) ∧
    ¬ ∃ f : Nat → CFGStructurizer, f 0 = c ∧
      ∀ n, ∃ fuel, (f n).cleanupBreakingReturnConstructs fuel = .ok (f (n + 1), true) := by
  obtain ⟨c, hok, -⟩ := exists_of_yields (x := (earlyReturns 0).recomputeCfg 40)
    (p := fun _ => true) (by decide +kernel)
  exact ⟨c, hok, cleanupBreakingReturnConstructs_preserves_iff
    (recomputeCfg_keeps (earlyReturns_recorded (.inl rfl)) hok).1⟩

/-- The shared return of a function with a value loses the value. -/
theorem earlyReturns_not_preserved : ∃ c c', (earlyReturns 7).recomputeCfg 40 = .ok c ∧ c.Settled ∧
    c.cleanupBreakingReturnConstructs 40 = .ok (c', true) ∧ c.Returns 3 ∧
    ¬ KeepsRun alwaysTrue { env := id, memory := () } c 3 c' := by
  obtain ⟨c, hok, hc⟩ := exists_of_yields (x := (earlyReturns 7).recomputeCfg 40)
    (p := fun c => yields (c.cleanupBreakingReturnConstructs 40) fun r => r.2 &&
      decide (c.Returns 3) &&
      decide ((c.execute alwaysTrue { env := id, memory := () } 2).map
        (fun x => (x.1, c.ending x.1 x.2.env)) = some (3, .ret, some 7)) &&
      decide ((r.1.execute alwaysTrue { env := id, memory := () } 2).map
        (fun x => (r.1.ending x.1 x.2.env)) = some (.ret, none))) (by decide +kernel)
  obtain ⟨⟨c', split⟩, hsplit, hr⟩ := exists_of_yields hc
  simp only [Bool.and_eq_true, decide_eq_true_eq, Option.map_eq_some_iff] at hr
  obtain ⟨⟨⟨rfl, hret⟩, ⟨n, r⟩, hbefore, hvalue⟩, ⟨n', r'⟩, hafter, hlost⟩ := hr
  refine ⟨c, c', hok, (recomputeCfg_keeps (earlyReturns_recorded (.inr rfl)) hok).1, hsplit, hret,
    fun hkeep => ?_⟩
  obtain ⟨rfl, hvalue⟩ := Prod.mk.inj hvalue
  obtain ⟨x, hx, -, hending⟩ := hkeep.reached 2 r hbefore
  obtain ⟨rfl, rfl⟩ := Prod.mk.inj (Option.some.inj (hafter.symm.trans hx))
  rw [hvalue, hlost] at hending
  cases (Prod.mk.inj hending).2

end DxilSpirv
