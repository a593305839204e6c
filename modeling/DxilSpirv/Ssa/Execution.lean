import Mathlib.Data.Option.Basic
import DxilSpirv.Cfg.Node
import DxilSpirv.Ssa.Machine

/-!
# Executions of a function

A function is executed block after block from its entry. An execution is given by the block and
the configuration after each number of branches, and it ends in a block that passes control
nowhere.
-/

namespace DxilSpirv

variable {V W : Type} (m : Machine V W)

/-- The block that follows is one of the targets of the terminator. -/
theorem Machine.next_mem_targets {t : Terminator} {e : Env V} {n : Nat} (h : m.next t e = some n) :
    n ∈ t.targets := by
  unfold Machine.next at h
  unfold Terminator.targets
  cases ht : t.type with
  | branch =>
    simp only [ht] at h ⊢
    exact Option.mem_toList.mpr h
  | condition =>
    simp only [ht] at h ⊢
    split at h
    · exact List.mem_append_left _ (Option.mem_toList.mpr h)
    · exact List.mem_append_right _ (Option.mem_toList.mpr h)
  | switch =>
    simp only [ht, Option.map_eq_some_iff, Option.or_eq_some_iff] at h ⊢
    obtain ⟨k, hk, rfl⟩ := h
    refine List.mem_map_of_mem ?_
    rcases hk with hk | ⟨-, hk⟩
    · exact List.mem_of_find?_eq_some hk
    · exact List.mem_of_find?_eq_some hk
  | unreachable | ret | kill => simp [ht] at h

/-- Retargeting a terminator renames the block that follows. -/
theorem Machine.next_retarget (t : Terminator) (e : Env V) (toPrev toNext : Nat) :
    m.next (t.retarget toPrev toNext) e =
      (m.next t e).map fun n => if n = toPrev then toNext else n := by
  have ho : ∀ o : Option Nat, (if o = some toPrev then some toNext else o) =
      o.map fun n => if n = toPrev then toNext else n := by
    intro o
    cases o with
    | none => rfl
    | some n => by_cases h : n = toPrev <;> simp [h]
  unfold Machine.next
  cases ht : t.type with
  | branch => simp only [Terminator.retarget, ht, ho]
  | condition =>
    simp only [Terminator.retarget, ht, ho]
    split <;> rfl
  | switch =>
    -- neither the value of a label nor whether it is the default is renamed
    have hfind : ∀ q : TerminatorCase → Bool,
        (∀ k : TerminatorCase, q (if k.node = toPrev then { k with node := toNext } else k) = q k) →
        (t.retarget toPrev toNext).cases.find? q = (t.cases.find? q).map fun k =>
          if k.node = toPrev then { k with node := toNext } else k := by
      intro q hq
      rw [Terminator.retarget, List.find?_map]
      congr 2
      funext k
      exact hq k
    have htype : (t.retarget toPrev toNext).type = .switch := ht
    have hid : (t.retarget toPrev toNext).conditionalId = t.conditionalId := rfl
    simp only [htype, hid]
    rw [hfind _ fun k => by split <;> rfl, hfind _ fun k => by split <;> rfl, ← Option.map_or,
      Option.map_map, Option.map_map]
    congr 1
    funext k
    dsimp only [Function.comp]
    split <;> rfl
  | unreachable | ret | kill => simp only [Terminator.retarget, ht, Option.map_none]

namespace CFGStructurizer

variable (c : CFGStructurizer)

/-- The block that is executed after `k` branches and the configuration at its end. -/
def execute (s : Config V W) : Nat → Option (Nat × Config V W)
  | 0 => some (c.entryBlock, m.run (c.node c.entryBlock).ir.operations s)
  | k + 1 => (execute s k).bind fun r =>
      (m.next (c.node r.1).ir.terminator r.2.env).map fun n =>
        (n, m.run (c.node n).ir.operations
          { r.2 with env := enter r.1 (c.node n).ir.phi r.2.env })

/-- How a block ends an execution, and the value it returns. -/
def ending (n : Nat) (e : Env V) : TerminatorType × Option V :=
  let t := (c.node n).ir.terminator
  (t.type, if t.returnValue = 0 then none else some (e t.returnValue))

variable {c} {c' : CFGStructurizer}

/-- An execution depends on the contents of the blocks only. -/
theorem execute_congr (hentry : c'.entryBlock = c.entryBlock)
    (hir : ∀ n, (c'.node n).ir = (c.node n).ir) (s : Config V W) (k : Nat) :
    c'.execute m s k = c.execute m s k := by
  induction k with
  | zero => simp only [execute, hentry, hir]
  | succ k ih => simp only [execute, ih, hir]

/-- Equal contents end an execution alike. -/
theorem ending_congr {n : Nat} (hir : (c'.node n).ir = (c.node n).ir) (e : Env V) :
    c'.ending n e = c.ending n e := by
  simp only [ending, hir]

end CFGStructurizer

end DxilSpirv
