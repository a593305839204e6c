import DxilSpirv.Graph.Walk
import DxilSpirv.Spirv.Subgroup

/-!
# Lanes that run a graph of instructions together

Every lane is at a node of a graph, and in a turn some lanes that are at the same node run its
instruction together. Nothing is said about which lanes run together, so the executions are those
of any scheme of divergence and reconvergence. What can be said of the value of a node in a lane
rests on dominance (the node was run, and its operands not since) and on the turn in which the lane
last ran it.
-/

namespace DxilSpirv.Spirv

open DxilSpirv.Graph

/-- A graph of instructions: what the active lanes compute at a node, from the values of all lanes,
and where a lane goes from there, by its own values. -/
structure Lockstep (n : Nat) (V : Type) where
  entry : Nat
  eval : Nat → Nat → Finset (Fin n) → (Fin n → Nat → V) → Fin n → V
  next : Nat → (Nat → V) → Option Nat

namespace Lockstep

/-- Where the lanes are, the value each has last computed at every node, and the turn in which it
did so. -/
structure State (n : Nat) (V : Type) where
  clock : Nat
  pos : Fin n → Option Nat
  env : Fin n → Nat → V
  instance? : Fin n → Nat → Option Nat

variable {n : Nat} {V : Type} (m : Lockstep n V)

/-- All lanes are at the entry and have run nothing. -/
def start (env : Fin n → Nat → V) : State n V :=
  ⟨0, fun _ => some m.entry, env, fun _ _ => none⟩

/-- The values after the active lanes have run a node. -/
def turnEnv (s : State n V) (p : Nat) (active : Finset (Fin n)) (lane : Fin n) (q : Nat) : V :=
  if lane ∈ active ∧ q = p then m.eval s.clock p active s.env lane else s.env lane q

/-- The active lanes run a node together. -/
def turn (s : State n V) (p : Nat) (active : Finset (Fin n)) : State n V where
  clock := s.clock + 1
  pos lane := if lane ∈ active then m.next p (m.turnEnv s p active lane) else s.pos lane
  env := m.turnEnv s p active
  instance? lane q := if lane ∈ active ∧ q = p then some s.clock else s.instance? lane q

/-- The states of all executions. -/
inductive Reachable : State n V → Prop
  | start (env : Fin n → Nat → V) : Reachable (m.start env)
  | turn {s : State n V} {p : Nat} {active : Finset (Fin n)} (h : Reachable s)
      (hpos : ∀ lane ∈ active, s.pos lane = some p) : Reachable (m.turn s p active)

/-- A lane can go from one node to the other. -/
def Edge (a b : Nat) : Prop := ∃ env, m.next a env = some b

/-- Every way to the second node leads through the first, which is another one. -/
def StrictlyDominates (a b : Nat) : Prop := Dominates m.Edge m.entry a b ∧ a ≠ b

/-- The value of the node is a function of the lane's own values of its operands, which are always
computed before. -/
structure PureAt (q : Nat) (operands : List Nat) (f : (Nat → V) → V) : Prop where
  eval_eq : ∀ clock active env lane, m.eval clock q active env lane = f (env lane)
  congr : ∀ env env', (∀ a ∈ operands, env a = env' a) → f env = f env'
  dominates : ∀ a ∈ operands, m.StrictlyDominates a q

/-- All lanes that run the node together get one value. -/
def CommonAt (q : Nat) : Prop :=
  ∀ clock active env, ∀ lane ∈ active, ∀ lane' ∈ active,
    m.eval clock q active env lane = m.eval clock q active env lane'

variable {m} {s : State n V} {p q a b : Nat} {lane lane' : Fin n} {active : Finset (Fin n)}

theorem StrictlyDominates.trans (hab : m.StrictlyDominates a b) (hbp : m.StrictlyDominates b p)
    (hp : Reaches m.Edge m.entry p) : m.StrictlyDominates a p := by
  refine ⟨hab.1.trans hbp.1, ?_⟩
  rintro rfl
  exact hab.2 (hab.1.antisymm hbp.1 hp)

/-- What dominates a node past its first edge is its source or dominates the source. -/
theorem StrictlyDominates.of_edge (h : m.StrictlyDominates q b) (hab : m.Edge a b) :
    q = a ∨ m.StrictlyDominates q a := by
  by_cases hroot : b = m.entry
  · subst hroot
    exact absurd (dominates_root.mp h.1) h.2
  · have hpred := ((dominates_iff_preds hroot).mp h.1).resolve_left h.2 a hab
    by_cases hqa : q = a
    · exact Or.inl hqa
    · exact Or.inr ⟨hpred, hqa⟩

/-- The turns so far are over, and lanes are at nodes that can be reached. -/
structure Placed (m : Lockstep n V) (s : State n V) : Prop where
  reaches : ∀ lane p, s.pos lane = some p → Reaches m.Edge m.entry p
  instance_lt : ∀ lane q t, s.instance? lane q = some t → t < s.clock

theorem Reachable.placed (h : m.Reachable s) : Placed m s := by
  induction h with
  | start env =>
    constructor
    · intro lane p hp
      obtain rfl := Option.some.inj hp
      exact .refl
    · intro lane q t ht
      cases ht
  | @turn s p active h hpos ih =>
    constructor
    · intro lane b hb
      by_cases hin : lane ∈ active
      · have hnext : m.next p (m.turnEnv s p active lane) = some b := (if_pos hin).symm.trans hb
        exact (ih.reaches lane p (hpos lane hin)).tail ⟨_, hnext⟩
      · exact ih.reaches lane b ((if_neg hin).symm.trans hb)
    · intro lane q t ht
      change (if lane ∈ active ∧ q = p then some s.clock else s.instance? lane q) = some t at ht
      change t < s.clock + 1
      split at ht
      · obtain rfl := Option.some.inj ht
        omega
      · have hlt := ih.instance_lt lane q t ht
        omega

/-- A lane has run every node that strictly dominates the one it is at. -/
theorem Reachable.executed (h : m.Reachable s) (hp : s.pos lane = some p)
    (hq : m.StrictlyDominates q p) : s.instance? lane q ≠ none := by
  induction h generalizing lane p q with
  | start env =>
    obtain rfl := Option.some.inj hp
    exact absurd (dominates_root.mp hq.1) hq.2
  | @turn s r active h hpos ih =>
    change (if lane ∈ active ∧ q = r then some s.clock else s.instance? lane q) ≠ none
    by_cases hin : lane ∈ active
    · have hnext : m.next r (m.turnEnv s r active lane) = some p := (if_pos hin).symm.trans hp
      rcases hq.of_edge ⟨_, hnext⟩ with rfl | hdom
      · rw [if_pos ⟨hin, rfl⟩]
        exact Option.some_ne_none _
      · rw [if_neg fun hr => hdom.2 hr.2]
        exact ih (hpos lane hin) hdom
    · rw [if_neg fun hr => hin hr.1]
      exact ih ((if_neg hin).symm.trans hp) hq

/-- Two lanes that last ran a node together have one value of it, when it gives them one. -/
theorem Reachable.common (h : m.Reachable s) (hq : m.CommonAt q)
    (hsame : s.instance? lane q = s.instance? lane' q) (hrun : s.instance? lane q ≠ none) :
    s.env lane q = s.env lane' q := by
  induction h with
  | start env => exact absurd rfl hrun
  | @turn s p active h hpos ih =>
    have hplaced := h.placed
    change (if lane ∈ active ∧ q = p then some s.clock else s.instance? lane q) =
      (if lane' ∈ active ∧ q = p then some s.clock else s.instance? lane' q) at hsame
    change (if lane ∈ active ∧ q = p then some s.clock else s.instance? lane q) ≠ none at hrun
    change m.turnEnv s p active lane q = m.turnEnv s p active lane' q
    unfold turnEnv
    -- The clock of this turn is later than those of all turns before.
    have hlate : ∀ j, s.instance? j q ≠ some s.clock := by
      intro j hj
      have hlt := hplaced.instance_lt j q s.clock hj
      omega
    by_cases h1 : lane ∈ active ∧ q = p
    · by_cases h2 : lane' ∈ active ∧ q = p
      · obtain ⟨hin, rfl⟩ := h1
        rw [if_pos ⟨hin, rfl⟩, if_pos h2]
        exact hq _ _ _ lane hin lane' h2.1
      · rw [if_pos h1, if_neg h2] at hsame
        exact absurd hsame.symm (hlate lane')
    · by_cases h2 : lane' ∈ active ∧ q = p
      · rw [if_neg h1, if_pos h2] at hsame
        exact absurd hsame (hlate lane)
      · rw [if_neg h1, if_neg h2] at hsame ⊢
        rw [if_neg h1] at hrun
        exact ih hsame hrun

/-- The value of a node that strictly dominates the one a lane is at is that of its operands now:
none of them was run since. -/
theorem Reachable.pure {operands : List Nat} {f : (Nat → V) → V} (h : m.Reachable s)
    (hpure : m.PureAt q operands f) (hp : s.pos lane = some p) (hq : m.StrictlyDominates q p) :
    s.env lane q = f (s.env lane) := by
  induction h generalizing lane p with
  | start env =>
    obtain rfl := Option.some.inj hp
    exact absurd (dominates_root.mp hq.1) hq.2
  | @turn s r active h hpos ih =>
    change m.turnEnv s r active lane q = f (m.turnEnv s r active lane)
    by_cases hin : lane ∈ active
    · have hnext : m.next r (m.turnEnv s r active lane) = some p := (if_pos hin).symm.trans hp
      have hreach := h.placed.reaches lane r (hpos lane hin)
      have hkeep : (∀ a ∈ operands, a ≠ r) →
          f (m.turnEnv s r active lane) = f (s.env lane) := by
        intro hne
        apply hpure.congr
        intro a ha
        exact if_neg fun hr => hne a ha hr.2
      rcases hq.of_edge ⟨_, hnext⟩ with rfl | hdom
      · rw [hkeep fun a ha => (hpure.dominates a ha).2]
        exact (if_pos ⟨hin, rfl⟩).trans (hpure.eval_eq ..)
      · rw [hkeep fun a ha => ((hpure.dominates a ha).trans hdom hreach).2]
        exact (if_neg fun hr => hdom.2 hr.2).trans (ih (hpos lane hin) hdom)
    · have henv : m.turnEnv s r active lane = s.env lane := by
        funext a
        exact if_neg fun hr => hin hr.1
      rw [henv]
      exact ih ((if_neg hin).symm.trans hp) hq

end Lockstep

end DxilSpirv.Spirv
