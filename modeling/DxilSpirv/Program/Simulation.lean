import Mathlib.Logic.Basic

/-!
# Simulations

Two programs that take steps until they have a result. Where each step of the first is one or more
of the second, they give the same results, and the first runs on exactly when the second does.
-/

namespace DxilSpirv.Program

variable {S T R Q : Type*} (step : S → S ⊕ R)

/-- The state after as many steps, or the result before them. -/
def run : Nat → S → S ⊕ R
  | 0, s => .inl s
  | k + 1, s => (step s).elim (run k) .inr

/-- A run that has a result. -/
def Gives (s : S) (r : R) : Prop := ∃ k, run step k s = .inr r

/-- A run from one state to another. -/
def Leads (s s' : S) : Prop := ∃ k, run step k s = .inl s'

variable {step} {s s' : S} {r r' : R}

theorem run_of_step (h : step s = .inl s') (k : Nat) : run step (k + 1) s = run step k s' := by
  rw [run, h]
  rfl

/-- A run is run on. -/
theorem run_add (j k : Nat) (s : S) :
    run step (j + k) s = (run step j s).elim (run step k) .inr := by
  induction j generalizing s with
  | zero => rw [Nat.zero_add]; rfl
  | succ j ih =>
    rw [Nat.add_right_comm, run, run]
    cases step s with
    | inl s' => exact ih s'
    | inr r => rfl

/-- Runs one after the other. -/
theorem run_trans {j k : Nat} (h : run step j s = .inl s') :
    run step (j + k) s = run step k s' := by
  rw [run_add, h]
  rfl

/-- A result stays. -/
theorem run_mono {j k : Nat} (hjk : j ≤ k) (h : run step j s = .inr r) : run step k s = .inr r := by
  obtain ⟨k, rfl⟩ := Nat.exists_eq_add_of_le hjk
  rw [run_add, h]
  rfl

/-- A run has one result. -/
theorem Gives.unique (h : Gives step s r) (h' : Gives step s r') : r = r' := by
  obtain ⟨j, hj⟩ := h
  obtain ⟨k, hk⟩ := h'
  rcases Nat.le_total j k with hjk | hkj
  · exact Sum.inr.inj ((run_mono hjk hj).symm.trans hk)
  · exact Sum.inr.inj (hj.symm.trans (run_mono hkj hk))

theorem Leads.refl (s : S) : Leads step s s := ⟨0, rfl⟩

theorem Leads.trans {s'' : S} (h : Leads step s s') (h' : Leads step s' s'') :
    Leads step s s'' := by
  obtain ⟨j, hj⟩ := h
  obtain ⟨k, hk⟩ := h'
  exact ⟨j + k, (run_trans hj).trans hk⟩

/-- A step, and a run from there. -/
theorem Leads.head {s'' : S} (h : step s = .inl s') (h' : Leads step s' s'') :
    Leads step s s'' := by
  obtain ⟨k, hk⟩ := h'
  exact ⟨k + 1, (run_of_step h k).trans hk⟩

/-- What a state gives, the states before it give. -/
theorem Leads.gives (h : Leads step s s') (hgives : Gives step s' r) : Gives step s r := by
  obtain ⟨j, hj⟩ := h
  obtain ⟨k, hk⟩ := hgives
  exact ⟨j + k, (run_trans hj).trans hk⟩

/-- Nothing else is given. -/
theorem Leads.gives_iff (h : Leads step s s') : Gives step s r ↔ Gives step s' r := by
  refine ⟨fun ⟨k, hk⟩ => ?_, h.gives⟩
  obtain ⟨j, hj⟩ := h
  exact ⟨k, (run_trans hj).symm.trans (run_mono (Nat.le_add_left k j) hk)⟩

/-- A step that has a result. -/
theorem gives_of_step (h : step s = .inr r) : Gives step s r := ⟨1, by rw [run, h]; rfl⟩

variable {step' : T → T ⊕ Q} {Rel : S → T → Prop} {Same : R → Q → Prop} {t : T}

/-- One step of the first program is one or more of the second, from related states to related
states or to the same results. -/
structure Simulates (step : S → S ⊕ R) (step' : T → T ⊕ Q) (Rel : S → T → Prop)
    (Same : R → Q → Prop) : Prop where
  goes_on : ∀ s t s', Rel s t → step s = .inl s' →
    ∃ t₁ t₂ t', Leads step' t t₁ ∧ step' t₁ = .inl t₂ ∧ Leads step' t₂ t' ∧ Rel s' t'
  ends : ∀ s t r, Rel s t → step s = .inr r → ∃ q, Gives step' t q ∧ Same r q

/-- Where the first program goes on, so does the second, for no fewer steps. -/
theorem Simulates.run (h : Simulates step step' Rel Same) (hrel : Rel s t) {k : Nat} {s' : S}
    (hrun : Program.run step k s = .inl s') :
    ∃ j t', k ≤ j ∧ Program.run step' j t = .inl t' ∧ Rel s' t' := by
  induction k generalizing s t with
  | zero => exact ⟨0, t, Nat.le_refl 0, rfl, Sum.inl.inj hrun ▸ hrel⟩
  | succ k ih =>
    rw [Program.run] at hrun
    cases hstep : step s with
    | inl s₁ =>
      rw [hstep] at hrun
      obtain ⟨t₁, t₂, t₃, ⟨i, hi⟩, hone, ⟨j, hj⟩, hrel₁⟩ := h.goes_on s t s₁ hrel hstep
      obtain ⟨j', t', hle, hj', hrel'⟩ := ih hrel₁ hrun
      refine ⟨i + (j + j' + 1), t', by omega, ?_, hrel'⟩
      rw [run_trans hi, run_of_step hone, run_trans hj, hj']
    | inr r =>
      rw [hstep] at hrun
      exact absurd hrun (by simp)

/-- What the first program gives, the second does. -/
theorem Simulates.gives (h : Simulates step step' Rel Same) (hrel : Rel s t) {r : R}
    (hgives : Gives step s r) :
    ∃ q, Gives step' t q ∧ Same r q := by
  obtain ⟨k, hk⟩ := hgives
  induction k generalizing s t with
  | zero => exact absurd hk (by simp [Program.run])
  | succ k ih =>
    rw [Program.run] at hk
    cases hstep : step s with
    | inl s₁ =>
      rw [hstep] at hk
      obtain ⟨t₁, t₂, t₃, hfirst, hone, hrest, hrel₁⟩ := h.goes_on s t s₁ hrel hstep
      obtain ⟨q, hq, hsame⟩ := ih hrel₁ hk
      exact ⟨q, (hfirst.trans (hrest.head hone)).gives hq, hsame⟩
    | inr r' =>
      rw [hstep] at hk
      obtain rfl := Sum.inr.inj hk
      exact h.ends s t r' hrel hstep

/-- What the second program gives, the first does: otherwise it would run on for longer than the
second. -/
theorem Simulates.gives_of (h : Simulates step step' Rel Same) (hrel : Rel s t) {q : Q}
    (hgives : Gives step' t q) :
    ∃ r, Gives step s r ∧ Same r q := by
  obtain ⟨k, hk⟩ := hgives
  cases hrun : Program.run step k s with
  | inl s' =>
    obtain ⟨j, t', hle, hj, -⟩ := h.run hrel hrun
    exact absurd ((run_mono hle hk).symm.trans hj) (by simp)
  | inr r =>
    obtain ⟨q', hq', hsame⟩ := h.gives hrel ⟨k, hrun⟩
    exact ⟨r, ⟨k, hrun⟩, Gives.unique ⟨k, hk⟩ hq' ▸ hsame⟩

end DxilSpirv.Program
