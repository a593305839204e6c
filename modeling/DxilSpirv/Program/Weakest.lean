import Mathlib.Init

/-!
# Programs that may stop

A program over a state that either goes on or stops, where some ways to stop are faults. What has to
hold of the state before it for no fault to happen is computed from the program, exactly, and a run
that does not stop is taken apart step by step.
-/

namespace DxilSpirv.Program

/-- A program over the states `σ` that may stop. -/
abbrev Stoppable (σ Stop : Type) := StateT σ (Except Stop)

namespace Stoppable

variable {σ Stop α β : Type} (Fault : Stop → Prop)

/-- The program does not stop with a fault, and ends in the postcondition where it does not stop. -/
def Safe (m : Stoppable σ Stop α) (s : σ) (post : α → σ → Prop) : Prop :=
  match m s with
  | .ok (a, s') => post a s'
  | .error e => ¬ Fault e

/-- Stop here. -/
def stop (e : Stop) : Stoppable σ Stop α := fun _ => .error e

variable {s : σ} {post : α → σ → Prop}

@[simp] theorem safe_pure (a : α) : Safe Fault (pure a) s post ↔ post a s := Iff.rfl

@[simp] theorem safe_stop (e : Stop) : Safe Fault (stop e) s post ↔ ¬ Fault e := Iff.rfl

@[simp] theorem safe_bind (m : Stoppable σ Stop α) (f : α → Stoppable σ Stop β)
    {post : β → σ → Prop} :
    Safe Fault (m >>= f) s post ↔ Safe Fault m s fun a s' => Safe Fault (f a) s' post := by
  unfold Safe
  rw [show (m >>= f) s = (m s >>= fun r => f r.1 r.2) from rfl]
  cases m s with
  | error e => rfl
  | ok r => rfl

@[simp] theorem safe_map (f : α → β) (m : Stoppable σ Stop α) {post : β → σ → Prop} :
    Safe Fault (f <$> m) s post ↔ Safe Fault m s fun a s' => post (f a) s' := by
  rw [← bind_pure_comp, safe_bind]
  rfl

@[simp] theorem safe_get {post : σ → σ → Prop} :
    Safe Fault (get : Stoppable σ Stop σ) s post ↔ post s s := Iff.rfl

@[simp] theorem safe_set (s' : σ) {post : PUnit → σ → Prop} :
    Safe Fault (set s' : Stoppable σ Stop PUnit) s post ↔ post ⟨⟩ s' := Iff.rfl

@[simp] theorem safe_modify (f : σ → σ) {post : PUnit → σ → Prop} :
    Safe Fault (modify f : Stoppable σ Stop PUnit) s post ↔ post ⟨⟩ (f s) := Iff.rfl

@[simp] theorem safe_modifyGet (f : σ → α × σ) :
    Safe Fault (modifyGet f : Stoppable σ Stop α) s post ↔ post (f s).1 (f s).2 := Iff.rfl

@[simp] theorem safe_ite {p : Prop} [Decidable p] (m m' : Stoppable σ Stop α) :
    Safe Fault (if p then m else m') s post ↔
      (p → Safe Fault m s post) ∧ (¬ p → Safe Fault m' s post) := by
  by_cases h : p <;> simp [h]

variable {s' : σ}

/-- A program goes on after one that does not stop. -/
theorem bind_of_ok {m : Stoppable σ Stop α} {f : α → Stoppable σ Stop β} {a : α}
    (h : m s = .ok (a, s')) :
    (m >>= f) s = f a s' := by
  change (m s >>= fun r => f r.1 r.2) = f a s'
  rw [h]
  rfl

/-- Two programs in a row run when each does. -/
theorem bind_runs {m : Stoppable σ Stop α} {f : α → Stoppable σ Stop β} {b : β} :
    (m >>= f) s = .ok (b, s') ↔ ∃ a t, m s = .ok (a, t) ∧ f a t = .ok (b, s') := by
  change (m s >>= fun r => f r.1 r.2) = .ok (b, s') ↔ _
  cases m s with
  | error e => simp [bind, Except.bind]
  | ok r =>
    obtain ⟨a, t⟩ := r
    constructor
    · exact fun h => ⟨a, t, rfl, h⟩
    · rintro ⟨a', t', h, h'⟩
      obtain ⟨rfl, rfl⟩ := Prod.mk.inj (Except.ok.inj h)
      exact h'

/-- What a returned value runs to. -/
theorem pure_runs {a b : α} : (pure a : Stoppable σ Stop α) s = .ok (b, s') ↔ a = b ∧ s = s' := by
  change Except.ok (a, s) = .ok (b, s') ↔ _
  simp

/-- A program that stops does not run. -/
theorem stop_runs {e : Stop} {b : α} : (stop e : Stoppable σ Stop α) s = .ok (b, s') ↔ False := by
  simp [stop]

/-- What a look at the state runs to. -/
theorem get_runs {b : σ} : (get : Stoppable σ Stop σ) s = .ok (b, s') ↔ s = b ∧ s = s' := by
  change Except.ok (s, s) = .ok (b, s') ↔ _
  simp

/-- What a change of the state runs to. -/
theorem modify_runs {f : σ → σ} {b : PUnit} :
    (modify f : Stoppable σ Stop PUnit) s = .ok (b, s') ↔ f s = s' := by
  change Except.ok (PUnit.unit, f s) = .ok (b, s') ↔ _
  simp

/-- What a change of the state with a result runs to. -/
theorem modifyGet_runs {f : σ → α × σ} {b : α} :
    (modifyGet f : Stoppable σ Stop α) s = .ok (b, s') ↔ f s = (b, s') := by
  change Except.ok (f s) = .ok (b, s') ↔ _
  simp

/-- A program that runs as another one does, from another state, is as safe. -/
theorem Safe.congr {m m' : Stoppable σ Stop α} {s t : σ} {post : α → σ → Prop}
    (h : Safe Fault m' t post) (heq : m s = m' t) : Safe Fault m s post := by
  unfold Safe at h ⊢
  rwa [heq]

/-- A postcondition may be weakened. -/
theorem Safe.mono {m : Stoppable σ Stop α} {s : σ} {post post' : α → σ → Prop}
    (h : Safe Fault m s post) (hpost : ∀ a s', post a s' → post' a s') : Safe Fault m s post' := by
  unfold Safe at h ⊢
  split at h
  · exact hpost _ _ h
  · exact h

/-- What holds of a program's result holds of a safe run. -/
theorem safe_iff {m : Stoppable σ Stop α} {s : σ} {post : α → σ → Prop} :
    Safe Fault m s post ↔
      Safe Fault m s (fun _ _ => True) ∧ ∀ a s', m s = .ok (a, s') → post a s' := by
  unfold Safe
  cases hm : m s with
  | error e => exact ⟨fun h => ⟨h, nofun⟩, fun h => h.1⟩
  | ok r =>
    refine ⟨fun h => ⟨trivial, ?_⟩, fun h => h.2 r.1 r.2 rfl⟩
    rintro a s' ⟨⟩
    exact h

/-- A condition holds of every element of a list, in the state that the program leaves for the
elements before it. -/
def Along (ok : α → σ → Prop) (m : α → Stoppable σ Stop Unit) : List α → σ → Prop
  | [], _ => True
  | a :: l, s => ok a s ∧ ∀ s', m a s = .ok ((), s') → Along ok m l s'

/-- A program for every element of a list is safe when each is safe in the states that the ones
before it leave. -/
theorem safe_forM {ok : α → σ → Prop} {m : α → Stoppable σ Stop Unit}
    (h : ∀ a s, Safe Fault (m a) s (fun _ _ => True) ↔ ok a s) (l : List α) (s : σ) :
    Safe Fault (l.forM m) s (fun _ _ => True) ↔ Along ok m l s := by
  induction l generalizing s with
  | nil => exact Iff.rfl
  | cons a l ih =>
    change Safe Fault (m a >>= fun _ => l.forM m) s _ ↔ _
    rw [safe_bind, safe_iff, h, Along]
    refine and_congr_right fun _ => ⟨fun hrest s' hs' => ?_, fun hrest u s' hs' => ?_⟩
    · exact (ih s').mp (hrest () s' hs')
    · exact (ih s').mpr (hrest s' hs')

/-- A loop over a body that never faults never faults. -/
theorem safe_forM_of_forall {m : α → Stoppable σ Stop Unit}
    (h : ∀ a s, Safe Fault (m a) s fun _ _ => True) (l : List α) (s : σ) :
    Safe Fault (l.forM m) s fun _ _ => True := by
  induction l generalizing s with
  | nil => trivial
  | cons a l ih =>
    change Safe Fault (m a >>= fun _ => l.forM m) s _
    rw [safe_bind, safe_iff]
    exact ⟨h a s, fun _ s' _ => ih s'⟩

/-- A condition that does not depend on the state, of programs that do not stop where it holds. -/
theorem along_iff_forall {p : α → Prop} {m : α → Stoppable σ Stop Unit}
    (h : ∀ a s, p a → ∃ s', m a s = .ok ((), s')) (l : List α) (s : σ) :
    Along (fun a _ => p a) m l s ↔ ∀ a ∈ l, p a := by
  induction l generalizing s with
  | nil => simp [Along]
  | cons a l ih =>
    rw [Along, List.forall_mem_cons]
    refine and_congr_right fun hp => ⟨fun hrest => ?_, fun hrest s' _ => (ih s').mpr hrest⟩
    obtain ⟨s', hs'⟩ := h a s hp
    exact (ih s').mp (hrest s' hs')

end Stoppable

end DxilSpirv.Program
