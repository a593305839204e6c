import Mathlib.Init

/-!
# Runs that log what they rely on

A checked run does its steps in order, and logs an event wherever it relies on something; it stops
early or has a value. A run meets a postcondition when, as far as its events are allowed, it neither
faults nor has a value outside the postcondition.
-/

namespace DxilSpirv.Program

/-- A run: the events it logged, and its value or what stopped it. -/
structure Checked (Event Stop α : Type) where
  log : List Event
  result : Except Stop α

namespace Checked

variable {Event Stop α β : Type}

/-- The run that does nothing and has a value. -/
def done (a : α) : Checked Event Stop α := ⟨[], .ok a⟩

/-- The run that stops. -/
def stop (s : Stop) : Checked Event Stop α := ⟨[], .error s⟩

/-- The run that logs an event. -/
def record (e : Event) : Checked Event Stop Unit := ⟨[e], .ok ()⟩

/-- One run after the other. -/
def andThen (m : Checked Event Stop α) (f : α → Checked Event Stop β) : Checked Event Stop β :=
  match m.result with
  | .ok a => ⟨m.log ++ (f a).log, (f a).result⟩
  | .error s => ⟨m.log, .error s⟩

instance : Monad (Checked Event Stop) where
  pure := done
  bind := andThen

variable {Allowed : Event → Prop} {Fault : Stop → Prop} {ample : Prop}

/-- A run meets a postcondition: when every event it logged is allowed, it does not fault, and its
value is as stated; and where there is ample room, every event is allowed. -/
def Spec (Allowed : Event → Prop) (Fault : Stop → Prop) (ample : Prop) (m : Checked Event Stop α)
    (post : α → Prop) : Prop :=
  (ample ∨ ∀ e ∈ m.log, Allowed e) →
    (∀ e ∈ m.log, Allowed e) ∧ (∀ s, m.result = .error s → ¬ Fault s) ∧ ∀ a,
      m.result = .ok a → post a

/-- A value meets what it satisfies. -/
theorem Spec.done {post : α → Prop} {a : α} (h : post a) :
    Spec Allowed Fault ample (pure a) post := by
  intro _
  refine ⟨fun e mem => absurd mem List.not_mem_nil, fun s stopped => ?_, fun b value => ?_⟩
  · cases stopped
  · cases value
    exact h

/-- A stop that is no fault meets every postcondition. -/
theorem Spec.stop {post : α → Prop} {s : Stop} (h : ¬ Fault s) :
    Spec Allowed Fault ample (Checked.stop s) post := by
  intro _
  refine ⟨fun e mem => absurd mem List.not_mem_nil, fun t stopped => ?_, fun b value => ?_⟩
  · cases stopped
    exact h
  · cases value

/-- An event that ample room allows may be relied on. -/
theorem Spec.record {e : Event} (h : ample → Allowed e) :
    Spec Allowed Fault ample (Checked.record e) (fun _ => Allowed e) := by
  intro allowed
  have holds : Allowed e := allowed.elim h (fun all => all e (List.mem_singleton.2 rfl))
  refine ⟨fun e' mem => ?_, fun s stopped => ?_, fun _ _ => holds⟩
  · rw [List.mem_singleton.1 mem]
    exact holds
  · cases stopped

/-- A run after another meets what it meets from every value the first may have. -/
theorem Spec.bind {m : Checked Event Stop α} {f : α → Checked Event Stop β} {mid : α → Prop}
    {post : β → Prop} (first : Spec Allowed Fault ample m mid)
    (second : ∀ a, mid a → Spec Allowed Fault ample (f a) post) :
    Spec Allowed Fault ample (m >>= f) post := by
  change Spec Allowed Fault ample (m.andThen f) post
  unfold Spec Checked.andThen
  cases value : m.result with
  | error s =>
    intro allowed
    obtain ⟨all, faultless, _⟩ := first allowed
    refine ⟨all, fun t stopped => ?_, fun b value' => ?_⟩
    · cases stopped
      exact faultless s value
    · cases value'
  | ok a =>
    dsimp only
    intro allowed
    obtain ⟨all, _, holds⟩ :=
      first (allowed.imp_right fun h e mem => h e (List.mem_append_left _ mem))
    obtain ⟨all', faultless, holds'⟩ := second a (holds a value)
      (allowed.imp_right fun h e mem => h e (List.mem_append_right _ mem))
    exact ⟨fun e mem => (List.mem_append.1 mem).elim (all e) (all' e), faultless, holds'⟩

/-- A postcondition may be weakened. -/
theorem Spec.mono {m : Checked Event Stop α} {mid post : α → Prop}
    (h : Spec Allowed Fault ample m mid) (weaker : ∀ a, mid a → post a) :
    Spec Allowed Fault ample m post := by
  intro allowed
  obtain ⟨all, faultless, holds⟩ := h allowed
  exact ⟨all, faultless, fun a value => weaker a (holds a value)⟩

end Checked

end DxilSpirv.Program
