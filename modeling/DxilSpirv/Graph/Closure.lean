import DxilSpirv.Graph.Walk
import Mathlib.Data.Finset.Card

/-!
# Closure by depth-first search

A search that treats every successor of what it enters, whether or not the successor was entered
before, and enters each vertex once. What was treated is exactly what can be reached from the roots
by at least one edge, in any graph and with any set of vertices entered before.
-/

namespace DxilSpirv.Graph

variable {α σ : Type*}

/-- `w` is a successor of `u`. -/
def Successor (succ : α → List α) (u w : α) : Prop := w ∈ succ u

/-- Enter a vertex that was not entered before: its successors are treated and explored in turn. -/
def explore [DecidableEq α] (succ : α → List α) (treat : α → σ → σ) :
    Nat → List α × σ → α → Option (List α × σ)
  | 0, _, _ => none
  | fuel + 1, s, v =>
    if v ∈ s.1 then some s
    else (succ v).foldlM (fun s w => explore succ treat fuel (s.1, treat w s.2) w) (v :: s.1, s.2)

/-- What a piece of a search adds, begun at some vertices, some of them treated at the beginning. -/
structure Explored (succ : α → List α) (treat : α → σ → σ) (start direct : List α)
    (s s' : List α × σ) (treated : List α) : Prop where
  mono : ∀ x ∈ s.1, x ∈ s'.1
  entered : ∀ x ∈ start, x ∈ s'.1
  data : s'.2 = treated.foldl (fun d w => treat w d) s.2
  mem_treated : ∀ w, w ∈ treated ↔ w ∈ direct ∨ ∃ u ∈ s'.1, u ∉ s.1 ∧ w ∈ succ u
  closed : ∀ u ∈ s'.1, u ∉ s.1 → ∀ w ∈ succ u, w ∈ s'.1
  reached : ∀ u ∈ s'.1, u ∉ s.1 → ∃ r ∈ start, Reaches (Successor succ) r u

namespace Explored

variable {succ : α → List α} {treat : α → σ → σ} {start start' direct direct' : List α}
  {s s' s'' : List α × σ} {treated treated' : List α} {v : α}

/-- Nothing is begun. -/
theorem refl (h : ∀ x ∈ start, x ∈ s.1) : Explored succ treat start [] s s [] where
  mono _ hx := hx
  entered := h
  data := rfl
  mem_treated w := by
    constructor
    · intro hw
      cases hw
    · rintro (hw | ⟨u, hu, hn, -⟩)
      · cases hw
      · exact absurd hu hn
  closed u hu hn := absurd hu hn
  reached u hu hn := absurd hu hn

/-- One piece after another. -/
theorem trans (h : Explored succ treat start direct s s' treated)
    (h' : Explored succ treat start' direct' s' s'' treated') :
    Explored succ treat (start ++ start') (direct ++ direct') s s'' (treated ++ treated') where
  mono x hx := h'.mono x (h.mono x hx)
  entered x hx := (List.mem_append.mp hx).elim (fun hx => h'.mono x (h.entered x hx)) (h'.entered x)
  data := by rw [h'.data, h.data, List.foldl_append]
  mem_treated w := by
    rw [List.mem_append, List.mem_append, h.mem_treated, h'.mem_treated]
    constructor
    · rintro ((hw | ⟨u, hu, hn, hw⟩) | (hw | ⟨u, hu, hn, hw⟩))
      · exact Or.inl (Or.inl hw)
      · exact Or.inr ⟨u, h'.mono u hu, hn, hw⟩
      · exact Or.inl (Or.inr hw)
      · exact Or.inr ⟨u, hu, fun hs => hn (h.mono u hs), hw⟩
    · rintro ((hw | hw) | ⟨u, hu, hn, hw⟩)
      · exact Or.inl (Or.inl hw)
      · exact Or.inr (Or.inl hw)
      · by_cases hmid : u ∈ s'.1
        · exact Or.inl (Or.inr ⟨u, hmid, hn, hw⟩)
        · exact Or.inr (Or.inr ⟨u, hu, hmid, hw⟩)
  closed u hu hn w hw := by
    by_cases hmid : u ∈ s'.1
    · exact h'.mono w (h.closed u hmid hn w hw)
    · exact h'.closed u hu hmid w hw
  reached u hu hn := by
    by_cases hmid : u ∈ s'.1
    · obtain ⟨r, hr, hreach⟩ := h.reached u hmid hn
      exact ⟨r, List.mem_append_left _ hr, hreach⟩
    · obtain ⟨r, hr, hreach⟩ := h'.reached u hu hmid
      exact ⟨r, List.mem_append_right _ hr, hreach⟩

/-- A vertex that is treated before it is explored. -/
theorem treat_first (h : Explored succ treat [v] [] (s.1, treat v s.2) s' treated) :
    Explored succ treat [v] [v] s s' (v :: treated) where
  mono := h.mono
  entered := h.entered
  data := h.data
  mem_treated w := by
    rw [List.mem_cons, h.mem_treated, List.mem_singleton]
    simp
  closed := h.closed
  reached := h.reached

/-- A vertex that is entered, once its successors were gone through. -/
theorem enter (hv : v ∉ s.1)
    (h : Explored succ treat (succ v) (succ v) (v :: s.1, s.2) s' treated) :
    Explored succ treat [v] [] s s' treated where
  mono x hx := h.mono x (List.mem_cons_of_mem v hx)
  entered x hx := by
    rw [List.mem_singleton] at hx
    exact hx ▸ h.mono v List.mem_cons_self
  data := h.data
  mem_treated w := by
    rw [h.mem_treated]
    constructor
    · rintro (hw | ⟨u, hu, hn, hw⟩)
      · exact Or.inr ⟨v, h.mono v List.mem_cons_self, hv, hw⟩
      · exact Or.inr ⟨u, hu, fun hs => hn (List.mem_cons_of_mem v hs), hw⟩
    · rintro (hw | ⟨u, hu, hn, hw⟩)
      · cases hw
      · by_cases huv : u = v
        · exact Or.inl (huv ▸ hw)
        · exact Or.inr ⟨u, hu, fun hs => (List.mem_cons.mp hs).elim huv hn, hw⟩
  closed u hu hn w hw := by
    by_cases huv : u = v
    · exact h.entered w (huv ▸ hw)
    · exact h.closed u hu (fun hs => (List.mem_cons.mp hs).elim huv hn) w hw
  reached u hu hn := by
    refine ⟨v, List.mem_singleton_self v, ?_⟩
    by_cases huv : u = v
    · exact huv ▸ Relation.ReflTransGen.refl
    · obtain ⟨r, hr, hreach⟩ := h.reached u hu fun hs => (List.mem_cons.mp hs).elim huv hn
      exact Relation.ReflTransGen.head hr hreach

end Explored

variable {succ : α → List α} {treat : α → σ → σ}

/-- What is treated after a search from roots, one after the other, with nothing entered before. -/
theorem mem_treated_of_roots {roots : List α} {s s' : List α × σ} {treated : List α}
    (h : Explored succ treat roots [] s s' treated) (hs : s.1 = []) (w : α) :
    w ∈ treated ↔ ∃ r ∈ roots, Relation.TransGen (Successor succ) r w := by
  have hnew : ∀ u, u ∉ s.1 := fun u hu => by rw [hs] at hu; cases hu
  rw [h.mem_treated]
  constructor
  · rintro (hw | ⟨u, hu, -, hw⟩)
    · cases hw
    · obtain ⟨r, hr, hreach⟩ := h.reached u hu (hnew u)
      exact ⟨r, hr, Relation.TransGen.tail' hreach hw⟩
  · rintro ⟨r, hr, hreach⟩
    obtain ⟨u, hru, huw⟩ := Relation.TransGen.tail'_iff.mp hreach
    refine Or.inr ⟨u, ?_, hnew u, huw⟩
    clear huw hreach
    induction hru with
    | refl => exact h.entered r hr
    | tail hbefore hedge ih => exact h.closed _ ih (hnew _) _ hedge

variable [DecidableEq α] {univ : Finset α}

/-- How many vertices of a universe were not entered. -/
def remaining (univ : Finset α) (entered : List α) : Nat := (univ.filter (· ∉ entered)).card

theorem remaining_mono {l l' : List α} (h : ∀ x ∈ l, x ∈ l') :
    remaining univ l' ≤ remaining univ l := by
  refine Finset.card_le_card fun x hx => ?_
  rw [Finset.mem_filter] at hx ⊢
  exact ⟨hx.1, fun hl => hx.2 (h x hl)⟩

theorem remaining_cons {l : List α} {v : α} (hv : v ∈ univ) (hn : v ∉ l) :
    remaining univ (v :: l) < remaining univ l := by
  refine Finset.card_lt_card (Finset.ssubset_iff_of_subset ?_ |>.mpr ⟨v, ?_, ?_⟩)
  · intro x hx
    rw [Finset.mem_filter] at hx ⊢
    exact ⟨hx.1, fun hl => hx.2 (List.mem_cons_of_mem v hl)⟩
  · exact Finset.mem_filter.mpr ⟨hv, hn⟩
  · simp

/-- Exploring vertices one after the other, each with what is done to it before. -/
theorem foldlM_explored (treat : α → σ → σ) (step : List α × σ → α → Option (List α × σ))
    (direct : List α → List α) (hdirect : ∀ w l, direct (w :: l) = direct [w] ++ direct l)
    (hnil : direct [] = []) (n : Nat)
    (hstep : ∀ s w, w ∈ univ → remaining univ s.1 ≤ n →
      ∃ s' treated, step s w = some s' ∧ Explored succ treat [w] (direct [w]) s s' treated)
    (l : List α) (hl : ∀ w ∈ l, w ∈ univ) (s : List α × σ) (hn : remaining univ s.1 ≤ n) :
    ∃ s' treated, l.foldlM step s = some s' ∧ Explored succ treat l (direct l) s s' treated := by
  induction l generalizing s with
  | nil =>
    refine ⟨s, [], rfl, ?_⟩
    rw [hnil]
    exact Explored.refl fun x hx => absurd hx List.not_mem_nil
  | cons w l ih =>
    obtain ⟨s₁, treated₁, hrun₁, h₁⟩ := hstep s w (hl w List.mem_cons_self) hn
    obtain ⟨s₂, treated₂, hrun₂, h₂⟩ := ih (fun x hx => hl x (List.mem_cons_of_mem w hx)) s₁
      ((remaining_mono h₁.mono).trans hn)
    refine ⟨s₂, treated₁ ++ treated₂, ?_, ?_⟩
    · rw [List.foldlM_cons, hrun₁]
      exact hrun₂
    · rw [hdirect]
      exact h₁.trans h₂

/-- With fuel for every vertex that was not entered a search ends. -/
theorem explore_spec (hclosed : ∀ x ∈ univ, ∀ w ∈ succ x, w ∈ univ) (fuel : Nat) (s : List α × σ)
    (v : α) (hv : v ∈ univ) (hfuel : remaining univ s.1 < fuel) :
    ∃ s' treated, explore succ treat fuel s v = some s' ∧
      Explored succ treat [v] [] s s' treated := by
  induction fuel generalizing s v with
  | zero => exact absurd hfuel (Nat.not_lt_zero _)
  | succ fuel ih =>
    by_cases hseen : v ∈ s.1
    · exact ⟨s, [], if_pos hseen, Explored.refl (by simpa using hseen)⟩
    · have hless := remaining_cons hv hseen
      obtain ⟨s', treated, hrun, h⟩ := foldlM_explored treat
        (fun s w => explore succ treat fuel (s.1, treat w s.2) w) id
        (fun w l => rfl) rfl (fuel - 1) (fun s w hw hn => by
          obtain ⟨s', treated, hrun, h⟩ := ih (s.1, treat w s.2) w hw (by
            show remaining univ s.1 < fuel
            omega)
          exact ⟨s', w :: treated, hrun, h.treat_first⟩)
        (succ v) (hclosed v hv) (v :: s.1, s.2) (by show remaining univ (v :: s.1) ≤ _; omega)
      refine ⟨s', treated, ?_, h.enter hseen⟩
      rw [explore, if_neg hseen]
      exact hrun

variable {P : σ → Prop}

/-- What every treatment keeps is kept by a search. -/
theorem explore_keeps (htreat : ∀ w d, P d → P (treat w d)) (fuel : Nat) {s s' : List α × σ} {v : α}
    (h : explore succ treat fuel s v = some s') (hs : P s.2) : P s'.2 := by
  induction fuel generalizing s s' v with
  | zero => cases h
  | succ fuel ih =>
    rw [explore] at h
    split at h
    · cases h
      exact hs
    · have hfold : ∀ (l : List α) (s : List α × σ), P s.2 →
          l.foldlM (fun s w => explore succ treat fuel (s.1, treat w s.2) w) s = some s' →
              P s'.2 := by
        intro l
        induction l with
        | nil =>
          intro s hs h
          cases h
          exact hs
        | cons w l ihl =>
          intro s hs h
          rw [List.foldlM_cons, Option.bind_eq_bind, Option.bind_eq_some_iff] at h
          obtain ⟨s₁, h₁, h⟩ := h
          exact ihl s₁ (ih h₁ (htreat w s.2 hs)) h
      exact hfold (succ v) (v :: s.1, s.2) hs h

end DxilSpirv.Graph
