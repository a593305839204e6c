import DxilSpirv.Graph.Dfs
import DxilSpirv.Graph.Orders

/-!
# Orders in which dominators come first

A list in which every vertex but the root comes after one of its predecessors lists every vertex
after its dominators. Breadth-first orders and reversed post orders are such lists.
-/

namespace DxilSpirv.Graph

variable {α : Type} {succ : α → List α} {root a v : α} {l m : List α}

/-- Every vertex but the root comes after a predecessor. -/
def Parented (succ : α → List α) (root : α) (l : List α) : Prop :=
  ∀ before v after, l = before ++ v :: after → v = root ∨ ∃ u ∈ before, v ∈ succ u

namespace Parented

/-- A walk from the root leads to every vertex through vertices listed before it. -/
theorem exists_walk (h : Parented succ root l) (before : List α) :
    ∀ v after, l = before ++ v :: after →
      ∃ p, Walk (fun a b => b ∈ succ a) root v p ∧ ∀ x ∈ p, x ∈ before ∨ x = v := by
  induction hn : before.length using Nat.strongRecOn generalizing before with
  | ind n ih =>
    intro v after hl
    rcases h before v after hl with rfl | ⟨u, hu, hv⟩
    · exact ⟨[v], .single v, fun x hx => Or.inr (List.mem_singleton.mp hx)⟩
    · obtain ⟨first, rest, rfl⟩ := List.append_of_mem hu
      have hlt : first.length < n := by
        rw [← hn, List.length_append, List.length_cons]
        omega
      obtain ⟨p, hp, hsub⟩ := ih first.length hlt first rfl u (rest ++ v :: after)
        (by rw [hl]; simp)
      refine ⟨p ++ [v], hp.snoc hv, fun x hx => ?_⟩
      rcases List.mem_append.mp hx with hx | hx
      · rcases hsub x hx with hx | rfl
        · exact Or.inl (List.mem_append_left _ hx)
        · exact Or.inl hu
      · exact Or.inr (List.mem_singleton.mp hx)

/-- Dominators come first. -/
theorem dominator_first (h : Parented succ root l)
    (hdom : Dominates (fun a b => b ∈ succ a) root a v) (hne : a ≠ v) {before after : List α}
    (hl : l = before ++ v :: after) : a ∈ before := by
  obtain ⟨p, hp, hsub⟩ := h.exists_walk before v after hl
  exact (hsub a (hdom p hp)).resolve_right hne

/-- More vertices at the end, each with a predecessor in the list. -/
theorem append (h : Parented succ root l) (hm : ∀ v ∈ m, ∃ u ∈ l, v ∈ succ u) :
    Parented succ root (l ++ m) := by
  intro before v after hl
  rcases List.append_eq_append_iff.mp hl with ⟨middle, rfl, hright⟩ | ⟨middle, hleft, hright⟩
  · obtain ⟨u, hu, hv⟩ := hm v (by rw [hright]; simp)
    exact Or.inr ⟨u, List.mem_append_left _ hu, hv⟩
  · cases middle with
    | nil =>
      rw [List.nil_append] at hright
      rw [List.append_nil] at hleft
      obtain ⟨u, hu, hv⟩ := hm v (by rw [← hright]; simp)
      exact Or.inr ⟨u, hleft ▸ hu, hv⟩
    | cons x middle =>
      obtain ⟨rfl, hright⟩ := List.cons.inj hright
      exact h before v middle hleft

end Parented

variable [DecidableEq α]

/-- A breadth-first search adds vertices after a predecessor. -/
theorem breadthFirst_parented {fuel : Nat} {seen queue : List α} (h : Parented succ root seen)
    (hqueue : ∀ v ∈ queue, v ∈ seen) : Parented succ root (breadthFirst succ fuel seen queue) := by
  induction fuel generalizing seen queue with
  | zero => exact h
  | succ fuel ih =>
    cases queue with
    | nil => exact h
    | cons v queue =>
      have hnew := (fresh_spec seen (succ v)).2.1
      refine ih (h.append fun w hw => ⟨v, hqueue v (List.mem_cons_self ..), (hnew w hw).2⟩) ?_
      intro w hw
      rcases List.mem_append.mp hw with hw | hw
      · exact List.mem_append_left _ (hqueue w (List.mem_cons_of_mem v hw))
      · exact List.mem_append_right _ hw

theorem parented_breadthFirst (succ : α → List α) (root : α) (fuel : Nat) :
    Parented succ root (breadthFirst succ fuel [root] [root]) := by
  refine breadthFirst_parented ?_ fun v hv => hv
  intro before v after hl
  cases before with
  | nil => exact Or.inl (List.cons.inj hl).1.symm
  | cons x before => simp at hl

/-- Every vertex that a search leaves is one it was started from or comes before a predecessor. -/
def LeftAfter (succ : α → List α) (sources new : List α) : Prop :=
  ∀ before v after, new = before ++ v :: after → v ∈ sources ∨ ∃ u ∈ after, v ∈ succ u

omit [DecidableEq α] in
/-- One search after another. -/
theorem LeftAfter.append {sources sources' new new' : List α} (h : LeftAfter succ sources new)
    (h' : LeftAfter succ sources' new') : LeftAfter succ (sources ++ sources') (new ++ new') := by
  intro before v after hl
  rcases List.append_eq_append_iff.mp hl with ⟨middle, rfl, hright⟩ | ⟨middle, hleft, hright⟩
  · rcases h' middle v after hright with hv | hv
    · exact Or.inl (List.mem_append_right _ hv)
    · exact Or.inr hv
  · cases middle with
    | nil =>
      rcases h' [] v after (by simpa using hright.symm) with hv | hv
      · exact Or.inl (List.mem_append_right _ hv)
      · exact Or.inr hv
    | cons x middle =>
      obtain ⟨rfl, rfl⟩ := List.cons.inj hright
      rcases h before v middle hleft with hv | ⟨u, hu, hv⟩
      · exact Or.inl (List.mem_append_left _ hv)
      · exact Or.inr ⟨u, List.mem_append_left _ hu, hv⟩

/-- What a depth-first search leaves. -/
theorem postOrder_leftAfter (succ : α → List α) (fuel : Nat) : ∀ (s : List α × List α) (v : α),
    ∃ new, (postOrder succ fuel s v).2 = s.2 ++ new ∧ LeftAfter succ [v] new := by
  have hnil : ∀ sources : List α, LeftAfter succ sources [] := fun sources before v after h =>
    by simp at h
  induction fuel with
  | zero => exact fun s v => ⟨[], (List.append_nil _).symm, hnil _⟩
  | succ fuel ih =>
    intro s v
    rw [postOrder]
    split
    · exact ⟨[], (List.append_nil _).symm, hnil _⟩
    have hscan : ∀ (l : List α) (t : List α × List α),
        ∃ new, (l.foldl (postOrder succ fuel) t).2 = t.2 ++ new ∧ LeftAfter succ l new := by
      intro l
      induction l with
      | nil => exact fun t => ⟨[], (List.append_nil _).symm, hnil _⟩
      | cons w l ihl =>
        intro t
        obtain ⟨new, hnew, hleft⟩ := ih t w
        obtain ⟨new', hnew', hleft'⟩ := ihl (postOrder succ fuel t w)
        refine ⟨new ++ new', ?_, hleft.append hleft'⟩
        rw [List.foldl_cons, hnew', hnew, List.append_assoc]
    obtain ⟨new, hnew, hleft⟩ := hscan (succ v) (v :: s.1, s.2)
    refine ⟨new ++ [v], by simp only; rw [hnew, List.append_assoc], ?_⟩
    -- The vertex itself is left last, after all that was found from its successors.
    intro before x after hl
    rcases List.append_eq_append_iff.mp hl with ⟨middle, -, hright⟩ | ⟨middle, hleft', hright⟩
    · cases middle with
      | nil => exact Or.inl (by simpa using (List.cons.inj hright).1.symm)
      | cons y middle => simp at hright
    · cases middle with
      | nil => exact Or.inl (by simpa using (List.cons.inj hright).1)
      | cons y middle =>
        obtain ⟨rfl, rfl⟩ := List.cons.inj hright
        right
        rcases hleft before x middle hleft' with hx | ⟨u, hu, hx⟩
        · exact ⟨v, List.mem_append_right _ (List.mem_singleton_self v), hx⟩
        · exact ⟨u, List.mem_append_left _ hu, hx⟩

/-- A reversed post order lists every vertex after a predecessor. -/
theorem parented_reverse_postOrder (succ : α → List α) (root : α) (fuel : Nat) :
    Parented succ root (postOrder succ fuel ([], []) root).2.reverse := by
  obtain ⟨new, hnew, hleft⟩ := postOrder_leftAfter succ fuel ([], []) root
  intro before v after hl
  have hpost : new = after.reverse ++ v :: before.reverse := by
    have h := congrArg List.reverse hl
    rw [List.reverse_reverse, hnew] at h
    simpa using h
  rcases hleft _ _ _ hpost with hv | ⟨u, hu, hv⟩
  · exact Or.inl (List.mem_singleton.mp hv)
  · exact Or.inr ⟨u, List.mem_reverse.mp hu, hv⟩

end DxilSpirv.Graph
