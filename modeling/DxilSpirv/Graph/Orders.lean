import DxilSpirv.Graph.Walk
import Mathlib.Data.Finset.Card
import Mathlib.Data.List.Nodup

/-!
# Breadth-first order and post order

Two orders in which the vertices that can be reached from a root are listed: as a breadth-first
search finds them, and as a depth-first search leaves them. Both list exactly the reachable
vertices, each once.
-/

namespace DxilSpirv.Graph

variable {α : Type}

/-- The vertices of a list that have not been seen, in order and each once. -/
def fresh [DecidableEq α] (seen l : List α) : List α :=
  l.foldl (fun new w => if w ∈ seen ∨ w ∈ new then new else new ++ [w]) []

/-- Breadth-first search: the vertices in the order in which they are found. -/
def breadthFirst [DecidableEq α] (succ : α → List α) : Nat → List α → List α → List α
  | 0, seen, _ => seen
  | _ + 1, seen, [] => seen
  | fuel + 1, seen, v :: queue =>
    breadthFirst succ fuel (seen ++ fresh seen (succ v)) (queue ++ fresh seen (succ v))

variable {succ : α → List α} {root : α} {seen l : List α}

/-- What is new was not seen, is listed once and comes from the list; nothing new is left out. -/
theorem fresh_spec [DecidableEq α] (seen l : List α) : (fresh seen l).Nodup ∧
    (∀ w ∈ fresh seen l, w ∉ seen ∧ w ∈ l) ∧ ∀ w ∈ l, w ∈ seen ∨ w ∈ fresh seen l := by
  suffices hfold : ∀ (l new : List α), new.Nodup → (∀ w ∈ new, w ∉ seen) →
      let result := l.foldl (fun new w => if w ∈ seen ∨ w ∈ new then new else new ++ [w]) new
      result.Nodup ∧ (∀ w ∈ new, w ∈ result) ∧
        (∀ w ∈ result, w ∉ seen ∧ (w ∈ new ∨ w ∈ l)) ∧ ∀ w ∈ l, w ∈ seen ∨ w ∈ result by
    obtain ⟨hnodup, -, hmem, hall⟩ := hfold l [] List.nodup_nil (fun w hw => by cases hw)
    refine ⟨hnodup, fun w hw => ?_, hall⟩
    exact ⟨(hmem w hw).1, (hmem w hw).2.resolve_left (List.not_mem_nil)⟩
  intro l
  induction l with
  | nil =>
    intro new hnodup hnew
    exact ⟨hnodup, fun w hw => hw, fun w hw => ⟨hnew w hw, .inl hw⟩, fun w hw => by cases hw⟩
  | cons v l ih =>
    intro new hnodup hnew
    simp only [List.foldl_cons]
    split
    · rename_i hv
      obtain ⟨hres, hkeep, hmem, hall⟩ := ih new hnodup hnew
      refine ⟨hres, hkeep, fun w hw => ?_, fun w hw => ?_⟩
      · obtain ⟨hseen, hw⟩ := hmem w hw
        exact ⟨hseen, hw.imp_right (List.mem_cons_of_mem v)⟩
      · rcases List.mem_cons.mp hw with rfl | hw
        · exact hv.imp_right (hkeep w)
        · exact hall w hw
    · rename_i hv
      obtain ⟨hseen, hout⟩ := not_or.mp hv
      have hnodup' : (new ++ [v]).Nodup := by
        rw [List.nodup_append]
        refine ⟨hnodup, List.nodup_singleton v, ?_⟩
        intro a ha b hb hab
        rw [List.mem_singleton.mp hb] at hab
        exact hout (hab ▸ ha)
      have hnew' : ∀ w ∈ new ++ [v], w ∉ seen := by
        intro w hw
        rcases List.mem_append.mp hw with hw | hw
        · exact hnew w hw
        · rw [List.mem_singleton.mp hw]
          exact hseen
      obtain ⟨hres, hkeep, hmem, hall⟩ := ih (new ++ [v]) hnodup' hnew'
      refine ⟨hres, fun w hw => hkeep w (List.mem_append_left _ hw), fun w hw => ?_, fun w hw => ?_⟩
      · obtain ⟨hseen, hw⟩ := hmem w hw
        refine ⟨hseen, ?_⟩
        rcases hw with hw | hw
        · rcases List.mem_append.mp hw with hw | hw
          · exact .inl hw
          · rw [List.mem_singleton.mp hw]
            exact .inr (List.mem_cons_self ..)
        · exact .inr (List.mem_cons_of_mem v hw)
      · rcases List.mem_cons.mp hw with rfl | hw
        · exact .inr (hkeep w (List.mem_append_right _ (List.mem_cons_self ..)))
        · exact hall w hw

/-- A search in progress: the vertices seen are those done and those queued. -/
structure Searching (succ : α → List α) (root : α) (done queue : List α) : Prop where
  nodup : (done ++ queue).Nodup
  root_mem : root ∈ done ++ queue
  reaches : ∀ v ∈ done ++ queue, Reaches (fun a b => b ∈ succ a) root v
  closed : ∀ v ∈ done, ∀ w ∈ succ v, w ∈ done ++ queue

theorem Searching.start (succ : α → List α) (root : α) : Searching succ root [] [root] where
  nodup := List.nodup_singleton root
  root_mem := List.mem_singleton_self root
  reaches v hv := by
    obtain rfl := List.mem_singleton.mp hv
    exact .refl
  closed v hv := by cases hv

/-- Taking a vertex from the queue. -/
theorem Searching.next [DecidableEq α] {done queue : List α} {v : α}
    (h : Searching succ root done (v :: queue)) :
    Searching succ root (done ++ [v])
      (queue ++ fresh (done ++ v :: queue) (succ v)) := by
  obtain ⟨hnodup, hnew, hall⟩ := fresh_spec (done ++ v :: queue) (succ v)
  have hlist : (done ++ [v]) ++ (queue ++ fresh (done ++ v :: queue) (succ v)) =
      (done ++ v :: queue) ++ fresh (done ++ v :: queue) (succ v) := by simp
  have hv : v ∈ done ++ v :: queue := List.mem_append_right _ (List.mem_cons_self ..)
  constructor
  · rw [hlist, List.nodup_append]
    refine ⟨h.nodup, hnodup, ?_⟩
    rintro a ha b hb rfl
    exact (hnew a hb).1 ha
  · rw [hlist]
    exact List.mem_append_left _ h.root_mem
  · rw [hlist]
    intro w hw
    rcases List.mem_append.mp hw with hw | hw
    · exact h.reaches w hw
    · exact .tail (h.reaches v hv) (hnew w hw).2
  · rw [hlist]
    intro u hu w hw
    apply List.mem_append.mpr
    rcases List.mem_append.mp hu with hu | hu
    · exact .inl (h.closed u hu w hw)
    · rw [List.mem_singleton.mp hu] at hw
      exact hall w hw

/-- A closed universe holds what its vertices reach. -/
theorem mem_of_reaches {univ : Finset α} (hclosed : ∀ x ∈ univ, ∀ w ∈ succ x, w ∈ univ) {v w : α}
    (hv : v ∈ univ) (h : Reaches (fun a b => b ∈ succ a) v w) : w ∈ univ := by
  induction h with
  | refl => exact hv
  | tail _ hstep ih => exact hclosed _ ih _ hstep

/-- The search ends before its fuel: the vertices done are different ones of a closed universe. -/
theorem breadthFirst_searching [DecidableEq α] {univ : Finset α}
    (hclosed : ∀ x ∈ univ, ∀ w ∈ succ x, w ∈ univ) (hroot : root ∈ univ) {fuel : Nat}
    {done queue : List α} (h : Searching succ root done queue)
    (hfuel : univ.card ≤ fuel + done.length) :
    Searching succ root (breadthFirst succ fuel (done ++ queue) queue) [] := by
  induction fuel generalizing done queue with
  | zero =>
    have hsubset : (done ++ queue).toFinset ⊆ univ := fun x hx =>
      mem_of_reaches hclosed hroot (h.reaches x (List.mem_toFinset.mp hx))
    have hcard := Finset.card_le_card hsubset
    rw [List.toFinset_card_of_nodup h.nodup, List.length_append] at hcard
    have hqueue : queue = [] := List.eq_nil_of_length_eq_zero (by omega)
    rw [breadthFirst, hqueue, List.append_nil]
    rw [hqueue] at h
    exact h
  | succ fuel ih =>
    cases queue with
    | nil =>
      rw [breadthFirst, List.append_nil]
      exact h
    | cons v queue =>
      have hlist : (done ++ [v]) ++ (queue ++ fresh (done ++ v :: queue) (succ v)) =
          (done ++ v :: queue) ++ fresh (done ++ v :: queue) (succ v) := by simp
      rw [breadthFirst, ← hlist]
      apply ih h.next
      rw [List.length_append, List.length_singleton]
      omega

/-- A breadth-first search from the root lists the reachable vertices, each once. -/
theorem breadthFirst_complete [DecidableEq α] {univ : Finset α}
    (hclosed : ∀ x ∈ univ, ∀ w ∈ succ x, w ∈ univ) (hroot : root ∈ univ) {fuel : Nat}
    (hfuel : univ.card ≤ fuel) :
    (breadthFirst succ fuel [root] [root]).Nodup ∧
      ∀ v, v ∈ breadthFirst succ fuel [root] [root] ↔ Reaches (fun a b => b ∈ succ a) root v := by
  have h : Searching succ root (breadthFirst succ fuel [root] [root]) [] :=
    breadthFirst_searching hclosed hroot (.start succ root) hfuel
  have hnodup := h.nodup
  have hroot := h.root_mem
  have hreaches := h.reaches
  have hclosed := h.closed
  rw [List.append_nil] at hnodup hroot hreaches hclosed
  refine ⟨hnodup, fun v => ⟨hreaches v, fun hv => ?_⟩⟩
  induction hv with
  | refl => exact hroot
  | tail _ hstep ih => exact hclosed _ ih _ hstep

/-- Depth-first search from a vertex: the vertices visited, and the vertices in the order in which
they are left. -/
def postOrder [DecidableEq α] (succ : α → List α) : Nat → List α × List α → α → List α × List α
  | 0, s, _ => s
  | fuel + 1, s, v =>
    if v ∈ s.1 then s
    else
      let t := (succ v).foldl (postOrder succ fuel) (v :: s.1, s.2)
      (t.1, t.2 ++ [v])

/-- What a search from some vertices adds. -/
structure Leaves (succ : α → List α) (sources : List α) (s t : List α × List α) (new : List α) :
    Prop where
  post : t.2 = s.2 ++ new
  visited : ∀ x, x ∈ t.1 ↔ x ∈ s.1 ∨ x ∈ new
  nodup : new.Nodup
  fresh : ∀ x ∈ new, x ∉ s.1
  start : ∀ x ∈ sources, x ∈ t.1
  reaches : ∀ x ∈ new, ∃ v ∈ sources, Reaches (fun a b => b ∈ succ a) v x
  closed : ∀ x ∈ new, ∀ w ∈ succ x, w ∈ t.1

theorem Leaves.nil (s : List α × List α) : Leaves succ [] s s [] where
  post := (List.append_nil _).symm
  visited x := by simp
  nodup := List.nodup_nil
  fresh x hx := by cases hx
  start x hx := by cases hx
  reaches x hx := by cases hx
  closed x hx := by cases hx

/-- Nothing is left to do for a vertex that was visited. -/
theorem Leaves.of_visited {v : α} {s : List α × List α} (hv : v ∈ s.1) :
    Leaves succ [v] s s [] where
  post := (List.append_nil _).symm
  visited x := by simp
  nodup := List.nodup_nil
  fresh x hx := by cases hx
  start x hx := by
    rw [List.mem_singleton.mp hx]
    exact hv
  reaches x hx := by cases hx
  closed x hx := by cases hx

/-- One search after another. -/
theorem Leaves.cons {v : α} {l : List α} {s t u : List α × List α} {new new' : List α}
    (h : Leaves succ [v] s t new) (h' : Leaves succ l t u new') :
    Leaves succ (v :: l) s u (new ++ new') where
  post := by rw [h'.post, h.post, List.append_assoc]
  visited x := by rw [h'.visited, h.visited, List.mem_append, or_assoc]
  nodup := by
    rw [List.nodup_append]
    refine ⟨h.nodup, h'.nodup, ?_⟩
    rintro a ha b hb rfl
    exact h'.fresh a hb ((h.visited a).mpr (.inr ha))
  fresh x hx := by
    rcases List.mem_append.mp hx with hx | hx
    · exact h.fresh x hx
    · exact fun hs => h'.fresh x hx ((h.visited x).mpr (.inl hs))
  start x hx := by
    rcases List.mem_cons.mp hx with rfl | hx
    · exact (h'.visited x).mpr (.inl (h.start x (List.mem_cons_self ..)))
    · exact h'.start x hx
  reaches x hx := by
    rcases List.mem_append.mp hx with hx | hx
    · obtain ⟨w, hw, hreach⟩ := h.reaches x hx
      rw [List.mem_singleton.mp hw] at hreach
      exact ⟨v, List.mem_cons_self .., hreach⟩
    · obtain ⟨w, hw, hreach⟩ := h'.reaches x hx
      exact ⟨w, List.mem_cons_of_mem v hw, hreach⟩
  closed x hx w hw := by
    rcases List.mem_append.mp hx with hx | hx
    · exact (h'.visited w).mpr (.inl (h.closed x hx w hw))
    · exact h'.closed x hx w hw

/-- Leaving a vertex after the search from its successors. -/
theorem Leaves.leave {v : α} {s t : List α × List α} {new : List α} (hv : v ∉ s.1)
    (h : Leaves succ (succ v) (v :: s.1, s.2) t new) :
    Leaves succ [v] s (t.1, t.2 ++ [v]) (new ++ [v]) where
  post := by rw [h.post, List.append_assoc]
  visited x := by
    rw [h.visited, List.mem_cons, List.mem_append, List.mem_singleton]
    tauto
  nodup := by
    rw [List.nodup_append]
    refine ⟨h.nodup, List.nodup_singleton v, ?_⟩
    rintro a ha b hb rfl
    rw [List.mem_singleton] at hb
    exact h.fresh a ha (hb ▸ List.mem_cons_self ..)
  fresh x hx := by
    rcases List.mem_append.mp hx with hx | hx
    · exact fun hs => h.fresh x hx (List.mem_cons_of_mem v hs)
    · rw [List.mem_singleton.mp hx]
      exact hv
  start x hx := by
    rw [List.mem_singleton.mp hx]
    exact (h.visited v).mpr (.inl (List.mem_cons_self ..))
  reaches x hx := by
    refine ⟨v, List.mem_singleton_self v, ?_⟩
    rcases List.mem_append.mp hx with hx | hx
    · obtain ⟨w, hw, hreach⟩ := h.reaches x hx
      exact .head hw hreach
    · obtain rfl := List.mem_singleton.mp hx
      exact .refl
  closed x hx w hw := by
    rcases List.mem_append.mp hx with hx | hx
    · exact h.closed x hx w hw
    · rw [List.mem_singleton.mp hx] at hw
      exact h.start w hw

/-- The vertices of a universe that are still to visit. -/
def toVisit [DecidableEq α] (univ : Finset α) (s : List α × List α) : Finset α :=
  univ.filter (· ∉ s.1)

variable [DecidableEq α] {univ : Finset α}

theorem toVisit_enter {v : α} {s : List α × List α} (hv : v ∈ univ) (hs : v ∉ s.1) :
    (toVisit univ (v :: s.1, s.2)).card < (toVisit univ s).card := by
  apply Finset.card_lt_card
  refine ⟨?_, ?_⟩
  · intro x hx
    obtain ⟨hx, hnot⟩ := Finset.mem_filter.mp hx
    exact Finset.mem_filter.mpr ⟨hx, fun h => hnot (List.mem_cons_of_mem v h)⟩
  · intro hsub
    have hmem := hsub (Finset.mem_filter.mpr ⟨hv, hs⟩)
    exact (Finset.mem_filter.mp hmem).2 (List.mem_cons_self ..)

theorem Leaves.toVisit_le {l : List α} {s t : List α × List α} {new : List α}
    (h : Leaves succ l s t new) : (toVisit univ t).card ≤ (toVisit univ s).card := by
  apply Finset.card_le_card
  intro x hx
  obtain ⟨hx, hnot⟩ := Finset.mem_filter.mp hx
  exact Finset.mem_filter.mpr ⟨hx, fun hs => hnot ((h.visited x).mpr (.inl hs))⟩

/-- With fuel for every vertex that is still to visit a search leaves all it reaches. -/
theorem postOrder_leaves (hclosed : ∀ x ∈ univ, ∀ w ∈ succ x, w ∈ univ) {fuel : Nat} {v : α}
    (hv : v ∈ univ) {s : List α × List α} (hfuel : (toVisit univ s).card < fuel) :
    ∃ new, Leaves succ [v] s (postOrder succ fuel s v) new := by
  induction fuel generalizing v s with
  | zero => omega
  | succ fuel ih =>
    rw [postOrder]
    split
    · rename_i hvisited
      exact ⟨[], .of_visited hvisited⟩
    · rename_i hnot
      have hscan : ∀ (l : List α) (t : List α × List α), (∀ w ∈ l, w ∈ univ) →
          (toVisit univ t).card < fuel →
          ∃ new, Leaves succ l t (l.foldl (postOrder succ fuel) t) new := by
        intro l
        induction l with
        | nil => exact fun t _ _ => ⟨[], .nil t⟩
        | cons w l ihl =>
          intro t hl ht
          obtain ⟨new, hnew⟩ := ih (hl w (List.mem_cons_self ..)) ht
          obtain ⟨new', hnew'⟩ := ihl (postOrder succ fuel t w)
            (fun x hx => hl x (List.mem_cons_of_mem w hx)) (hnew.toVisit_le.trans_lt ht)
          exact ⟨new ++ new', hnew.cons hnew'⟩
      have henter := toVisit_enter hv hnot
      obtain ⟨new, hnew⟩ := hscan (succ v) (v :: s.1, s.2) (hclosed v hv) (by omega)
      exact ⟨new ++ [v], hnew.leave hnot⟩

/-- A depth-first search from the root leaves the reachable vertices, each once. -/
theorem postOrder_complete (hclosed : ∀ x ∈ univ, ∀ w ∈ succ x, w ∈ univ) (hroot : root ∈ univ)
    {fuel : Nat} (hfuel : univ.card < fuel) :
    (postOrder succ fuel ([], []) root).2.Nodup ∧
      ∀ v, v ∈ (postOrder succ fuel ([], []) root).2 ↔ Reaches (fun a b => b ∈ succ a) root v := by
  obtain ⟨new, h⟩ := postOrder_leaves hclosed hroot (s := ([], []))
    ((Finset.card_filter_le _ _).trans_lt hfuel)
  have hpost : (postOrder succ fuel ([], []) root).2 = new := h.post
  have hvisited : ∀ x, x ∈ (postOrder succ fuel ([], []) root).1 ↔ x ∈ new := by
    intro x
    rw [h.visited]
    simp
  rw [hpost]
  refine ⟨h.nodup, fun v => ⟨fun hv => ?_, fun hv => ?_⟩⟩
  · obtain ⟨w, hw, hreach⟩ := h.reaches v hv
    rw [List.mem_singleton.mp hw] at hreach
    exact hreach
  · induction hv with
    | refl => exact (hvisited root).mp (h.start root (List.mem_singleton_self root))
    | tail _ hstep ih => exact (hvisited _).mp (h.closed _ ih _ hstep)

end DxilSpirv.Graph
