import Mathlib.Data.Finset.Card
import DxilSpirv.Graph.Walk

/-!
# Depth-first search with post order and retreating edges

The search keeps its visited set, the stack of vertices still being traversed, the post
order and the edges that led back into the stack. Everything is stated about a finished
search: the post order lists the reachable vertices once, an edge lowers the post order
exactly when it is not retreating, and the target of a retreating edge reaches its source
along tree edges.
-/

namespace DxilSpirv.Graph

variable {α : Type*}

/-- `a` is listed somewhere before `b`. -/
def Precedes (l : List α) (a b : α) : Prop := ∃ l₁ l₂, l = l₁ ++ b :: l₂ ∧ a ∈ l₁

namespace Precedes

variable {l m : List α} {a b : α}

/-- The first of two that stand in order is a member. -/
theorem mem_left (h : Precedes l a b) : a ∈ l := by
  obtain ⟨l₁, l₂, rfl, ha⟩ := h
  exact List.mem_append_left _ ha

/-- Order is kept when a list follows. -/
theorem append_right (h : Precedes l a b) (m : List α) : Precedes (l ++ m) a b := by
  obtain ⟨l₁, l₂, rfl, ha⟩ := h
  exact ⟨l₁, l₂ ++ m, by simp, ha⟩

/-- Order is kept when a list goes before. -/
theorem append_left (h : Precedes m a b) (l : List α) : Precedes (l ++ m) a b := by
  obtain ⟨l₁, l₂, rfl, ha⟩ := h
  exact ⟨l ++ l₁, l₂, by simp, List.mem_append_right _ ha⟩

/-- What stands in the first list stands before what stands in the second. -/
theorem of_append (ha : a ∈ l) (hb : b ∈ m) : Precedes (l ++ m) a b := by
  obtain ⟨m₁, m₂, rfl⟩ := List.append_of_mem hb
  exact ⟨l ++ m₁, m₂, by simp, List.mem_append_left _ ha⟩

/-- In a list without repetition, listing order is index order. -/
theorem idxOf_lt [DecidableEq α] (h : Precedes l a b) (hl : l.Nodup) : l.idxOf a < l.idxOf b := by
  obtain ⟨l₁, l₂, rfl, ha⟩ := h
  have hb : b ∉ l₁ := fun hb =>
    (List.nodup_append.mp hl).2.2 b hb b (List.mem_cons_self ..) rfl
  rw [List.idxOf_append_of_mem ha, List.idxOf_append_of_notMem hb, List.idxOf_cons_self,
    Nat.add_zero]
  exact List.idxOf_lt_length_of_mem ha

end Precedes

/-- What a depth-first search has done so far. -/
structure Dfs (α : Type*) where
  /-- Vertices entered so far. -/
  visited : List α := []
  /-- Vertices entered and not left, innermost first. -/
  stack : List α := []
  /-- Vertices left so far, in the order they were left. -/
  post : List α := []
  /-- Edges found to lead into the stack. -/
  back : List (α × α) := []

namespace Dfs

/-- Start traversing `v`. -/
def enter (s : Dfs α) (v : α) : Dfs α :=
  { s with visited := v :: s.visited, stack := v :: s.stack }

/-- Record an edge that leads back into the stack. -/
def retreat (s : Dfs α) (v w : α) : Dfs α :=
  { s with back := s.back ++ [(v, w)] }

/-- Finish traversing `v`, the innermost vertex. -/
def leave (s : Dfs α) (v : α) : Dfs α :=
  { s with stack := s.stack.tail, post := s.post ++ [v] }

/-- An edge that a search can take into a vertex it has not seen. -/
def TreeEdge (succ : α → List α) (root u v : α) : Prop :=
  v ∈ succ u ∧ ∃ p, Walk (fun a b => b ∈ succ a) root u p ∧ v ∉ p

/-- Visited vertices are those on the stack and those already left. -/
def Settled (s : Dfs α) : Prop :=
  ∀ x, x ∈ s.visited ↔ x ∈ s.post ∨ x ∈ s.stack

/-- The stack below and including `v` is a walk from the root, along tree edges. -/
def OnStack (succ : α → List α) (root v : α) (stack : List α) : Prop :=
  Walk (fun a b => b ∈ succ a) root v (v :: stack).reverse ∧
    ∀ y ∈ v :: stack, Reaches (TreeEdge succ root) y v

/-- What the search from `s` to `s'` adds: the vertices left and the retreating edges found.
`pending` admits the edges of a vertex whose successors are still being scanned. -/
structure Grows (succ : α → List α) (root : α) (pending : α → α → Prop) (s s' : Dfs α)
    (new : List α) (found : List (α × α)) : Prop where
  /-- The stack is as before. -/
  stack : s'.stack = s.stack
  /-- The new vertices are appended to the post order. -/
  post : s'.post = s.post ++ new
  /-- The new retreating edges are appended. -/
  back : s'.back = s.back ++ found
  /-- Exactly the new vertices became visited. -/
  visited : ∀ x, x ∈ s'.visited ↔ x ∈ s.visited ∨ x ∈ new
  /-- The new vertices were not visited before. -/
  fresh : ∀ x ∈ new, x ∉ s.visited
  /-- No vertex is left twice. -/
  nodup : new.Nodup
  /-- Every edge out of a new vertex retreats or goes to a vertex left earlier. -/
  closed : ∀ x ∈ new, ∀ w ∈ succ x, (x, w) ∈ found ∨ w ∈ s.post ∨ Precedes new w x
  /-- Retreating edges leave new or pending vertices. -/
  source : ∀ e ∈ found, e.1 ∈ new ∨ pending e.1 e.2
  /-- Retreating edges are edges whose target reaches their source over the tree. -/
  retreats : ∀ e ∈ found, e.2 ∈ succ e.1 ∧ Reaches (TreeEdge succ root) e.2 e.1
  /-- Their target is still on the stack, or was left no earlier than their source. -/
  target : ∀ e ∈ found, e.2 ∈ s.stack ∨ (e.2 ∈ new ∧ (e.1 = e.2 ∨ Precedes new e.1 e.2))
  /-- No retreating edge is found twice. -/
  nodup_found : found.Nodup

variable {succ : α → List α} {root : α} {s : Dfs α}

/-- A tree edge is an edge. -/
theorem TreeEdge.edge {u v : α} (h : TreeEdge succ root u v) : v ∈ succ u := h.1

/-- A search that has not moved has found nothing. -/
theorem Grows.refl (pending : α → α → Prop) (s : Dfs α) :
    Grows succ root pending s s [] [] where
  stack := rfl
  post := by simp
  back := by simp
  visited := by simp
  fresh := by simp
  nodup := List.nodup_nil
  closed := by simp
  source := by simp
  retreats := by simp
  target := by simp
  nodup_found := List.nodup_nil

/-- A search that grows by whole subtrees leaves the stack settled. -/
theorem Grows.settled {pending : α → α → Prop} {s s' : Dfs α} {new : List α}
    {found : List (α × α)} (h : Grows succ root pending s s' new found) (hs : s.Settled) :
    s'.Settled := by
  intro x
  rw [h.visited, h.post, h.stack, hs x, List.mem_append]
  tauto

/-- Two consecutive pieces of a search, the second one with nothing pending. -/
theorem Grows.trans {pending : α → α → Prop} {s s' s'' : Dfs α} {new new' : List α}
    {found found' : List (α × α)}
    (h : Grows succ root pending s s' new found)
    (h' : Grows succ root (fun _ _ => False) s' s'' new' found')
    (hp : ∀ a b, pending a b → a ∈ s.visited) :
    Grows succ root pending s s'' (new ++ new') (found ++ found') := by
  have hdisj : ∀ x ∈ new', x ∉ s.visited ∧ x ∉ new := by
    intro x hx
    have := h'.fresh x hx
    rw [h.visited, not_or] at this
    exact this
  refine ⟨h'.stack.trans h.stack, ?_, ?_, ?_, ?_, ?_, ?_, ?_, ?_, ?_, ?_⟩
  · rw [h'.post, h.post, List.append_assoc]
  · rw [h'.back, h.back, List.append_assoc]
  · intro x
    rw [h'.visited, h.visited, List.mem_append, or_assoc]
  · intro x hx
    rcases List.mem_append.mp hx with hx | hx
    · exact h.fresh x hx
    · exact (hdisj x hx).1
  · refine List.nodup_append.mpr ⟨h.nodup, h'.nodup, ?_⟩
    rintro x hx y hy rfl
    exact (hdisj x hy).2 hx
  · intro x hx w hw
    rcases List.mem_append.mp hx with hx | hx
    · rcases h.closed x hx w hw with hb | hb | hb
      · exact .inl (List.mem_append_left _ hb)
      · exact .inr (.inl hb)
      · exact .inr (.inr (hb.append_right _))
    · rcases h'.closed x hx w hw with hb | hb | hb
      · exact .inl (List.mem_append_right _ hb)
      · rw [h.post, List.mem_append] at hb
        rcases hb with hb | hb
        · exact .inr (.inl hb)
        · exact .inr (.inr (.of_append hb hx))
      · exact .inr (.inr (hb.append_left _))
  · intro e he
    rcases List.mem_append.mp he with he | he
    · rcases h.source e he with hn | hn
      · exact .inl (List.mem_append_left _ hn)
      · exact .inr hn
    · rcases h'.source e he with hn | hn
      · exact .inl (List.mem_append_right _ hn)
      · exact hn.elim
  · intro e he
    rcases List.mem_append.mp he with he | he
    · exact h.retreats e he
    · exact h'.retreats e he
  · intro e he
    rcases List.mem_append.mp he with he | he
    · rcases h.target e he with ht | ⟨ht, ho⟩
      · exact .inl ht
      · exact .inr ⟨List.mem_append_left _ ht, ho.imp_right (·.append_right _)⟩
    · rcases h'.target e he with ht | ⟨ht, ho⟩
      · exact .inl (h.stack ▸ ht)
      · exact .inr ⟨List.mem_append_right _ ht, ho.imp_right (·.append_left _)⟩
  · refine List.nodup_append.mpr ⟨h.nodup_found, h'.nodup_found, ?_⟩
    rintro e he e' he' rfl
    -- the second piece only finds edges out of vertices the first one had not seen
    rcases h'.source e he' with hn | hn
    · have hd := hdisj _ hn
      rcases h.source e he with ho | ho
      · exact hd.2 ho
      · exact hd.1 (hp _ _ ho)
    · exact hn

/-- Recording one more retreating edge of the pending vertex. -/
theorem Grows.retreat {pending pending' : α → α → Prop} {s s' : Dfs α} {new : List α}
    {found : List (α × α)} (h : Grows succ root pending s s' new found) {v w : α}
    (hmono : ∀ a b, pending a b → pending' a b) (hvw : pending' v w)
    (hnew : (v, w) ∉ found) (hstack : w ∈ s.stack)
    (hr : w ∈ succ v ∧ Reaches (TreeEdge succ root) w v) :
    Grows succ root pending' s (s'.retreat v w) new (found ++ [(v, w)]) := by
  refine ⟨h.stack, h.post, ?_, h.visited, h.fresh, h.nodup, ?_, ?_, ?_, ?_, ?_⟩
  · rw [Dfs.retreat, h.back, List.append_assoc]
  · intro x hx y hy
    exact (h.closed x hx y hy).imp_left (List.mem_append_left _)
  · intro e he
    rcases List.mem_append.mp he with he | he
    · exact (h.source e he).imp_right (hmono _ _)
    · rw [List.mem_singleton.mp he]
      exact .inr hvw
  · intro e he
    rcases List.mem_append.mp he with he | he
    · exact h.retreats e he
    · rw [List.mem_singleton.mp he]
      exact hr
  · intro e he
    rcases List.mem_append.mp he with he | he
    · exact h.target e he
    · rw [List.mem_singleton.mp he]
      exact .inl hstack
  · refine List.nodup_append.mpr ⟨h.nodup_found, List.nodup_singleton _, ?_⟩
    intro e he e' he'
    rw [List.mem_singleton.mp he']
    rintro rfl
    exact hnew he

/-- Leaving the innermost vertex after its successors were scanned. -/
theorem Grows.leave {v : α} {s' : Dfs α} (hv : v ∉ s.visited) {new : List α}
    {found : List (α × α)}
    (h : Grows succ root (fun a b => a = v ∧ b ∈ succ v) (s.enter v) s' new found)
    (hsucc : ∀ w ∈ succ v, (v, w) ∈ found ∨ w ∈ s.post ∨ w ∈ new) :
    Grows succ root (fun _ _ => False) s (s'.leave v) (new ++ [v]) found := by
  have hvn : v ∉ new := fun hn => h.fresh v hn (by simp [enter])
  refine ⟨by simp [Dfs.leave, h.stack, enter], ?_, ?_, ?_, ?_, ?_, ?_, ?_, h.retreats, ?_,
    h.nodup_found⟩
  · simp [Dfs.leave, h.post, enter]
  · simp [Dfs.leave, h.back, enter]
  · intro x
    rw [Dfs.leave, h.visited, enter, List.mem_cons, List.mem_append, List.mem_singleton]
    tauto
  · intro x hx
    rcases List.mem_append.mp hx with hx | hx
    · exact fun hm => h.fresh x hx (List.mem_cons_of_mem _ hm)
    · rw [List.mem_singleton.mp hx]
      exact hv
  · refine List.nodup_append.mpr ⟨h.nodup, List.nodup_singleton _, ?_⟩
    intro x hx y hy
    rw [List.mem_singleton.mp hy]
    rintro rfl
    exact hvn hx
  · intro x hx w hw
    rcases List.mem_append.mp hx with hx | hx
    · exact (h.closed x hx w hw).imp_right (Or.imp_right (·.append_right _))
    · obtain rfl := List.mem_singleton.mp hx
      exact (hsucc w hw).imp_right (Or.imp_right (.of_append · (by simp)))
  · intro e he
    rcases h.source e he with hn | ⟨hn, -⟩
    · exact .inl (List.mem_append_left _ hn)
    · exact .inl (by simp [hn])
  · intro e he
    rcases h.target e he with ht | ⟨ht, ho⟩
    · rcases List.mem_cons.mp ht with ht | ht
      · refine .inr ⟨by simp [ht], ?_⟩
        rcases h.source e he with hn | ⟨hn, -⟩
        · exact .inr (ht ▸ .of_append hn (by simp))
        · exact .inl (hn.trans ht.symm)
      · exact .inl ht
    · exact .inr ⟨List.mem_append_left _ ht, ho.imp_right (·.append_right _)⟩

/-- A settled state whose stack was not left yet, with no vertex left twice. -/
structure Tidy (s : Dfs α) : Prop where
  settled : s.Settled
  disjoint : ∀ x ∈ s.stack, x ∉ s.post
  nodup : s.post.Nodup

/-- A search that has not begun is tidy. -/
theorem Tidy.empty : ({} : Dfs α).Tidy := ⟨by intro x; simp, by simp, List.nodup_nil⟩

/-- What every piece of a search leaves alone. -/
structure Keeps (s s' : Dfs α) : Prop where
  stack : s'.stack = s.stack
  visited : ∀ x ∈ s.visited, x ∈ s'.visited
  back : ∀ e ∈ s.back, e ∈ s'.back

/-- A search keeps what it has. -/
theorem Keeps.refl (s : Dfs α) : Keeps s s := ⟨rfl, fun _ h => h, fun _ h => h⟩

/-- What two steps keep, both together keep. -/
theorem Keeps.trans {s s' s'' : Dfs α} (h : Keeps s s') (h' : Keeps s' s'') : Keeps s s'' :=
  ⟨h'.stack.trans h.stack, fun x hx => h'.visited x (h.visited x hx),
    fun e he => h'.back e (h.back e he)⟩

/-- A retreating edge keeps the stack and what was visited. -/
theorem Keeps.of_retreat (s : Dfs α) (v w : α) : Keeps s (s.retreat v w) :=
  ⟨rfl, fun _ h => h, fun _ h => List.mem_append_left _ h⟩

/-- To enter an unvisited vertex keeps the search tidy. -/
theorem Tidy.enter (h : s.Tidy) {v : α} (hv : v ∉ s.visited) : (s.enter v).Tidy := by
  have hvp : v ∉ s.post := fun hp => hv ((h.settled v).mpr (.inl hp))
  refine ⟨?_, ?_, h.nodup⟩
  · intro x
    simp only [Dfs.enter, List.mem_cons, h.settled x]
    tauto
  · intro x hx
    rcases List.mem_cons.mp hx with rfl | hx
    · exact hvp
    · exact h.disjoint x hx

/-- A retreating edge keeps the search tidy. -/
theorem Tidy.retreat (h : s.Tidy) (v w : α) : (s.retreat v w).Tidy :=
  ⟨h.settled, h.disjoint, h.nodup⟩

/-- To leave the vertex on top keeps the search tidy. -/
theorem Tidy.leave (h : s.Tidy) {v : α} {t : List α} (hs : s.stack = v :: t) (hv : v ∉ t) :
    (s.leave v).Tidy := by
  have hvp := h.disjoint v (by simp [hs])
  refine ⟨?_, ?_, ?_⟩
  · intro x
    simp only [Dfs.leave, hs, List.tail_cons, List.mem_append, h.settled x, List.mem_cons]
    tauto
  · intro x hx
    simp only [Dfs.leave, hs, List.tail_cons] at hx
    simp only [Dfs.leave, List.mem_append, List.mem_singleton, not_or]
    exact ⟨h.disjoint x (by simp [hs, hx]), fun he => hv (he ▸ hx)⟩
  · refine List.nodup_append.mpr ⟨h.nodup, List.nodup_singleton v, ?_⟩
    intro a ha b hb hab
    exact hvp (List.mem_singleton.mp hb ▸ hab ▸ ha)

/-- The retreating edges recorded so far are edges out of visited vertices, each once. -/
structure Sound (succ : α → List α) (s : Dfs α) : Prop where
  nodup : s.back.Nodup
  edge : ∀ e ∈ s.back, e.2 ∈ succ e.1
  source : ∀ e ∈ s.back, e.1 ∈ s.visited

/-- To enter a vertex records no edge. -/
theorem Sound.enter (h : s.Sound succ) (v : α) : (s.enter v).Sound succ :=
  ⟨h.nodup, h.edge, fun e he => List.mem_cons_of_mem _ (h.source e he)⟩

/-- A retreating edge that is new is recorded once. -/
theorem Sound.retreat (h : s.Sound succ) {v w : α} (hv : v ∈ s.visited) (hw : w ∈ succ v)
    (hn : (v, w) ∉ s.back) : (s.retreat v w).Sound succ := by
  refine ⟨?_, ?_, ?_⟩
  · refine List.nodup_append.mpr ⟨h.nodup, List.nodup_singleton _, ?_⟩
    intro a ha b hb hab
    exact hn (List.mem_singleton.mp hb ▸ hab ▸ ha)
  · intro e he
    rcases List.mem_append.mp he with he | he
    · exact h.edge e he
    · rw [List.mem_singleton.mp he]
      exact hw
  · intro e he
    rcases List.mem_append.mp he with he | he
    · exact h.source e he
    · rw [List.mem_singleton.mp he]
      exact hv

/-- The successors `l` of the innermost vertex `v` were scanned: each retreats or was left, and what
is new hangs under `v`. -/
structure Scanned (succ : α → List α) (root v : α) (l : List α) (s s' : Dfs α) (new : List α)
    (found : List (α × α)) : Prop where
  grows : Grows succ root (fun a b => a = v ∧ b ∈ l) s s' new found
  scanned : ∀ w ∈ l, (v, w) ∈ found ∨ w ∈ s.post ∨ w ∈ new
  reaches : ∀ x ∈ new, Reaches (TreeEdge succ root) v x
  parent : ∀ x ∈ new, ∃ p, (p = v ∨ p ∈ new) ∧ x ∈ succ p ∧ (p, x) ∉ found

namespace Scanned

variable {v w : α} {l new new' : List α} {s' s'' : Dfs α} {found found' : List (α × α)}

/-- The edge to a successor that is still to be scanned was not found. -/
theorem notMem_found (h : Scanned succ root v l s s' new found) (hv : v ∈ s.visited)
    (hw : w ∉ l) : (v, w) ∉ found := by
  intro hf
  rcases h.grows.source _ hf with hn | ⟨-, hn⟩
  · exact h.grows.fresh v hn hv
  · exact hw hn

/-- One more successor is to be scanned. -/
theorem pending (h : Scanned succ root v l s s' new found) (w : α) :
    Grows succ root (fun a b => a = v ∧ b ∈ l ++ [w]) s s' new found :=
  { h.grows with
    source := fun e he => (h.grows.source e he).imp_right
      (And.imp_right (List.mem_append_left _)) }

/-- A successor on the stack: its edge retreats. -/
theorem retreat (h : Scanned succ root v l s s' new found) (hv : v ∈ s.visited) (hw : w ∈ succ v)
    (hwl : w ∉ l) (hst : w ∈ s.stack) (hvis : w ∈ s.visited)
    (hback : Reaches (TreeEdge succ root) w v) :
    Scanned succ root v (l ++ [w]) s (s'.retreat v w) new (found ++ [(v, w)]) := by
  refine ⟨h.grows.retreat (fun _ _ => And.imp_right (List.mem_append_left _)) ⟨rfl, by simp⟩
    (h.notMem_found hv hwl) hst ⟨hw, hback⟩, ?_, h.reaches, ?_⟩
  · intro x hx
    rcases List.mem_append.mp hx with hx | hx
    · exact (h.scanned x hx).imp_left (List.mem_append_left _)
    · rw [List.mem_singleton.mp hx]
      exact .inl (by simp)
  · intro x hx
    obtain ⟨p, hp, hpx, hf⟩ := h.parent x hx
    refine ⟨p, hp, hpx, fun hm => ?_⟩
    rcases List.mem_append.mp hm with hm | hm
    · exact hf hm
    · have hxw := (Prod.mk.inj (List.mem_singleton.mp hm)).2
      exact h.grows.fresh x hx (hxw ▸ hvis)

/-- A successor that was left before: nothing is added. -/
theorem skip (h : Scanned succ root v l s s' new found) (hleft : w ∈ s.post ∨ w ∈ new) :
    Scanned succ root v (l ++ [w]) s s' new found := by
  refine ⟨h.pending w, ?_, h.reaches, h.parent⟩
  intro x hx
  rcases List.mem_append.mp hx with hx | hx
  · exact h.scanned x hx
  · rw [List.mem_singleton.mp hx]
    exact .inr hleft

/-- A successor that is new: the call at it adds what it leaves. -/
theorem call (h : Scanned succ root v l s s' new found) (hv : v ∈ s.visited)
    (htree : TreeEdge succ root v w) (hwl : w ∉ l)
    (hr : Grows succ root (fun _ _ => False) s' s'' new' found') (hw : w ∈ new')
    (hreach : ∀ x ∈ new', Reaches (TreeEdge succ root) w x)
    (hparent : ∀ x ∈ new', x = w ∨ ∃ p ∈ new', x ∈ succ p ∧ (p, x) ∉ found') :
    Scanned succ root v (l ++ [w]) s s'' (new ++ new') (found ++ found') := by
  -- the two calls do not record each other's edges
  have hold : ∀ p x, (p = v ∨ p ∈ new) → (p, x) ∉ found' := by
    intro p x hp hm
    refine hr.fresh p ((hr.source _ hm).resolve_right id) ((h.grows.visited p).mpr ?_)
    rcases hp with rfl | hp
    · exact .inl hv
    · exact .inr hp
  have hnew : ∀ p x, p ∈ new' → (p, x) ∉ found := by
    intro p x hp hm
    refine hr.fresh p hp ((h.grows.visited p).mpr ?_)
    rcases h.grows.source _ hm with hn | ⟨hn, -⟩
    · exact .inr hn
    · exact .inl ((show p = v from hn) ▸ hv)
  refine ⟨(h.pending w).trans hr (by rintro a b ⟨rfl, -⟩; exact hv), ?_, ?_, ?_⟩
  · intro x hx
    rcases List.mem_append.mp hx with hx | hx
    · exact (h.scanned x hx).imp (List.mem_append_left _) (Or.imp_right (List.mem_append_left _))
    · rw [List.mem_singleton.mp hx]
      exact .inr (.inr (List.mem_append_right _ hw))
  · intro x hx
    rcases List.mem_append.mp hx with hx | hx
    · exact h.reaches x hx
    · exact .head htree (hreach x hx)
  · intro x hx
    rcases List.mem_append.mp hx with hx | hx
    · obtain ⟨p, hp, hpx, hf⟩ := h.parent x hx
      exact ⟨p, hp.imp_right (List.mem_append_left _), hpx,
        fun hm => (List.mem_append.mp hm).elim hf (hold p x hp)⟩
    · rcases hparent x hx with rfl | ⟨p, hp, hpx, hf⟩
      · exact ⟨v, .inl rfl, htree.edge,
          fun hm => (List.mem_append.mp hm).elim (h.notMem_found hv hwl) (hold v x (.inl rfl))⟩
      · exact ⟨p, .inr (List.mem_append_right _ hp), hpx,
          fun hm => (List.mem_append.mp hm).elim (hnew p x hp) hf⟩

end Scanned

variable [DecidableEq α]

/-- Traverse everything that can be reached from `v` over unvisited vertices. -/
def run (succ : α → List α) : Nat → Dfs α → α → Dfs α
  | 0, s, _ => s
  | fuel + 1, s, v =>
    ((succ v).foldl (fun s w =>
      if w ∈ s.stack then s.retreat v w
      else if w ∈ s.visited then s
      else run succ fuel s w) (s.enter v)).leave v

/-- The loop over the successors of `v`. -/
def scan (succ : α → List α) (fuel : Nat) (v : α) (l : List α) (s : Dfs α) : Dfs α :=
  l.foldl (fun s w =>
    if w ∈ s.stack then s.retreat v w
    else if w ∈ s.visited then s
    else run succ fuel s w) s

/-- The scan of one branch and then of the others. -/
theorem scan_cons (succ : α → List α) (fuel : Nat) (v w : α) (l : List α) (s : Dfs α) :
    scan succ fuel v (w :: l) s = scan succ fuel v l (if w ∈ s.stack then s.retreat v w
      else if w ∈ s.visited then s else run succ fuel s w) := rfl

/-- A vertex is entered, its branches are scanned, and it is left. -/
theorem run_succ (succ : α → List α) (fuel : Nat) (s : Dfs α) (v : α) :
    run succ (fuel + 1) s v = (scan succ fuel v (succ v) (s.enter v)).leave v := rfl

variable {fuel : Nat}

/-- A scan only touches what its calls touch. -/
private theorem scan_keeps_of (ih : ∀ (s : Dfs α) (v : α), s.Tidy → v ∉ s.visited →
    (run succ fuel s v).Tidy ∧ Keeps s (run succ fuel s v)) (v : α) (l : List α) :
    ∀ s : Dfs α, s.Tidy → (scan succ fuel v l s).Tidy ∧ Keeps s (scan succ fuel v l s) := by
  induction l with
  | nil => exact fun s hs => ⟨hs, .refl s⟩
  | cons w l ihl =>
    intro s hs
    rw [scan_cons]
    split
    · have hk := ihl _ (hs.retreat v w)
      exact ⟨hk.1, (Keeps.of_retreat s v w).trans hk.2⟩
    · split
      · exact ihl s hs
      · rename_i hw
        have hr := ih s w hs hw
        exact ⟨(ihl _ hr.1).1, hr.2.trans (ihl _ hr.1).2⟩

/-- A call only touches what it enters. -/
theorem run_keeps (succ : α → List α) (fuel : Nat) :
    ∀ (s : Dfs α) (v : α), s.Tidy → v ∉ s.visited →
      (run succ fuel s v).Tidy ∧ Keeps s (run succ fuel s v) := by
  induction fuel with
  | zero => exact fun s v hs _ => ⟨hs, .refl s⟩
  | succ fuel ih =>
    intro s v hs hv
    have hk := scan_keeps_of ih v (succ v) _ (hs.enter hv)
    have hst : (scan succ fuel v (succ v) (s.enter v)).stack = v :: s.stack := hk.2.stack
    rw [run_succ]
    refine ⟨hk.1.leave hst fun h => hv ((hs.settled v).mpr (.inr h)), ?_, ?_, hk.2.back⟩
    · simp [Dfs.leave, hst]
    · exact fun x hx => hk.2.visited x (List.mem_cons_of_mem _ hx)

/-- A scan keeps the search tidy, and the stack as it was. -/
theorem scan_keeps (succ : α → List α) (fuel : Nat) (v : α) (l : List α) {s : Dfs α}
    (hs : s.Tidy) : (scan succ fuel v l s).Tidy ∧ Keeps s (scan succ fuel v l s) :=
  scan_keeps_of (run_keeps succ fuel) v l s hs

/-- A scan only records retreating edges out of its vertex and what its calls enter. -/
private theorem scan_sound_of (ih : ∀ (s : Dfs α) (v : α), s.Tidy → v ∉ s.visited →
    s.Sound succ → (run succ fuel s v).Sound succ ∧
      ∀ e ∈ (run succ fuel s v).back, e ∈ s.back ∨ e.1 ∉ s.visited)
    (v : α) (l : List α) (hl : l.Nodup) (hsub : ∀ w ∈ l, w ∈ succ v) :
    ∀ s : Dfs α, s.Tidy → v ∈ s.visited → s.Sound succ → (∀ w ∈ l, (v, w) ∉ s.back) →
      (scan succ fuel v l s).Sound succ ∧
        ∀ e ∈ (scan succ fuel v l s).back, e ∈ s.back ∨ e.1 ∉ s.visited ∨ e.1 = v := by
  induction l with
  | nil => exact fun s _ _ hs _ => ⟨hs, fun e he => .inl he⟩
  | cons w l ihl =>
    intro s ht hv hs hn
    have hlw := List.nodup_cons.mp hl
    have hrest := ihl hlw.2 fun x hx => hsub x (List.mem_cons_of_mem _ hx)
    rw [scan_cons]
    split
    · have hs' := hs.retreat hv (hsub w (List.mem_cons_self ..)) (hn w (List.mem_cons_self ..))
      have hr := hrest _ (ht.retreat v w) hv hs' (by
        intro x hx hm
        rcases List.mem_append.mp hm with hm | hm
        · exact hn x (List.mem_cons_of_mem _ hx) hm
        · have hxw := (Prod.mk.inj (List.mem_singleton.mp hm)).2
          exact hlw.1 (hxw ▸ hx))
      refine ⟨hr.1, fun e he => ?_⟩
      rcases hr.2 e he with h | h
      · rcases List.mem_append.mp h with h | h
        · exact .inl h
        · exact .inr (.inr (by rw [List.mem_singleton.mp h]))
      · exact .inr h
    · split
      · exact hrest s ht hv hs fun x hx => hn x (List.mem_cons_of_mem _ hx)
      · rename_i hw
        have hk := run_keeps succ fuel s w ht hw
        have hc := ih s w ht hw hs
        have hr := hrest _ hk.1 (hk.2.visited v hv) hc.1 (by
          intro x hx hm
          rcases hc.2 _ hm with h | h
          · exact hn x (List.mem_cons_of_mem _ hx) h
          · exact h hv)
        refine ⟨hr.1, fun e he => ?_⟩
        rcases hr.2 e he with h | h | h
        · exact (hc.2 e h).imp_right .inl
        · exact .inr (.inl fun hm => h (hk.2.visited _ hm))
        · exact .inr (.inr h)

/-- A call only records retreating edges out of vertices it enters. -/
theorem run_sound (succ : α → List α) (hnd : ∀ x, (succ x).Nodup) (fuel : Nat) :
    ∀ (s : Dfs α) (v : α), s.Tidy → v ∉ s.visited → s.Sound succ →
      (run succ fuel s v).Sound succ ∧
        ∀ e ∈ (run succ fuel s v).back, e ∈ s.back ∨ e.1 ∉ s.visited := by
  induction fuel with
  | zero => exact fun s v _ _ hs => ⟨hs, fun e he => .inl he⟩
  | succ fuel ih =>
    intro s v ht hv hs
    have hnv : ∀ w ∈ succ v, (v, w) ∉ s.back := fun w _ hm => hv (hs.source _ hm)
    have hr := scan_sound_of ih v (succ v) (hnd v) (fun _ h => h) _ (ht.enter hv)
      (List.mem_cons_self ..) (hs.enter v) hnv
    rw [run_succ]
    refine ⟨⟨hr.1.nodup, hr.1.edge, hr.1.source⟩, fun e he => ?_⟩
    rcases hr.2 e he with h | h | h
    · exact .inl h
    · exact .inr fun hm => h (List.mem_cons_of_mem _ hm)
    · exact .inr (h ▸ hv)

/-- A scan records edges of the graph only, each once. -/
theorem scan_sound (succ : α → List α) (hnd : ∀ x, (succ x).Nodup) (fuel : Nat) {v : α}
    {l : List α} (hl : l.Nodup) (hsub : ∀ w ∈ l, w ∈ succ v) {s : Dfs α} (ht : s.Tidy)
    (hv : v ∈ s.visited) (hs : s.Sound succ) (hn : ∀ w ∈ l, (v, w) ∉ s.back) :
    (scan succ fuel v l s).Sound succ :=
  (scan_sound_of (run_sound succ hnd fuel) v l hl hsub s ht hv hs hn).1

/-- How many vertices of the universe are still unvisited. -/
def unvisited (univ : Finset α) (s : Dfs α) : Nat := (univ.filter (· ∉ s.visited)).card

/-- To enter a vertex leaves fewer unvisited. -/
theorem unvisited_enter {univ : Finset α} {v : α} (hv : v ∈ univ) (hn : v ∉ s.visited) :
    unvisited univ (s.enter v) < unvisited univ s := by
  refine Finset.card_lt_card (Finset.ssubset_iff_subset_ne.mpr ⟨?_, ?_⟩)
  · intro x hx
    simp only [enter, Finset.mem_filter, List.mem_cons, not_or] at hx ⊢
    exact ⟨hx.1, hx.2.2⟩
  · intro he
    have : v ∈ univ.filter (· ∉ s.visited) := by simp [hv, hn]
    rw [← he] at this
    simp [enter] at this

/-- The more is visited, the less is unvisited. -/
theorem unvisited_mono (univ : Finset α) {s s' : Dfs α}
    (h : ∀ x, x ∈ s.visited → x ∈ s'.visited) : unvisited univ s' ≤ unvisited univ s := by
  refine Finset.card_le_card ?_
  intro x hx
  simp only [Finset.mem_filter] at hx ⊢
  exact ⟨hx.1, fun hs => hx.2 (h x hs)⟩

variable (succ root) (univ : Finset α) (hclosed : ∀ x ∈ univ, ∀ w ∈ succ x, w ∈ univ)
  (hnd : ∀ x, (succ x).Nodup)

/-- The contract of one recursive call with enough fuel. -/
def RunSpec (fuel : Nat) : Prop :=
  ∀ (s : Dfs α) (v : α), s.Settled → v ∈ univ → v ∉ s.visited → OnStack succ root v s.stack →
    unvisited univ s ≤ fuel →
    ∃ new found, Grows succ root (fun _ _ => False) s (run succ fuel s v) new found ∧
      v ∈ new ∧ (∀ x ∈ new, Reaches (TreeEdge succ root) v x) ∧
      ∀ x ∈ new, x = v ∨ ∃ p ∈ new, x ∈ succ p ∧ (p, x) ∉ found

include hclosed in
/-- Scanning the successors of the innermost vertex, given the contract of the calls made. -/
private theorem scan_spec (fuel : Nat) (ih : RunSpec succ root univ fuel) (v : α) (hv : v ∈ univ)
    (t : List α) (l : List α) (hl : l.Nodup) (hsub : ∀ w ∈ l, w ∈ succ v) (s : Dfs α)
    (hs : s.Settled) (hstack : s.stack = v :: t) (hon : OnStack succ root v t)
    (hfuel : unvisited univ s ≤ fuel) :
    ∃ new found, Scanned succ root v l s (scan succ fuel v l s) new found := by
  have hvs : v ∈ s.visited := (hs v).mpr (.inr (by simp [hstack]))
  induction l using List.reverseRecOn with
  | nil => exact ⟨[], [], .refl _ _, by simp, by simp, by simp⟩
  | append_singleton l w ihl =>
    obtain ⟨hln, -, hwl⟩ := List.nodup_append.mp hl
    obtain ⟨new, found, h⟩ := ihl hln fun x hx => hsub x (List.mem_append_left _ hx)
    have hw : w ∈ succ v := hsub w (by simp)
    have hwl : w ∉ l := fun hm => hwl w hm w (by simp) rfl
    simp only [scan, List.foldl_append, List.foldl_cons, List.foldl_nil]
    change ∃ new found, Scanned succ root v (l ++ [w]) s (if w ∈ (scan succ fuel v l s).stack then
      (scan succ fuel v l s).retreat v w else if w ∈ (scan succ fuel v l s).visited then
      scan succ fuel v l s else run succ fuel (scan succ fuel v l s) w) new found
    by_cases hst : w ∈ (scan succ fuel v l s).stack
    · rw [if_pos hst]
      rw [h.grows.stack] at hst
      refine ⟨new, found ++ [(v, w)], h.retreat hvs hw hwl hst ((hs w).mpr (.inr hst)) ?_⟩
      exact hon.2 w (by simpa [hstack] using hst)
    · rw [if_neg hst]
      by_cases hvis : w ∈ (scan succ fuel v l s).visited
      · rw [if_pos hvis]
        refine ⟨new, found, h.skip ?_⟩
        have hleft := ((h.grows.settled hs w).mp hvis).resolve_right hst
        rwa [h.grows.post, List.mem_append] at hleft
      · rw [if_neg hvis]
        have htree : TreeEdge succ root v w := by
          refine ⟨hw, _, hon.1, fun hm => hst ?_⟩
          rw [h.grows.stack, hstack]
          exact List.mem_reverse.mp hm
        have hon' : OnStack succ root w (scan succ fuel v l s).stack := by
          rw [h.grows.stack, hstack]
          refine ⟨by simpa using hon.1.snoc hw, ?_⟩
          intro y hy
          rcases List.mem_cons.mp hy with rfl | hy
          · exact .refl
          · exact (hon.2 y hy).tail htree
        have hfuel' := (unvisited_mono univ
          (fun x hx => (h.grows.visited x).mpr (.inl hx))).trans hfuel
        obtain ⟨new', found', hr, hwn, hreach', hparent'⟩ :=
          ih _ w (h.grows.settled hs) (hclosed v hv w hw) hvis hon' hfuel'
        exact ⟨new ++ new', found ++ found', h.call hvs htree hwl hr hwn hreach' hparent'⟩

include hclosed hnd in
/-- Every call with enough fuel meets its contract. -/
theorem run_spec (fuel : Nat) : RunSpec succ root univ fuel := by
  induction fuel with
  | zero =>
    intro s v _ hv hn _ hfuel
    have := unvisited_enter hv hn
    omega
  | succ fuel ih =>
    intro s v hs hv hn hon hfuel
    have hent := unvisited_enter hv hn
    have hs' : (s.enter v).Settled := by
      intro x
      simp only [enter, List.mem_cons, hs x]
      tauto
    obtain ⟨new, found, hg, hsucc, hreach, hparent⟩ := scan_spec succ root univ hclosed fuel ih
      v hv s.stack (succ v) (hnd v) (fun _ h => h) (s.enter v) hs' rfl hon (by omega)
    rw [run_succ]
    refine ⟨new ++ [v], found, hg.leave hn hsucc, by simp, ?_, ?_⟩
    · intro x hx
      rcases List.mem_append.mp hx with hx | hx
      · exact hreach x hx
      · rw [List.mem_singleton.mp hx]
    · intro x hx
      rcases List.mem_append.mp hx with hx | hx
      · obtain ⟨p, hp, hpx, hf⟩ := hparent x hx
        refine .inr ⟨p, ?_, hpx, hf⟩
        rcases hp with rfl | hp
        · simp
        · exact List.mem_append_left _ hp
      · exact .inl (List.mem_singleton.mp hx)

variable {succ root}

/-- The facts about a search that was run from `root` to its end. -/
structure Complete (succ : α → List α) (root : α) (s : Dfs α) : Prop where
  /-- The post order has no repetition. -/
  nodup : s.post.Nodup
  /-- It lists exactly the reachable vertices. -/
  mem_post : ∀ x, x ∈ s.post ↔ Reaches (fun a b => b ∈ succ a) root x
  /-- The visited vertices are those of the post order. -/
  visited : ∀ x, x ∈ s.visited ↔ x ∈ s.post
  /-- Nothing is left on the stack. -/
  stack : s.stack = []
  /-- An edge that does not retreat goes to a vertex left earlier. -/
  forward : ∀ x ∈ s.post, ∀ w ∈ succ x, (x, w) ∉ s.back → s.post.idxOf w < s.post.idxOf x
  /-- A retreating edge goes to a vertex left no earlier. -/
  retreat : ∀ x w, (x, w) ∈ s.back → x ∈ s.post ∧ w ∈ s.post ∧ w ∈ succ x ∧
    s.post.idxOf x ≤ s.post.idxOf w ∧ Reaches (TreeEdge succ root) w x
  /-- Every retreating edge is recorded once. -/
  nodup_back : s.back.Nodup
  /-- The search reaches its vertices along tree edges. -/
  tree : ∀ x ∈ s.post, Reaches (TreeEdge succ root) root x
  /-- It reaches them along edges that do not retreat. -/
  parent : ∀ x ∈ s.post, x = root ∨ ∃ p ∈ s.post, x ∈ succ p ∧ (p, x) ∉ s.back

/-- A search from `root` with fuel for every vertex of a closed universe is complete. -/
theorem run_complete (succ : α → List α) (root : α) (univ : Finset α)
    (hclosed : ∀ x ∈ univ, ∀ w ∈ succ x, w ∈ univ) (hnd : ∀ x, (succ x).Nodup)
    (hroot : root ∈ univ) {fuel : Nat} (hfuel : univ.card ≤ fuel) :
    Complete succ root (run succ fuel {} root) := by
  obtain ⟨new, found, hg, hmem, hreach, hparent⟩ := run_spec succ root univ hclosed hnd fuel {} root
    (by intro x; simp) hroot (by simp)
    ⟨by simpa using Walk.single root, by simp [Reaches, Relation.ReflTransGen.refl]⟩
    (le_trans (Finset.card_filter_le _ _) hfuel)
  have hpost : (run succ fuel {} root).post = new := by simpa using hg.post
  have hback : (run succ fuel {} root).back = found := by simpa using hg.back
  have hstep : ∀ x ∈ new, ∀ w ∈ succ x, w ∈ new := by
    intro x hx w hw
    rcases hg.closed x hx w hw with h | h | h
    · rcases hg.target _ h with ht | ht
      · simp at ht
      · exact ht.1
    · simp at h
    · exact h.mem_left
  refine ⟨hpost ▸ hg.nodup, ?_, ?_, by simpa using hg.stack, ?_, ?_, hback ▸ hg.nodup_found,
    fun x hx => hreach x (hpost ▸ hx), ?_⟩
  · intro x
    rw [hpost]
    constructor
    · intro hx
      exact (hreach x hx).mono fun _ _ h => h.edge
    · intro hx
      induction hx with
      | refl => exact hmem
      | tail _ hbc ih => exact hstep _ ih _ hbc
  · intro x
    rw [hpost]
    simpa using hg.visited x
  · intro x hx w hw hb
    rw [hpost] at hx ⊢
    rw [hback] at hb
    rcases hg.closed x hx w hw with h | h | h
    · exact absurd h hb
    · simp at h
    · exact h.idxOf_lt hg.nodup
  · intro x w hb
    rw [hback] at hb
    rw [hpost]
    have hx : x ∈ new := (hg.source _ hb).resolve_right id
    have hw : w ∈ new ∧ (x = w ∨ Precedes new x w) := by
      rcases hg.target _ hb with ht | ht
      · simp at ht
      · exact ht
    refine ⟨hx, hw.1, (hg.retreats _ hb).1, ?_, (hg.retreats _ hb).2⟩
    rcases hw.2 with rfl | h
    · exact Nat.le_refl _
    · exact Nat.le_of_lt (h.idxOf_lt hg.nodup)
  · rw [hpost, hback]
    exact hparent

/-- The reachable vertices are reachable along edges that do not retreat. -/
theorem Complete.reaches_forward (h : Complete succ root s) {x : α} (hx : x ∈ s.post) :
    Reaches (fun a b => b ∈ succ a ∧ (a, b) ∉ s.back) root x := by
  induction hn : s.post.length - s.post.idxOf x using Nat.strongRecOn generalizing x with
  | ind n ih =>
    rcases h.parent x hx with rfl | ⟨p, hp, hpx, hb⟩
    · exact .refl
    · have := h.forward p hp x hpx hb
      have := List.idxOf_lt_length_of_mem hp
      exact .tail (ih _ (by omega) hp rfl) ⟨hpx, hb⟩

variable {B : α → α → Prop} (h : Complete succ root s)
  (hdom : ∀ x w, B x w → Dominates (fun a b => b ∈ succ a) root w x)
  (hacyc : ∀ a, Reaches (fun a b => b ∈ succ a) root a →
    ¬ Relation.TransGen (fun x w => w ∈ succ x ∧ ¬ B x w) a a)

omit [DecidableEq α] in
include hdom in
/-- A tree edge does not lead to a dominator of its source. -/
private theorem TreeEdge.not_marked {u v : α} (huv : TreeEdge succ root u v) : ¬ B u v := by
  obtain ⟨-, p, hp, hv⟩ := huv
  exact fun hb => hv (hdom u v hb p hp)

include h hdom hacyc in
/-- When the marked edges lead to a dominator of their source and the other edges form no
cycle, every retreating edge is marked. -/
theorem Complete.marked_of_back {x w : α} (hb : (x, w) ∈ s.back) : B x w := by
  by_contra hn
  obtain ⟨hx, -, hw, -, hwx⟩ := h.retreat x w hb
  refine hacyc x ((h.mem_post x).mp hx) (.head' ⟨hw, hn⟩ ?_)
  exact hwx.mono fun u v huv => ⟨huv.edge, huv.not_marked hdom⟩

include h hdom hacyc in
/-- Under the same conditions the retreating edges of every search are the back edges. -/
theorem Complete.mem_back_iff {x w : α} :
    (x, w) ∈ s.back ↔ BackEdge (fun a b => b ∈ succ a) root x w := by
  constructor
  · intro hb
    obtain ⟨hx, -, hw, -, -⟩ := h.retreat x w hb
    exact ⟨(h.mem_post x).mp hx, hw, hdom x w (h.marked_of_back hdom hacyc hb)⟩
  · rintro ⟨hx, hw, hwx⟩
    by_contra hn
    have hx := (h.mem_post x).mpr hx
    have hlt := h.forward x hx w hw hn
    -- the tree path to the source passes through the target, which is therefore left later
    obtain ⟨p, hp⟩ := Walk.of_reaches (h.tree x hx)
    have hwp := hwx p (hp.mono fun u _ v _ huv => huv.edge)
    have hle := Reaches.ord_le (fun y => s.post.idxOf y) (fun u v huv => by
      obtain ⟨hv, q, hq, -⟩ := id huv
      exact h.forward u ((h.mem_post u).mpr hq.reaches) v hv
        fun hr => huv.not_marked hdom (h.marked_of_back hdom hacyc hr)) (hp.reaches_mem hwp).2
    exact absurd hlt (Nat.not_lt.mpr hle)

end Dfs

end DxilSpirv.Graph
