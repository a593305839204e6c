import DxilSpirv.Graph.Parented

/-!
# Searches that delay vertices

A search in pre-order in which a vertex may delay others: they are not entered before its successors
are done, and then they are entered in turn. Every reachable vertex is entered once, after its
dominators, and a vertex that only one vertex delays is entered after what can be reached from that
one without it.
-/

namespace DxilSpirv.Graph

variable {α : Type}

/-- What a search has entered, in order, and what it delays. -/
structure Delaying (α : Type) where
  visited : List α := []
  delayed : Finset α := ∅

namespace Delaying

/-- Enter a vertex, its successors, and then what it delays. -/
def visit [DecidableEq α] (succ later : α → List α) : Nat → Delaying α → α → Option (Delaying α)
  | 0, _, _ => none
  | fuel + 1, s, v =>
    if v ∈ s.visited ∨ v ∈ s.delayed then some s
    else do
      let s ← (succ v).foldlM (visit succ later fuel)
        { visited := s.visited ++ [v], delayed := s.delayed ∪ (later v).toFinset }
      (later v).foldlM (fun s x =>
        visit succ later fuel { s with delayed := s.delayed.erase x } x) s

/-- The vertices that a vertex leads to. -/
def edges (succ later : α → List α) (v : α) : List α := succ v ++ later v

variable {succ later : α → List α}

/-- What is delayed is delayed by something that was entered. -/
def Accounted (later : α → List α) (s : Delaying α) : Prop :=
  ∀ x ∈ s.delayed, ∃ u ∈ s.visited, x ∈ later u

/-- What can be reached from a vertex without `x`, what the vertex delays after `x`, and what was
entered or delayed before, comes before `x`, if no other vertex delays `x`. -/
def Ordered (succ later : α → List α) (l : List α) (u : α) : Prop :=
  ∀ before after, l = before ++ u :: after → ∀ pre x post, later u = pre ++ x :: post →
    x ∉ pre → x ∉ before → x ≠ u → (∀ w ∈ l, w ≠ u → x ∉ later w) → ∀ v,
    Reaches (fun a b => b ∈ edges succ later a ∧ b ∉ before ∧ (∀ w ∈ before, b ∉ later w) ∧
      b ∉ x :: post) u v →
    Precedes l v x

/-- In a list without repetition, what comes before a vertex is determined. -/
theorem before_unique {l₁ l₂ m₁ m₂ : List α} {a : α} (h : l₁ ++ a :: m₁ = l₂ ++ a :: m₂)
    (hnodup : (l₁ ++ a :: m₁).Nodup) : l₁ = l₂ := by
  have hout {l m : List α} (hl : (l ++ a :: m).Nodup) : a ∉ l := fun ha =>
    (List.nodup_append.mp hl).2.2 a ha a List.mem_cons_self rfl
  have h₁ := hout hnodup
  have h₂ := hout (h ▸ hnodup)
  rcases List.append_eq_append_iff.mp h with ⟨middle, rfl, hright⟩ | ⟨middle, rfl, hright⟩
  · cases middle with
    | nil => exact (List.append_nil l₁).symm
    | cons x middle =>
      obtain ⟨rfl, -⟩ := List.cons.inj hright
      exact absurd (List.mem_append_right _ List.mem_cons_self) h₂
  · cases middle with
    | nil => exact List.append_nil l₂
    | cons x middle =>
      obtain ⟨rfl, -⟩ := List.cons.inj hright
      exact absurd (List.mem_append_right _ List.mem_cons_self) h₁

/-- A vertex that was not there is put at the end. -/
theorem nodup_concat {l : List α} {v : α} (hl : l.Nodup) (hv : v ∉ l) : (l ++ [v]).Nodup :=
  List.nodup_append.mpr ⟨hl, List.nodup_singleton v,
    fun _ ha _ hb heq => hv (List.mem_singleton.mp hb ▸ heq ▸ ha)⟩

/-- More vertices at the end. -/
theorem Ordered.append {l m : List α} {u : α} (h : Ordered succ later l u) (hu : u ∈ l)
    (hnodup : (l ++ m).Nodup) :
    Ordered succ later (l ++ m) u := by
  intro before after heq pre x post hlater hpre hbefore hne honly v hreach
  obtain ⟨left, right, rfl⟩ := List.append_of_mem hu
  rw [List.append_assoc, List.cons_append] at heq hnodup
  obtain rfl := before_unique heq hnodup
  exact (h left right rfl pre x post hlater hpre hbefore hne
    (fun w hw => honly w (List.mem_append_left _ hw)) v hreach).append_right m

/-- What a piece of a search did, begun at some vertices, some of them no longer delayed. -/
structure Grows (succ later : α → List α) (start undelayed : List α) (s s' : Delaying α)
    (new : List α) : Prop where
  visited : s'.visited = s.visited ++ new
  nodup : s.visited.Nodup → s'.visited.Nodup
  delayed_mem : ∀ x ∈ s'.delayed, x ∈ s.delayed ∧ x ∉ undelayed
  done : ∀ x, x ∈ s.delayed ∨ x ∈ start → x ∈ s'.delayed ∨ x ∈ s'.visited
  closed : ∀ u ∈ new, ∀ w ∈ edges succ later u, w ∈ s'.delayed ∨ w ∈ s'.visited
  kept : ∀ x ∈ s.delayed, x ∉ undelayed → (∀ u ∈ new, x ∉ later u) → x ∈ s'.delayed ∧ x ∉ new
  parent : ∀ before v after, new = before ++ v :: after → v ∈ start ∨ ∃ u ∈ before,
    v ∈ edges succ later u
  ordered : s.visited.Nodup → s.Accounted later → ∀ u ∈ new, Ordered succ later s'.visited u

namespace Grows

variable {start start' undelayed undelayed' new new' : List α} {s s' s'' : Delaying α}

/-- Nothing is begun. -/
theorem refl (h : ∀ x ∈ start, x ∈ s.delayed ∨ x ∈ s.visited) :
    Grows succ later start [] s s [] where
  visited := (List.append_nil _).symm
  nodup h := h
  delayed_mem x hx := ⟨hx, List.not_mem_nil⟩
  done x hx := hx.elim Or.inl (h x)
  closed u hu := by cases hu
  kept x hx _ _ := ⟨hx, List.not_mem_nil⟩
  parent before v after h := by simp at h
  ordered _ _ u hu := by cases hu

theorem mono (h : Grows succ later start undelayed s s' new) {x : α} (hx : x ∈ s.visited) :
    x ∈ s'.visited := by
  rw [h.visited]
  exact List.mem_append_left _ hx

/-- What is delayed afterwards is still accounted for. -/
theorem accounted (h : Grows succ later start undelayed s s' new) (hs : s.Accounted later) :
    s'.Accounted later := by
  intro x hx
  obtain ⟨u, hu, hux⟩ := hs x (h.delayed_mem x hx).1
  exact ⟨u, h.mono hu, hux⟩

/-- One piece after another. -/
theorem trans (h : Grows succ later start undelayed s s' new)
    (h' : Grows succ later start' undelayed' s' s'' new') :
    Grows succ later (start ++ start') (undelayed ++ undelayed') s s'' (new ++ new') where
  visited := by rw [h'.visited, h.visited, List.append_assoc]
  nodup hs := h'.nodup (h.nodup hs)
  delayed_mem x hx := by
    obtain ⟨hx', hn'⟩ := h'.delayed_mem x hx
    obtain ⟨hx, hn⟩ := h.delayed_mem x hx'
    exact ⟨hx, fun hm => (List.mem_append.mp hm).elim hn hn'⟩
  done x hx := by
    have hlater {x : α} (hx : x ∈ s'.delayed ∨ x ∈ s'.visited) : x ∈ s''.delayed ∨
        x ∈ s''.visited :=
      hx.elim (fun hx => h'.done x (Or.inl hx)) fun hx => Or.inr (h'.mono hx)
    rcases hx with hx | hx
    · exact hlater (h.done x (Or.inl hx))
    · rcases List.mem_append.mp hx with hx | hx
      · exact hlater (h.done x (Or.inr hx))
      · exact h'.done x (Or.inr hx)
  closed u hu w hw := by
    rcases List.mem_append.mp hu with hu | hu
    · rcases h.closed u hu w hw with hw | hw
      · exact h'.done w (Or.inl hw)
      · exact Or.inr (h'.mono hw)
    · exact h'.closed u hu w hw
  kept x hx hn hnew := by
    obtain ⟨hx', hn₁⟩ := h.kept x hx (fun hm => hn (List.mem_append_left _ hm))
      fun u hu => hnew u (List.mem_append_left _ hu)
    obtain ⟨hx'', hn₂⟩ := h'.kept x hx' (fun hm => hn (List.mem_append_right _ hm))
      fun u hu => hnew u (List.mem_append_right _ hu)
    exact ⟨hx'', fun hm => (List.mem_append.mp hm).elim hn₁ hn₂⟩
  parent before v after heq := by
    rcases List.append_eq_append_iff.mp heq with ⟨middle, rfl, hright⟩ | ⟨middle, hleft, hright⟩
    · rcases h'.parent middle v after hright with hv | ⟨u, hu, hv⟩
      · exact Or.inl (List.mem_append_right _ hv)
      · exact Or.inr ⟨u, List.mem_append_right _ hu, hv⟩
    · cases middle with
      | nil =>
        rcases h'.parent [] v after (by simpa using hright.symm) with hv | ⟨u, hu, -⟩
        · exact Or.inl (List.mem_append_right _ hv)
        · cases hu
      | cons y middle =>
        obtain ⟨rfl, -⟩ := List.cons.inj hright
        rcases h.parent before v middle hleft with hv | hv
        · exact Or.inl (List.mem_append_left _ hv)
        · exact Or.inr hv
  ordered hs hacc u hu := by
    have hs' := h.nodup hs
    have hs'' := h'.nodup hs'
    rcases List.mem_append.mp hu with hu | hu
    · rw [h'.visited] at hs'' ⊢
      refine (h.ordered hs hacc u hu).append ?_ hs''
      rw [h.visited]
      exact List.mem_append_right _ hu
    · exact h'.ordered hs' (h.accounted hacc) u hu

/-- A vertex that is no longer delayed is where a piece begins. -/
theorem undelay [DecidableEq α] {x : α}
    (h : Grows succ later [x] [] { s with delayed := s.delayed.erase x } s' new) :
    Grows succ later [x] [x] s s' new where
  visited := h.visited
  nodup := h.nodup
  delayed_mem y hy := by
    obtain ⟨hne, hmem⟩ := Finset.mem_erase.mp (h.delayed_mem y hy).1
    exact ⟨hmem, fun hx => hne (List.mem_singleton.mp hx)⟩
  done y hy := by
    by_cases hyx : y = x
    · exact h.done y (Or.inr (List.mem_singleton.mpr hyx))
    · rcases hy with hy | hy
      · exact h.done y (Or.inl (Finset.mem_erase.mpr ⟨hyx, hy⟩))
      · exact absurd (List.mem_singleton.mp hy) hyx
  closed := h.closed
  kept y hy hn hnew :=
    h.kept y (Finset.mem_erase.mpr ⟨fun hyx => hn (List.mem_singleton.mpr hyx), hy⟩)
      List.not_mem_nil hnew
  parent := h.parent
  ordered hs hacc := h.ordered hs fun y hy => hacc y (Finset.mem_erase.mp hy).2

/-- A vertex is entered, then what it leads to. -/
theorem enter [DecidableEq α] {v : α} (hv : v ∉ s.visited) (hd : v ∉ s.delayed)
    (h : Grows succ later (edges succ later v) (later v)
      { visited := s.visited ++ [v], delayed := s.delayed ∪ (later v).toFinset } s' new)
    (hordered : s.visited.Nodup → s.Accounted later → Ordered succ later s'.visited v) :
    Grows succ later [v] [] s s' (v :: new) where
  visited := by
    rw [h.visited]
    exact List.append_assoc ..
  nodup hs := h.nodup (nodup_concat hs hv)
  delayed_mem x hx := by
    obtain ⟨hmem, hn⟩ := h.delayed_mem x hx
    rcases Finset.mem_union.mp hmem with hmem | hmem
    · exact ⟨hmem, List.not_mem_nil⟩
    · exact absurd (List.mem_toFinset.mp hmem) hn
  done x hx := by
    rcases hx with hx | hx
    · exact h.done x (Or.inl (Finset.mem_union_left _ hx))
    · refine Or.inr (h.mono (List.mem_append_right _ hx))
  closed u hu w hw := by
    rcases List.mem_cons.mp hu with rfl | hu
    · exact h.done w (Or.inr hw)
    · exact h.closed u hu w hw
  kept x hx _ hnew := by
    obtain ⟨hx', hn⟩ := h.kept x (Finset.mem_union_left _ hx) (hnew v List.mem_cons_self)
      fun u hu => hnew u (List.mem_cons_of_mem v hu)
    refine ⟨hx', fun hmem => ?_⟩
    rcases List.mem_cons.mp hmem with rfl | hmem
    · exact hd hx
    · exact hn hmem
  parent before w after heq := by
    cases before with
    | nil => exact Or.inl (List.mem_singleton.mpr (List.cons.inj heq).1.symm)
    | cons y before =>
      obtain ⟨rfl, hrest⟩ := List.cons.inj heq
      rcases h.parent before w after hrest with hw | ⟨u, hu, hw⟩
      · exact Or.inr ⟨v, List.mem_cons_self, hw⟩
      · exact Or.inr ⟨u, List.mem_cons_of_mem v hu, hw⟩
  ordered hs hacc u hu := by
    rcases List.mem_cons.mp hu with rfl | hu
    · exact hordered hs hacc
    · refine h.ordered (nodup_concat hs hv) (fun x hx => ?_) u hu
      rcases Finset.mem_union.mp hx with hx | hx
      · obtain ⟨w, hw, hwx⟩ := hacc x hx
        exact ⟨w, List.mem_append_left _ hw, hwx⟩
      · exact ⟨v, List.mem_append_right _ (List.mem_singleton_self v), List.mem_toFinset.mp hx⟩

end Grows

variable [DecidableEq α] {s s₃ s₄ : Delaying α} {v x : α} {pre post new₃ new₄ : List α}

/-- What can be reached from a vertex without what it still delays was entered. -/
theorem Grows.reaches_mem (hacc : s.Accounted later) (hlater : later v = pre ++ x :: post)
    (h : Grows succ later (succ v ++ pre) pre
      { visited := s.visited ++ [v], delayed := s.delayed ∪ (later v).toFinset } s₃ new₃) {w : α}
    (hreach : Reaches (fun a b => b ∈ edges succ later a ∧ b ∉ s.visited ∧
      (∀ w ∈ s.visited, b ∉ later w) ∧ b ∉ x :: post) v w) : w ∈ v :: new₃ := by
  induction hreach with
  | refl => exact List.mem_cons_self
  | @tail a b _ hstep ih =>
    obtain ⟨hedge, hvisited, hdeclared, hpost⟩ := hstep
    have hdone : b ∈ s₃.delayed ∨ b ∈ s₃.visited := by
      rcases List.mem_cons.mp ih with rfl | hnew
      · refine h.done b (Or.inr ?_)
        rcases List.mem_append.mp hedge with hb | hb
        · exact List.mem_append_left _ hb
        · rw [hlater] at hb
          exact List.mem_append_right _ ((List.mem_append.mp hb).resolve_right hpost)
      · exact h.closed a hnew b hedge
    rcases hdone with hdelayed | hmem
    · -- What is still delayed was delayed before, or is what the vertex still delays.
      obtain ⟨hin, hpre⟩ := h.delayed_mem b hdelayed
      rcases Finset.mem_union.mp hin with hin | hin
      · obtain ⟨u, hu, hub⟩ := hacc b hin
        exact absurd hub (hdeclared u hu)
      · rw [List.mem_toFinset, hlater] at hin
        exact absurd ((List.mem_append.mp hin).resolve_left hpre) hpost
    · rw [h.visited, List.append_assoc] at hmem
      exact (List.mem_append.mp hmem).resolve_left hvisited

/-- A vertex is entered after what can be reached without it from the only one that delays it. -/
theorem Grows.precedes (hacc : s.Accounted later) (hlater : later v = pre ++ x :: post)
    (hpre : x ∉ pre) (hx : x ∉ s.visited) (hne : x ≠ v)
    (h : Grows succ later (succ v ++ pre) pre
      { visited := s.visited ++ [v], delayed := s.delayed ∪ (later v).toFinset } s₃ new₃)
    (h' : Grows succ later [x] [x] s₃ s₄ new₄) (honly : ∀ w ∈ new₃, x ∉ later w) {w : α}
    (hreach : Reaches (fun a b => b ∈ edges succ later a ∧ b ∉ s.visited ∧
      (∀ w ∈ s.visited, b ∉ later w) ∧ b ∉ x :: post) v w) : Precedes s₄.visited w x := by
  have hdelayed : x ∈ s.delayed ∪ (later v).toFinset := by
    rw [Finset.mem_union, List.mem_toFinset, hlater]
    exact Or.inr (List.mem_append_right _ List.mem_cons_self)
  obtain ⟨-, hnew⟩ := h.kept x hdelayed hpre honly
  have hout : x ∉ s₃.visited := by
    rw [h.visited, List.append_assoc]
    intro hmem
    rcases List.mem_append.mp hmem with hmem | hmem
    · exact hx hmem
    · exact (List.mem_cons.mp hmem).elim hne hnew
  have hin : x ∈ new₄ := by
    rcases h'.done x (Or.inr (List.mem_singleton_self x)) with hmem | hmem
    · exact absurd (List.mem_singleton_self x) (h'.delayed_mem x hmem).2
    · rw [h'.visited] at hmem
      exact (List.mem_append.mp hmem).resolve_left hout
  rw [h'.visited]
  refine Precedes.of_append ?_ hin
  rw [h.visited, List.append_assoc]
  exact List.mem_append_right _ (h.reaches_mem hacc hlater hreach)

variable (univ : Finset α) (hclosed : ∀ v ∈ univ, ∀ w ∈ edges succ later v, w ∈ univ)

/-- How many vertices are left. -/
def left (univ : Finset α) (s : Delaying α) : Nat := (univ.filter (· ∉ s.visited)).card

theorem left_le {s s' : Delaying α} (h : ∀ x ∈ s.visited, x ∈ s'.visited) :
    left univ s' ≤ left univ s := by
  refine Finset.card_le_card fun x hx => ?_
  obtain ⟨hx, hn⟩ := Finset.mem_filter.mp hx
  exact Finset.mem_filter.mpr ⟨hx, fun hs => hn (h x hs)⟩

theorem left_lt {s s' : Delaying α} {v : α} (h : ∀ x ∈ s.visited, x ∈ s'.visited) (hv : v ∈ univ)
    (hs : v ∉ s.visited) (hs' : v ∈ s'.visited) : left univ s' < left univ s := by
  refine Finset.card_lt_card (Finset.ssubset_iff_of_subset (fun x hx => ?_) |>.mpr ⟨v, ?_, ?_⟩)
  · obtain ⟨hx, hn⟩ := Finset.mem_filter.mp hx
    exact Finset.mem_filter.mpr ⟨hx, fun hs => hn (h x hs)⟩
  · exact Finset.mem_filter.mpr ⟨hv, hs⟩
  · exact fun hmem => (Finset.mem_filter.mp hmem).2 hs'

/-- The contract of one call with enough fuel. -/
def VisitSpec (succ later : α → List α) (univ : Finset α) (fuel : Nat) : Prop :=
  ∀ (s : Delaying α) (v : α), v ∈ univ → left univ s < fuel →
    ∃ s' new, visit succ later fuel s v = some s' ∧ Grows succ later [v] [] s s' new

variable {univ} {fuel : Nat}

/-- The successors are visited. -/
theorem VisitSpec.successors (ih : VisitSpec succ later univ fuel) {l : List α}
    (hl : ∀ w ∈ l, w ∈ univ) {s : Delaying α} (hs : left univ s < fuel) :
    ∃ s' new, l.foldlM (visit succ later fuel) s = some s' ∧ Grows succ later l [] s s' new := by
  induction l generalizing s with
  | nil => exact ⟨s, [], rfl, .refl fun x hx => absurd hx List.not_mem_nil⟩
  | cons w l ihl =>
    obtain ⟨hw, hl⟩ := List.forall_mem_cons.mp hl
    obtain ⟨s₁, new₁, hrun₁, h₁⟩ := ih s w hw hs
    obtain ⟨s₂, new₂, hrun₂, h₂⟩ := ihl hl ((left_le univ fun x => h₁.mono).trans_lt hs)
    refine ⟨s₂, new₁ ++ new₂, ?_, h₁.trans h₂⟩
    rw [List.foldlM_cons, hrun₁]
    exact hrun₂

/-- What is delayed is visited. -/
theorem VisitSpec.undelayed (ih : VisitSpec succ later univ fuel) {l : List α}
    (hl : ∀ w ∈ l, w ∈ univ) {s : Delaying α} (hs : left univ s < fuel) :
    ∃ s' new, l.foldlM (fun s x => visit succ later fuel { s with delayed := s.delayed.erase x } x)
      s = some s' ∧ Grows succ later l l s s' new := by
  induction l generalizing s with
  | nil => exact ⟨s, [], rfl, .refl fun x hx => absurd hx List.not_mem_nil⟩
  | cons w l ihl =>
    obtain ⟨hw, hl⟩ := List.forall_mem_cons.mp hl
    obtain ⟨s₁, new₁, hrun₁, h₁⟩ := ih { s with delayed := s.delayed.erase w } w hw hs
    have h₁' := h₁.undelay
    obtain ⟨s₂, new₂, hrun₂, h₂⟩ := ihl hl ((left_le univ fun x => h₁'.mono).trans_lt hs)
    refine ⟨s₂, new₁ ++ new₂, ?_, h₁'.trans h₂⟩
    rw [List.foldlM_cons, hrun₁]
    exact hrun₂

include hclosed in
/-- Every call with enough fuel meets its contract. -/
theorem visitSpec (fuel : Nat) : VisitSpec succ later univ fuel := by
  induction fuel with
  | zero => exact fun s v _ h => absurd h (Nat.not_lt_zero _)
  | succ fuel ih =>
    intro s v hv hs
    rw [visit]
    by_cases hskip : v ∈ s.visited ∨ v ∈ s.delayed
    · refine ⟨s, [], if_pos hskip, .refl fun x hx => ?_⟩
      rw [List.mem_singleton.mp hx]
      exact hskip.symm
    rw [if_neg hskip]
    obtain ⟨hvisited, hdelayed⟩ := not_or.mp hskip
    have hsucc (w : α) (hw : w ∈ succ v) : w ∈ univ := hclosed v hv w (List.mem_append_left _ hw)
    have hlater (w : α) (hw : w ∈ later v) : w ∈ univ := hclosed v hv w (List.mem_append_right _ hw)
    have hless : left univ { visited := s.visited ++ [v], delayed :=
      s.delayed ∪ (later v).toFinset } < fuel := by
      have := @left_lt _ _ univ s
        { visited := s.visited ++ [v], delayed := s.delayed ∪ (later v).toFinset } v
        (fun x hx => List.mem_append_left _ hx) hv hvisited
          (List.mem_append_right _ (List.mem_singleton_self v))
      omega
    obtain ⟨s₂, new₂, hrun₂, h₂⟩ := ih.successors hsucc hless
    have hless₂ := (left_le univ fun x => h₂.mono).trans_lt hless
    obtain ⟨s₃, new₃, hrun₃, h₃⟩ := ih.undelayed hlater hless₂
    refine ⟨s₃, v :: (new₂ ++ new₃), ?_,
      .enter hvisited hdelayed (h₂.trans h₃) fun hnodup hacc => ?_⟩
    · rw [hrun₂]
      exact hrun₃
    intro before after heq pre x post hsplit hpre hbefore hne honly w hreach
    have hall := h₂.trans h₃
    have hnodup' := hall.nodup (nodup_concat hnodup hvisited)
    have hvisited' : s₃.visited = s.visited ++ v :: (new₂ ++ new₃) :=
      hall.visited.trans (List.append_assoc ..)
    obtain rfl : before = s.visited := before_unique (heq.symm.trans hvisited') (heq ▸ hnodup')
    -- The run up to `x`, the visit of `x`, and the rest.
    have huniv (y : α) (hy : y ∈ pre ++ x :: post) : y ∈ univ := hlater y (hsplit ▸ hy)
    obtain ⟨t₁, n₁, r₁, g₁⟩ := ih.undelayed (fun y hy => huniv y (List.mem_append_left _ hy)) hless₂
    have hless₃ := (left_le univ fun x => g₁.mono).trans_lt hless₂
    obtain ⟨t₂, n₂, r₂, g₂⟩ := ih { t₁ with delayed := t₁.delayed.erase x } x
      (huniv x (List.mem_append_right _ List.mem_cons_self)) hless₃
    have g₂' := g₂.undelay
    obtain ⟨t₃, n₃, r₃, g₃⟩ := ih.undelayed
      (fun y hy => huniv y (List.mem_append_right _ (List.mem_cons_of_mem x hy)))
      ((left_le univ fun x => g₂'.mono).trans_lt hless₃)
    obtain rfl : t₃ = s₃ := by
      rw [hsplit, List.foldlM_append, r₁] at hrun₃
      change (List.foldlM _ _ _) = _ at hrun₃
      rw [List.foldlM_cons, r₂] at hrun₃
      exact Option.some.inj (r₃.symm.trans hrun₃)
    have hupto := h₂.trans g₁
    have honly' (u : α) (hu : u ∈ new₂ ++ n₁) : x ∉ later u := by
      have hmem : u ∈ t₁.visited := by
        rw [hupto.visited]
        exact List.mem_append_right _ hu
      refine honly u (g₃.mono (g₂'.mono hmem)) fun huv => ?_
      have htwice := hupto.nodup (nodup_concat hnodup hvisited)
      rw [hupto.visited] at htwice
      exact (List.nodup_append.mp htwice).2.2 v
        (List.mem_append_right _ (List.mem_singleton_self v)) u hu huv.symm
    rw [g₃.visited]
    exact (Grows.precedes hacc hsplit hpre hbefore hne hupto g₂' honly' hreach).append_right n₃

/-- The order of a search from a root. -/
structure SearchOrder (succ later : α → List α) (root : α) (order : List α) : Prop where
  nodup : order.Nodup
  mem_iff : ∀ v, v ∈ order ↔ Reaches (fun a b => b ∈ edges succ later a) root v
  parented : Parented (edges succ later) root order
  ordered : ∀ u ∈ order, Ordered succ later order u

include hclosed in
/-- A search from a root ends, with nothing delayed, and its order is as it should be. -/
theorem exists_searchOrder {root : α} (hroot : root ∈ univ) (hfuel : univ.card < fuel) :
    ∃ order, visit succ later fuel {} root = some { visited := order } ∧
      SearchOrder succ later root order := by
  have hleft : left univ ({} : Delaying α) < fuel :=
    (Finset.card_le_card (Finset.filter_subset ..)).trans_lt hfuel
  obtain ⟨⟨order, delayed⟩, new, hrun, h⟩ := visitSpec hclosed fuel {} root hroot hleft
  have hnew : order = new := h.visited
  subst hnew
  obtain rfl : delayed = ∅ := Finset.eq_empty_of_forall_notMem fun x hx => by
    have := (h.delayed_mem x hx).1
    simp at this
  have hdone {x : α} (hx : x ∈ (∅ : Finset α) ∨ x ∈ order) : x ∈ order :=
    hx.resolve_left (Finset.notMem_empty x)
  have hparented : Parented (edges succ later) root order := fun before v after heq =>
    (h.parent before v after heq).imp_left List.mem_singleton.mp
  refine ⟨order, hrun, h.nodup List.nodup_nil, fun v => ⟨fun hv => ?_, fun hreach => ?_⟩, hparented,
    h.ordered List.nodup_nil fun x hx => by simp at hx⟩
  · obtain ⟨before, after, rfl⟩ := List.append_of_mem hv
    obtain ⟨p, hp, -⟩ := hparented.exists_walk before v after rfl
    exact hp.reaches
  · induction hreach with
    | refl => exact hdone (h.done root (Or.inr (List.mem_singleton_self root)))
    | tail _ hedge ih => exact hdone (h.closed _ ih _ hedge)

end Delaying

end DxilSpirv.Graph
