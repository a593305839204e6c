import DxilSpirv.Cfg.Reachability
import DxilSpirv.Program.Sorting

/-!
# The order of the cases of a switch

`find_natural_switch_merge_block` orders the cases of a switch such that a block that falls through
stands before the block it falls into. The first sort is by the forward order and is not stable, so
it is any list in that order; the labels of a block are neighbours in it.
-/

namespace DxilSpirv

open Program

namespace CFGStructurizer

variable (c : CFGStructurizer) (isPseudoBackEdge : Nat → Bool) (postDominator : Option Nat)

/-- The labels with the orders they start from. -/
def numberCases (cases : List TerminatorCase) : List TerminatorCase :=
  cases.mapIdx fun i x => { x with globalOrder := (i + 1) * cases.length % 2 ^ 64 }

/-- The first sort: any list of the numbered labels in descending forward order. -/
structure SortsForward (cases sorted : List TerminatorCase) : Prop where
  perm : sorted.Perm (numberCases cases)
  order : sorted.Pairwise fun a b =>
    (c.node b.node).forwardPostVisitOrder ≤ (c.node a.node).forwardPostVisitOrder

/-- The labels up to the first one that post-dominates the parent. -/
def upToPostDominator (parent : Nat) : List TerminatorCase → List TerminatorCase
  | [] => []
  | child :: rest =>
    if child.node ≠ parent && yields (c.postDominates child.node parent) id then [child]
    else child :: upToPostDominator parent rest

/-- Whether a case block falls through to another one, which is neither the post dominator of the
switch nor a continue block. -/
def fallsThrough (parent child : Nat) : Bool :=
  postDominator ≠ some child && parent ≠ child &&
    !((c.node child).succBackEdge.isSome || isPseudoBackEdge child) &&
      c.queryReachability parent child

/-- The label that a block falls through to: the last one, up to the first that post-dominates the
block. -/
def fallthroughTarget (parent : Nat) (rest : List TerminatorCase) : Option TerminatorCase :=
  (c.upToPostDominator parent rest).reverse.find? fun child =>
    c.fallsThrough isPseudoBackEdge postDominator parent child.node

/-- Each label with the label it falls through to, among those behind it. -/
def fallthroughs : List TerminatorCase → List (TerminatorCase × Option TerminatorCase)
  | [] => []
  | parent :: rest =>
    (parent, c.fallthroughTarget isPseudoBackEdge postDominator parent.node rest) ::
      fallthroughs rest

/-- The new order of a label: one less than the order that the label it falls through to has yet. -/
def reorder (entry : TerminatorCase × Option TerminatorCase) : TerminatorCase :=
  match entry.2 with
  | some child => { entry.1 with globalOrder := (child.globalOrder + (2 ^ 64 - 1)) % 2 ^ 64 }
  | none => entry.1

/-- The labels in their final order. -/
def orderCases (sorted : List TerminatorCase) : List TerminatorCase :=
  sortByKey TerminatorCase.globalOrder
    ((c.fallthroughs isPseudoBackEdge postDominator sorted).map reorder)

/-- `has_impossible_fallthrough`, with the order that two neighbours share. -/
def impossibleOrder (sorted : List TerminatorCase) : Option Nat :=
  repeatedKey TerminatorCase.globalOrder (c.orderCases isPseudoBackEdge postDominator sorted)

/-! ## What is wanted of the order -/

/-- What a switch does with a label. -/
def labelOf (x : TerminatorCase) : Nat × BitVec 32 × Bool := (x.node, x.value, x.isDefault)

/-- All labels of one block stand together, directly before a label of another. -/
def StandsBefore (l : List TerminatorCase) (parent child : Nat) : Prop :=
  ∃ before labels next after, l = before ++ labels ++ next :: after ∧ labels ≠ [] ∧
    (∀ x ∈ labels, x.node = parent) ∧ (∀ x ∈ before ++ next :: after, x.node ≠ parent) ∧
      next.node = child

variable (cases sorted : List TerminatorCase)

/-- Two different blocks fall through to one block. -/
def FallTogether : Prop :=
  ∃ e ∈ c.fallthroughs isPseudoBackEdge postDominator sorted,
    ∃ e' ∈ c.fallthroughs isPseudoBackEdge postDominator sorted, e.1.node ≠ e'.1.node ∧
      ∃ child child', e.2 = some child ∧ e'.2 = some child' ∧ child.node = child'.node

/-- The cases are ordered by fallthrough: they are only permuted, no order wraps, a fallthrough is
only impossible for two different blocks, and otherwise a block that falls through to another stands
before it. -/
structure OrdersFallthrough : Prop where
  permutes : ((c.orderCases isPseudoBackEdge postDominator sorted).map labelOf).Perm
    (cases.map labelOf)
  numbers_fit : ∀ i < cases.length, (i + 1) * cases.length < 2 ^ 64
  positive : ∀ e ∈ c.fallthroughs isPseudoBackEdge postDominator sorted, ∀ child, e.2 = some child →
    0 < child.globalOrder
  impossible : c.impossibleOrder isPseudoBackEdge postDominator sorted ≠ none →
    c.FallTogether isPseudoBackEdge postDominator sorted
  before : c.impossibleOrder isPseudoBackEdge postDominator sorted = none →
    ∀ e ∈ c.fallthroughs isPseudoBackEdge postDominator sorted,
      (∃ child ∈ sorted, c.fallsThrough isPseudoBackEdge postDominator e.1.node child.node = true) →
      ∃ child, e.2 = some child ∧
        StandsBefore (c.orderCases isPseudoBackEdge postDominator sorted) e.1.node child.node

/-- Two labels fall through to one label. -/
def Collide : Prop :=
  ∃ e ∈ c.fallthroughs isPseudoBackEdge postDominator sorted,
    ∃ e' ∈ c.fallthroughs isPseudoBackEdge postDominator sorted, e ≠ e' ∧ e.2 ≠ none ∧ e.2 = e'.2

/-- The place of a label among the labels as they were numbered: its own, or that of the label it
falls through to. -/
def place (e : TerminatorCase × Option TerminatorCase) : Nat := (e.2.getD e.1).globalOrder

/-- Where the order is right: a block with several labels does not fall through, unless two blocks
fall through to one; and, unless labels collide, each block that falls through has a label it falls
to, and where that label falls through itself, its target is numbered behind it with no place
between the two. -/
structure FallthroughsApart : Prop where
  few : cases.length < 2 ^ 32
  single : (∃ e ∈ c.fallthroughs isPseudoBackEdge postDominator sorted,
    ∃ e' ∈ c.fallthroughs isPseudoBackEdge postDominator sorted,
      e ≠ e' ∧ e.1.node = e'.1.node ∧ e.2 ≠ none) →
        c.FallTogether isPseudoBackEdge postDominator sorted
  found : ¬ c.Collide isPseudoBackEdge postDominator sorted →
    ∀ e ∈ c.fallthroughs isPseudoBackEdge postDominator sorted,
      (∃ child ∈ sorted, c.fallsThrough isPseudoBackEdge postDominator e.1.node child.node = true) →
        e.2 ≠ none
  chains : ¬ c.Collide isPseudoBackEdge postDominator sorted →
    ∀ e ∈ c.fallthroughs isPseudoBackEdge postDominator sorted,
      ∀ e' ∈ c.fallthroughs isPseudoBackEdge postDominator sorted, e.2 = some e'.1 →
      ∀ last, e'.2 = some last → e'.1.globalOrder < last.globalOrder ∧
        ∀ e'' ∈ c.fallthroughs isPseudoBackEdge postDominator sorted,
          ¬ (e'.1.globalOrder < place e'' ∧ place e'' < last.globalOrder)

/-! ## The numbers of the labels -/

/-- Labels with different multiples of their number as orders, which fit 64 bits. -/
structure Numbered (n : Nat) (l : List TerminatorCase) : Prop where
  length : l.length = n
  nodup : (l.map TerminatorCase.globalOrder).Nodup
  multiple : ∀ x ∈ l, ∃ k, 0 < k ∧ x.globalOrder = k * n
  fits : ∀ x ∈ l, x.globalOrder < 2 ^ 64

/-- The spaced orders of fewer than `2 ^ 32` cases fit into 64 bits. -/
theorem mul_self_fits {n i : Nat} (hn : n < 2 ^ 32) (hi : i < n) : (i + 1) * n < 2 ^ 64 := by
  calc (i + 1) * n ≤ n * n := Nat.mul_le_mul_right n hi
    _ < 2 ^ 64 := by nlinarith

/-- The cases are numbered in steps of their count. -/
theorem numberCases_map_globalOrder {cases : List TerminatorCase} (hfew : cases.length < 2 ^ 32) :
    (numberCases cases).map TerminatorCase.globalOrder =
      (List.range cases.length).map fun i => (i + 1) * cases.length := by
  unfold numberCases
  apply List.ext_getElem
  · simp
  · intro i h₁ h₂
    have hi : i < cases.length := by simpa using h₁
    simp only [List.getElem_map, List.getElem_mapIdx, List.getElem_range]
    exact Nat.mod_eq_of_lt (mul_self_fits hfew hi)

/-- The numbering keeps labels and targets. -/
theorem numberCases_map_labelOf (cases : List TerminatorCase) :
    (numberCases cases).map labelOf = cases.map labelOf := by
  unfold numberCases
  apply List.ext_getElem
  · simp
  · intro i h₁ h₂
    simp only [List.getElem_map, List.getElem_mapIdx]
    rfl

/-- After the sort the cases still have the numbers they got. -/
theorem SortsForward.numbered {c : CFGStructurizer} {cases sorted : List TerminatorCase}
    (h : c.SortsForward cases sorted) (hfew : cases.length < 2 ^ 32) :
    Numbered cases.length sorted := by
  have hmap := h.perm.map TerminatorCase.globalOrder
  rw [numberCases_map_globalOrder hfew] at hmap
  have horder (x : TerminatorCase) (hx : x ∈ sorted) :
      ∃ i < cases.length, x.globalOrder = (i + 1) * cases.length := by
    have hmem := hmap.mem_iff.mp (List.mem_map_of_mem hx)
    obtain ⟨i, hi, heq⟩ := List.mem_map.mp hmem
    exact ⟨i, List.mem_range.mp hi, heq.symm⟩
  refine ⟨?_, ?_, fun x hx => ?_, fun x hx => ?_⟩
  · rw [h.perm.length_eq]
    simp [numberCases]
  · rw [hmap.nodup_iff]
    refine List.Nodup.map_on ?_ (List.nodup_range)
    intro i hi j _ heq
    have hpos : 0 < cases.length := Nat.lt_of_le_of_lt (Nat.zero_le i) (List.mem_range.mp hi)
    have := Nat.eq_of_mul_eq_mul_right hpos heq
    omega
  · obtain ⟨i, -, heq⟩ := horder x hx
    exact ⟨i + 1, Nat.succ_pos i, heq⟩
  · obtain ⟨i, hi, heq⟩ := horder x hx
    rw [heq]
    exact mul_self_fits hfew hi

namespace Numbered

variable {n : Nat} {l : List TerminatorCase} {x y : TerminatorCase}

/-- Cases of one number are one case. -/
theorem inj (h : Numbered n l) (hx : x ∈ l) (hy : y ∈ l) (heq : x.globalOrder = y.globalOrder) :
    x = y :=
  List.inj_on_of_nodup_map h.nodup hx hy heq

/-- No number is zero. -/
theorem pos (h : Numbered n l) (hx : x ∈ l) : 0 < x.globalOrder := by
  obtain ⟨k, hk, heq⟩ := h.multiple x hx
  rw [heq]
  have hn : 0 < n := by
    rw [← h.length]
    exact List.length_pos_of_mem hx
  exact Nat.mul_pos hk hn

/-- The orders of two labels are apart by two at least. -/
theorem add_two_le (h : Numbered n l) (hx : x ∈ l) (hy : y ∈ l)
    (hlt : x.globalOrder < y.globalOrder) :
    x.globalOrder + 2 ≤ y.globalOrder := by
  have hn : 2 ≤ n := by
    rw [← h.length]
    by_contra hsmall
    have hone : l.length ≤ 1 := by omega
    have heq : x = y := by
      match l, hone, hx, hy with
      | [z], _, hx, hy => rw [List.mem_singleton.mp hx, List.mem_singleton.mp hy]
    rw [heq] at hlt
    omega
  obtain ⟨k, -, hk⟩ := h.multiple x hx
  obtain ⟨m, -, hm⟩ := h.multiple y hy
  rw [hk, hm] at hlt ⊢
  have hkm : k + 1 ≤ m := Nat.lt_of_mul_lt_mul_right hlt
  calc k * n + 2 ≤ k * n + n := by omega
    _ = (k + 1) * n := by rw [Nat.add_mul, Nat.one_mul]
    _ ≤ m * n := Nat.mul_le_mul_right n hkm

end Numbered

/-! ## The labels that are fallen through to -/

variable {c isPseudoBackEdge postDominator} {l : List TerminatorCase}
  {e e' : TerminatorCase × Option TerminatorCase}

/-- The cases up to the post dominator are some of the rest. -/
theorem upToPostDominator_subset (parent : Nat) (rest : List TerminatorCase) :
    c.upToPostDominator parent rest ⊆ rest := by
  induction rest with
  | nil => exact List.Subset.refl _
  | cons child rest ih =>
    rw [upToPostDominator]
    split
    · exact List.cons_subset_cons _ (List.nil_subset _)
    · exact List.cons_subset_cons _ ih

/-- The target of a fallthrough is one of the rest. -/
theorem fallthroughTarget_mem {parent : Nat} {rest : List TerminatorCase} {child : TerminatorCase}
    (h : c.fallthroughTarget isPseudoBackEdge postDominator parent rest = some child) :
    child ∈ rest :=
  upToPostDominator_subset parent rest (List.mem_reverse.mp (List.mem_of_find?_eq_some h))

/-- A case falls through to its target. -/
theorem fallthroughTarget_falls {parent : Nat} {rest : List TerminatorCase} {child : TerminatorCase}
    (h : c.fallthroughTarget isPseudoBackEdge postDominator parent rest = some child) :
    c.fallsThrough isPseudoBackEdge postDominator parent child.node = true := by
  have hfind := List.find?_some h
  exact hfind

/-- A label of the block itself is passed over. -/
theorem fallthroughTarget_own {parent : Nat} {own : TerminatorCase} (hown : own.node = parent)
    (rest : List TerminatorCase) :
    c.fallthroughTarget isPseudoBackEdge postDominator parent (own :: rest) =
      c.fallthroughTarget isPseudoBackEdge postDominator parent rest := by
  have hfalls : c.fallsThrough isPseudoBackEdge postDominator parent own.node = false := by
    simp [fallsThrough, hown]
  rw [fallthroughTarget, upToPostDominator, hown]
  simp only [ne_eq, not_true_eq_false, decide_false, Bool.false_and, Bool.false_eq_true, if_false,
    List.reverse_cons, List.find?_append, List.find?_cons, hfalls, List.find?_nil, Option.or_none]
  rfl

@[simp] theorem fallthroughs_map_fst (l : List TerminatorCase) :
    (c.fallthroughs isPseudoBackEdge postDominator l).map Prod.fst = l := by
  induction l with
  | nil => rfl
  | cons parent rest ih => rw [fallthroughs, List.map_cons, ih]

/-- Every entry is one of a case. -/
theorem fst_mem (he : e ∈ c.fallthroughs isPseudoBackEdge postDominator l) : e.1 ∈ l := by
  have hmem : e.1 ∈ (c.fallthroughs isPseudoBackEdge postDominator l).map Prod.fst :=
    List.mem_map_of_mem he
  rwa [fallthroughs_map_fst] at hmem

/-- Every case has an entry. -/
theorem exists_entry {x : TerminatorCase} (hx : x ∈ l) :
    ∃ e ∈ c.fallthroughs isPseudoBackEdge postDominator l, e.1 = x := by
  have hmap : (c.fallthroughs isPseudoBackEdge postDominator l).map Prod.fst = l :=
    fallthroughs_map_fst l
  rw [← hmap] at hx
  obtain ⟨e, he, heq⟩ := List.mem_map.mp hx
  exact ⟨e, he, heq⟩

/-- The target of an entry is a case that the entry's case falls through to. -/
theorem target_mem (he : e ∈ c.fallthroughs isPseudoBackEdge postDominator l)
    {child : TerminatorCase} (hchild : e.2 = some child) :
    child ∈ l ∧ c.fallsThrough isPseudoBackEdge postDominator e.1.node child.node = true := by
  induction l with
  | nil => cases he
  | cons parent rest ih =>
    rcases List.mem_cons.mp he with rfl | he
    · exact ⟨List.mem_cons_of_mem _ (fallthroughTarget_mem hchild), fallthroughTarget_falls hchild⟩
    · exact ⟨List.mem_cons_of_mem _ (ih he).1, (ih he).2⟩

/-- The labels of one block fall through to one label. -/
theorem target_eq_of_node
    (hinj : ∀ x ∈ l, ∀ y ∈ l, c.order x.node = c.order y.node → x.node = y.node)
    (hsorted : l.Pairwise fun a b => c.order b.node ≤ c.order a.node)
    (he : e ∈ c.fallthroughs isPseudoBackEdge postDominator l)
    (he' : e' ∈ c.fallthroughs isPseudoBackEdge postDominator l) (hnode : e.1.node = e'.1.node) :
    e.2 = e'.2 := by
  -- by the position of the first of the two, the labels between them are of the same block
  have hlater : ∀ (l : List TerminatorCase) (parent : Nat),
      (∀ x ∈ l, ∀ y ∈ l, c.order x.node = c.order y.node → x.node = y.node) →
      (l.Pairwise fun a b => c.order b.node ≤ c.order a.node) →
      (∀ x ∈ l, c.order x.node ≤ c.order parent) →
      ∀ e ∈ c.fallthroughs isPseudoBackEdge postDominator l, e.1.node = parent →
        c.fallthroughTarget isPseudoBackEdge postDominator parent l = e.2 := by
    intro l
    induction l with
    | nil => exact fun _ _ _ _ e he => absurd he List.not_mem_nil
    | cons head rest ih =>
      intro parent hinj hsorted hbelow e he hnode
      obtain ⟨hhead, hrest⟩ := List.pairwise_cons.mp hsorted
      have hown : head.node = parent := by
        rcases List.mem_cons.mp he with rfl | he
        · exact hnode
        · have hmem := fst_mem he
          have hle := hhead e.1 hmem
          have hge := hbelow head (List.mem_cons_self ..)
          rw [hnode] at hle
          rw [← hnode] at hge ⊢
          exact hinj head (List.mem_cons_self ..) e.1 (List.mem_cons_of_mem _ hmem)
            (Nat.le_antisymm hge (hnode ▸ hle))
      rw [fallthroughTarget_own hown]
      rcases List.mem_cons.mp he with rfl | he
      · change _ = c.fallthroughTarget isPseudoBackEdge postDominator head.node rest
        rw [hown]
      · exact ih parent (fun x hx y hy =>
          hinj x (List.mem_cons_of_mem _ hx) y (List.mem_cons_of_mem _ hy))
          hrest (fun x hx => hbelow x (List.mem_cons_of_mem _ hx)) e he hnode
  induction l with
  | nil => cases he
  | cons head rest ih =>
    obtain ⟨hhead, hrest⟩ := List.pairwise_cons.mp hsorted
    have hinj' : ∀ x ∈ rest, ∀ y ∈ rest, c.order x.node = c.order y.node → x.node = y.node :=
      fun x hx y hy => hinj x (List.mem_cons_of_mem _ hx) y (List.mem_cons_of_mem _ hy)
    rcases List.mem_cons.mp he with rfl | he
    · rcases List.mem_cons.mp he' with rfl | he'
      · rfl
      · exact hlater rest head.node hinj' hrest hhead e' he' hnode.symm
    · rcases List.mem_cons.mp he' with rfl | he'
      · exact (hlater rest head.node hinj' hrest hhead e he hnode).symm
      · exact ih hinj' hrest he he'

/-! ## The new orders -/

section NewOrder

variable {n : Nat} (h : Numbered n l)

include h

/-- A case has one entry. -/
theorem entry_inj (he : e ∈ c.fallthroughs isPseudoBackEdge postDominator l)
    (he' : e' ∈ c.fallthroughs isPseudoBackEdge postDominator l) (heq : e.1 = e'.1) : e = e' := by
  have hnodup : ((c.fallthroughs isPseudoBackEdge postDominator l).map Prod.fst).Nodup := by
    rw [fallthroughs_map_fst]
    exact h.nodup.of_map _
  exact List.inj_on_of_nodup_map hnodup he he' heq

/-- No entry stands twice. -/
theorem fallthroughs_nodup : (c.fallthroughs isPseudoBackEdge postDominator l).Nodup := by
  have hnodup : ((c.fallthroughs isPseudoBackEdge postDominator l).map Prod.fst).Nodup := by
    rw [fallthroughs_map_fst]
    exact h.nodup.of_map _
  exact hnodup.of_map _

/-- The order of a label that falls through. -/
theorem reorder_some (he : e ∈ c.fallthroughs isPseudoBackEdge postDominator l)
    {child : TerminatorCase} (hchild : e.2 = some child) :
    (reorder e).globalOrder + 1 = child.globalOrder := by
  have hmem := (target_mem he hchild).1
  have hpos := h.pos hmem
  have hfits := h.fits child hmem
  rw [reorder, hchild]
  change (child.globalOrder + (2 ^ 64 - 1)) % 2 ^ 64 + 1 = child.globalOrder
  omega

omit h in
/-- The order of a label that does not fall through. -/
theorem reorder_none (hnone : e.2 = none) : reorder e = e.1 := by
  rw [reorder, hnone]

/-- Orders agree for labels that fall through to one label only. -/
theorem reorder_eq_iff (he : e ∈ c.fallthroughs isPseudoBackEdge postDominator l)
    (he' : e' ∈ c.fallthroughs isPseudoBackEdge postDominator l) :
    (reorder e).globalOrder = (reorder e').globalOrder ↔ e = e' ∨ e.2 ≠ none ∧ e.2 = e'.2 := by
  have hmixed {f f' : TerminatorCase × Option TerminatorCase}
      (hf : f ∈ c.fallthroughs isPseudoBackEdge postDominator l)
      (hf' : f' ∈ c.fallthroughs isPseudoBackEdge postDominator l) (hnone : f.2 = none)
      {child : TerminatorCase} (hchild : f'.2 = some child) :
      (reorder f).globalOrder ≠ (reorder f').globalOrder := by
    intro heq
    have hsome := reorder_some h hf' hchild
    rw [← heq, reorder_none hnone] at hsome
    have := h.add_two_le (fst_mem hf) (target_mem hf' hchild).1 (by omega)
    omega
  cases hchild : e.2 with
  | none =>
    cases hchild' : e'.2 with
    | none =>
      rw [reorder_none hchild, reorder_none hchild']
      refine ⟨fun heq => Or.inl (entry_inj h he he' (h.inj (fst_mem he) (fst_mem he') heq)), ?_⟩
      rintro (rfl | ⟨hne, -⟩)
      · rfl
      · exact absurd rfl hne
    | some child =>
      refine ⟨fun heq => absurd heq (hmixed he he' hchild hchild'), ?_⟩
      rintro (rfl | ⟨hne, -⟩)
      · rfl
      · exact absurd rfl hne
  | some child =>
    cases hchild' : e'.2 with
    | none =>
      refine ⟨fun heq => absurd heq.symm (hmixed he' he hchild' hchild), ?_⟩
      rintro (rfl | ⟨-, heq⟩)
      · rfl
      · exact absurd heq (Option.some_ne_none _)
    | some child' =>
      have hsome := reorder_some h he hchild
      have hsome' := reorder_some h he' hchild'
      constructor
      · intro heq
        have hsame := h.inj (target_mem he hchild).1 (target_mem he' hchild').1 (by omega)
        exact Or.inr ⟨Option.some_ne_none _, by rw [hsame]⟩
      · rintro (rfl | ⟨-, heq⟩)
        · rfl
        · have hsame := congrArg TerminatorCase.globalOrder (Option.some.inj heq)
          omega

/-- The final orders all differ unless labels collide. -/
theorem impossibleOrder_eq_none_iff : c.impossibleOrder isPseudoBackEdge postDominator l = none ↔
    ¬ c.Collide isPseudoBackEdge postDominator l := by
  have hsorted := pairwise_sortByKey TerminatorCase.globalOrder
    ((c.fallthroughs isPseudoBackEdge postDominator l).map reorder)
  have hperm := (sortByKey_perm TerminatorCase.globalOrder
    ((c.fallthroughs isPseudoBackEdge postDominator l).map reorder)).map TerminatorCase.globalOrder
  rw [impossibleOrder, orderCases, repeatedKey_eq_none_iff hsorted, pairwise_lt_iff_nodup hsorted,
    hperm.nodup_iff, List.map_map, List.nodup_map_iff_inj_on (fallthroughs_nodup h)]
  constructor
  · rintro hdiffer ⟨e, he, e', he', hne, hsome, heq⟩
    exact hne (hdiffer e he e' he' ((reorder_eq_iff h he he').mpr (Or.inr ⟨hsome, heq⟩)))
  · intro hcollide e he e' he' heq
    by_contra hne
    obtain ⟨hsome, htarget⟩ := ((reorder_eq_iff h he he').mp heq).resolve_left hne
    exact hcollide ⟨e, he, e', he', hne, hsome, htarget⟩

/-- Unless labels collide, the final orders increase. -/
theorem orderCases_increasing (hcollide : ¬ c.Collide isPseudoBackEdge postDominator l) :
    (c.orderCases isPseudoBackEdge postDominator l).Pairwise fun x y =>
      x.globalOrder < y.globalOrder := by
  have hnone := (impossibleOrder_eq_none_iff h).mpr hcollide
  exact (repeatedKey_eq_none_iff (pairwise_sortByKey _ _)).mp hnone

omit h in
/-- The ordered cases are the reordered entries. -/
theorem mem_orderCases {x : TerminatorCase} : x ∈ c.orderCases isPseudoBackEdge postDominator l ↔
    ∃ e ∈ c.fallthroughs isPseudoBackEdge postDominator l, reorder e = x := by
  rw [orderCases, (sortByKey_perm _ _).mem_iff, List.mem_map]

end NewOrder

/-! ## When the order is right -/

variable {cases sorted} {n : Nat}

/-- The cases are only permuted. -/
theorem orderCases_perm (h : c.SortsForward cases sorted) :
    ((c.orderCases isPseudoBackEdge postDominator sorted).map labelOf).Perm
      (cases.map labelOf) := by
  have hlabels : ((c.fallthroughs isPseudoBackEdge postDominator sorted).map reorder).map labelOf =
      sorted.map labelOf := by
    have hfst : (fun e : TerminatorCase × Option TerminatorCase => labelOf (reorder e)) =
        labelOf ∘ Prod.fst := by
      funext e
      rw [reorder]
      split <;> rfl
    rw [List.map_map, Function.comp_def, hfst, ← List.map_map, fallthroughs_map_fst]
  have hsort := (sortByKey_perm TerminatorCase.globalOrder
    ((c.fallthroughs isPseudoBackEdge postDominator sorted).map reorder)).map labelOf
  rw [hlabels] at hsort
  have hnumber := h.perm.map labelOf
  rw [numberCases_map_labelOf] at hnumber
  exact hsort.trans hnumber

section Apart

variable (h : Numbered n l)
  (hinj : ∀ x ∈ l, ∀ y ∈ l, c.order x.node = c.order y.node → x.node = y.node)
  (hsorted : l.Pairwise fun a b => c.order b.node ≤ c.order a.node)
  (hcollide : ¬ c.Collide isPseudoBackEdge postDominator l)

include h hinj hsorted hcollide

omit h in
/-- Unless labels collide, a block that falls through has one label. -/
theorem entry_unique (he : e ∈ c.fallthroughs isPseudoBackEdge postDominator l)
    (he' : e' ∈ c.fallthroughs isPseudoBackEdge postDominator l) (hsome : e.2 ≠ none)
    (hnode : e'.1.node = e.1.node) : e' = e := by
  by_contra hne
  have htarget := target_eq_of_node hinj hsorted he he' hnode.symm
  exact hcollide ⟨e, he, e', he', fun heq => hne heq.symm, hsome, htarget⟩

/-- A label and the label it falls through to are neighbours just when its block stands before the
other. -/
theorem standsBefore_iff (he : e ∈ c.fallthroughs isPseudoBackEdge postDominator l)
    (he' : e' ∈ c.fallthroughs isPseudoBackEdge postDominator l) (hchild : e.2 = some e'.1)
    (hfalls : e'.2 ≠ none ∨ (reorder e').globalOrder = (reorder e).globalOrder + 1) :
    StandsBefore (c.orderCases isPseudoBackEdge postDominator l) e.1.node e'.1.node ↔
      (reorder e).globalOrder < (reorder e').globalOrder ∧
        ∀ e'' ∈ c.fallthroughs isPseudoBackEdge postDominator l,
          ¬ ((reorder e).globalOrder < (reorder e'').globalOrder ∧
            (reorder e'').globalOrder < (reorder e').globalOrder) := by
  have hincreasing := orderCases_increasing h hcollide
  have hsome : e.2 ≠ none := by
    rw [hchild]
    exact Option.some_ne_none _
  have hnodeOf (f : TerminatorCase × Option TerminatorCase) : (reorder f).node = f.1.node := by
    rw [reorder]
    split <;> rfl
  have hown {x : TerminatorCase} (hx : x ∈ c.orderCases isPseudoBackEdge postDominator l)
      (hnode : x.node = e.1.node) : x = reorder e := by
    obtain ⟨f, hf, rfl⟩ := mem_orderCases.mp hx
    rw [hnodeOf] at hnode
    rw [entry_unique hinj hsorted hcollide he hf hsome hnode]
  constructor
  · rintro ⟨before, labels, next, after, hsplit, hnonempty, hlabels, -, hnext⟩
    rcases hfalls with hfalls | hadjacent
    · -- the labels are one label, and the next one is that of the target
      rw [hsplit] at hincreasing hown
      obtain ⟨x, rest, rfl⟩ := List.exists_cons_of_ne_nil hnonempty
      obtain rfl := hown (by simp) (hlabels x (List.mem_cons_self ..))
      have hrest : rest = [] := by
        cases rest with
        | nil => rfl
        | cons y rest =>
          have hy := hown (x := y) (by simp) (hlabels y (by simp))
          obtain ⟨-, hmid, -⟩ := List.pairwise_append.mp (List.append_assoc .. ▸ hincreasing)
          have hlt := (List.pairwise_cons.mp hmid).1 y (by simp)
          rw [hy] at hlt
          omega
      subst hrest
      have hmem : next ∈ c.orderCases isPseudoBackEdge postDominator l := by
        rw [hsplit]
        simp
      obtain ⟨f, hf, rfl⟩ := mem_orderCases.mp hmem
      rw [hnodeOf] at hnext
      obtain rfl := entry_unique hinj hsorted hcollide he' hf hfalls hnext
      rw [List.append_assoc] at hincreasing hsplit
      obtain ⟨hlt, hbetween⟩ := no_key_between hincreasing
      refine ⟨hlt, fun e'' he'' => hbetween (reorder e'') ?_⟩
      rw [List.singleton_append] at hsplit
      rw [← hsplit]
      exact mem_orderCases.mpr ⟨e'', he'', rfl⟩
    · exact ⟨by omega, fun e'' _ hbetween => by omega⟩
  · rintro ⟨hlt, hbetween⟩
    obtain ⟨before, after, hsplit⟩ := exists_directly_before hincreasing
      (mem_orderCases.mpr ⟨e, he, rfl⟩) (mem_orderCases.mpr ⟨e', he', rfl⟩) hlt (by
        intro x hx
        obtain ⟨f, hf, rfl⟩ := mem_orderCases.mp hx
        exact hbetween f hf)
    refine ⟨before, [reorder e], reorder e', after, by rw [hsplit]; simp, by simp, ?_,
      ?_, hnodeOf e'⟩
    · intro x hx
      rw [List.mem_singleton.mp hx, hnodeOf]
    · intro x hx hnode
      have hmem : x ∈ c.orderCases isPseudoBackEdge postDominator l := by
        rw [hsplit]
        rcases List.mem_append.mp hx with hx | hx
        · exact List.mem_append_left _ hx
        · exact List.mem_append_right _ (List.mem_cons_of_mem _ hx)
      have hx' := hown hmem hnode
      rw [hsplit] at hincreasing
      obtain ⟨-, hright, hleft⟩ := List.pairwise_append.mp hincreasing
      rcases List.mem_append.mp hx with hx | hx
      · have := hleft x hx (reorder e) (List.mem_cons_self ..)
        rw [hx'] at this
        omega
      · have := (List.pairwise_cons.mp hright).1 x hx
        rw [hx'] at this
        omega

omit hinj hsorted hcollide in
/-- The places of labels that do not fall through, and of those that do, against the new orders. -/
theorem between_iff_place (he : e ∈ c.fallthroughs isPseudoBackEdge postDominator l)
    (he' : e' ∈ c.fallthroughs isPseudoBackEdge postDominator l) (hchild : e.2 = some e'.1)
    {last : TerminatorCase} (hlast : e'.2 = some last)
    {e'' : TerminatorCase × Option TerminatorCase}
    (he'' : e'' ∈ c.fallthroughs isPseudoBackEdge postDominator l) :
    ((reorder e).globalOrder < (reorder e'').globalOrder ∧
      (reorder e'').globalOrder < (reorder e').globalOrder) ↔
    (e'.1.globalOrder < place e'' ∧ place e'' < last.globalOrder) := by
  have hnew := reorder_some h he hchild
  have hnew' := reorder_some h he' hlast
  have hmem := (target_mem he' hlast).1
  cases htarget : e''.2 with
  | some target =>
    have hnew'' := reorder_some h he'' htarget
    have hplace : place e'' = target.globalOrder := by rw [place, htarget, Option.getD_some]
    rw [hplace]
    omega
  | none =>
    have hplace : place e'' = e''.1.globalOrder := by rw [place, htarget, Option.getD_none]
    rw [hplace, reorder_none htarget]
    -- the label of the target is not at its number any more
    have hne : e'.1.globalOrder ≠ e''.1.globalOrder := by
      intro heq
      obtain rfl := entry_inj h he' he'' (h.inj (fst_mem he') (fst_mem he'') heq)
      rw [hlast] at htarget
      exact Option.some_ne_none _ htarget
    constructor
    · rintro ⟨hlow, hhigh⟩
      exact ⟨by omega, by omega⟩
    · rintro ⟨hlow, hhigh⟩
      have := h.add_two_le (fst_mem he'') hmem hhigh
      exact ⟨by omega, by omega⟩

end Apart

/-- **The order of switch cases.** The cases are ordered by fallthrough exactly when their
fallthroughs are apart. -/
theorem ordersFallthrough_iff (h : c.SortsForward cases sorted)
    (horders : ∀ x ∈ cases, ∀ y ∈ cases, c.order x.node = c.order y.node → x.node = y.node) :
    c.OrdersFallthrough isPseudoBackEdge postDominator cases sorted ↔
      c.FallthroughsApart isPseudoBackEdge postDominator cases sorted := by
  have hnodes : ∀ x ∈ sorted, ∃ y ∈ cases, y.node = x.node := by
    intro x hx
    have hlabels := (h.perm.map labelOf).mem_iff.mp (List.mem_map_of_mem hx)
    rw [numberCases_map_labelOf] at hlabels
    obtain ⟨y, hy, heq⟩ := List.mem_map.mp hlabels
    exact ⟨y, hy, congrArg Prod.fst heq⟩
  have hinj : ∀ x ∈ sorted, ∀ y ∈ sorted, c.order x.node = c.order y.node → x.node = y.node := by
    intro x hx y hy heq
    obtain ⟨x', hx', hxnode⟩ := hnodes x hx
    obtain ⟨y', hy', hynode⟩ := hnodes y hy
    rw [← hxnode, ← hynode] at heq ⊢
    exact horders x' hx' y' hy' heq
  constructor
  · intro hright
    have hfew : cases.length < 2 ^ 32 := by
      by_contra hmany
      have hlast := hright.numbers_fit (cases.length - 1) (by omega)
      rw [Nat.sub_add_cancel (by omega)] at hlast
      nlinarith
    have hnumbered := h.numbered hfew
    refine ⟨hfew, ?_, ?_, ?_⟩
    · rintro ⟨e, he, e', he', hne, hnode, hsome⟩
      apply hright.impossible
      rw [ne_eq, impossibleOrder_eq_none_iff hnumbered, not_not]
      exact ⟨e, he, e', he', hne, hsome, target_eq_of_node hinj h.order he he' hnode⟩
    · intro hcollide e he hfalls
      obtain ⟨child, hchild, -⟩ :=
        hright.before ((impossibleOrder_eq_none_iff hnumbered).mpr hcollide) e he hfalls
      rw [hchild]
      exact Option.some_ne_none _
    · intro hcollide e he e' he' hchild last hlast
      obtain ⟨child, hchild', hstands⟩ :=
        hright.before ((impossibleOrder_eq_none_iff hnumbered).mpr hcollide) e he
          ⟨e'.1, target_mem he hchild⟩
      obtain rfl := Option.some.inj (hchild.symm.trans hchild')
      have hsome : e'.2 ≠ none := by
        rw [hlast]
        exact Option.some_ne_none _
      obtain ⟨hlt, hbetween⟩ :=
        (standsBefore_iff hnumbered hinj h.order hcollide he he' hchild (Or.inl hsome)).mp hstands
      have hnew := reorder_some hnumbered he hchild
      have hnew' := reorder_some hnumbered he' hlast
      refine ⟨by omega, fun e'' he'' hplace => hbetween e'' he'' ?_⟩
      exact (between_iff_place hnumbered he he' hchild hlast he'').mpr hplace
  · intro hapart
    have hnumbered := h.numbered hapart.few
    refine ⟨orderCases_perm h, fun i hi => mul_self_fits hapart.few hi, ?_, ?_, ?_⟩
    · exact fun e he child hchild => hnumbered.pos (target_mem he hchild).1
    · intro himpossible
      rw [ne_eq, impossibleOrder_eq_none_iff hnumbered, not_not] at himpossible
      obtain ⟨e, he, e', he', hne, hsome, htarget⟩ := himpossible
      by_cases hnode : e.1.node = e'.1.node
      · exact hapart.single ⟨e, he, e', he', hne, hnode, hsome⟩
      · obtain ⟨child, hchild⟩ := Option.ne_none_iff_exists'.mp hsome
        exact ⟨e, he, e', he', hnode, child, child, hchild, htarget ▸ hchild, rfl⟩
    · intro hpossible e he hfalls
      have hcollide := (impossibleOrder_eq_none_iff hnumbered).mp hpossible
      obtain ⟨child, hchild⟩ := Option.ne_none_iff_exists'.mp (hapart.found hcollide e he hfalls)
      obtain ⟨e', he', rfl⟩ := exists_entry (c := c) (target_mem he hchild).1
      refine ⟨e'.1, hchild, ?_⟩
      have hnew := reorder_some hnumbered he hchild
      cases hlast : e'.2 with
      | none =>
        have hadjacent : (reorder e').globalOrder = (reorder e).globalOrder + 1 := by
          rw [reorder_none hlast]
          omega
        rw [standsBefore_iff hnumbered hinj h.order hcollide he he' hchild (Or.inr hadjacent)]
        exact ⟨by omega, fun e'' _ hbetween => by omega⟩
      | some last =>
        have hsome : e'.2 ≠ none := by
          rw [hlast]
          exact Option.some_ne_none _
        obtain ⟨hlt, hbetween⟩ := hapart.chains hcollide e he e' he' hchild last hlast
        have hnew' := reorder_some hnumbered he' hlast
        rw [standsBefore_iff hnumbered hinj h.order hcollide he he' hchild (Or.inl hsome)]
        refine ⟨by omega, fun e'' he'' hnewBetween => hbetween e'' he'' ?_⟩
        exact (between_iff_place hnumbered he he' hchild hlast he'').mp hnewBetween

/-! ## A chain of fallthroughs -/

/-- A switch whose block `1` falls through to `2`, and `2` to `3`, with labels in the order that is
given. -/
def switchChain (labels : List Nat) : CFGStructurizer := ofNodes
  [{ succ := labels, ir :=
    { terminator := { type := .switch, cases := labels.map fun n => { node := n } } } },
    { succ := [2], pred := [0], ir :=
      { terminator := { type := .branch, directBlock := some 2 } } },
    { succ := [3], pred := [0, 1], ir :=
      { terminator := { type := .branch, directBlock := some 3 } } },
    { succ := [5], pred := [0, 2], ir :=
      { terminator := { type := .branch, directBlock := some 5 } } },
    { succ := [5], pred := [0], ir :=
      { terminator := { type := .branch, directBlock := some 5 } } },
    { pred := [3, 4], ir := { terminator := { type := .ret } } }, {}] 0 6

/-- The labels of the chain. -/
def chainCases (labels : List Nat) : List TerminatorCase := labels.map fun n => { node := n }

/-- The labels of the chain with their numbers. -/
def chainLabels (labels : List (Nat × Nat)) : List TerminatorCase :=
  labels.map fun (n, order) => { node := n, globalOrder := order }

/-- With the labels in the order of the blocks, the chain is kept. -/
theorem switchChain_ordered : ∃ c', (switchChain [1, 2, 3, 4]).recomputeCfg 40 = .ok c' ∧
    c'.OrdersFallthrough (fun _ => false) (some 5) (chainCases [1, 2, 3, 4])
      (chainLabels [(4, 16), (1, 4), (2, 8), (3, 12)]) := by
  obtain ⟨c', hok, hfacts⟩ := exists_of_yields (x := (switchChain [1, 2, 3, 4]).recomputeCfg 40)
    (p := fun c' =>
      let sorted := chainLabels [(4, 16), (1, 4), (2, 8), (3, 12)]
      let entries := c'.fallthroughs (fun _ => false) (some 5) sorted
      decide (
        (sorted.Perm (numberCases (chainCases [1, 2, 3, 4])) ∧ sorted.Pairwise fun a b =>
          (c'.node b.node).forwardPostVisitOrder ≤ (c'.node a.node).forwardPostVisitOrder) ∧
        (∀ x ∈ chainCases [1, 2, 3, 4], ∀ y ∈ chainCases [1, 2, 3, 4],
          c'.order x.node = c'.order y.node → x.node = y.node) ∧
        (∀ e ∈ entries, ∀ e' ∈ entries, ¬ (e ≠ e' ∧ e.1.node = e'.1.node ∧ e.2 ≠ none)) ∧
        (∀ e ∈ entries, (∃ child ∈ sorted,
          c'.fallsThrough (fun _ => false) (some 5) e.1.node child.node = true) → e.2 ≠ none) ∧
        ∀ e ∈ entries, ∀ e' ∈ entries, e.2 = some e'.1 → ∀ last ∈ e'.2,
          e'.1.globalOrder < last.globalOrder ∧
          ∀ e'' ∈ entries, ¬ (e'.1.globalOrder < place e'' ∧ place e'' < last.globalOrder)))
    (by decide +kernel)
  obtain ⟨⟨hperm, hsorted⟩, horders, hsingle, hfound, hchains⟩ := of_decide_eq_true hfacts
  refine ⟨c', hok, (ordersFallthrough_iff ⟨hperm, hsorted⟩ horders).mpr ⟨by decide, ?_, ?_, ?_⟩⟩
  · rintro ⟨e, he, e', he', hsame⟩
    exact absurd hsame (hsingle e he e' he')
  · exact fun _ => hfound
  · exact fun _ e he e' he' hchild last hlast => hchains e he e' he' hchild last hlast

/-- With the second label first, block `4` stands between `1` and the block it falls through to. -/
theorem switchChain_not_ordered : ∃ c', (switchChain [2, 4, 1, 3]).recomputeCfg 40 = .ok c' ∧
    c'.SortsForward (chainCases [2, 4, 1, 3]) (chainLabels [(1, 12), (4, 8), (2, 4), (3, 16)]) ∧
    (c'.orderCases (fun _ => false) (some 5) (chainLabels [(1, 12), (4, 8), (2, 4), (3, 16)])).map
      (·.node) = [1, 4, 2, 3] ∧
    ¬ c'.OrdersFallthrough (fun _ => false) (some 5) (chainCases [2, 4, 1, 3])
      (chainLabels [(1, 12), (4, 8), (2, 4), (3, 16)]) := by
  obtain ⟨c', hok, hfacts⟩ := exists_of_yields (x := (switchChain [2, 4, 1, 3]).recomputeCfg 40)
    (p := fun c' =>
      let sorted := chainLabels [(1, 12), (4, 8), (2, 4), (3, 16)]
      decide (
        (sorted.Perm (numberCases (chainCases [2, 4, 1, 3])) ∧ sorted.Pairwise fun a b =>
          (c'.node b.node).forwardPostVisitOrder ≤ (c'.node a.node).forwardPostVisitOrder) ∧
        c'.orderCases (fun _ => false) (some 5) sorted =
          chainLabels [(1, 3), (4, 8), (2, 15), (3, 16)] ∧
        c'.impossibleOrder (fun _ => false) (some 5) sorted = none ∧
        (⟨1, 12, 0, false⟩, some ⟨2, 4, 0, false⟩) ∈
          c'.fallthroughs (fun _ => false) (some 5) sorted))
    (by decide +kernel)
  obtain ⟨⟨hperm, hsorted⟩, horder, hpossible, hmem⟩ := of_decide_eq_true hfacts
  refine ⟨c', hok, ⟨hperm, hsorted⟩, by rw [horder]; rfl, fun hright => ?_⟩
  obtain ⟨child, hchild, hstands⟩ := hright.before hpossible _ hmem ⟨_, target_mem hmem rfl⟩
  cases hchild
  rw [horder] at hstands
  obtain ⟨before, labels, next, after, hsplit, hnonempty, hlabels, hothers, hnext⟩ := hstands
  -- block `1` is first, and `4` comes after it
  cases before with
  | cons x before =>
    have hfirst := (List.cons.inj hsplit).1
    exact hothers x (by simp) (by rw [← hfirst])
  | nil =>
    cases labels with
    | nil => exact hnonempty rfl
    | cons x labels =>
      have hrest := (List.cons.inj hsplit).2
      cases labels with
      | nil =>
        have hsecond := (List.cons.inj hrest).1
        rw [← hsecond] at hnext
        exact absurd hnext (by decide)
      | cons y labels =>
        have hsecond := (List.cons.inj hrest).1
        have hnode := hlabels y (by simp)
        rw [← hsecond] at hnode
        exact absurd hnode (by decide)

end CFGStructurizer

end DxilSpirv
