import DxilSpirv.Cfg.Frontiers
import Mathlib

/-!
# Reachability along forward edges

`build_reachability` keeps a row of bits for each block that the forward traversal left, in its post
order. The start of a row is a product of 32-bit integers; as long as it fits, the rows are exact.
-/

namespace DxilSpirv

open DxilSpirv.Graph

namespace CFGStructurizer

section Dag

variable {c : CFGStructurizer}

/-- The words of a row, for the blocks that the traversal left. -/
abbrev rowLength (c : CFGStructurizer) : Nat := (c.forwardPostVisitOrder.length + 31) / 32

/-- The start of the row of a block. -/
abbrev rowOf (c : CFGStructurizer) (n : Nat) : Nat := c.order n * c.rowLength % 2 ^ 32

/-- The rows that `build_reachability` computes. -/
abbrev rows (c : CFGStructurizer) : Nat → BitVec 32 :=
  closeRows (fun n => (c.node n).succ) c.rowOf c.order c.rowLength c.forwardPostVisitOrder

/-- `build_reachability` sets the stride and the rows and nothing else. -/
theorem buildReachability_eq (c : CFGStructurizer) : c.buildReachability =
    { c with reachabilityStride := c.rowLength, reachabilityBitset := c.rows } := by
  have hfold : ∀ (l : List Nat) (bits : Nat → BitVec 32),
      l.foldl visitReachability
        { c with reachabilityStride := c.rowLength, reachabilityBitset := bits } =
      { c with
        reachabilityStride := c.rowLength
        reachabilityBitset :=
          l.foldl (closeRow (fun n => (c.node n).succ) c.rowOf c.order c.rowLength) bits } := by
    intro l
    induction l with
    | nil => exact fun _ => rfl
    | cons n l ih => exact fun bits => ih _
  exact hfold _ _

/-- A query after `build_reachability` reads a bit of the rows. -/
theorem queryReachability_buildReachability {a b : Nat} :
    c.buildReachability.queryReachability a b = true ↔
      a = b ∨ bitAt c.rows (c.rowOf a) (c.order b) = true := by
  rw [buildReachability_eq, queryReachability, Bool.or_eq_true, decide_eq_true_iff]
  rfl

variable (hc : c.ForwardDag)

include hc

/-- The post order visits successors first. -/
theorem ForwardDag.succFirst : SuccFirst (fun n => (c.node n).succ) c.forwardPostVisitOrder := by
  intro before v after horder w hw
  have hv : v ∈ c.forwardPostVisitOrder := by
    rw [horder]
    exact List.mem_append_right _ (List.mem_cons_self ..)
  obtain ⟨hin, hlt⟩ := hc.lower v w ⟨hv, hw⟩
  have hnodup := hc.nodup
  rw [horder] at hin hlt hnodup
  have hnotin : v ∉ before := fun hb =>
    (List.nodup_append.mp hnodup).2.2 v hb v (List.mem_cons_self ..) rfl
  rw [List.idxOf_append_of_notMem hnotin, List.idxOf_cons_self] at hlt
  by_contra hnot
  rw [List.idxOf_append_of_notMem hnot] at hlt
  omega

/-- From a visited block the branches reach what the forward edges reach. -/
theorem ForwardDag.reaches_iff {a b : Nat} (ha : a ∈ c.forwardPostVisitOrder) :
    Reaches (SuccEdge fun n => (c.node n).succ) a b ↔ Reaches c.ForwardEdge a b := by
  constructor
  · intro h
    induction h using Relation.ReflTransGen.head_induction_on with
    | refl => exact .refl
    | head hxy _ ih => exact .head ⟨ha, hxy⟩ (ih (hc.lower _ _ ⟨ha, hxy⟩).1)
  · exact fun h => h.mono fun _ _ hxy => hxy.2

/-- The order of a visited block is below the number of visited blocks. -/
theorem ForwardDag.order_lt {n : Nat} (hn : n ∈ c.forwardPostVisitOrder) :
    c.order n < c.forwardPostVisitOrder.length := by
  rw [hc.order_eq n hn]
  exact List.idxOf_lt_length_of_mem hn

/-- No two visited blocks have one order. -/
theorem ForwardDag.order_inj {a b : Nat} (ha : a ∈ c.forwardPostVisitOrder)
    (hb : b ∈ c.forwardPostVisitOrder) (h : c.order a = c.order b) : a = b := by
  rw [hc.order_eq a ha, hc.order_eq b hb] at h
  exact (List.idxOf_inj ha).mp h

/-- A forward path has its bit. -/
theorem ForwardDag.query_of_reaches {a b : Nat} (ha : a ∈ c.forwardPostVisitOrder)
    (hab : Reaches c.ForwardEdge a b) : bitAt c.rows (c.rowOf a) (c.order b) = true := by
  apply bitAt_closeRows hc.succFirst ?_ ha ((hc.reaches_iff ha).mpr hab)
  intro x hx
  have hlt := hc.order_lt hx
  unfold rowLength
  omega

/-- Where the rows fit, a bit is a forward path. -/
theorem ForwardDag.reaches_of_query
    (hfits : (c.forwardPostVisitOrder.length - 1) * c.rowLength < 2 ^ 32) {a b : Nat}
    (ha : a ∈ c.forwardPostVisitOrder) (hb : b ∈ c.forwardPostVisitOrder)
    (h : bitAt c.rows (c.rowOf a) (c.order b) = true) : Reaches c.ForwardEdge a b := by
  have hrow : ∀ x ∈ c.forwardPostVisitOrder, c.rowOf x = c.order x * c.rowLength := by
    intro x hx
    have hlt := hc.order_lt hx
    apply Nat.mod_eq_of_lt
    calc c.order x * c.rowLength ≤ (c.forwardPostVisitOrder.length - 1) * c.rowLength :=
          Nat.mul_le_mul_right _ (by omega)
      _ < 2 ^ 32 := hfits
  apply (hc.reaches_iff ha).mp
  apply reaches_of_bitAt hc.succFirst hc.nodup ?_ ?_ ?_ ha hb h
  · intro x hx
    have hlt := hc.order_lt hx
    unfold rowLength
    omega
  · exact fun x hx y hy => hc.order_inj hx hy
  · intro x hx y hy hne
    rw [RowsApart, hrow x hx, hrow y hy]
    have horder : c.order x ≠ c.order y := fun heq => hne (hc.order_inj hx hy heq)
    rcases Nat.lt_or_gt_of_ne horder with hlt | hlt
    · left
      rw [← Nat.succ_mul]
      exact Nat.mul_le_mul_right _ hlt
    · right
      rw [← Nat.succ_mul]
      exact Nat.mul_le_mul_right _ hlt

/-- Where they do not, the row of the entry block lies over that of another. -/
theorem ForwardDag.query_entry
    (hfits : 2 ^ 32 ≤ (c.forwardPostVisitOrder.length - 1) * c.rowLength) :
    ∃ a ∈ c.forwardPostVisitOrder, a ≠ c.entryBlock ∧
      bitAt c.rows (c.rowOf a) (c.order c.entryBlock) = true := by
  let n := c.forwardPostVisitOrder.length
  let s := c.rowLength
  have hs : s = (n + 31) / 32 := rfl
  have hentry : c.order c.entryBlock = n - 1 := by
    obtain ⟨t, ht⟩ := hc.reverse_eq
    have horder : c.forwardPostVisitOrder = t.reverse ++ [c.entryBlock] := by
      rw [← List.reverse_reverse c.forwardPostVisitOrder, ht, List.reverse_cons]
    have hnodup := hc.nodup
    rw [hc.order_eq _ hc.entry_mem]
    have hlength : n = t.reverse.length + 1 := by
      rw [show n = (t.reverse ++ [c.entryBlock]).length from congrArg List.length horder,
        List.length_append, List.length_singleton]
    rw [horder] at hnodup ⊢
    have hnotin : c.entryBlock ∉ t.reverse := fun hin =>
      (List.nodup_append.mp hnodup).2.2 _ hin _ (List.mem_singleton_self _) rfl
    rw [List.idxOf_append_of_notMem hnotin, List.idxOf_cons_self]
    omega
  have hblock : ∀ i < n, ∃ v ∈ c.forwardPostVisitOrder, c.order v = i := by
    intro i hi
    refine ⟨c.forwardPostVisitOrder[i], List.getElem_mem hi, ?_⟩
    rw [hc.order_eq _ (List.getElem_mem hi), List.Nodup.idxOf_getElem hc.nodup]
  -- The row of the entry block starts in the row with the number `o / s`, at its word `o % s`.
  let o := (n - 1) * s % 2 ^ 32
  have hspos : 0 < s := by
    by_contra hzero
    have hzero : s = 0 := by omega
    rw [show c.rowLength = s from rfl, hzero] at hfits
    omega
  have hmod : o % s < s := Nat.mod_lt _ hspos
  have hdiv : s * (o / s) + o % s = o := Nat.div_add_mod o s
  have ho : o < 2 ^ 32 := Nat.mod_lt _ (by omega)
  have hlt : o / s < n - 1 := by
    apply Nat.lt_of_mul_lt_mul_left (a := s)
    rw [Nat.mul_comm s (n - 1)]
    have hfits : 2 ^ 32 ≤ (n - 1) * s := hfits
    omega
  obtain ⟨v, hv, hvorder⟩ := hblock (o / s) (by omega)
  obtain ⟨t, ht, htorder⟩ := hblock (n - 1 - 32 * (o % s)) (by omega)
  refine ⟨v, hv, ?_, ?_⟩
  · rintro rfl
    omega
  · have hbit := hc.query_of_reaches hc.entry_mem ((hc.reaches t).mp ht)
    have hrow : c.rowOf v = s * (o / s) := by
      rw [rowOf, hvorder, Nat.mul_comm, Nat.mod_eq_of_lt]
      exact Nat.lt_of_le_of_lt (Nat.le_add_right _ _) (hdiv ▸ ho)
    have hrowEntry : c.rowOf c.entryBlock = o := by
      rw [rowOf, hentry]
    rw [bitAt, hrowEntry, htorder] at hbit
    rw [bitAt, hrow, hentry]
    have hword : o + (n - 1 - 32 * (o % s)) / 32 = s * (o / s) + (n - 1) / 32 := by omega
    have hcolumn : (n - 1 - 32 * (o % s)) % 32 = (n - 1) % 32 := by omega
    rw [hword, hcolumn] at hbit
    exact hbit

/-- The rows are exact as long as they fit. -/
theorem ForwardDag.query_iff_reaches_iff :
    (∀ a ∈ c.forwardPostVisitOrder, ∀ b ∈ c.forwardPostVisitOrder,
      (c.buildReachability.queryReachability a b = true ↔ Reaches c.ForwardEdge a b)) ↔
      (c.forwardPostVisitOrder.length - 1) * c.rowLength < 2 ^ 32 := by
  simp only [queryReachability_buildReachability]
  constructor
  · intro h
    by_contra hfits
    obtain ⟨a, ha, hne, hbit⟩ := hc.query_entry (Nat.le_of_not_lt hfits)
    have hreaches := (h a ha c.entryBlock hc.entry_mem).mp (Or.inr hbit)
    have hlower : ∀ x y, c.ForwardEdge x y →
        c.forwardPostVisitOrder.idxOf y < c.forwardPostVisitOrder.idxOf x :=
      fun x y hxy => (hc.lower x y hxy).2
    exact hne (hreaches.antisymm hlower ((hc.reaches a).mp ha))
  · intro hfits a ha b hb
    constructor
    · rintro (rfl | hbit)
      · exact .refl
      · exact hc.reaches_of_query hfits ha hb hbit
    · exact fun hab => Or.inr (hc.query_of_reaches ha hab)

end Dag

variable {c c' : CFGStructurizer} {fuel : Nat}

/-- Immediate dominators are no part of the acyclic graph. -/
theorem ForwardDag.of_idomOnly (hc : c.ForwardDag) (h : IdomOnly c c') : c'.ForwardDag := by
  have horder : c'.forwardPostVisitOrder = c.forwardPostVisitOrder := by rw [h.pool]
  have hentry : c'.entryBlock = c.entryBlock := by rw [h.pool]
  have hsize : c'.size = c.size := by rw [h.pool]
  have hedge : c'.ForwardEdge = c.ForwardEdge := by
    funext a b
    rw [ForwardEdge, ForwardEdge, horder, h.node a]
  constructor
  · rw [horder]
    exact hc.nodup
  · rw [horder, hsize]
    exact hc.length_le
  · rw [horder, h.order_eq]
    exact hc.order_eq
  · intro n hn p
    rw [horder] at hn
    rw [h.pred, hedge]
    exact hc.mem_pred n hn p
  · rw [horder, hedge]
    exact hc.lower
  · rw [horder, hedge, hentry]
    exact hc.reaches

/-- The number of blocks that control can reach. -/
noncomputable def reachableBlocks (c : CFGStructurizer) : Nat :=
  {n | Reaches c.Edge c.entryBlock n}.ncard

/-- The search visits the reachable blocks. -/
theorem length_search (hc : c.Closed) : c.search.post.length = c.reachableBlocks := by
  have hcomp := search_complete hc
  have hset : {n | Reaches c.Edge c.entryBlock n} = (c.search.post.toFinset : Set Nat) := by
    ext n
    rw [List.coe_toFinset, Set.mem_ofPred_eq, Set.mem_ofPred_eq, hcomp.mem_post]
    rfl
  rw [reachableBlocks, hset, Set.ncard_coe_finset, List.toFinset_card_of_nodup hcomp.nodup]

/-- The traversal completes only if no block has two back edges. -/
theorem oneBackEdge_of_recomputeForward (hc : c.Closed) (h : c.recomputeForward fuel = .ok c') :
    OneBackEdge c.search.back := by
  by_contra hn
  simp only [recomputeForward] at h
  rw [visit_reset hc, searchResult_error hn, error_bind] at h
  cases h

/-- What `build_reachability` leaves where the traversal completes. -/
theorem reachability_iff (hc : c.WellFormed) (hone : OneBackEdge c.search.back)
    (hfuel : 2 * c.size < fuel) (h : c.recomputeForward fuel = .ok c') :
    (∀ a ∈ c'.forwardPostVisitOrder, ∀ b ∈ c'.forwardPostVisitOrder,
      (c'.queryReachability a b = true ↔ Reaches c'.ForwardEdge a b)) ↔
      (c.reachableBlocks - 1) * ((c.reachableBlocks + 31) / 32) < 2 ^ 32 := by
  obtain ⟨c₂, hok, honly, -⟩ := buildImmediateDominators_eq (visited_forwardDag hc hone) fuel
    (by rwa [visited_size])
  simp only [recomputeForward, visit_reset hc.toClosed, searchResult_ok hone, ok_bind] at h
  rw [hok] at h
  cases h
  have hlength : c₂.forwardPostVisitOrder.length = c.reachableBlocks := by
    rw [honly.pool, visited_order, length_search hc.toClosed]
  have hiff := ((visited_forwardDag hc hone).of_idomOnly honly).query_iff_reaches_iff
  rw [rowLength, hlength] at hiff
  rw [← hiff]
  obtain ⟨bits, stride, hbits⟩ := buildReachability_only c₂
  have hedge : c₂.buildReachability.ForwardEdge = c₂.ForwardEdge := by
    rw [hbits]
    rfl
  have horder : c₂.buildReachability.forwardPostVisitOrder = c₂.forwardPostVisitOrder := by
    rw [hbits]
  rw [hedge, horder]

/-- Whenever `recompute_cfg` gets past `build_reachability`, its answers are those of the forward
edges exactly if the rows of all reachable blocks fit. -/
theorem recomputeForward_reachability_iff (c c' : CFGStructurizer) (fuel : Nat) (hc : c.WellFormed)
    (hfuel : 2 * c.size < fuel) (h : c.recomputeForward fuel = .ok c') :
    (∀ a ∈ c'.forwardPostVisitOrder, ∀ b ∈ c'.forwardPostVisitOrder,
      (c'.queryReachability a b = true ↔ Reaches c'.ForwardEdge a b)) ↔
      (c.reachableBlocks - 1) * ((c.reachableBlocks + 31) / 32) < 2 ^ 32 :=
  reachability_iff hc (oneBackEdge_of_recomputeForward hc.toClosed h) hfuel h

/-- A switch over `k` blocks that return. -/
def star (k : Nat) : CFGStructurizer where
  node n :=
    if n = 0 then
      { succ := List.range' 1 k
        ir := { terminator := { type := .switch, cases := (List.range' 1 k).map fun m =>
          { node := m, value := BitVec.ofNat 32 m, isDefault := m == 1 } } } }
    else if n ≤ k then { pred := [0], ir := { terminator := { type := .ret } } }
    else {}
  size := k + 2
  entryBlock := 0
  exitBlock := k + 1

variable {k : Nat}

/-- The entry of the star branches to every leaf. -/
theorem star_edges (k n : Nat) :
    (star k).edges n = if n = 0 then List.range' 1 k else [] := by
  simp only [edges, star]
  split
  · exact List.append_nil _
  · split
    · rfl
    · rfl

/-- An edge of the star leads from its entry to a leaf. -/
theorem star_edge {a b : Nat} : (star k).Edge a b ↔ a = 0 ∧ 1 ≤ b ∧ b ≤ k := by
  rw [Edge, star_edges]
  split
  · rw [List.mem_range'_1]
    omega
  · simp [*]

/-- Every leaf of the star has the entry as its predecessor. -/
theorem star_predEdges (k n : Nat) :
    (star k).predEdges n = if 1 ≤ n ∧ n ≤ k then [0] else [] := by
  simp only [predEdges, star]
  split
  · rw [if_neg (by omega)]
    rfl
  · split
    · rw [if_pos (by omega)]
      rfl
    · rw [if_neg (by omega)]
      rfl

/-- The star is well-formed. -/
theorem star_wellFormed (k : Nat) : (star k).WellFormed := by
  refine { entry_lt := ?_, inside := ?_, nodup_edges := ?_, exit_lt := ?_, exit_ne_entry := ?_,
           exit_edges := ?_, exit_predEdges := ?_, outside := ?_, mem_predEdges := ?_,
           nodup_predEdges := ?_ }
  · exact Nat.succ_pos _
  · intro a b hab
    have hb := star_edge.mp hab
    show b < k + 2
    omega
  · intro n
    rw [star_edges]
    split
    · exact List.nodup_range'
    · exact List.nodup_nil
  · exact Nat.lt_succ_self _
  · exact Nat.succ_ne_zero k
  · rw [star_edges]
    exact if_neg (Nat.succ_ne_zero k)
  · rw [star_predEdges]
    exact if_neg fun h => Nat.not_succ_le_self k h.2
  · intro n hn
    have hn : k + 2 ≤ n := hn
    simp only [star]
    rw [if_neg (by omega), if_neg (by omega)]
  · intro a b
    rw [star_edge, star_predEdges]
    split
    · simp [*]
    · rename_i h
      simp only [List.not_mem_nil, false_iff]
      exact fun hab => h hab.2
  · intro n
    rw [star_predEdges]
    split
    · exact List.nodup_singleton 0
    · exact List.nodup_nil

/-- In the star one edge is the longest way. -/
theorem star_reaches {a b : Nat} (h : Reaches (star k).Edge a b) : a = b ∨ (star k).Edge a b := by
  rcases Relation.ReflTransGen.cases_head h with rfl | ⟨x, hax, hxb⟩
  · exact Or.inl rfl
  · rcases Relation.ReflTransGen.cases_head hxb with rfl | ⟨y, hxy, -⟩
    · exact Or.inr hax
    · have hx := star_edge.mp hax
      have hy := star_edge.mp hxy
      omega

/-- All blocks of the star are reachable. -/
theorem star_reachableBlocks (k : Nat) : (star k).reachableBlocks = k + 1 := by
  have hset : {n | Reaches (star k).Edge 0 n} = (Finset.range (k + 1) : Set Nat) := by
    ext n
    rw [Set.mem_ofPred_eq, Finset.coe_range, Set.mem_Iio]
    constructor
    · intro h
      rcases star_reaches h with rfl | hedge
      · exact Nat.succ_pos k
      · have hn := star_edge.mp hedge
        omega
    · intro h
      rcases Nat.eq_zero_or_pos n with rfl | hpos
      · exact .refl
      · exact .single (star_edge.mpr ⟨rfl, hpos, Nat.le_of_lt_succ h⟩)
  have hentry : (star k).entryBlock = 0 := rfl
  rw [reachableBlocks, hentry, hset, Set.ncard_coe_finset, Finset.card_range]

/-- The star has no back edge. -/
theorem star_oneBackEdge (k : Nat) : OneBackEdge (star k).search.back := by
  intro e he
  obtain ⟨-, -, hsucc, -, htree⟩ :=
    (search_complete (star_wellFormed k).toClosed).retreat e.1 e.2 he
  have hedge := star_edge.mp hsucc
  have hback := star_reaches (htree.mono fun x y hxy => hxy.edge)
  rcases hback with heq | hback
  · omega
  · have hback := star_edge.mp hback
    omega

/-- A small switch has exact rows. -/
theorem star_reachability : ∃ c', (star 3).recomputeForward 11 = .ok c' ∧
    ∀ a ∈ c'.forwardPostVisitOrder, ∀ b ∈ c'.forwardPostVisitOrder,
      (c'.queryReachability a b = true ↔ Reaches c'.ForwardEdge a b) := by
  have hfuel : 2 * (star 3).size < 11 := by decide
  obtain ⟨c', hok, -⟩ := recomputeForward_eq (star_wellFormed 3) (star_oneBackEdge 3) hfuel
  refine ⟨c', hok, ?_⟩
  rw [recomputeForward_reachability_iff (star 3) c' 11 (star_wellFormed 3) hfuel hok,
    star_reachableBlocks]
  omega

/-- The rows of a switch over half a million blocks overlap. -/
theorem star_not_exact : ∃ c', (star 500000).recomputeForward 1000005 = .ok c' ∧
    ¬ ∀ a ∈ c'.forwardPostVisitOrder, ∀ b ∈ c'.forwardPostVisitOrder,
      (c'.queryReachability a b = true ↔ Reaches c'.ForwardEdge a b) := by
  have hfuel : 2 * (star 500000).size < 1000005 := by
    show 2 * (500000 + 2) < 1000005
    omega
  obtain ⟨c', hok, -⟩ := recomputeForward_eq (star_wellFormed 500000)
    (star_oneBackEdge 500000) hfuel
  refine ⟨c', hok, ?_⟩
  rw [reachability_iff (star_wellFormed 500000) (star_oneBackEdge 500000) hfuel hok,
    star_reachableBlocks]
  omega

end CFGStructurizer

end DxilSpirv
