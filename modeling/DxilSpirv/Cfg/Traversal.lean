import DxilSpirv.Graph.Dfs
import DxilSpirv.Cfg.Node

/-!
# Forward traversal

`visit` finds back edges, moves them out of the edge lists and numbers the blocks in post
order. It is shown equal to a plain depth-first search followed by one pass over the pool,
so that every fact about its result is a fact about the search.
-/

namespace DxilSpirv

open DxilSpirv.Graph CFGStructurizer

namespace CFGStructurizer

/-- The reset of one node in `reset_traversal`. -/
def resetNode (n : CFGNode) : CFGNode :=
  { n with
    visited := false
    backwardVisited := false
    traversing := false
    immediateDominator := none
    immediatePostDominator := none
    fakePred := []
    fakeSucc := []
    headers := []
    merge := if n.freezeStructuredAnalysis then n.merge else .none
    loopMergeBlock := if n.freezeStructuredAnalysis then n.loopMergeBlock else none
    loopLadderBlock := if n.freezeStructuredAnalysis then n.loopLadderBlock else none
    selectionMergeBlock := if n.freezeStructuredAnalysis then n.selectionMergeBlock else none
    succ := n.succ ++ n.succBackEdge.toList
    pred := n.pred ++ n.predBackEdge.toList
    succBackEdge := none
    predBackEdge := none }

/-- `CFGStructurizer::reset_traversal`. -/
def resetTraversal (c : CFGStructurizer) : CFGStructurizer :=
  { c with
    node := fun n => resetNode (c.node n)
    reachableNodes := []
    forwardPostVisitOrder := []
    backwardPostVisitOrder := [] }

/-- The body of the successor loop of `visit`. -/
def visitSucc (visit : CFGStructurizer → Nat → Except Fault CFGStructurizer) (entry : Nat)
    (c : CFGStructurizer) (succ : Nat) : Except Fault CFGStructurizer :=
  if (c.node succ).traversing then do
    check ((c.node entry).succBackEdge = none ∨ (c.node entry).succBackEdge = some succ)
    let c := c.modify entry fun x => { x with succBackEdge := some succ }
    check ((c.node succ).predBackEdge = none ∨ (c.node succ).predBackEdge = some entry)
    return c.modify succ fun x => { x with predBackEdge := some entry }
  else if (c.node succ).visited then .ok c
  else visit c succ

/-- The bookkeeping of `visit` when it enters a block. -/
def visitEnter (c : CFGStructurizer) (entry : Nat) : CFGStructurizer :=
  { c.modify entry fun x => { x with visited := true, traversing := true } with
    reachableNodes := entry :: c.reachableNodes }

/-- Remove a separated back edge from a list of edges. -/
def eraseBackEdge (backEdge : Option Nat) (l : List Nat) : List Nat :=
  match backEdge with
  | some n => l.erase n
  | none => l

/-- The bookkeeping of `visit` when it leaves a block: only forward edges stay in the lists. -/
def visitLeave (c : CFGStructurizer) (entry : Nat) : CFGStructurizer :=
  { c.modify entry fun x =>
      { x with
        succ := eraseBackEdge x.succBackEdge x.succ
        pred := eraseBackEdge x.predBackEdge x.pred
        traversing := false
        forwardPostVisitOrder := c.forwardPostVisitOrder.length } with
    forwardPostVisitOrder := c.forwardPostVisitOrder ++ [entry] }

/-- `CFGStructurizer::visit`. -/
def visit : Nat → CFGStructurizer → Nat → Except Fault CFGStructurizer
  | 0, _, _ => .error .outOfFuel
  | fuel + 1, c, entry => do
    let c := c.visitEnter entry
    let c ← (c.node entry).succ.foldlM (visitSucc (visit fuel) entry) c
    return c.visitLeave entry

/-- The traversal that `recompute_cfg` starts with. -/
def visitEntry (c : CFGStructurizer) : Except Fault CFGStructurizer :=
  visit c.size c.resetTraversal c.entryBlock

/-- `CFGStructurizer::prune_dead_preds`. -/
def pruneDeadPreds (c : CFGStructurizer) : CFGStructurizer :=
  c.modifyAll c.forwardPostVisitOrder (.mapPred (·.filter (· ∈ c.reachableNodes)))

end CFGStructurizer

/-! ## The traversal as a search -/

/-- At most one back edge leaves and enters a block: the two assertions of `visit`. -/
def OneBackEdge (back : List (Nat × Nat)) : Prop :=
  ∀ e ∈ back, ∀ e' ∈ back, e.1 = e'.1 ∨ e.2 = e'.2 → e = e'

instance (back : List (Nat × Nat)) : Decidable (OneBackEdge back) :=
  inferInstanceAs (Decidable (∀ e ∈ back, ∀ e' ∈ back, e.1 = e'.1 ∨ e.2 = e'.2 → e = e'))

/-- When one more back edge leaves no block with two. -/
theorem oneBackEdge_append {back : List (Nat × Nat)} {v w : Nat} :
    OneBackEdge (back ++ [(v, w)]) ↔
      OneBackEdge back ∧ ∀ e ∈ back, e.1 = v ∨ e.2 = w → e = (v, w) := by
  constructor
  · intro h
    refine ⟨fun e he e' he' => h e (List.mem_append_left _ he) e' (List.mem_append_left _ he'), ?_⟩
    exact fun e he heq => h e (List.mem_append_left _ he) (v, w) (by simp) heq
  · rintro ⟨h, hvw⟩ e he e' he' heq
    rcases List.mem_append.mp he with he | he <;> rcases List.mem_append.mp he' with he' | he'
    · exact h e he e' he' heq
    · rw [List.mem_singleton.mp he'] at heq ⊢
      exact hvw e he heq
    · rw [List.mem_singleton.mp he] at heq ⊢
      exact (hvw e' he' (heq.imp Eq.symm Eq.symm)).symm
    · rw [List.mem_singleton.mp he, List.mem_singleton.mp he']

/-- The target of the back edge out of `n`. -/
def backOf (back : List (Nat × Nat)) (n : Nat) : Option Nat :=
  (back.find? fun e => e.1 = n).map Prod.snd

/-- The back edge that a block takes. -/
theorem backOf_eq_some {back : List (Nat × Nat)} (h : OneBackEdge back) {n m : Nat} :
    backOf back n = some m ↔ (n, m) ∈ back := by
  unfold backOf
  rw [Option.map_eq_some_iff]
  constructor
  · rintro ⟨⟨a, b⟩, hf, rfl⟩
    have := List.find?_some hf
    simp only [decide_eq_true_eq] at this
    exact this ▸ List.mem_of_find?_eq_some hf
  · intro hm
    cases hf : back.find? fun e => decide (e.1 = n) with
    | none =>
      have := List.find?_eq_none.mp hf (n, m) hm
      simp at this
    | some e =>
      have he := List.find?_some hf
      simp only [decide_eq_true_eq] at he
      have := h e (List.mem_of_find?_eq_some hf) (n, m) hm (.inl he)
      exact ⟨e, rfl, by rw [this]⟩

/-- The source of the back edge into `n`. -/
def backInto (back : List (Nat × Nat)) (n : Nat) : Option Nat :=
  backOf (back.map Prod.swap) n

/-- The condition on back edges reads the same both ways. -/
theorem OneBackEdge.swap {back : List (Nat × Nat)} (h : OneBackEdge back) :
    OneBackEdge (back.map Prod.swap) := by
  intro e he e' he' heq
  obtain ⟨a, ha, rfl⟩ := List.mem_map.mp he
  obtain ⟨a', ha', rfl⟩ := List.mem_map.mp he'
  rw [h a ha a' ha' heq.symm]

/-- The back edge that a block receives. -/
theorem backInto_eq_some {back : List (Nat × Nat)} (h : OneBackEdge back) {n m : Nat} :
    backInto back n = some m ↔ (m, n) ∈ back := by
  rw [backInto, backOf_eq_some h.swap, List.mem_map]
  constructor
  · rintro ⟨⟨a, b⟩, he, heq⟩
    obtain ⟨rfl, rfl⟩ := Prod.mk.inj heq
    exact he
  · exact fun he => ⟨(m, n), he, rfl⟩

/-- The branches without the back edge. -/
theorem mem_eraseBackEdge {o : Option Nat} {l : List Nat} (hl : l.Nodup) {x : Nat} :
    x ∈ eraseBackEdge o l ↔ x ∈ l ∧ o ≠ some x := by
  unfold eraseBackEdge
  split
  · rename_i n
    rw [hl.mem_erase_iff, and_comm]
    refine and_congr_right fun _ => not_congr ?_
    rw [Option.some.injEq, eq_comm]
  · simp

/-- The pool after a search over the pool `c`, which holds no results yet. -/
def searched (c : CFGStructurizer) (s : Dfs Nat) : CFGStructurizer :=
  { c with
    node := fun n =>
      { c.node n with
        visited := n ∈ s.visited
        traversing := n ∈ s.stack
        succBackEdge := backOf s.back n
        predBackEdge := backInto s.back n
        succ := if n ∈ s.post then eraseBackEdge (backOf s.back n) (c.node n).succ
          else (c.node n).succ
        pred := if n ∈ s.post then eraseBackEdge (backInto s.back n) (c.node n).pred
          else (c.node n).pred
        forwardPostVisitOrder := if n ∈ s.post then s.post.idxOf n
          else (c.node n).forwardPostVisitOrder }
    forwardPostVisitOrder := s.post
    reachableNodes := s.visited }

open Dfs

/-- To enter a block is to enter it in the search. -/
theorem visitEnter_searched (c : CFGStructurizer) {s : Dfs Nat} {v : Nat} :
    (searched c s).visitEnter v = searched c (s.enter v) := by
  apply CFGStructurizer.ext
  case node =>
    funext n
    simp only [visitEnter, modify_node]
    by_cases h : n = v
    · subst h
      rw [if_pos rfl]
      apply CFGNode.ext <;> first | rfl | simp [searched, Dfs.enter]
    · rw [if_neg h]
      apply CFGNode.ext <;> first | rfl | simp [searched, Dfs.enter, h]
  all_goals rfl

/-- To leave a block is to leave it in the search. -/
theorem visitLeave_searched (c : CFGStructurizer) {s : Dfs Nat} (hs : s.Tidy) {v : Nat}
    {t : List Nat} (hst : s.stack = v :: t) (hv : v ∉ t) :
    (searched c s).visitLeave v = searched c (s.leave v) := by
  have hvp := hs.disjoint v (by simp [hst])
  apply CFGStructurizer.ext
  case node =>
    funext n
    simp only [visitLeave, modify_node]
    by_cases h : n = v
    · subst h
      rw [if_pos rfl]
      apply CFGNode.ext <;> first | rfl |
        simp [searched, Dfs.leave, hst, hv, hvp, List.idxOf_append]
    · rw [if_neg h]
      by_cases hp : n ∈ s.post <;> apply CFGNode.ext <;> first | rfl |
        simp [searched, Dfs.leave, hst, h, hp, List.idxOf_append]
  all_goals rfl

/-- What the traversal returns for the state a search ends in. -/
def searchResult (c : CFGStructurizer) (s : Dfs Nat) : Except Fault CFGStructurizer :=
  if OneBackEdge s.back then .ok (searched c s) else .error .assertion

/-- A search without two back edges at a block gives a pool. -/
theorem searchResult_ok {c : CFGStructurizer} {s : Dfs Nat} (h : OneBackEdge s.back) :
    searchResult c s = .ok (searched c s) := if_pos h

/-- A search with two back edges at a block fails the assertion. -/
theorem searchResult_error {c : CFGStructurizer} {s : Dfs Nat} (h : ¬ OneBackEdge s.back) :
    searchResult c s = .error .assertion := if_neg h

/-- The first assertion of the successor loop. -/
private theorem backOf_check {back : List (Nat × Nat)} (h : OneBackEdge back)
    (v w : Nat) :
    (backOf back v = none ∨ backOf back v = some w) ↔ ∀ e ∈ back, e.1 = v → e = (v, w) := by
  constructor
  · rintro hb ⟨a, b⟩ he rfl
    have hs := (backOf_eq_some h).mpr he
    rcases hb with hb | hb
    · rw [hb] at hs
      cases hs
    · rw [hb] at hs
      rw [Option.some.inj hs]
  · intro hall
    cases hb : backOf back v with
    | none => exact .inl rfl
    | some m =>
      have he := (backOf_eq_some h).mp hb
      rw [(Prod.mk.inj (hall _ he rfl)).2]
      exact .inr rfl

/-- The second assertion of the successor loop. -/
private theorem backInto_check {back : List (Nat × Nat)} (h : OneBackEdge back)
    (v w : Nat) :
    (backInto back w = none ∨ backInto back w = some v) ↔ ∀ e ∈ back, e.2 = w → e = (v, w) := by
  rw [backInto, backOf_check h.swap]
  constructor
  · rintro hall ⟨a, b⟩ he rfl
    have := hall (b, a) (List.mem_map.mpr ⟨(a, b), he, rfl⟩) rfl
    rw [(Prod.mk.inj this).2]
  · rintro hall e he rfl
    obtain ⟨a, ha, rfl⟩ := List.mem_map.mp he
    rw [hall a ha rfl]
    rfl

/-- Recording a back edge writes its two ends only. -/
private theorem backOf_retreat {back : List (Nat × Nat)} {v w : Nat}
    (h : OneBackEdge (back ++ [(v, w)])) (n : Nat) :
    backOf (back ++ [(v, w)]) n = if n = v then some w else backOf back n := by
  have hb := (oneBackEdge_append.mp h).1
  split
  · rename_i hn
    rw [backOf_eq_some h, hn]
    simp
  · rename_i hn
    refine Option.ext fun m => ?_
    rw [backOf_eq_some h, backOf_eq_some hb]
    simp [hn]

/-- The back edge that a block receives after one more is found. -/
private theorem backInto_retreat {back : List (Nat × Nat)} {v w : Nat}
    (h : OneBackEdge (back ++ [(v, w)])) (n : Nat) :
    backInto (back ++ [(v, w)]) n = if n = w then some v else backInto back n := by
  have := h.swap
  rw [List.map_append] at this
  rw [backInto, List.map_append]
  exact backOf_retreat this n

/-- A successor still being traversed: both assertions hold exactly when the back edges stay
unique, and the new one is recorded at both ends. -/
private theorem visitSucc_retreat (c : CFGStructurizer) {s : Dfs Nat} (hs : s.Tidy)
    (hb : OneBackEdge s.back) {v w : Nat} (hv : v ∈ s.stack) (hw : w ∈ s.stack)
    (visit : CFGStructurizer → Nat → Except Fault CFGStructurizer) :
    visitSucc visit v (searched c s) w = searchResult c (s.retreat v w) := by
  have hvp := hs.disjoint v hv
  have hwp := hs.disjoint w hw
  have htr : ((searched c s).node w).traversing = true := by simp [searched, hw]
  have hpred : (((searched c s).modify v fun x => { x with succBackEdge := some w }).node
      w).predBackEdge = backInto s.back w := by
    by_cases h : w = v
    · subst h
      simp [searched]
    · simp [modify_node, h, searched]
  have hsplit : OneBackEdge (s.retreat v w).back ↔
      (∀ e ∈ s.back, e.1 = v → e = (v, w)) ∧ ∀ e ∈ s.back, e.2 = w → e = (v, w) := by
    rw [Dfs.retreat, oneBackEdge_append]
    constructor
    · exact fun h => ⟨fun e he heq => h.2 e he (.inl heq), fun e he heq => h.2 e he (.inr heq)⟩
    · exact fun h => ⟨hb, fun e he heq => heq.elim (h.1 e he) (h.2 e he)⟩
  rw [visitSucc, if_pos htr]
  by_cases h1 : ∀ e ∈ s.back, e.1 = v → e = (v, w)
  · have hc1 : ((searched c s).node v).succBackEdge = none ∨
        ((searched c s).node v).succBackEdge = some w := (backOf_check hb v w).mpr h1
    rw [check_ok hc1, ok_bind]
    dsimp only
    rw [hpred]
    by_cases h2 : ∀ e ∈ s.back, e.2 = w → e = (v, w)
    · have hone := hsplit.mpr ⟨h1, h2⟩
      rw [check_ok ((backInto_check hb v w).mpr h2), ok_bind, searchResult_ok hone, pure_eq_ok]
      congr 1
      apply CFGStructurizer.ext
      case node =>
        funext n
        have hof := backOf_retreat hone n
        have hinto := backInto_retreat hone n
        simp only [modify_node]
        by_cases hnw : n = w
        · rw [if_pos hnw] at hinto ⊢
          by_cases hnv : n = v
          · rw [if_pos hnv] at hof
            rw [if_pos (hnw ▸ hnv)]
            subst hnw hnv
            apply CFGNode.ext <;> first | rfl | exact hinto.symm | exact hof.symm |
              simp [searched, Dfs.retreat, hvp]
          · rw [if_neg hnv] at hof
            rw [if_neg (hnw ▸ hnv)]
            subst hnw
            apply CFGNode.ext <;> first | rfl | exact hinto.symm | exact hof.symm |
              simp [searched, Dfs.retreat, hwp]
        · rw [if_neg hnw] at hinto ⊢
          by_cases hnv : n = v
          · rw [if_pos hnv] at hof ⊢
            subst hnv
            apply CFGNode.ext <;> first | rfl | exact hinto.symm | exact hof.symm |
              simp [searched, Dfs.retreat, hvp]
          · rw [if_neg hnv] at hof ⊢
            apply CFGNode.ext
            case succ =>
              exact congrArg (fun b => if n ∈ s.post then eraseBackEdge b (c.node n).succ
                else (c.node n).succ) hof.symm
            case pred =>
              exact congrArg (fun b => if n ∈ s.post then eraseBackEdge b (c.node n).pred
                else (c.node n).pred) hinto.symm
            all_goals first | rfl | exact hinto.symm | exact hof.symm
      all_goals rfl
    · rw [check_error (fun h => h2 ((backInto_check hb v w).mp h)), error_bind,
        searchResult_error fun h => h2 (hsplit.mp h).2]
  · have hc1 : ¬ (((searched c s).node v).succBackEdge = none ∨
        ((searched c s).node v).succBackEdge = some w) := fun h => h1 ((backOf_check hb v w).mp h)
    rw [check_error hc1, error_bind, searchResult_error fun h => h1 (hsplit.mp h).1]

variable (c : CFGStructurizer)

/-- The successors the search follows. -/
abbrev succOf (n : Nat) : List Nat := (c.node n).succ

/-- Once two back edges clash they clash for ever. -/
private theorem not_oneBackEdge_mono {b b' : List (Nat × Nat)} (h : ∀ e ∈ b, e ∈ b')
    (hb : ¬ OneBackEdge b) : ¬ OneBackEdge b' :=
  fun hb' => hb fun e he e' he' => hb' e (h e he) e' (h e' he')

/-- `visit` performs the search: it fails with an assertion when two back edges clash and
otherwise leaves the pool that the search describes. -/
theorem visit_searched (univ : Finset Nat)
    (hclosed : ∀ x ∈ univ, ∀ w ∈ (c.node x).succ, w ∈ univ) (fuel : Nat) :
    ∀ (s : Dfs Nat) (v : Nat), s.Tidy → OneBackEdge s.back → v ∈ univ → v ∉ s.visited →
      unvisited univ s ≤ fuel →
      visit fuel (searched c s) v = searchResult c (run (succOf c) fuel s v) := by
  induction fuel with
  | zero =>
    intro s v _ _ hv hn hfuel
    have := unvisited_enter hv hn
    omega
  | succ fuel ih =>
    -- the loop over the successors, by induction on the successors left
    have hloop : ∀ (v : Nat) (l : List Nat), (∀ w ∈ l, w ∈ univ) → ∀ s : Dfs Nat,
        s.Tidy → v ∈ s.stack → OneBackEdge s.back → unvisited univ s ≤ fuel →
        l.foldlM (visitSucc (visit fuel) v) (searched c s) =
          searchResult c (scan (succOf c) fuel v l s) := by
      intro v l
      induction l with
      | nil => exact fun _ s _ _ hb _ => (searchResult_ok hb).symm
      | cons w l ihl =>
        intro hl s hs hv hb hfuel
        rw [List.foldlM_cons, scan_cons]
        -- what is left of the loop after a step that ends in `s'`
        have hrest : ∀ s' : Dfs Nat, s'.Tidy → Keeps s s' →
            (searchResult c s' >>= fun c => l.foldlM (visitSucc (visit fuel) v) c) =
              searchResult c (scan (succOf c) fuel v l s') := by
          intro s' hs' hk
          by_cases hb' : OneBackEdge s'.back
          · rw [searchResult_ok hb', ok_bind]
            exact ihl (fun x hx => hl x (List.mem_cons_of_mem _ hx)) s' hs' (hk.stack ▸ hv) hb'
              (Nat.le_trans (unvisited_mono _ hk.visited) hfuel)
          · rw [searchResult_error hb', error_bind, searchResult_error]
            exact not_oneBackEdge_mono (scan_keeps _ fuel v l hs').2.back hb'
        by_cases hst : w ∈ s.stack
        · rw [if_pos hst, visitSucc_retreat c hs hb hv hst]
          exact hrest _ (hs.retreat v w) (.of_retreat s v w)
        · have htr : ((searched c s).node w).traversing = false := by simp [searched, hst]
          rw [if_neg hst, visitSucc, if_neg (by simp [htr])]
          by_cases hvis : w ∈ s.visited
          · have htv : ((searched c s).node w).visited = true := by simp [searched, hvis]
            rw [if_pos hvis, if_pos htv, ← searchResult_ok hb]
            exact hrest s hs (.refl s)
          · have htv : ((searched c s).node w).visited = false := by simp [searched, hvis]
            rw [if_neg hvis, if_neg (by simp [htv]),
              ih s w hs hb (hl w (List.mem_cons_self ..)) hvis hfuel]
            have hk := run_keeps (succOf c) fuel s w hs hvis
            exact hrest _ hk.1 hk.2
    intro s v hs hb hv hn hfuel
    have hent := unvisited_enter hv hn
    have hts := hs.enter hn
    have hvp : v ∉ s.post := fun h => hn ((hs.settled v).mpr (.inl h))
    have hsucc : ((searched c (s.enter v)).node v).succ = succOf c v := by
      simp [searched, Dfs.enter, hvp]
    have hk := scan_keeps (succOf c) fuel v (succOf c v) hts
    have hst : (scan (succOf c) fuel v (succOf c v) (s.enter v)).stack = v :: s.stack :=
      hk.2.stack
    simp only [visit]
    rw [visitEnter_searched, hsucc,
      hloop v _ (hclosed v hv) _ hts (List.mem_cons_self ..) hb (by omega), run_succ]
    by_cases hb' : OneBackEdge (scan (succOf c) fuel v (succOf c v) (s.enter v)).back
    · have hleave : OneBackEdge ((scan (succOf c) fuel v (succOf c v) (s.enter v)).leave v).back :=
        hb'
      rw [searchResult_ok hb', ok_bind, pure_eq_ok, visitLeave_searched c hk.1 hst
        fun h => hn ((hs.settled v).mpr (.inr h)), searchResult_ok hleave]
    · have hleave :
          ¬ OneBackEdge ((scan (succOf c) fuel v (succOf c v) (s.enter v)).leave v).back := hb'
      rw [searchResult_error hb', error_bind, searchResult_error hleave]

variable {c}

/-- The search that `visit` performs on a pool. -/
def CFGStructurizer.search (c : CFGStructurizer) : Dfs Nat := run c.edges c.size {} c.entryBlock

/-- A freshly reset pool is the pool before any search. -/
theorem searched_reset (c : CFGStructurizer) :
    searched c.resetTraversal {} = c.resetTraversal := by
  apply CFGStructurizer.ext
  case node =>
    funext n
    apply CFGNode.ext <;> rfl
  all_goals rfl

/-- Resetting puts the separated back edges back into the lists. -/
theorem succOf_reset (c : CFGStructurizer) : succOf c.resetTraversal = c.edges := rfl

/-- The first traversal after a reset. -/
theorem visit_reset (hc : c.Closed) :
    c.visitEntry = searchResult c.resetTraversal c.search := by
  have hcard : unvisited (Finset.range c.size) {} ≤ c.size :=
    Nat.le_trans (Finset.card_filter_le _ _) (Nat.le_of_eq (Finset.card_range _))
  have h := visit_searched c.resetTraversal (Finset.range c.size)
    (fun x _ w hw => Finset.mem_range.mpr (hc.inside x w hw)) c.size {} c.entryBlock
    .empty (by simp [OneBackEdge]) (Finset.mem_range.mpr hc.entry_lt)
    (by simp) hcard
  rw [searched_reset, succOf_reset] at h
  exact h

/-- The search of a pool is complete. -/
theorem search_complete (hc : c.Closed) :
    Complete c.edges c.entryBlock c.search :=
  run_complete c.edges c.entryBlock (Finset.range c.size)
    (fun x _ w hw => Finset.mem_range.mpr (hc.inside x w hw)) hc.nodup_edges
    (Finset.mem_range.mpr hc.entry_lt) (Nat.le_of_eq (Finset.card_range _))

end DxilSpirv
