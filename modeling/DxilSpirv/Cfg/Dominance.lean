import DxilSpirv.Graph.Tree
import DxilSpirv.Cfg.Analysis

/-!
# The dominator tree

`build_immediate_dominators` visits the blocks in reverse post order and hangs each one below
the nearest common dominator of its predecessors. The walk of `find_common_dominator` never
meets a block that was not visited yet, so nothing is computed on demand.
-/

namespace DxilSpirv

open DxilSpirv.Graph Dfs CFGStructurizer

namespace CFGStructurizer

/-- The tree of immediate dominators. -/
abbrev idom (c : CFGStructurizer) (n : Nat) : Option Nat := (c.node n).immediateDominator

/-- The post order of the forward traversal. -/
abbrev order (c : CFGStructurizer) (n : Nat) : Nat := (c.node n).forwardPostVisitOrder

end CFGStructurizer

/-! ## Common dominators -/

variable {c : CFGStructurizer} {root : Nat} {D : Nat → Prop}

/-- A block with a dominator keeps it. -/
theorem ensureDominator_some {recompute : CFGStructurizer → Nat → Except Fault CFGStructurizer}
    {n d : Nat} (h : c.idom n = some d) : c.ensureDominator recompute n = .ok c := by
  simp only [idom] at h
  simp [ensureDominator, h]

/-- Following pointers up a tree decides ancestry. -/
theorem climbs_eq {par : Nat → Option Nat} {ord : Nat → Nat} (h : Rooted par ord root D)
    (a : Nat) (fuel : Nat) : ∀ b, D b → ord root - ord b < fuel →
      ∃ r, climbs par a fuel b = .ok r ∧ (r = true ↔ Anc par a b) := by
  induction fuel with
  | zero => exact fun b _ hf => absurd hf (Nat.not_lt_zero _)
  | succ fuel ih =>
    intro b hb hf
    simp only [climbs]
    by_cases hab : a = b
    · exact ⟨true, if_pos hab, by simp [hab, Anc.refl]⟩
    · rw [if_neg hab]
      by_cases hr : b = root
      · subst hr
        refine ⟨false, ?_, ?_⟩
        · simp [h.root_par]
        · simp [h.anc_root, hab]
      · obtain ⟨d, hd, hDd, hlt⟩ := h.up b hb hr
        have hbd : b ≠ d := fun he => Nat.lt_irrefl _ (he ▸ hlt)
        have hle := h.le_root d hDd
        obtain ⟨r, hr, hiff⟩ := ih d hDd (by omega)
        refine ⟨r, ?_, ?_⟩
        · simp [hd, hbd, hr]
        · rw [hiff, Anc.iff_par hd]
          simp [hab]

/-- The walk to the nearest common dominator of two blocks of the tree. -/
theorem findCommonDominator_eq (h : Rooted c.idom c.order root D) (fuel : Nat) :
    ∀ a b, D a → D b →
      (c.order root - c.order a) + (c.order root - c.order b) < fuel →
      ∃ d, findCommonDominator fuel c a b = .ok (c, d) ∧ IsNca c.idom a b d := by
  induction fuel with
  | zero => exact fun a b _ _ hf => absurd hf (Nat.not_lt_zero _)
  | succ fuel ih =>
    intro a b ha hb hf
    simp only [findCommonDominator]
    by_cases hab : a = b
    · exact ⟨a, if_pos hab, hab ▸ .self _ _⟩
    · have hsome : ∀ x, D x → ∃ y, c.idom x = some y := by
        intro x hx
        by_cases hr : x = root
        · exact ⟨root, hr ▸ h.root_par⟩
        · obtain ⟨y, hy, -⟩ := h.up x hx hr
          exact ⟨y, hy⟩
      obtain ⟨ya, hya⟩ := hsome a ha
      obtain ⟨yb, hyb⟩ := hsome b hb
      have hne : c.order a ≠ c.order b := fun he => hab (h.inj a b ha hb he)
      rw [if_neg hab, ensureDominator_some hya, ok_bind, ensureDominator_some hyb, ok_bind,
        if_neg hne]
      have hla := h.le_root a ha
      have hlb := h.le_root b hb
      by_cases hlt : c.order a < c.order b
      · obtain ⟨x, hx, hDx, hax, hxa⟩ := h.exists_par_of_lt ha hb hlt
        have hlx := h.le_root x hDx
        obtain ⟨d, hd, hnca⟩ := ih x b hDx hb (by omega)
        refine ⟨d, ?_, h.isNca_step ha hb hlt hx hnca⟩
        have hidom : (c.node a).immediateDominator = some x := hx
        rw [if_pos hlt, if_neg (by simp [hidom, hxa]), hidom]
        exact hd
      · have hlt' : c.order b < c.order a := by omega
        obtain ⟨x, hx, hDx, hbx, hxb⟩ := h.exists_par_of_lt hb ha hlt'
        have hlx := h.le_root x hDx
        obtain ⟨d, hd, hnca⟩ := ih a x ha hDx (by omega)
        refine ⟨d, ?_, (h.isNca_step hb ha hlt' hx hnca.symm).symm⟩
        have hidom : (c.node b).immediateDominator = some x := hx
        rw [if_neg hlt, if_neg (by simp [hidom, hxb]), hidom]
        exact hd

/-- The pools that differ in immediate dominators only. -/
structure IdomOnly (c c' : CFGStructurizer) : Prop where
  pool : c' = { c with node := c'.node }
  node : ∀ n, c'.node n = { c.node n with immediateDominator := c'.idom n }

/-- A pool differs from itself in no dominator. -/
theorem IdomOnly.refl (c : CFGStructurizer) : IdomOnly c c := ⟨rfl, fun _ => rfl⟩

/-- Two changes of dominators make one. -/
theorem IdomOnly.trans {c c' c'' : CFGStructurizer} (h : IdomOnly c c') (h' : IdomOnly c' c'') :
    IdomOnly c c'' := by
  refine ⟨?_, fun n => ?_⟩
  · rw [h'.pool, h.pool]
  · rw [h'.node n, h.node n]

/-- To set the dominator of a block changes dominators only. -/
theorem IdomOnly.modify (c : CFGStructurizer) (n : Nat) (d : Option Nat) :
    IdomOnly c (c.modify n (.setImmediateDominator d)) := by
  refine ⟨rfl, fun m => ?_⟩
  simp only [idom, modify_node]
  split
  · rename_i h
    rw [h]
    rfl
  · rfl

/-- The visit order is the same. -/
theorem IdomOnly.order_eq {c c' : CFGStructurizer} (h : IdomOnly c c') : c'.order = c.order :=
  funext fun n => by rw [order, h.node n]

/-- The predecessors are the same. -/
theorem IdomOnly.pred {c c' : CFGStructurizer} (h : IdomOnly c c') (n : Nat) :
    (c'.node n).pred = (c.node n).pred := by
  rw [h.node n]

/-- The dominators after one is set. -/
theorem idom_modify (c : CFGStructurizer) (n m : Nat) (d : Option Nat) :
    (c.modify n (.setImmediateDominator d)).idom m = if m = n then d else c.idom m := by
  simp only [idom, modify_node]
  split <;> rfl

/-- The fold of `recompute_immediate_dominator` over the predecessors that are left, with the
tree `par` of the blocks visited before. -/
private theorem foldPreds_eq (par : Nat → Option Nat) (root fuel : Nat) (v : Nat) (hv : ¬ D v)
    (l : List Nat) :
    ∀ (c : CFGStructurizer) (d : Nat), Rooted par c.order root D →
      (∀ z, D z → c.idom z = par z) → c.idom v = some d → D d → (∀ p ∈ l, D p) →
      2 * c.order root < fuel →
      ∃ c' q, l.foldlM (fun c edge =>
          match (c.node v).immediateDominator with
          | some d => do
            let (c, common) ← findCommonDominator fuel c d edge
            return c.modify v (.setImmediateDominator (some common))
          | none => .ok (c.modify v (.setImmediateDominator (some edge)))) c = .ok c' ∧
        IdomOnly c c' ∧ c'.idom v = some q ∧ (∀ n, n ≠ v → c'.idom n = c.idom n) ∧
        ∀ x, Anc par x q ↔ Anc par x d ∧ ∀ p ∈ l, Anc par x p := by
  induction l with
  | nil => exact fun c d _ _ hd _ _ _ => ⟨c, d, rfl, .refl c, hd, fun _ _ => rfl, by simp⟩
  | cons p l ih =>
    intro c d h hagree hd hDd hl hfuel
    have hp := hl p (List.mem_cons_self ..)
    obtain ⟨e, he, hnca⟩ := findCommonDominator_eq (h.congr hagree) fuel d p hDd hp (by
      have := h.le_root d hDd
      have := h.le_root p hp
      omega)
    have hnca := h.isNca_congr hagree hDd hp hnca
    have hidom : (c.node v).immediateDominator = some d := hd
    have hmod := IdomOnly.modify c v (some e)
    obtain ⟨c', q, hok, honly, hq, hrest, hanc⟩ := ih (c.modify v (.setImmediateDominator (some e)))
      e (by rw [hmod.order_eq]; exact h)
      (fun z hz => by
        rw [idom_modify, if_neg fun he => hv (by rwa [he] at hz)]
        exact hagree z hz)
      (by rw [idom_modify, if_pos rfl]) (h.isNca_mem hDd hnca)
      (fun x hx => hl x (List.mem_cons_of_mem _ hx)) (by rw [hmod.order_eq]; exact hfuel)
    refine ⟨c', q, ?_, hmod.trans honly, hq, ?_, ?_⟩
    · simp only [List.foldlM_cons, hidom, he, ok_bind, pure_eq_ok]
      exact hok
    · intro n hn
      rw [hrest n hn, idom_modify, if_neg hn]
    · intro x
      rw [hanc x, hnca x, List.forall_mem_cons, and_assoc]

/-- One block of the pass: it is hung below the nearest common dominator of its predecessors. -/
theorem recomputeImmediateDominator_eq {par : Nat → Option Nat} (c : CFGStructurizer)
    (root fuel v : Nat)
    (h : Rooted par c.order root D) (hagree : ∀ z, D z → c.idom z = par z) (hv : ¬ D v)
    (hne : (c.node v).pred ≠ []) (hpred : ∀ p ∈ (c.node v).pred, D p)
    (hfuel : 2 * c.order root < fuel) :
    ∃ c' q, recomputeImmediateDominator fuel c v = .ok c' ∧ IdomOnly c c' ∧
      c'.idom v = some q ∧ (∀ n, n ≠ v → c'.idom n = c.idom n) ∧
      ∀ x, Anc par x q ↔ ∀ p ∈ (c.node v).pred, Anc par x p := by
  simp only [recomputeImmediateDominator, recomputeImmediateDominatorWith, if_neg hne]
  obtain ⟨p, l, hl⟩ := List.exists_cons_of_ne_nil hne
  rw [hl] at hpred ⊢
  have hnone : ((c.modify v (.setImmediateDominator none)).node v).immediateDominator = none := by
    simp [CFGNode.setImmediateDominator]
  have hmod := (IdomOnly.modify c v none).trans
    (IdomOnly.modify (c.modify v (.setImmediateDominator none)) v (some p))
  have hkeep : ∀ n, n ≠ v → ((c.modify v (.setImmediateDominator none)).modify v
      (.setImmediateDominator (some p))).idom n = c.idom n := by
    intro n hn
    rw [idom_modify, if_neg hn, idom_modify, if_neg hn]
  obtain ⟨c', q, hok, honly, hq, hrest, hanc⟩ := foldPreds_eq par root fuel v hv l
    ((c.modify v (.setImmediateDominator none)).modify v (.setImmediateDominator (some p))) p
    (by rw [hmod.order_eq]; exact h)
    (fun z hz => (hkeep z fun he => hv (by rwa [he] at hz)).trans (hagree z hz))
    (by rw [idom_modify, if_pos rfl]) (hpred p (List.mem_cons_self ..))
    (fun x hx => hpred x (List.mem_cons_of_mem _ hx)) (by rw [hmod.order_eq]; exact hfuel)
  refine ⟨c', q, ?_, hmod.trans honly, hq, fun n hn => (hrest n hn).trans (hkeep n hn), ?_⟩
  · rw [List.foldlM_cons, hnone, ok_bind]
    exact hok
  · intro x
    rw [hanc x, List.forall_mem_cons]

/-! ## The pass over the blocks -/

namespace CFGStructurizer

/-- An edge that the forward traversal left in the lists of a block it reached. -/
def ForwardEdge (c : CFGStructurizer) (a b : Nat) : Prop :=
  a ∈ c.forwardPostVisitOrder ∧ b ∈ (c.node a).succ

/-- What the forward traversal hands to the analyses: an acyclic graph on the reached blocks,
with their post order and exactly their reached predecessors. -/
structure ForwardDag (c : CFGStructurizer) : Prop where
  nodup : c.forwardPostVisitOrder.Nodup
  length_le : c.forwardPostVisitOrder.length ≤ c.size
  order_eq : ∀ n ∈ c.forwardPostVisitOrder, c.order n = c.forwardPostVisitOrder.idxOf n
  mem_pred : ∀ n ∈ c.forwardPostVisitOrder, ∀ p, p ∈ (c.node n).pred ↔ c.ForwardEdge p n
  lower : ∀ a b, c.ForwardEdge a b → b ∈ c.forwardPostVisitOrder ∧
    c.forwardPostVisitOrder.idxOf b < c.forwardPostVisitOrder.idxOf a
  reaches : ∀ n, n ∈ c.forwardPostVisitOrder ↔ Reaches c.ForwardEdge c.entryBlock n

end CFGStructurizer

section Pass

variable (hc : c.ForwardDag)

include hc

/-- The entry is visited. -/
theorem CFGStructurizer.ForwardDag.entry_mem : c.entryBlock ∈ c.forwardPostVisitOrder :=
  (hc.reaches _).mpr .refl

/-- The entry comes last in the post visit order. -/
theorem CFGStructurizer.ForwardDag.order_le {n : Nat} (hn : n ∈ c.forwardPostVisitOrder) :
    c.forwardPostVisitOrder.idxOf n ≤ c.forwardPostVisitOrder.idxOf c.entryBlock :=
  Reaches.ord_le (fun n => c.forwardPostVisitOrder.idxOf n)
    (fun a b hab => (hc.lower a b hab).2) ((hc.reaches n).mp hn)

/-- The entry block is left last. -/
theorem CFGStructurizer.ForwardDag.reverse_eq :
    ∃ t, c.forwardPostVisitOrder.reverse = c.entryBlock :: t := by
  obtain ⟨l₁, l₂, hl⟩ := List.append_of_mem hc.entry_mem
  have hnd := hc.nodup
  cases l₂ with
  | nil => exact ⟨l₁.reverse, by simp [hl]⟩
  | cons x l₂ =>
    have hle := hc.order_le (n := x) (by simp [hl])
    rw [hl] at hnd hle
    obtain ⟨-, hnd₂, hdisj⟩ := List.nodup_append.mp hnd
    have hxl : x ∉ l₁ := fun hx => hdisj x hx x (by simp) rfl
    have hel : c.entryBlock ∉ l₁ := fun hx => hdisj _ hx _ (by simp) rfl
    have hne : c.entryBlock ≠ x := fun he => by
      rw [he] at hnd₂
      simp at hnd₂
    rw [List.idxOf_append_of_notMem hxl, List.idxOf_append_of_notMem hel,
      List.idxOf_cons_ne _ hne, List.idxOf_cons_self, List.idxOf_cons_self] at hle
    omega

omit hc in
/-- In a list walked backwards, what was passed is what has a higher index. -/
private theorem mem_passed_iff {l d t : List Nat} {v p : Nat} (hl : l.Nodup)
    (hr : l.reverse = d ++ v :: t) (hp : p ∈ l) : p ∈ d ↔ l.idxOf v < l.idxOf p := by
  have hl' : l = t.reverse ++ v :: d.reverse := by
    rw [← List.reverse_reverse l, hr]
    simp
  subst hl'
  obtain ⟨-, hnd, hdisj⟩ := List.nodup_append.mp hl
  have hvt : v ∉ t.reverse := fun h => hdisj v h v (by simp) rfl
  have hvd : v ∉ d.reverse := (List.nodup_cons.mp hnd).1
  rw [List.idxOf_append_of_notMem hvt, List.idxOf_cons_self]
  by_cases hpt : p ∈ t.reverse
  · rw [List.idxOf_append_of_mem hpt]
    have := List.idxOf_lt_length_of_mem hpt
    have hpd : p ∉ d := fun h => hdisj p hpt p (by simp [h]) rfl
    simp only [hpd, false_iff]
    omega
  · rw [List.idxOf_append_of_notMem hpt]
    by_cases hpv : v = p
    · subst hpv
      simpa using hvd
    · rw [List.idxOf_cons_ne _ hpv]
      have hpd : p ∈ d := by
        rcases List.mem_append.mp hp with h | h
        · exact absurd h hpt
        · rcases List.mem_cons.mp h with h | h
          · exact absurd h.symm hpv
          · exact List.mem_reverse.mp h
      simp [hpd]

/-- The rest of the pass, once the blocks in `d` hang in the tree. -/
private theorem buildRest_eq {fuel : Nat} (hfuel : 2 * c.size < fuel) (t : List Nat) :
    ∀ (d : List Nat) (c' : CFGStructurizer), c.forwardPostVisitOrder.reverse = d ++ t →
      IdomOnly c c' → DomTree c.ForwardEdge c'.idom c.order c.entryBlock (· ∈ d) →
      ∃ c'', t.foldlM (recomputeImmediateDominator fuel) c' = .ok c'' ∧ IdomOnly c c'' ∧
        DomTree c.ForwardEdge c''.idom c.order c.entryBlock (· ∈ c.forwardPostVisitOrder) := by
  induction t with
  | nil =>
    intro d c' hd honly htree
    refine ⟨c', rfl, honly, ?_⟩
    rw [List.append_nil] at hd
    have hmem : (· ∈ d) = (· ∈ c.forwardPostVisitOrder) := by
      funext n
      rw [← @List.mem_reverse _ n c.forwardPostVisitOrder, hd]
    exact hmem ▸ htree
  | cons v t ih =>
    intro d c' hd honly htree
    have hnd : (d ++ v :: t).Nodup := by
      rw [← hd, List.nodup_reverse]
      exact hc.nodup
    have hmem : ∀ {n}, n ∈ d ++ v :: t → n ∈ c.forwardPostVisitOrder :=
      fun hn => List.mem_reverse.mp (hd ▸ hn)
    have hvL : v ∈ c.forwardPostVisitOrder := hmem (by simp)
    have hvd : v ∉ d := fun h => (List.nodup_append.mp hnd).2.2 v h v (by simp) rfl
    have hve : v ≠ c.entryBlock := fun he => hvd (he ▸ htree.root_mem)
    have hpass : ∀ p, p ∈ c.forwardPostVisitOrder →
        (p ∈ d ↔ c.forwardPostVisitOrder.idxOf v < c.forwardPostVisitOrder.idxOf p) :=
      fun p hp => mem_passed_iff hc.nodup hd hp
    have hpreds : ∀ p, c.ForwardEdge p v → p ∈ d :=
      fun p hp => (hpass p hp.1).mpr (hc.lower p v hp).2
    have hpred : ∀ p, p ∈ (c'.node v).pred ↔ c.ForwardEdge p v := by
      intro p
      rw [honly.pred]
      exact hc.mem_pred v hvL p
    obtain ⟨p, hp⟩ : ∃ p, c.ForwardEdge p v := by
      rcases Relation.ReflTransGen.cases_tail ((hc.reaches v).mp hvL) with he | ⟨p, -, hp⟩
      · exact absurd he.symm hve.symm
      · exact ⟨p, hp⟩
    have horder : c'.order = c.order := honly.order_eq
    have hroot : c.order c.entryBlock < c.size := by
      rw [hc.order_eq _ hc.entry_mem]
      exact Nat.lt_of_lt_of_le (List.idxOf_lt_length_of_mem hc.entry_mem) hc.length_le
    obtain ⟨c₁, q, hok, honly₁, hq, hrest, hanc⟩ := recomputeImmediateDominator_eq (D := (· ∈ d))
      c' c.entryBlock fuel v
      (by rw [horder]; exact htree.toRooted) (fun _ _ => rfl) hvd
      (fun hnil => by
        have := (hpred p).mpr hp
        rw [hnil] at this
        exact absurd this List.not_mem_nil)
      (fun p hp => hpreds p ((hpred p).mp hp)) (by rw [horder]; omega)
    have htree₁ : DomTree c.ForwardEdge c₁.idom c.order c.entryBlock (· ∈ d ++ [v]) := by
      have hext := htree.extend c₁.idom hve hvd
        (fun z hz => hrest z fun he => hvd (he ▸ hz)) hq ⟨p, hp⟩ hpreds
        (fun x hx => by
          have hxL : x ∈ c.forwardPostVisitOrder := hmem (List.mem_append_left _ hx)
          rw [hc.order_eq v hvL, hc.order_eq x hxL]
          exact (hpass x hxL).mp hx)
        (fun x => by
          rw [hanc x]
          exact forall_congr' fun p => by rw [hpred])
      have hset : (fun x => x = v ∨ x ∈ d) = (· ∈ d ++ [v]) := by
        funext x
        simp [or_comm]
      exact hset ▸ hext
    obtain ⟨c'', hok', h⟩ := ih (d ++ [v]) c₁ (by simpa using hd) (honly.trans honly₁) htree₁
    refine ⟨c'', ?_, h⟩
    rw [List.foldlM_cons, hok, ok_bind]
    exact hok'

/-- The pass finishes, writes immediate dominators only, and its tree is the dominator tree. -/
theorem buildImmediateDominators_eq (fuel : Nat) (hfuel : 2 * c.size < fuel) :
    ∃ c', c.buildImmediateDominators fuel = .ok c' ∧ IdomOnly c c' ∧
      DomTree c.ForwardEdge c'.idom c.order c.entryBlock (· ∈ c.forwardPostVisitOrder) := by
  obtain ⟨t, ht⟩ := hc.reverse_eq
  have hnil : (c.node c.entryBlock).pred = [] := by
    refine List.eq_nil_iff_forall_not_mem.mpr fun p hp => ?_
    have hedge := (hc.mem_pred _ hc.entry_mem p).mp hp
    have := (hc.lower _ _ hedge).2
    have := hc.order_le hedge.1
    omega
  have hfirst : recomputeImmediateDominator fuel c c.entryBlock =
      .ok (c.modify c.entryBlock (.setImmediateDominator (some c.entryBlock))) := by
    simp [recomputeImmediateDominator, recomputeImmediateDominatorWith, hnil]
  have hset : (· = c.entryBlock) = (· ∈ [c.entryBlock]) := by
    funext x
    simp
  obtain ⟨c', hok, h⟩ := buildRest_eq hc hfuel t [c.entryBlock]
    (c.modify c.entryBlock (.setImmediateDominator (some c.entryBlock))) (by simpa using ht)
    (.modify c _ _) (hset ▸ .single _ _ (by rw [idom_modify, if_pos rfl]))
  refine ⟨c', ?_, h⟩
  rw [buildImmediateDominators, ht, List.foldlM_cons, hfirst, ok_bind]
  exact hok

end Pass

/-! ## The pool after the forward traversal -/

variable (hc : c.WellFormed) (hone : OneBackEdge c.search.back)

/-- What the traversal and the pruning of dead predecessors leave of a pool. -/
abbrev visited (c : CFGStructurizer) : CFGStructurizer :=
  (searched c.resetTraversal c.search).pruneDeadPreds

/-- The visit order is the post order of the search. -/
theorem visited_order (c : CFGStructurizer) :
    (visited c).forwardPostVisitOrder = c.search.post := by
  rw [visited, pruneDeadPreds, modifyAll_pool]
  rfl

/-- The visit keeps the entry. -/
theorem visited_entryBlock (c : CFGStructurizer) : (visited c).entryBlock = c.entryBlock := by
  rw [visited, pruneDeadPreds, modifyAll_pool]
  rfl

/-- The visit makes no block. -/
theorem visited_size (c : CFGStructurizer) : (visited c).size = c.size := by
  rw [visited, pruneDeadPreds, modifyAll_pool]
  rfl

/-- Pruning edits the predecessors of the reached blocks. -/
theorem visited_node (c : CFGStructurizer) (n : Nat) : (visited c).node n =
    if n ∈ c.search.post then
      ((searched c.resetTraversal c.search).node n).mapPred (·.filter (· ∈ c.search.visited))
    else (searched c.resetTraversal c.search).node n := by
  refine modifyAll_node _ _ ?_
  simp [CFGNode.mapPred, List.filter_filter]

/-- The branches of a visited pool are those the search leaves. -/
theorem visited_succ (c : CFGStructurizer) (n : Nat) :
    ((visited c).node n).succ = ((searched c.resetTraversal c.search).node n).succ := by
  rw [visited_node]
  split <;> rfl

include hc hone in
/-- The traversal leaves the edges that do not retreat. -/
theorem mem_visited_succ {a b : Nat} :
    b ∈ ((visited c).node a).succ ↔ c.Edge a b ∧ (a, b) ∉ c.search.back := by
  have hcomp := search_complete hc.toClosed
  rw [visited_succ]
  by_cases ha : a ∈ c.search.post
  · have hsucc : ((searched c.resetTraversal c.search).node a).succ =
        eraseBackEdge (backOf c.search.back a) (c.edges a) := if_pos ha
    rw [hsucc, mem_eraseBackEdge (hc.nodup_edges a), Ne, backOf_eq_some hone]
    rfl
  · have hsucc : ((searched c.resetTraversal c.search).node a).succ = c.edges a := if_neg ha
    rw [hsucc]
    exact ⟨fun h => ⟨h, fun hm => ha (hcomp.retreat a b hm).1⟩, fun h => h.1⟩

/-- The pruned lists have the forward edges of the search. -/
theorem searched_forwardEdge (c : CFGStructurizer) :
    (searched c.resetTraversal c.search).ForwardEdge = (visited c).ForwardEdge := by
  funext a b
  simp only [ForwardEdge, visited_succ, visited_order]
  rfl

include hc hone in
/-- The forward edges are the edges of reached blocks that are no back edges. -/
theorem visited_forwardEdge {a b : Nat} : (visited c).ForwardEdge a b ↔
    a ∈ c.search.post ∧ c.Edge a b ∧ (a, b) ∉ c.search.back := by
  rw [ForwardEdge, visited_order, mem_visited_succ hc hone]

include hc hone in
/-- The traversal hands an acyclic graph to the analyses. -/
theorem visited_forwardDag : (visited c).ForwardDag := by
  have hcomp := search_complete hc.toClosed
  have hlt : ∀ n ∈ c.search.post, n < c.size := by
    intro n hn
    rcases Relation.ReflTransGen.cases_tail ((hcomp.mem_post n).mp hn) with hn | ⟨y, -, hy⟩
    · exact hn ▸ hc.entry_lt
    · exact hc.inside y n hy
  have hedge := fun a b => visited_forwardEdge hc hone (a := a) (b := b)
  have hclosed : ∀ a b, (visited c).ForwardEdge a b → b ∈ c.search.post := by
    intro a b hab
    rw [hedge] at hab
    exact (hcomp.mem_post b).mpr (((hcomp.mem_post a).mp hab.1).tail hab.2.1)
  refine ⟨?_, ?_, ?_, ?_, ?_, ?_⟩
  · rw [visited_order]
    exact hcomp.nodup
  · rw [visited_order, visited_size]
    have hsub : c.search.post.toFinset ⊆ Finset.range c.size := fun n hn =>
      Finset.mem_range.mpr (hlt n (List.mem_toFinset.mp hn))
    have := Finset.card_le_card hsub
    rwa [Finset.card_range, List.toFinset_card_of_nodup hcomp.nodup] at this
  · intro n hn
    rw [visited_order] at hn ⊢
    simp only [CFGStructurizer.order, visited_node, if_pos hn, CFGNode.mapPred, searched]
  · intro n hn p
    rw [visited_order] at hn
    have hpred : ((searched c.resetTraversal c.search).node n).pred =
        eraseBackEdge (backInto c.search.back n) (c.predEdges n) := if_pos hn
    rw [hedge, visited_node, if_pos hn, CFGNode.mapPred_pred, hpred, List.mem_filter,
      mem_eraseBackEdge (hc.nodup_predEdges n), Ne, backInto_eq_some hone, hc.mem_predEdges,
      decide_eq_true_eq, hcomp.visited, and_comm]
  · intro a b hab
    rw [visited_order]
    have h := (hedge a b).mp hab
    exact ⟨hclosed a b hab, hcomp.forward a h.1 b h.2.1 h.2.2⟩
  · intro n
    rw [visited_order, visited_entryBlock]
    constructor
    · intro hn
      refine (hcomp.reaches_forward hn).mono_on fun a b ha hab => (hedge a b).mpr ⟨?_, hab⟩
      exact (hcomp.mem_post a).mpr (ha.mono fun _ _ h => h.1)
    · intro hn
      rcases Relation.ReflTransGen.cases_tail hn with hn | ⟨y, -, hy⟩
      · rw [hn]
        exact (hcomp.mem_post _).mpr .refl
      · exact hclosed y n hy

end DxilSpirv
