import DxilSpirv.Graph.Height
import DxilSpirv.Cfg.KnownDominators

/-!
# Searches that complete

Where dominators and post-dominators are known and climbing them ends, the searches for common
ones pass their asserts, whatever the visit orders of the blocks are. New blocks keep the visit
order 0 until the next analysis, so the orders cannot be relied on while a pass edits the graph.
-/

namespace DxilSpirv

open DxilSpirv.Graph

namespace CFGStructurizer

/-- The tree of immediate post-dominators. -/
abbrev ipdom (c : CFGStructurizer) (n : Nat) : Option Nat := (c.node n).immediatePostDominator

/-- The post order of the backwards traversal. -/
abbrev backwardOrder (c : CFGStructurizer) (n : Nat) : Nat := (c.node n).backwardPostVisitOrder

variable {c : CFGStructurizer} {next : Nat → Option Nat} {rank : Nat → Nat} {D : Nat → Prop}

/-- Climbing ends within the rank. -/
theorem climbs_completes (h : Climbing next rank D) (a fuel : Nat) :
    ∀ b, D b → rank b < fuel → ∃ r, climbs next a fuel b = .ok r := by
  induction fuel with
  | zero => exact fun b _ hf => absurd hf (Nat.not_lt_zero _)
  | succ fuel ih =>
    intro b hb hf
    obtain ⟨d, hd, hDd, hlt⟩ := h b hb
    simp only [climbs, hd]
    split
    · exact ⟨true, rfl⟩
    · split
      · exact ⟨false, rfl⟩
      · rename_i hbd
        have hlt := hlt.resolve_left fun he => hbd he.symm
        exact ih d hDd (by omega)

/-- Dominance of known blocks is decided. -/
theorem dominates_completes (h : Climbing c.idom rank D) (hsize : ∀ x, D x → rank x ≤ c.size)
    (a : Nat) {b : Nat} (hb : D b) :
    ∃ r, c.dominates a b = .ok r ∧ (r = true ↔ Anc c.idom a b) := by
  obtain ⟨r, hr⟩ := climbs_completes h a (c.size + 1) b hb (by have := hsize b hb; omega)
  exact ⟨r, hr, climbs_ok _ _ hr⟩

theorem postDominates_completes (h : Climbing c.ipdom rank D)
    (hsize : ∀ x, D x → rank x ≤ c.size) (a : Nat) {b : Nat} (hb : D b) :
    ∃ r, c.postDominates a b = .ok r ∧ (r = true ↔ Anc c.ipdom a b) := by
  obtain ⟨r, hr⟩ := climbs_completes h a (c.size + 1) b hb (by have := hsize b hb; omega)
  exact ⟨r, hr, climbs_ok _ _ hr⟩

/-- A common dominator of known blocks is found. -/
theorem findCommonDominator_completes (h : Climbing c.idom rank D)
    (hsize : ∀ x, D x → rank x ≤ c.size) (fuel : Nat) :
    ∀ a b, D a → D b → rank a + rank b < fuel →
      ∃ d, findCommonDominator fuel c a b = .ok (c, d) ∧ D d := by
  induction fuel with
  | zero => exact fun a b _ _ hf => absurd hf (Nat.not_lt_zero _)
  | succ fuel ih =>
    intro a b ha hb hf
    obtain ⟨a', ha', hDa, hlta⟩ := h a ha
    obtain ⟨b', hb', hDb, hltb⟩ := h b hb
    have hia : (c.node a).immediateDominator = some a' := ha'
    have hib : (c.node b).immediateDominator = some b' := hb'
    simp only [findCommonDominator]
    by_cases hab : a = b
    · exact ⟨a, if_pos hab, ha⟩
    rw [if_neg hab, ensureDominator_some ha', ok_bind, ensureDominator_some hb', ok_bind]
    obtain ⟨r, hr, -⟩ := dominates_completes h hsize b ha
    obtain ⟨r', hr', -⟩ := dominates_completes h hsize a hb
    simp only [hia, hib, required_some, deref_some, ok_bind, pure_eq_ok, hr, hr', Option.some.injEq]
    split
    · -- both blocks go up, unless one of them is above the other
      split
      · exact ⟨b, rfl, hb⟩
      · split
        · exact ⟨a, rfl, ha⟩
        · split
          · exact ⟨b, rfl, hb⟩
          · rename_i hne
            have hlt := hlta.resolve_left fun he => hne he.symm
            split
            · exact ⟨a, rfl, ha⟩
            · rename_i hne
              have hlt' := hltb.resolve_left fun he => hne he.symm
              exact ih a' b' hDa hDb (by omega)
    · split
      · split
        · exact ⟨b, rfl, hb⟩
        · rename_i hne
          have hlt := hlta.resolve_left hne
          exact ih a' b hDa hb (by omega)
      · split
        · exact ⟨a, rfl, ha⟩
        · rename_i hne
          have hlt := hltb.resolve_left hne
          exact ih a b' ha hDb (by omega)

/-- The dominator of a block with known predecessors is computed. -/
theorem recomputeImmediateDominator_completes {fuel v : Nat} (h : Climbing c.idom rank D)
    (hsize : ∀ x, D x → rank x ≤ c.size) (hv : ¬ D v) (hpred : ∀ p ∈ (c.node v).pred, D p)
    (hfuel : 2 * c.size < fuel) : ∃ c', recomputeImmediateDominator fuel c v = .ok c' := by
  unfold recomputeImmediateDominator recomputeImmediateDominatorWith
  split
  · exact ⟨_, rfl⟩
  · let P : CFGStructurizer → Prop := fun s =>
      s.size = c.size ∧ (∀ x ≠ v, s.idom x = c.idom x) ∧ ∀ d, s.idom v = some d → D d
    have hne : ∀ x, D x → x ≠ v := fun x hx he => hv (he ▸ hx)
    refine (foldlM_total (P := P) ?_ ?_).imp fun _ h => h.1
    · rintro e he s ⟨hs, hidom, hval⟩
      have hkeep : ∀ d, D d → P (s.modify v (.setImmediateDominator (some d))) := by
        intro d hd
        refine ⟨hs, fun x hx => ?_, fun d' hd' => ?_⟩
        · rw [idom_modify, if_neg hx, hidom x hx]
        · rw [idom_modify, if_pos rfl] at hd'
          exact Option.some.inj hd' ▸ hd
      cases hd : (s.node v).immediateDominator with
      | none => exact ⟨_, rfl, hkeep e (hpred e he)⟩
      | some d =>
        have hDd := hval d hd
        obtain ⟨z, hz, hDz⟩ := findCommonDominator_completes (c := s)
          (h.congr fun x hx => hidom x (hne x hx)) (by rwa [hs]) fuel d e hDd (hpred e he) (by
            have := hsize d hDd
            have := hsize e (hpred e he)
            omega)
        refine ⟨s.modify v (.setImmediateDominator (some z)), ?_, hkeep z hDz⟩
        dsimp only
        rw [hz, ok_bind, pure_eq_ok]
    · refine ⟨rfl, fun x hx => ?_, fun d hd => ?_⟩
      · rw [idom_modify, if_neg hx]
      · rw [idom_modify, if_pos rfl] at hd
        cases hd

variable {e : Nat}

/-- The post-dominators of the blocks in `D` are known and lead to `e`, which was visited last. -/
structure LeadsTo (c : CFGStructurizer) (rank : Nat → Nat) (D : Nat → Prop) (e : Nat) : Prop where
  mem : D e
  exit : c.ipdom e = some e
  up : ∀ x, D x → x ≠ e → ∃ y, c.ipdom x = some y ∧ D y ∧ rank y < rank x
  size : ∀ x, D x → rank x ≤ c.size
  order : ∀ x, D x → c.backwardOrder x ≤ c.backwardOrder e

namespace LeadsTo

theorem climbing (h : LeadsTo c rank D e) : Climbing c.ipdom rank D := by
  intro x hx
  by_cases he : x = e
  · subst he
    exact ⟨x, h.exit, hx, .inl rfl⟩
  · obtain ⟨y, hy, hDy, hlt⟩ := h.up x hx he
    exact ⟨y, hy, hDy, .inr hlt⟩

/-- The exit is above every block. -/
theorem exit_anc (h : LeadsTo c rank D e) {x : Nat} (hx : D x) : Anc c.ipdom e x := by
  refine h.climbing.top_anc (fun y hy hyy => ?_) hx
  by_contra he
  obtain ⟨z, hz, -, hlt⟩ := h.up y hy he
  obtain rfl := Option.some.inj (hyy.symm.trans hz)
  exact Nat.lt_irrefl _ hlt

/-- Post-dominators stay known in a pool with the same ones. -/
theorem congr {c' : CFGStructurizer} (h : LeadsTo c rank D e) (hsize : c'.size = c.size)
    (hipdom : ∀ x, D x → c'.ipdom x = c.ipdom x)
    (horder : ∀ x, c'.backwardOrder x = c.backwardOrder x) : LeadsTo c' rank D e where
  mem := h.mem
  exit := (hipdom e h.mem).trans h.exit
  up x hx he := by
    rw [hipdom x hx]
    exact h.up x hx he
  size := by
    rw [hsize]
    exact h.size
  order x hx := by
    rw [horder, horder]
    exact h.order x hx

/-- The blocks below a rank. -/
theorem below (h : LeadsTo c rank D e) {k : Nat} (hk : rank e < k) :
    LeadsTo c rank (fun x => D x ∧ rank x < k) e where
  mem := ⟨h.mem, hk⟩
  exit := h.exit
  up x hx he := by
    obtain ⟨y, hy, hDy, hlt⟩ := h.up x hx.1 he
    exact ⟨y, hy, ⟨hDy, Nat.lt_trans hlt hx.2⟩, hlt⟩
  size x hx := h.size x hx.1
  order x hx := h.order x hx.1

end LeadsTo

theorem ensurePostDominator_some
    {recompute : CFGStructurizer → Nat → Except Fault CFGStructurizer} {n d : Nat}
    (h : c.ipdom n = some d) : c.ensurePostDominator recompute n = .ok c := by
  have hn : (c.node n).immediatePostDominator = some d := h
  simp [ensurePostDominator, hn]

/-- A common post-dominator of known blocks is found. -/
theorem findCommonPostDominator_completes (h : LeadsTo c rank D e) (fuel : Nat) :
    ∀ a b, D a → D b → rank a + rank b < fuel →
      ∃ d, findCommonPostDominator fuel c a b = .ok (c, d) ∧ D d := by
  induction fuel with
  | zero => exact fun a b _ _ hf => absurd hf (Nat.not_lt_zero _)
  | succ fuel ih =>
    intro a b ha hb hf
    obtain ⟨a', ha', hDa, -⟩ := h.climbing a ha
    obtain ⟨b', hb', hDb, -⟩ := h.climbing b hb
    have hia : (c.node a).immediatePostDominator = some a' := ha'
    have hib : (c.node b).immediatePostDominator = some b' := hb'
    simp only [findCommonPostDominator]
    by_cases hab : a = b
    · exact ⟨a, if_pos hab, ha⟩
    rw [if_neg hab, ensurePostDominator_some ha', ok_bind, ensurePostDominator_some hb', ok_bind]
    obtain ⟨r, hr, hanc⟩ := postDominates_completes h.climbing h.size b ha
    obtain ⟨r', hr', hanc'⟩ := postDominates_completes h.climbing h.size a hb
    -- away from the exit there is somewhere to climb
    have hup : ∀ {x x'}, D x → c.ipdom x = some x' → x ≠ e → rank x' < rank x := by
      intro x x' hx hx' hne
      obtain ⟨y, hy, -, hlt⟩ := h.up x hx hne
      exact Option.some.inj (hy.symm.trans hx') ▸ hlt
    simp only [hia, hib, required_some, ok_bind, pure_eq_ok, hr, hr']
    have hoa := h.order a ha
    have hob := h.order b hb
    split
    · split
      · exact ⟨b, rfl, hb⟩
      · rename_i hf₁
        split
        · exact ⟨a, rfl, ha⟩
        · rename_i hf₂
          have hlt := hup ha ha' fun he => hf₂ (hanc'.mpr (he ▸ h.exit_anc hb))
          have hlt' := hup hb hb' fun he => hf₁ (hanc.mpr (he ▸ h.exit_anc ha))
          exact ih a' b' hDa hDb (by omega)
    · rename_i hne
      split
      · rename_i hlt
        have hlt' := hup ha ha' fun he => by
          have hlt : c.backwardOrder a < c.backwardOrder b := hlt
          rw [he] at hlt
          omega
        exact ih a' b hDa hb (by omega)
      · rename_i hge
        have hlt' := hup hb hb' fun he => by
          have hge : ¬ c.backwardOrder a < c.backwardOrder b := hge
          have hne : c.backwardOrder a ≠ c.backwardOrder b := hne
          rw [he] at hge hne
          omega
        exact ih a b' ha hDb (by omega)

theorem ipdom_modify (c : CFGStructurizer) (n m : Nat) (d : Option Nat) :
    (c.modify n (.setImmediatePostDominator d)).ipdom m = if m = n then d else c.ipdom m := by
  simp only [ipdom, modify_node]
  split <;> rfl

theorem backwardOrder_modify (c : CFGStructurizer) (n m : Nat) (d : Option Nat) :
    (c.modify n (.setImmediatePostDominator d)).backwardOrder m = c.backwardOrder m :=
  modify_field c n m _ CFGNode.backwardPostVisitOrder fun _ => rfl

/-- The post-dominator of a block with known targets is computed, and it is known as well. -/
theorem recomputeImmediatePostDominator_completes {fuel n : Nat} (h : LeadsTo c rank D e)
    (hn : ¬ D n) (hsucc : (c.node n).succ ≠ [])
    (htargets : ∀ x ∈ (c.node n).succ ++ (c.node n).fakeSucc, D x) (hfuel : 2 * c.size < fuel) :
    ∃ c', recomputeImmediatePostDominator fuel c n = .ok c' ∧
      (∀ x ≠ n, c'.ipdom x = c.ipdom x) ∧ ∃ d, c'.ipdom n = some d ∧ D d := by
  let P : CFGStructurizer → Prop := fun s => s.size = c.size ∧
    (∀ x ≠ n, s.ipdom x = c.ipdom x) ∧ (∀ x, s.backwardOrder x = c.backwardOrder x) ∧
    ∃ d, s.ipdom n = some d ∧ D d
  have hne : ∀ x, D x → x ≠ n := fun x hx he => hn (he ▸ hx)
  have hwrite : ∀ s : CFGStructurizer, s.size = c.size → (∀ x ≠ n, s.ipdom x = c.ipdom x) →
      (∀ x, s.backwardOrder x = c.backwardOrder x) → ∀ d, D d →
      P (s.modify n (.setImmediatePostDominator (some d))) := by
    intro s hs hipdom horder d hd
    refine ⟨hs, fun x hx => ?_, fun x => ?_, d, ?_, hd⟩
    · rw [ipdom_modify, if_neg hx, hipdom x hx]
    · rw [backwardOrder_modify, horder x]
    · rw [ipdom_modify, if_pos rfl]
  obtain ⟨t, l, hl⟩ : ∃ t l, (c.node n).succ ++ (c.node n).fakeSucc = t :: l :=
    List.exists_cons_of_ne_nil fun hnil => hsucc (List.append_eq_nil_iff.mp hnil).1
  unfold recomputeImmediatePostDominator recomputeImmediatePostDominatorWith
  rw [if_neg fun hnil => hsucc hnil.1]
  rw [hl] at htargets ⊢
  -- the first target is taken as it is
  have hnone : ((c.modify n (.setImmediatePostDominator none)).node n).immediatePostDominator =
      none := by
    rw [modify_node_self]
    rfl
  rw [List.foldlM_cons, hnone, ok_bind]
  refine (foldlM_total (P := P) ?_ (hwrite (c.modify n (.setImmediatePostDominator none)) rfl
    (fun x hx => by rw [ipdom_modify, if_neg hx]) (fun x => backwardOrder_modify ..) t
    (htargets t (List.mem_cons_self ..)))).imp fun _ h => ⟨h.1, h.2.2.1, h.2.2.2.2⟩
  rintro x hx s ⟨hs, hipdom, horder, d, hd, hDd⟩
  have hDx := htargets x (List.mem_cons_of_mem _ hx)
  have hknown := h.congr hs (fun y hy => hipdom y (hne y hy)) horder
  obtain ⟨z, hz, hDz⟩ := findCommonPostDominator_completes hknown fuel d x hDd hDx (by
    have := h.size d hDd
    have := h.size x hDx
    omega)
  have hd : (s.node n).immediatePostDominator = some d := hd
  refine ⟨s.modify n (.setImmediatePostDominator (some z)), ?_, hwrite s hs hipdom horder z hDz⟩
  rw [hd]
  dsimp only
  rw [hz, ok_bind, pure_eq_ok]

variable {rank' : Nat → Nat} {E : Nat → Prop} {fuel n p q : Nat}

/-- Branches can be added to a block without fake branches. -/
theorem addBranches_completes {n : Nat} (h : (c.node n).fakeSucc = []) (dsts : List Nat) :
    ∃ c', c.addBranches n dsts = .ok c' := by
  let P : CFGStructurizer → Prop := fun s => (s.node n).fakeSucc = []
  refine (foldlM_total (P := P) ?_ h).imp fun _ h => h.1
  intro d _ s hs
  have hs : (s.node n).fakeSucc = [] := hs
  refine ⟨_, addBranch_ok (by rw [hs]; exact List.not_mem_nil), ?_⟩
  have hkeep : ∀ (s : CFGStructurizer) (x : Nat) (f : List Nat → List Nat),
      ((s.modify x (.mapSucc f)).node n).fakeSucc = (s.node n).fakeSucc ∧
        ((s.modify x (.mapPred f)).node n).fakeSucc = (s.node n).fakeSucc :=
    fun s x f => ⟨modify_field s x n _ CFGNode.fakeSucc fun _ => rfl,
      modify_field s x n _ CFGNode.fakeSucc fun _ => rfl⟩
  exact ((hkeep _ d _).2.trans (hkeep s n _).1).trans hs

/-- Computing dominators writes nothing else. -/
theorem idomOnly_frame : Frame .setImmediateDominator IdomOnly where
  refl := .refl
  trans _ _ _ := .trans
  write := .modify

/-- The dominators of several blocks with known predecessors are computed. -/
theorem recomputeImmediateDominators_complete {l : List Nat} (h : Climbing c.idom rank D)
    (hsize : ∀ x, D x → rank x ≤ c.size)
    (hl : ∀ v ∈ l, ¬ D v ∧ ∀ x ∈ (c.node v).pred, D x) (hfuel : 2 * c.size < fuel) :
    ∃ c', l.foldlM (recomputeImmediateDominator fuel) c = .ok c' ∧ IdomOnly c c' := by
  let P : CFGStructurizer → Prop := fun s => IdomOnly c s ∧ ∀ x, D x → s.idom x = c.idom x
  refine (foldlM_total (P := P) ?_ ⟨.refl c, fun _ _ => rfl⟩).imp fun _ h => ⟨h.1, h.2.1⟩
  rintro v hv s ⟨honly, hagree⟩
  obtain ⟨hDv, hpred⟩ := hl v hv
  have hDs : Climbing s.idom rank D := h.congr hagree
  have hssize : s.size = c.size := by rw [honly.pool]
  rw [← honly.pred] at hpred
  obtain ⟨s', hs'⟩ := recomputeImmediateDominator_completes hDs (by rwa [hssize]) hDv hpred
    (by rwa [hssize])
  have hkeep := recomputeImmediateDominator_known
    (fun x hx => (hDs x hx).imp fun _ h => ⟨h.1, h.2.1⟩) hDv hpred hs'
  refine ⟨s', hs', honly.trans (idomOnly_frame.recomputeImmediateDominator hs'), fun x hx => ?_⟩
  rw [hkeep x fun he => hDv (he ▸ hx), hagree x hx]

/-- The predecessors of the two targets of a moved edge are known where they were before. -/
theorem retargeted_pred_known (hpq : p ≠ q) (hn : D n) (hpred : ∀ x ∈ (c.node p).pred, D x)
    (hqpred : ∀ x ∈ (c.node q).pred, D x) :
    ∀ v, v = p ∨ v = q → ∀ x ∈ ((c.retargeted n p q).node v).pred, D x := by
  intro v hv x hx
  rw [retargeted_pred c hpq] at hx
  rcases hv with rfl | rfl
  · rw [if_pos rfl] at hx
    exact hpred x (List.mem_of_mem_erase hx)
  · rw [if_neg hpq.symm, if_pos rfl] at hx
    split at hx
    · rcases mem_of_mem_replace hx with hx | rfl
      · exact hqpred x hx
      · exact hn
    · rcases mem_addUnique.mp hx with hx | rfl
      · exact hqpred x hx
      · exact hn

/-- Moving an edge of a block passes the asserts when the edge is there and the new one is not,
the dominators above the block and the post-dominators below it being known. -/
theorem retargetBranch_completes (hD : Climbing c.idom rank D)
    (hsize : ∀ x, D x → rank x ≤ c.size) (hp : ¬ D p) (hq : ¬ D q) (hpq : p ≠ q) (hn : D n)
    (hpred : ∀ x ∈ (c.node p).pred, D x) (hqpred : ∀ x ∈ (c.node q).pred, D x)
    (hedge : p ∈ (c.node n).succ ∧ n ∈ (c.node p).pred)
    (hnew : q ∉ (c.node n).succ ∧ n ∉ (c.node q).pred)
    (hE : LeadsTo c rank' E e) (hnE : ¬ E n)
    (htargets : ∀ x ∈ (c.node n).succ.replace p q ++ (c.node n).fakeSucc, E x)
    (hfuel : 2 * c.size < fuel) :
    ∃ c', c.retargetBranch fuel n p q = .ok c' ∧ (∀ x ≠ n, c'.ipdom x = c.ipdom x) ∧
      ∃ d, c'.ipdom n = some d ∧ E d := by
  let moved := c.retargeted n p q
  have hmoved : EdgesOnly c moved := retargeted_edgesOnly c n p q
  have hmsize : moved.size = c.size := by rw [hmoved.pool]
  have hidom : ∀ x, moved.idom x = c.idom x := fun x => by rw [idom, hmoved.node x]
  -- the dominators of the two targets
  obtain ⟨c₂, hc₂, honly⟩ := recomputeImmediateDominators_complete
    (l := if (moved.node q).forwardPostVisitOrder < (moved.node p).forwardPostVisitOrder
      then [p, q] else [q, p]) (hD.congr fun x _ => hidom x) (by rwa [hmsize])
    (fun v hv => by
      have hv : v = p ∨ v = q := by
        split at hv
        · simpa using hv
        · simpa [or_comm] using hv
      refine ⟨?_, retargeted_pred_known hpq hn hpred hqpred v hv⟩
      rcases hv with rfl | rfl
      · exact hp
      · exact hq) (show 2 * moved.size < fuel by rwa [hmsize])
  -- the post-dominator of the block itself
  have hsize₂ : c₂.size = c.size := by rw [honly.pool, hmsize]
  have hipdom : ∀ x, c₂.ipdom x = c.ipdom x := fun x => by
    rw [ipdom, honly.node x, hmoved.node x]
  have hsucc : (c₂.node n).succ = (c.node n).succ.replace p q := by
    rw [honly.node n]
    dsimp only
    rw [retargeted_succ, if_pos rfl]
  have hfake : (c₂.node n).fakeSucc = (c.node n).fakeSucc := by
    rw [honly.node n, hmoved.node n]
  have hne : (c₂.node n).succ ≠ [] := by
    rw [hsucc]
    intro hnil
    have hlen := congrArg List.length hnil
    rw [List.length_replace] at hlen
    exact List.ne_nil_of_mem hedge.1 (List.length_eq_zero_iff.mp hlen)
  obtain ⟨c', hc', hkeep, hd⟩ := recomputeImmediatePostDominator_completes
    (hE.congr hsize₂ (fun x _ => hipdom x) fun x => by
      rw [backwardOrder, honly.node x, hmoved.node x]) hnE hne
    (by rw [hsucc, hfake]; exact htargets) (show 2 * c₂.size < fuel by rwa [hsize₂])
  refine ⟨c', ?_, fun x hx => by rw [hkeep x hx, hipdom x], hd⟩
  rw [retargetBranch, retargetBranchPreTraversal_ok c hedge.1 hedge.2 hnew.1 hnew.2, ok_bind]
  dsimp only
  rw [hc₂, ok_bind, hc']

end CFGStructurizer

end DxilSpirv
