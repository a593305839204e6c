import DxilSpirv.Cfg.KnownDominators
import DxilSpirv.Ssa.Copies
import DxilSpirv.Ssa.Form

/-!
# Incoming values of a predecessor

After edits a PHI may name blocks that are no predecessors any more. What arrives from a
predecessor is the value of the nearest block above it that the PHI names.
-/

namespace DxilSpirv

open DxilSpirv.Graph

namespace CFGStructurizer

variable {c c' : CFGStructurizer} {p : Nat}

/-- `i` is the entry that arrives over `p`: no entry of a nearer dominator of `p` exists. -/
structure Arrives (c : CFGStructurizer) (p : Nat) (l : List IncomingValue) (i : IncomingValue) :
    Prop where
  mem : i ∈ l
  anc : Anc c.idom i.block p
  nearest : ∀ j ∈ l, Anc c.idom j.block p → Anc c.idom j.block i.block

/-- The visit orders grow along the dominators of a block. -/
def OrdersGrow (c : CFGStructurizer) (p : Nat) : Prop :=
  ∀ x y, Anc c.idom x p → c.idom x = some y → y = x ∨ c.order x < c.order y

/-- Along such a chain an ancestor has the greater order. -/
theorem OrdersGrow.anc (h : OrdersGrow c p) {x y : Nat} (hx : Anc c.idom x p)
    (hyx : Anc c.idom y x) : y = x ∨ c.order x < c.order y := by
  induction hyx with
  | refl => exact .inl rfl
  | @tail z w hz hzw ih =>
    rcases h z w (Anc.trans hz hx) hzw with hwz | hlt
    · rw [hwz]
      exact ih
    · right
      rcases ih with rfl | hlt'
      · exact hlt
      · omega

/-- The answer of `dominates` is ancestry. -/
theorem dominates_ok {a b : Nat} {r : Bool} (h : c.dominates a b = .ok r) :
    r = true ↔ Anc c.idom a b :=
  climbs_ok _ _ h

/-- The search for the incoming value of a predecessor finds the nearest one. -/
theorem findIncomingValue_ok (hgrow : OrdersGrow c p) {l : List IncomingValue}
    {r : Option IncomingValue} (h : c.findIncomingValue p l = .ok r) :
    (∀ i, r = some i → Arrives c p l i) ∧ (r = none → ∀ j ∈ l, ¬ Anc c.idom j.block p) := by
  suffices hgen : ∀ (rest done : List IncomingValue) (r₁ : Option IncomingValue), l = done ++ rest →
      ((∀ i, r₁ = some i → Arrives c p done i) ∧
        (r₁ = none → ∀ j ∈ done, ¬ Anc c.idom j.block p)) →
      rest.foldlM (fun candidate i => do
        if ← c.dominates i.block p then return some (c.nearerIncoming i candidate)
        else return candidate) r₁ = .ok r →
      (∀ i, r = some i → Arrives c p l i) ∧ (r = none → ∀ j ∈ l, ¬ Anc c.idom j.block p) from
    hgen l [] none rfl ⟨fun _ h => (nomatch h), fun _ _ h => absurd h List.not_mem_nil⟩ h
  intro rest
  induction rest with
  | nil =>
    intro done r₁ hdone hinv h
    obtain rfl := Except.ok.inj h
    rw [List.append_nil] at hdone
    exact hdone ▸ hinv
  | cons j rest ih =>
    intro done r₁ hdone ⟨hsome, hnone⟩ h
    rw [List.foldlM_cons, bind_eq_ok] at h
    obtain ⟨r₂, hstep, h⟩ := h
    refine ih (done ++ [j]) r₂ (by rw [hdone, List.append_assoc]; rfl) ?_ h
    obtain ⟨b, hb, hstep⟩ := bind_eq_ok.mp hstep
    have hanc := dominates_ok hb
    cases b with
    | false =>
      obtain rfl := Except.ok.inj hstep
      have hj : ¬ Anc c.idom j.block p := fun hj => nomatch hanc.mpr hj
      constructor
      · intro i hi
        have harr := hsome i hi
        refine ⟨List.mem_append_left _ harr.mem, harr.anc, fun k hk hkp => ?_⟩
        rcases List.mem_append.mp hk with hk | hk
        · exact harr.nearest k hk hkp
        · obtain rfl := List.mem_singleton.mp hk
          exact absurd hkp hj
      · intro hr k hk
        rcases List.mem_append.mp hk with hk | hk
        · exact hnone hr k hk
        · obtain rfl := List.mem_singleton.mp hk
          exact hj
    | true =>
      obtain rfl := Except.ok.inj hstep
      have hj := hanc.mp rfl
      refine ⟨fun i hi => ?_, fun hr => nomatch hr⟩
      obtain rfl := Option.some.inj hi
      cases r₁ with
      | none =>
        refine ⟨List.mem_append_right _ (List.mem_singleton_self j), hj, fun k hk hkp => ?_⟩
        rcases List.mem_append.mp hk with hk | hk
        · exact absurd hkp (hnone rfl k hk)
        · obtain rfl := List.mem_singleton.mp hk
          exact .refl _ _
      | some i =>
        have harr := hsome i rfl
        -- the two dominators are comparable, and the smaller order is the nearer one
        have hij := harr.anc.total hj
        have horder : Anc c.idom i.block j.block → i.block = j.block ∨
            c.order j.block < c.order i.block := hgrow.anc hj
        have horder' : Anc c.idom j.block i.block → j.block = i.block ∨
            c.order i.block < c.order j.block := hgrow.anc harr.anc
        simp only [nearerIncoming]
        split
        · rename_i hlt
          refine ⟨List.mem_append_right _ (List.mem_singleton_self j), hj, fun k hk hkp => ?_⟩
          have hnear : Anc c.idom i.block j.block := by
            rcases hij with hij | hji
            · exact hij
            · rcases horder' hji with he | hlt'
              · exact he ▸ .refl _ _
              · have hlt : c.order j.block < c.order i.block := hlt
                omega
          rcases List.mem_append.mp hk with hk | hk
          · exact Anc.trans (harr.nearest k hk hkp) hnear
          · obtain rfl := List.mem_singleton.mp hk
            exact .refl _ _
        · rename_i hge
          have hge : ¬ c.order j.block < c.order i.block := hge
          refine ⟨List.mem_append_left _ harr.mem, harr.anc, fun k hk hkp => ?_⟩
          rcases List.mem_append.mp hk with hk | hk
          · exact harr.nearest k hk hkp
          · obtain rfl := List.mem_singleton.mp hk
            rcases hij with hij | hji
            · rcases horder hij with he | hlt'
              · exact he ▸ .refl _ _
              · exact absurd hlt' hge
            · exact hji

/-- The dominators and visit orders above `p` are the same in two pools. -/
structure SameAbove (c c' : CFGStructurizer) (p : Nat) : Prop where
  size : c.size ≤ c'.size
  idom : ∀ x, Anc c.idom x p → c'.idom x = c.idom x
  order : ∀ x, Anc c.idom x p → c'.order x = c.order x

theorem SameAbove.dominates (h : SameAbove c c' p) {a : Nat} {r : Bool}
    (hr : c.dominates a p = .ok r) : c'.dominates a p = .ok r :=
  climbs_congr (c.size + 1) (c'.size + 1) p (Nat.succ_le_succ h.size) h.idom hr

/-- What arrives over `p` can be asked in either pool. -/
theorem SameAbove.findIncomingValue (h : SameAbove c c' p) {l : List IncomingValue}
    {r : Option IncomingValue} (hr : c.findIncomingValue p l = .ok r) :
    c'.findIncomingValue p l = .ok r := by
  suffices hgen : ∀ (l : List IncomingValue) (r₁ : Option IncomingValue),
      (∀ i, r₁ = some i → Anc c.idom i.block p) →
      l.foldlM (fun candidate i => do
        if ← c.dominates i.block p then return some (c.nearerIncoming i candidate)
        else return candidate) r₁ = .ok r →
      l.foldlM (fun candidate i => do
        if ← c'.dominates i.block p then return some (c'.nearerIncoming i candidate)
        else return candidate) r₁ = .ok r from
    hgen l none (fun _ h => nomatch h) hr
  intro l
  induction l with
  | nil => exact fun _ _ h => h
  | cons j l ih =>
    intro r₁ hr₁ hr
    rw [List.foldlM_cons, bind_eq_ok] at hr ⊢
    obtain ⟨r₂, hstep, hr⟩ := hr
    obtain ⟨b, hb, hstep⟩ := bind_eq_ok.mp hstep
    have hb' := h.dominates hb
    cases b with
    | false =>
      obtain rfl := Except.ok.inj hstep
      exact ⟨r₁, bind_eq_ok.mpr ⟨false, hb', rfl⟩, ih r₁ hr₁ hr⟩
    | true =>
      have hj := (dominates_ok hb).mp rfl
      obtain rfl := Except.ok.inj hstep
      have hnearer : c'.nearerIncoming j r₁ = c.nearerIncoming j r₁ := by
        cases r₁ with
        | none => rfl
        | some i =>
          have hij : (c'.node j.block).forwardPostVisitOrder =
              (c.node j.block).forwardPostVisitOrder :=
            h.order j.block hj
          have hii : (c'.node i.block).forwardPostVisitOrder =
              (c.node i.block).forwardPostVisitOrder :=
            h.order i.block (hr₁ i rfl)
          simp only [nearerIncoming, hij, hii]
      refine ⟨_, bind_eq_ok.mpr ⟨true, hb', rfl⟩, ?_⟩
      rw [hnearer]
      refine ih _ (fun i hi => ?_) hr
      obtain rfl := Option.some.inj hi
      cases r₁ with
      | none => exact hj
      | some k =>
        simp only [nearerIncoming]
        split
        · exact hj
        · exact hr₁ k rfl

/-- A test of all elements is passed by each of them. -/
theorem allM_true {β : Type} {f : β → Except Fault Bool} {l : List β} (h : l.allM f = .ok true) :
    ∀ x ∈ l, f x = .ok true := by
  induction l with
  | nil => exact fun x hx => absurd hx List.not_mem_nil
  | cons y l ih =>
    rw [List.allM] at h
    obtain ⟨b, hb, h⟩ := bind_eq_ok.mp h
    cases b with
    | false => cases h
    | true =>
      intro x hx
      rcases List.mem_cons.mp hx with rfl | hx
      · exact hb
      · exact ih h x hx

/-- Where PHIs can be duplicated, every PHI has a value for every predecessor. -/
theorem canDuplicatePhis_ok {n : Nat} (h : c.canDuplicatePhis n = .ok true)
    (hp : p ∈ (c.node n).pred) : ∀ phi ∈ (c.node n).ir.phi,
      ∃ i, c.findIncomingValue p phi.incoming = .ok (some i) := by
  intro phi hphi
  obtain ⟨found, hfound, h⟩ := bind_eq_ok.mp h
  cases found with
  | false => cases h
  | true =>
    have hone := allM_true (allM_true hfound p hp) phi hphi
    obtain ⟨r, hr, hsome⟩ := bind_eq_ok.mp hone
    cases r with
    | none => cases hsome
    | some i => exact ⟨i, hr⟩

/-- The PHIs of a copy are renamed to what arrives. -/
theorem resolvePhis_ok {phis : List PHI} (hids : (phis.map (·.id)).Nodup) {remap : IdRemap}
    (h : c.resolvePhis p phis = .ok remap) :
    (∀ phi ∈ phis, ∃ i, c.findIncomingValue p phi.incoming = .ok (some i) ∧
      remap phi.id = some i.id) ∧ ∀ x, x ∉ phis.map (·.id) → remap x = none := by
  suffices hgen : ∀ (l : List PHI) (remap₁ : IdRemap), (l.map (·.id)).Nodup →
      l.foldlM (c.resolvePhi p) remap₁ = .ok remap →
      (∀ phi ∈ l, ∃ i, c.findIncomingValue p phi.incoming = .ok (some i) ∧
        remap phi.id = some i.id) ∧ ∀ x, x ∉ l.map (·.id) → remap x = remap₁ x from
    hgen phis _ hids h
  intro l
  induction l with
  | nil =>
    intro remap₁ _ h
    obtain rfl := Except.ok.inj h
    exact ⟨fun phi hphi => absurd hphi List.not_mem_nil, fun _ _ => rfl⟩
  | cons psi l ih =>
    intro remap₁ hnd h
    rw [List.map_cons, List.nodup_cons] at hnd
    rw [List.foldlM_cons, bind_eq_ok] at h
    obtain ⟨remap₂, hstep, h⟩ := h
    obtain ⟨r, hr, hstep⟩ := bind_eq_ok.mp hstep
    cases r with
    | none => cases hstep
    | some i =>
      obtain rfl := Except.ok.inj hstep
      obtain ⟨hmem, hout⟩ := ih _ hnd.2 h
      constructor
      · intro phi hphi
        rcases List.mem_cons.mp hphi with rfl | hphi
        · refine ⟨i, hr, ?_⟩
          rw [hout _ hnd.1, Function.update_self]
        · exact hmem phi hphi
      · intro x hx
        rw [List.map_cons, List.mem_cons, not_or] at hx
        rw [hout x hx.2, Function.update_of_ne hx.1]

end CFGStructurizer

end DxilSpirv
