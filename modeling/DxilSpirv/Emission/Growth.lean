import DxilSpirv.Emission.Emit
import Mathlib.Data.List.Infix

/-!
# What emission leaves alone

Instructions are only ever put behind those that a block has, new blocks have labels that were not
drawn before, and the PHIs of a block change only while it is made or where it is the first block of
a node.
-/

namespace DxilSpirv.Emission

open SpirvFunction

/-- What was not drawn yet is not used. -/
structure SpirvFunction.Fresh (s : SpirvFunction) : Prop where
  block : ∀ l, s.builder.uniqueId < l → s.block l = {}
  label : ∀ n, s.label n ≤ s.builder.uniqueId
  id : ∀ n, s.id n ≤ s.builder.uniqueId
  constants : ∀ i ∈ s.builder.constantsTypesGlobals, i.resultId ≤ s.builder.uniqueId

/-- Emission goes on. The PHIs of blocks up to the label `k` change only in the first blocks of
nodes. -/
structure Grows (k : Nat) (s s' : SpirvFunction) : Prop where
  drawn : s.builder.uniqueId ≤ s'.builder.uniqueId
  insts : ∀ l, (s.block l).insts <+: (s'.block l).insts
  phis : ∀ l ≤ k, (∀ n, s.label n ≠ l) → (s'.block l).phis = (s.block l).phis
  label : ∀ n, s'.label n = s.label n ∨ s.label n = 0 ∧ k < s'.label n
  constants : ∀ i ∈ s'.builder.constantsTypesGlobals,
    i ∈ s.builder.constantsTypesGlobals ∨ s.builder.uniqueId < i.resultId
  kept : s.builder.constantsTypesGlobals ⊆ s'.builder.constantsTypesGlobals
  fresh : s.Fresh → s'.Fresh

variable {k l : Nat} {s s' s'' : SpirvFunction}

/-- A function that does not change grows by nothing. -/
theorem Grows.refl (k : Nat) (s : SpirvFunction) : Grows k s s :=
  ⟨le_rfl, fun _ => List.prefix_rfl, fun _ _ _ => rfl, fun _ => .inl rfl, fun _ => .inl,
    List.Subset.refl _, id⟩

/-- Two growths make one. -/
theorem Grows.trans (h : Grows k s s') (h' : Grows k s' s'') : Grows k s s'' where
  drawn := h.drawn.trans h'.drawn
  insts l := (h.insts l).trans (h'.insts l)
  phis l hl hfirst := by
    refine (h'.phis l hl fun n hn => ?_).trans (h.phis l hl hfirst)
    rcases h.label n with heq | ⟨-, hlt⟩
    · exact hfirst n (heq.symm.trans hn)
    · exact absurd (hn ▸ hlt) (Nat.not_lt_of_le hl)
  label n := by
    rcases h.label n with heq | ⟨hzero, hlt⟩
    · rw [← heq]
      exact h'.label n
    · rcases h'.label n with heq' | ⟨hzero', hlt'⟩
      · exact .inr ⟨hzero, heq' ▸ hlt⟩
      · exact .inr ⟨hzero, hlt'⟩
  constants i hi := (h'.constants i hi).elim (h.constants i) fun hlt =>
    .inr (lt_of_le_of_lt h.drawn hlt)
  kept := List.Subset.trans h.kept h'.kept
  fresh hs := h'.fresh (h.fresh hs)

/-- Emission that leaves more alone. -/
theorem Grows.mono {k' : Nat} (h : Grows k s s') (hk : k' ≤ k) : Grows k' s s' :=
  { h with
    phis := fun l hl => h.phis l (hl.trans hk)
    label := fun n => (h.label n).imp_right fun hn => ⟨hn.1, lt_of_le_of_lt hk hn.2⟩ }

/-- To draw an id is a growth. -/
theorem grows_drawId (k : Nat) (s : SpirvFunction) : Grows k s s.drawId where
  drawn := Nat.le_succ _
  insts _ := List.prefix_rfl
  phis _ _ _ := rfl
  label _ := .inl rfl
  constants _ := .inl
  kept := List.Subset.refl _
  fresh h :=
    ⟨fun l hl => h.block l (Nat.lt_of_succ_lt hl), fun n => (h.label n).trans (Nat.le_succ _),
      fun n => (h.id n).trans (Nat.le_succ _), fun i hi => (h.constants i hi).trans (Nat.le_succ _)⟩

/-- A new block is a growth. -/
theorem grows_addBlock (k l : Nat) (s : SpirvFunction) : Grows k s (s.addBlock l) where
  drawn := le_rfl
  insts _ := List.prefix_rfl
  phis _ _ _ := rfl
  label _ := .inl rfl
  constants _ := .inl
  kept := List.Subset.refl _
  fresh h := ⟨h.block, h.label, h.id, h.constants⟩

/-- An instruction is added to one block. -/
theorem addInst_block (s : SpirvFunction) (l l' : Nat) (i : Inst) : (s.addInst l i).block l' =
    if l' = l then { s.block l with insts := (s.block l).insts ++ [i] } else s.block l' :=
  Function.update_apply ..

/-- An instruction in a block with an id is a growth. -/
theorem grows_addInst (k : Nat) (hl : l ≤ s.builder.uniqueId) (i : Inst) :
    Grows k s (s.addInst l i) where
  drawn := le_rfl
  insts l' := by
    rw [addInst_block]
    split_ifs with h
    · exact h ▸ List.prefix_append _ _
    · exact List.prefix_rfl
  phis l' _ _ := by
    rw [addInst_block]
    split_ifs with h
    · rw [h]
    · rfl
  label _ := .inl rfl
  constants _ := .inl
  kept := List.Subset.refl _
  fresh h := by
    refine ⟨fun l' hl' => ?_, h.label, h.id, h.constants⟩
    have hne : l' ≠ l := fun heq => absurd hl (Nat.not_le_of_lt (heq ▸ hl'))
    rw [addInst_block, if_neg hne]
    exact h.block l' hl'

/-- Two instructions at the end of a block. -/
theorem grows_addInsts (k : Nat) (hl : l ≤ s.builder.uniqueId) (i j : Inst) :
    Grows k s ((s.addInst l i).addInst l j) :=
  (grows_addInst k hl i).trans
    (grows_addInst k (show l ≤ (s.addInst l i).builder.uniqueId from hl) j)

/-- A PHI is added to one block. -/
theorem addPhi_block (s : SpirvFunction) (l l' : Nat) (phi : PHI) : (s.addPhi l phi).block l' =
    if l' = l then { s.block l with phis := (s.block l).phis ++ [phi] } else s.block l' :=
  Function.update_apply ..

/-- A PHI in a new block or in the first block of a node is a growth. -/
theorem grows_addPhi (hl : l ≤ s.builder.uniqueId) (hk : k < l ∨ ∃ n, s.label n = l) (phi : PHI) :
    Grows k s (s.addPhi l phi) where
  drawn := le_rfl
  insts l' := by
    rw [addPhi_block]
    split_ifs with h
    · exact h ▸ List.prefix_rfl
    · exact List.prefix_rfl
  phis l' hl' hfirst := by
    have hne : l' ≠ l := fun heq => hk.elim (fun hlt => absurd hl' (Nat.not_le_of_lt (heq ▸ hlt)))
      fun ⟨n, hn⟩ => hfirst n (hn.trans heq.symm)
    rw [addPhi_block, if_neg hne]
  label _ := .inl rfl
  constants _ := .inl
  kept := List.Subset.refl _
  fresh h := by
    refine ⟨fun l' hl' => ?_, h.label, h.id, h.constants⟩
    have hne : l' ≠ l := fun heq => absurd hl (Nat.not_le_of_lt (heq ▸ hl'))
    rw [addPhi_block, if_neg hne]
    exact h.block l' hl'

/-- Nodes may get ids that were drawn. -/
theorem grows_setId (k : Nat) {id : Nat → Nat}
    (hid : ∀ n, id n = s.id n ∨ id n ≤ s.builder.uniqueId) :
    Grows k s { s with id } where
  drawn := le_rfl
  insts _ := List.prefix_rfl
  phis _ _ _ := rfl
  label _ := .inl rfl
  constants _ := .inl
  kept := List.Subset.refl _
  fresh h := ⟨h.block, h.label,
    fun n => (hid n).elim (fun heq => heq.le.trans (h.id n)) fun hle => hle, h.constants⟩

/-- A null constant is a growth. -/
theorem grows_makeNullConstant (k typeId : Nat) (s : SpirvFunction) :
    Grows k s { s with builder := (s.builder.makeNullConstant typeId).2 } where
  drawn := Nat.le_succ _
  insts _ := List.prefix_rfl
  phis _ _ _ := rfl
  label _ := .inl rfl
  constants i hi := by
    rcases List.mem_append.mp hi with hi | hi
    · exact .inl hi
    · exact .inr (List.mem_singleton.mp hi ▸ Nat.lt_succ_self _)
  kept := List.subset_append_left _ _
  fresh h := by
    refine ⟨fun l hl => h.block l (Nat.lt_of_succ_lt hl),
      fun n => (h.label n).trans (Nat.le_succ _),
      fun n => (h.id n).trans (Nat.le_succ _), fun i hi => ?_⟩
    rcases List.mem_append.mp hi with hi | hi
    · exact (h.constants i hi).trans (Nat.le_succ _)
    · exact List.mem_singleton.mp hi ▸ le_rfl

/-- To relax the precision of a PHI is a growth. -/
theorem grows_relax (k : Nat) (s : SpirvFunction) (phi : PHI) : Grows k s (s.relax phi) := by
  unfold relax
  split_ifs
  · exact ⟨le_rfl, fun _ => List.prefix_rfl, fun _ _ _ => rfl, fun _ => .inl rfl, fun _ => .inl,
      List.Subset.refl _, fun h => ⟨h.block, h.label, h.id, h.constants⟩⟩
  · exact Grows.refl k s

end DxilSpirv.Emission
