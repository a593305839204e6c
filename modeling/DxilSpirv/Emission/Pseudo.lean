import DxilSpirv.Emission.Growth

/-!
# The blocks of a pseudo operation

A pseudo operation puts a selection at the end of the block at hand: the block under the mask, and
the block that both ways go on to.
-/

namespace DxilSpirv.Emission

open SpirvFunction
open Spv (Builder)

variable {k l : Nat} {s : SpirvFunction}

@[simp] theorem drawId_block (s : SpirvFunction) : s.drawId.block = s.block := rfl

@[simp] theorem drawId_label (s : SpirvFunction) : s.drawId.label = s.label := rfl

@[simp] theorem drawId_id (s : SpirvFunction) : s.drawId.id = s.id := rfl

@[simp] theorem drawId_uniqueId (s : SpirvFunction) :
    s.drawId.builder.uniqueId = s.builder.uniqueId + 1 := rfl

@[simp] theorem addBlock_block (s : SpirvFunction) (l : Nat) : (s.addBlock l).block = s.block := rfl

@[simp] theorem addBlock_builder (s : SpirvFunction) (l : Nat) :
    (s.addBlock l).builder = s.builder := rfl

@[simp] theorem addBlock_label (s : SpirvFunction) (l : Nat) : (s.addBlock l).label = s.label := rfl

@[simp] theorem addBlock_id (s : SpirvFunction) (l : Nat) : (s.addBlock l).id = s.id := rfl

@[simp] theorem addInst_builder (s : SpirvFunction) (l : Nat) (i : Inst) :
    (s.addInst l i).builder = s.builder := rfl

@[simp] theorem addInst_label (s : SpirvFunction) (l : Nat) (i : Inst) :
    (s.addInst l i).label = s.label := rfl

@[simp] theorem addInst_id (s : SpirvFunction) (l : Nat) (i : Inst) : (s.addInst l i).id = s.id :=
  rfl

@[simp] theorem addPhi_builder (s : SpirvFunction) (l : Nat) (phi : PHI) :
    (s.addPhi l phi).builder = s.builder := rfl

@[simp] theorem addPhi_label (s : SpirvFunction) (l : Nat) (phi : PHI) :
    (s.addPhi l phi).label = s.label := rfl

@[simp] theorem addPhi_id (s : SpirvFunction) (l : Nat) (phi : PHI) : (s.addPhi l phi).id = s.id :=
  rfl

@[simp] theorem newBlock_eq (s : SpirvFunction) : s.newBlock = s.builder.uniqueId + 1 := rfl

/-- Merges and undefined values do nothing. -/
def Inst.skipped : Inst → Bool
  | .undef _ _ | .selectionMerge _ _ | .loopMerge _ _ _ => true
  | _ => false

/-- A loop header puts a merge at the end of the block at hand, and touches no block but that which
stands in. -/
theorem emitLoopHeader_spec (s : SpirvFunction) (info : MergeInfo) (node : Nat) {bb fake : Nat}
    (hne : bb ≠ fake) (hbb : bb ≤ s.builder.uniqueId) (hfake : fake ≤ s.builder.uniqueId)
    (replacement : Option Nat) :
    let s' := s.emitLoopHeader info node bb fake replacement
    (∀ k, Grows k s s') ∧ s'.builder = s.builder ∧ s'.label = s.label ∧ s'.id = s.id ∧
      (∀ l, l ≠ bb → l ≠ fake → s'.block l = s.block l) ∧ (s'.block bb).phis = (s.block bb).phis ∧
      ∃ is, (∀ i ∈ is, i.skipped = true) ∧ (s'.block bb).insts = (s.block bb).insts ++ is := by
  -- The header of a loop that has one of its two blocks.
  have hstand (first last : Inst) (hlast : last.skipped = true) :
      let s' := ((s.addBlock fake).addInst fake first).addInst bb last
      (∀ k, Grows k s s') ∧ s'.builder = s.builder ∧ s'.label = s.label ∧ s'.id = s.id ∧
        (∀ l, l ≠ bb → l ≠ fake → s'.block l = s.block l) ∧ (s'.block bb).phis = (s.block bb).phis ∧
        ∃ is, (∀ i ∈ is, i.skipped = true) ∧ (s'.block bb).insts = (s.block bb).insts ++ is := by
    refine ⟨fun k => ?_, rfl, rfl, rfl, fun l hl hl' => ?_, ?_, [last],
      List.forall_mem_singleton.mpr hlast, ?_⟩
    · have hfirst := grows_addInst k
        (show fake ≤ (s.addBlock fake).builder.uniqueId from hfake) first
      have hlast := grows_addInst k
        (show bb ≤ ((s.addBlock fake).addInst fake first).builder.uniqueId from hbb) last
      exact ((grows_addBlock k fake s).trans hfirst).trans hlast
    · rw [addInst_block, if_neg hl, addInst_block, if_neg hl', addBlock_block]
    · rw [addInst_block, if_pos rfl, addInst_block, if_neg hne, addBlock_block]
    · rw [addInst_block, if_pos rfl, addInst_block, if_neg hne, addBlock_block]
  unfold SpirvFunction.emitLoopHeader
  cases info.mergeBlock <;> cases info.continueBlock
  case none.none =>
    exact ⟨fun k => Grows.refl k s, rfl, rfl, rfl, fun _ _ _ => rfl, rfl, [], List.forall_mem_nil _,
      (List.append_nil _).symm⟩
  case none.some continueBlock => exact hstand .unreachable _ rfl
  case some.none mergeBlock => exact hstand (.branch (s.label node)) _ rfl
  case some.some mergeBlock continueBlock =>
    refine ⟨fun k => grows_addInst k hbb _, rfl, rfl, rfl, fun l hl _ => ?_, ?_,
      [.loopMerge (s.label mergeBlock) (replacement.getD (s.label continueBlock))
        info.loopControlMask],
      List.forall_mem_singleton.mpr rfl, ?_⟩
    · rw [addInst_block, if_neg hl]
    · rw [addInst_block, if_pos rfl]
    · rw [addInst_block, if_pos rfl]

/-- The emission of a node, from when its PHIs are there. The block at hand is the first one of the
node, or the one that PHIs are to be rewritten to. -/
structure Emitting.Ok (p : Place) (e : Emitting) : Prop where
  fresh : e.module.Fresh
  bb_le : e.bb ≤ e.module.builder.uniqueId
  bb_ne : e.bb ≠ p.fake
  fake_le : p.fake ≤ e.module.builder.uniqueId
  at_end : e.rewriteTo = 0 ∧ e.bb = e.module.label p.node ∨ e.rewriteTo = e.bb ∧
    e.module.id p.node = e.bb ∧ e.bb ≠ 0

namespace Emitting

variable {p : Place} {e : Emitting} {op : Operation}

/-- A loop header ends before its first pseudo operation. -/
theorem leaveHeader_eq (hleave : p.info.mergeType = .loop ∧ e.rewriteTo = 0) :
    ∃ replacement, e.leaveHeader p =
    { e with
      module := ((e.module.drawId.emitLoopHeader p.info p.node e.bb p.fake replacement).addBlock
        e.module.newBlock).addInst e.bb (.branch e.module.newBlock)
      bb := e.module.newBlock } :=
  ⟨_, if_pos hleave⟩

/-- What `leaveHeader` puts at the end of the block at hand: nothing, or a merge and a branch to a
new block that comes next. -/
theorem leaveHeader_spec (hok : e.Ok p) :
    let e' := e.leaveHeader p
    Grows e.module.builder.uniqueId e.module e'.module ∧ e'.module.label = e.module.label ∧
      e'.module.id = e.module.id ∧ e'.bb ≤ e'.module.builder.uniqueId ∧ e'.bb ≠ p.fake ∧
      e'.module.builder.constantsTypesGlobals = e.module.builder.constantsTypesGlobals ∧
      (e'.module = e.module ∧ e'.bb = e.bb ∨
        ∃ is, (∀ i ∈ is, i.skipped = true) ∧ e.module.builder.uniqueId < e'.bb ∧
          e'.module.block e'.bb = {} ∧
          (e'.module.block e.bb).insts = (e.module.block e.bb).insts ++ is ++ [.branch e'.bb]) := by
  by_cases hleave : p.info.mergeType = .loop ∧ e.rewriteTo = 0
  · obtain ⟨replacement, heq⟩ := leaveHeader_eq hleave
    rw [heq]
    set direct := e.module.newBlock
    obtain ⟨hgrows, hbuilder, hlabel, hid, hother, -, is, his, hinsts⟩ :=
      emitLoopHeader_spec e.module.drawId p.info p.node
      hok.bb_ne (hok.bb_le.trans (Nat.le_succ _)) (hok.fake_le.trans (Nat.le_succ _)) replacement
    set s := e.module.drawId.emitLoopHeader p.info p.node e.bb p.fake replacement
    have hdrawn : s.builder.uniqueId = e.module.builder.uniqueId + 1 :=
      congrArg (·.uniqueId) hbuilder
    have hne : e.bb ≠ direct := Nat.ne_of_lt (Nat.lt_succ_of_le hok.bb_le)
    have hne' : p.fake ≠ direct := Nat.ne_of_lt (Nat.lt_succ_of_le hok.fake_le)
    have hbb : e.bb ≤ (s.addBlock direct).builder.uniqueId := by
      rw [addBlock_builder, hdrawn]
      exact hok.bb_le.trans (Nat.le_succ _)
    refine ⟨?_, hlabel, hid, hdrawn.ge, hne'.symm, congrArg (·.constantsTypesGlobals) hbuilder,
      .inr ⟨is, his, Nat.lt_succ_self _, ?_, ?_⟩⟩
    · exact (((grows_drawId _ _).trans (hgrows _)).trans (grows_addBlock _ direct s)).trans
        (grows_addInst _ hbb _)
    · rw [addInst_block, if_neg hne.symm, addBlock_block, hother direct hne.symm hne'.symm,
        drawId_block]
      exact hok.fresh.block direct (Nat.lt_succ_self _)
    · rw [addInst_block, if_pos rfl, addBlock_block, hinsts, drawId_block]
  · have heq : e.leaveHeader p = e := if_neg hleave
    rw [heq]
    exact ⟨Grows.refl _ _, rfl, rfl, hok.bb_le, hok.bb_ne, rfl, .inl ⟨rfl, rfl⟩⟩

/-- What a pseudo operation puts under its mask and into the PHIs of the block that both ways go on
to. A masked load goes to an id of its own, and the null value of its type is a constant. -/
inductive Under (op : Operation) (inner merge bb drawn : Nat) (builder : Builder) :
    List Inst → List PHI → Prop
  | ret (hop : op.op = pseudoOpReturnCond) : Under op inner merge bb drawn builder [.ret 0] []
  | store (hop : op.op = pseudoOpMaskedStore) :
    Under op inner merge bb drawn builder [.op .opStore 0 0 op.arguments.dropLast, .branch merge] []
  | load {innerId null : Nat} (hret : op.op ≠ pseudoOpReturnCond)
      (hstore : op.op ≠ pseudoOpMaskedStore)
    (hfresh : drawn < innerId) (hinner : ∀ i ∈ builder.constantsTypesGlobals, i.resultId ≠ innerId)
    (hdrawn : innerId ≤ builder.uniqueId) (hless : innerId < null)
    (hnull : ⟨.constantNull, null, op.typeId, []⟩ ∈ builder.constantsTypesGlobals) :
    Under op inner merge bb drawn builder
      [.op .opLoad innerId op.typeId op.arguments.dropLast, .branch merge]
      [{ id := op.id, typeId := op.typeId, incoming := [⟨inner, innerId⟩, ⟨bb, null⟩] }]

/-- The blocks that `emitInner` fills. -/
theorem emitInner_spec (hfresh : e.module.Fresh) {inner merge : Nat}
    (hinner : inner ≤ e.module.builder.uniqueId) (hmerge : merge ≤ e.module.builder.uniqueId)
    (hne : inner ≠ merge) (hempty : e.module.block inner = {}) (hempty' : e.module.block merge = {})
    (op : Operation) {k : Nat} (hk : k < merge) :
    let s' := e.emitInner op inner merge
    Grows k e.module s' ∧ s'.label = e.module.label ∧ s'.id = e.module.id ∧
      (∀ l, l ≠ inner → l ≠ merge → l ≤ e.module.builder.uniqueId → s'.block l = e.module.block l) ∧
      ∃ insts phis, Under op inner merge e.bb e.module.builder.uniqueId s'.builder insts phis ∧
        s'.block inner = { insts } ∧
        s'.block merge = { phis } := by
  set s := e.module
  unfold emitInner
  split_ifs with hret hstore
  · refine ⟨?_, rfl, rfl, fun l hl _ _ => ?_, [.ret 0], [], .ret hret, ?_, ?_⟩
    · exact ((grows_addInst k hinner _).trans (grows_addBlock ..)).trans (grows_drawId ..)
    · exact (addInst_block ..).trans (if_neg hl)
    · refine (addInst_block ..).trans ?_
      rw [if_pos rfl, hempty]
      rfl
    · exact ((addInst_block ..).trans (if_neg hne.symm)).trans hempty'
  · refine ⟨?_, rfl, rfl, fun l hl _ _ => ?_, _, _, .store hstore, ?_, ?_⟩
    · exact grows_addInsts k hinner _ _
    · rw [addInst_block, if_neg hl, addInst_block, if_neg hl]
    · rw [addInst_block, if_pos rfl, addInst_block, if_pos rfl, hempty]
      rfl
    · rw [addInst_block, if_neg hne.symm, addInst_block, if_neg hne.symm, hempty']
  · set innerId := s.builder.uniqueId + 1
    set s₁ := (s.drawId.addInst inner (.op .opLoad innerId op.typeId op.arguments.dropLast)).addInst
      inner (.branch merge)
    set s₂ : SpirvFunction := { s₁ with builder := (s₁.builder.makeNullConstant op.typeId).2 }
    have hload := grows_addInsts k
      (show inner ≤ s.drawId.builder.uniqueId from hinner.trans (Nat.le_succ _))
      (.op .opLoad innerId op.typeId op.arguments.dropLast) (.branch merge)
    have hmerge₂ : merge ≤ s₂.builder.uniqueId :=
      hmerge.trans ((Nat.le_succ _).trans (Nat.le_succ _))
    have hother (l : Nat) (hl : l ≠ inner) : s₂.block l = s.block l := by
      change ((s.drawId.addInst inner _).addInst inner _).block l = _
      rw [addInst_block, if_neg hl, addInst_block, if_neg hl, drawId_block]
    refine ⟨?_, rfl, rfl, fun l hl hl' _ => ?_, _, _,
      .load hret hstore (Nat.lt_succ_self _) ?_ (Nat.le_succ _)
      (Nat.lt_succ_self _) (List.mem_append_right _ (List.mem_singleton_self _)), ?_, ?_⟩
    · exact (((grows_drawId k s).trans hload).trans (grows_makeNullConstant k _ s₁)).trans
        (grows_addPhi hmerge₂ (.inl hk) _)
    · exact ((addPhi_block ..).trans (if_neg hl')).trans (hother l hl)
    · intro i hi
      rcases List.mem_append.mp hi with hi | hi
      · exact Nat.ne_of_lt (Nat.lt_succ_of_le (hfresh.constants i hi))
      · rw [List.mem_singleton.mp hi]
        exact (Nat.lt_succ_self innerId).ne'
    · refine ((addPhi_block ..).trans (if_neg hne)).trans ?_
      change ((s.drawId.addInst inner _).addInst inner _).block inner = _
      rw [addInst_block, if_pos rfl, addInst_block, if_pos rfl, drawId_block, hempty]
      rfl
    · have hone (b : SpvBlock) (hb : b = {}) (phi : PHI) : { b with phis := b.phis ++ [phi] } =
        { phis := [phi] } := by
        rw [hb]
        rfl
      exact ((addPhi_block ..).trans (if_pos rfl)).trans
        (hone _ ((hother merge hne.symm).trans hempty') _)

/-- The blocks of a pseudo operation: the block at hand ends with a selection of the two new
ones. -/
structure Masked (p : Place) (op : Operation) (e e' : Emitting) (inner merge : Nat) : Prop where
  grows : Grows e.module.builder.uniqueId e.module e'.module
  ok : e'.Ok p
  label : e'.module.label = e.module.label
  id : e'.module.id = Function.update e.module.id p.node merge
  bb : e'.bb = merge
  rewriteTo : e'.rewriteTo = merge
  implicit : e'.implicitTerminator = e.implicitTerminator
  lt_inner : e.module.builder.uniqueId < inner
  lt_merge : inner < merge
  drawn : merge ≤ e'.module.builder.uniqueId
  selection : (e'.module.block e.bb).insts = (e.module.block e.bb).insts ++
    [.selectionMerge merge 0, .branchConditional ((condition op.arguments).getD 0) inner merge]
  under : ∃ insts phis, Under op inner merge e.bb merge e'.module.builder insts phis ∧
    e'.module.block inner = { insts } ∧ e'.module.block merge = { phis }

/-- The emission of a pseudo operation, from the block that comes after a loop header. -/
theorem masked_emitMasked (hok : e.Ok p) (op : Operation) :
    Masked p op (e.leaveHeader p) (e.emitMasked p op)
      ((e.leaveHeader p).module.builder.uniqueId + 1)
      ((e.leaveHeader p).module.builder.uniqueId + 2) := by
  obtain ⟨hgrows, hlabel, hid, hbb, hfake, -⟩ := leaveHeader_spec hok
  unfold emitMasked
  set e₁ := e.leaveHeader p
  have hfresh : e₁.module.Fresh := hgrows.fresh hok.fresh
  set inner := e₁.module.builder.uniqueId + 1
  set merge := e₁.module.builder.uniqueId + 2
  set s₁ := (e₁.module.drawId.drawId.addBlock inner).addBlock merge
  set s₂ := s₁.addInst e₁.bb (.selectionMerge merge 0)
  set s₃ := s₂.addInst e₁.bb (.branchConditional ((condition op.arguments).getD 0) inner merge)
  have hdrawn : s₃.builder.uniqueId = merge := rfl
  have hbb' : e₁.bb ≤ merge := hbb.trans (Nat.le_add_right _ _)
  have hgrows₃ : Grows e₁.module.builder.uniqueId e₁.module s₃ :=
    ((((grows_drawId _ _).trans (grows_drawId _ _)).trans (grows_addBlock _ inner _)).trans
      (grows_addBlock _ merge _)).trans
        (grows_addInsts _ (show e₁.bb ≤ s₁.builder.uniqueId from hbb') _ _)
  have hother (l : Nat) (hl : l ≠ e₁.bb) : s₃.block l = e₁.module.block l := by
    rw [addInst_block, if_neg hl, addInst_block, if_neg hl]
    rfl
  have hinner : inner ≠ e₁.bb := Nat.ne_of_gt (Nat.lt_succ_of_le hbb)
  have hmerge : merge ≠ e₁.bb := Nat.ne_of_gt (Nat.lt_succ_of_le (hbb.trans (Nat.le_succ _)))
  obtain ⟨hgrows₄, hlabel₄, hid₄, hother₄, insts, phis, hunder, hblock, hblock'⟩ :=
    @emitInner_spec { e₁ with module := s₃ } (hgrows₃.fresh hfresh) inner merge
      (Nat.le_succ _) le_rfl
      (Nat.ne_of_lt (Nat.lt_succ_self _))
        ((hother inner hinner).trans (hfresh.block _ (Nat.lt_succ_self _)))
      ((hother merge hmerge).trans (hfresh.block _ (Nat.lt_succ_of_lt (Nat.lt_succ_self _)))) op
        e₁.module.builder.uniqueId
      (Nat.lt_succ_of_lt (Nat.lt_succ_self _))
  set s₄ := emitInner { e₁ with module := s₃ } op inner merge
  have hset :
      Grows e₁.module.builder.uniqueId s₄ { s₄ with id := Function.update s₄.id p.node merge } := by
    refine grows_setId _ fun n => ?_
    by_cases hn : n = p.node
    · exact .inr (by rw [hn, Function.update_self]; exact hgrows₄.drawn)
    · exact .inl (Function.update_of_ne hn _ _)
  have hgo := (hgrows₃.trans hgrows₄).trans hset
  constructor
  case grows => exact hgo
  case ok =>
    refine ⟨hgo.fresh hfresh, hgrows₄.drawn, ?_, ?_,
      .inr ⟨rfl, Function.update_self .., Nat.succ_ne_zero _⟩⟩
    · exact Nat.ne_of_gt
        (Nat.lt_succ_of_le ((hok.fake_le.trans hgrows.drawn).trans (Nat.le_succ _)))
    · exact hok.fake_le.trans (hgrows.drawn.trans hgo.drawn)
  case label => exact hlabel₄
  case id => exact congrArg (Function.update · p.node merge) hid₄
  case bb => rfl
  case rewriteTo => rfl
  case implicit => rfl
  case lt_inner => exact Nat.lt_succ_self _
  case lt_merge => exact Nat.lt_succ_self _
  case drawn => exact hgrows₄.drawn
  case selection =>
    refine (congrArg SpvBlock.insts (hother₄ e₁.bb hinner.symm hmerge.symm hbb')).trans ?_
    rw [addInst_block, if_pos rfl, addInst_block, if_pos rfl, List.append_assoc]
    rfl
  case under =>
    exact ⟨insts, phis, hunder, hblock, hblock'⟩

/-- What the emission of operations keeps. If it gives the node a new `id`, then a new label. -/
structure Emits (p : Place) (e e' : Emitting) : Prop where
  grows : Grows e.module.builder.uniqueId e.module e'.module
  ok : e'.Ok p
  label : e'.module.label = e.module.label
  id_of_ne : ∀ n, n ≠ p.node → e'.module.id n = e.module.id n
  id : e'.rewriteTo = e.rewriteTo ∧ e'.module.id p.node = e.module.id p.node ∨
    e.module.builder.uniqueId < e'.rewriteTo

/-- A state emits nothing to reach itself. -/
theorem Emits.refl (hok : e.Ok p) : Emits p e e :=
  ⟨Grows.refl _ _, hok, rfl, fun _ _ => rfl, .inl ⟨rfl, rfl⟩⟩

/-- Emissions compose. -/
theorem Emits.trans {e' e'' : Emitting} (h : Emits p e e') (h' : Emits p e' e'') :
    Emits p e e'' where
  grows := h.grows.trans (h'.grows.mono h.grows.drawn)
  ok := h'.ok
  label := h'.label.trans h.label
  id_of_ne n hn := (h'.id_of_ne n hn).trans (h.id_of_ne n hn)
  id := by
    rcases h'.id with ⟨hto, hid⟩ | hlt
    · rcases h.id with ⟨hto', hid'⟩ | hlt
      · exact .inl ⟨hto.trans hto', hid.trans hid'⟩
      · exact .inr (hto ▸ hlt)
    · exact .inr (lt_of_le_of_lt h.grows.drawn hlt)

/-- One operation is emitted. -/
theorem emits_emitOperation (hok : e.Ok p) (op : Operation) : Emits p e (e.emitOperation p op) := by
  unfold emitOperation
  split_ifs
  · exact Emits.refl hok
  · have hmasked := masked_emitMasked hok op
    obtain ⟨hgrows, hlabel, hid, -⟩ := leaveHeader_spec hok
    refine ⟨hgrows.trans (hmasked.grows.mono hgrows.drawn), hmasked.ok, hmasked.label.trans hlabel,
      fun n hn => ?_, .inr ?_⟩
    · rw [hmasked.id, Function.update_of_ne hn, hid]
    · rw [hmasked.rewriteTo]
      exact lt_of_le_of_lt hgrows.drawn (hmasked.lt_inner.trans hmasked.lt_merge)
  · exact Emits.refl hok
  · have hgrows (k : Nat) := grows_addInst k hok.bb_le (.op op.op op.id op.typeId op.arguments)
    exact ⟨hgrows _, ⟨(hgrows 0).fresh hok.fresh, hok.bb_le, hok.bb_ne, hok.fake_le, hok.at_end⟩,
      rfl, fun _ _ => rfl, .inl ⟨rfl, rfl⟩⟩

/-- The operations of a block are emitted in order. -/
theorem emits_emitOperations (hok : e.Ok p) (ops : List Operation) :
    Emits p e (ops.foldl (emitOperation p) e) := by
  induction ops generalizing e with
  | nil => exact Emits.refl hok
  | cons op ops ih =>
    have hfirst := emits_emitOperation hok op
    exact hfirst.trans (ih hfirst.ok)

end Emitting

end DxilSpirv.Emission
