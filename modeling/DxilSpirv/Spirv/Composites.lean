import DxilSpirv.Spirv.Interning

/-!
# Composites of vectors and matrices

A composite is looked up by its members alone. For vectors and matrices the members tell the type,
so what is found is of the type that was asked for.
-/

namespace DxilSpirv.Spv

variable {args : List Id} {b b' : Builder} {typeId : Id} {members : List Id}

/-- A declaration with this id is of this type. -/
def Builder.HasTypeId (b : Builder) (id typeId : Id) : Prop :=
  ∃ i ∈ b.constantsTypesGlobals, i.resultId = id ∧ i.typeId = typeId

/-- Members fit a vector or a matrix: there are as many as it has, and they are of the type of its
elements. -/
def Builder.Fits (b : Builder) (typeId : Id) (members : List Id) : Prop :=
  ∀ t ∈ b.constantsTypesGlobals, t.resultId = typeId → t.opCode ∈ [Op.typeVector, .typeMatrix] →
    0 < t.getIdOperand 1 ∧ members.length = t.getIdOperand 1 ∧ ∀ m ∈ members,
      b.HasTypeId m (t.getIdOperand 0)

instance (id : Id) : Decidable (b.HasTypeId id typeId) := inferInstanceAs (Decidable (∃ i ∈ _, _))

instance : Decidable (b.Fits typeId members) := inferInstanceAs (Decidable (∀ t ∈ _, _))

/-- The members of all composites of vectors and matrices fit. -/
def Builder.Composed (b : Builder) : Prop :=
  ∀ c ∈ b.constantsTypesGlobals, c.opCode ∈ Op.composites → b.Fits c.typeId c.operands

/-- Members that fit a type that is declared fit later. -/
theorem Builder.Fits.mono (hfits : b.Fits typeId members) (h : b'.Inv)
    (hstays : b.constantsTypesGlobals <+: b'.constantsTypesGlobals)
    (htype : ∃ t ∈ b.constantsTypesGlobals, t.resultId = typeId) : b'.Fits typeId members := by
  intro t ht hid hop
  obtain ⟨t', ht', hid'⟩ := htype
  obtain rfl := h.eq_of_resultId ht (hstays.subset ht') (hid.trans hid'.symm)
  obtain ⟨hpos, hcount, hmembers⟩ := hfits t ht' hid hop
  refine ⟨hpos, hcount, fun m hm => ?_⟩
  obtain ⟨i, hi, hrest⟩ := hmembers m hm
  exact ⟨i, hstays.subset hi, hrest⟩

/-- The type of a composite is declared. -/
theorem Builder.Inv.exists_type (h : b.Inv) {c : Instruction} (hc : c ∈ b.constantsTypesGlobals)
    (hop : c.opCode ∈ Op.composites) : ∃ t ∈ b.constantsTypesGlobals, t.resultId = c.typeId := by
  obtain ⟨t, ht, hid, -⟩ :=
    h.typed c hc ((by decide : ∀ op ∈ Op.composites, op ∈ Op.groupedConstants) _ hop)
  exact ⟨t, ht, hid⟩

/-- What declares no composites keeps those that are declared. -/
theorem Grows.mem_of_composite (hg : Grows args false b b') {c : Instruction}
    (hc : c ∈ b'.constantsTypesGlobals) (hop : c.opCode ∈ Op.composites) :
    c ∈ b.constantsTypesGlobals := by
  induction hg with
  | refl => exact hc
  | quiet _ hq ih => exact ih (hq.declared ▸ hc)
  | add _ ha _ _ hkind ih =>
    rw [ha.declared] at hc
    rcases List.mem_append.mp hc with hc | hc
    · exact ih hc
    · exact absurd hop (List.mem_singleton.mp hc ▸ hkind rfl)

/-- What declares no composites keeps them fitting. -/
theorem Grows.composed (hg : Grows args false b b') (h : b.Inv) (hcomposed : b.Composed) :
    b'.Composed := by
  intro c hc hop
  have hbefore := hg.mem_of_composite hc hop
  exact (hcomposed c hbefore hop).mono (hg.inv h) hg.stays (h.exists_type hbefore hop)

/-- The type of a vector or a matrix is told by members that fit it. -/
theorem eq_of_fits (h : b.Inv) {op : Op} (hop : op ∈ [Op.typeVector, .typeMatrix])
    {t t' : Instruction} (ht : t ∈ b.constantsTypesGlobals) (ht' : t' ∈ b.constantsTypesGlobals)
    (htop : t.opCode = op) (htop' : t'.opCode = op) (hfits : b.Fits t.resultId members)
    (hfits' : b.Fits t'.resultId members) : t = t' := by
  obtain ⟨harity, htype, hinterned⟩ := (by decide : ∀ op ∈ [Op.typeVector, .typeMatrix],
    op.arity = some 2 ∧ op ∈ Op.types ∧ op ∈ Op.interned) op hop
  obtain ⟨hpos, hcount, hmembers⟩ := hfits t ht rfl (htop ▸ hop)
  obtain ⟨-, hcount', hmembers'⟩ := hfits' t' ht' rfl (htop' ▸ hop)
  obtain ⟨m, rest, rfl⟩ := List.exists_cons_of_length_pos (hcount ▸ hpos)
  obtain ⟨i, hi, hid, helement⟩ := hmembers m List.mem_cons_self
  obtain ⟨j, hj, hjd, helement'⟩ := hmembers' m List.mem_cons_self
  obtain rfl := h.eq_of_resultId hi hj (hid.trans hjd.symm)
  refine h.keys t ht t' ht' (htop ▸ hinterned) ?_
  have hoperands := (operands_two (h.arity t ht 2 (htop ▸ harity)) _ _).mp ⟨rfl, rfl⟩
  have hoperands' := (operands_two (h.arity t' ht' 2 (htop' ▸ harity)) _ _).mp ⟨rfl, rfl⟩
  unfold Instruction.key
  rw [h.untyped t ht (htop ▸ htype), h.untyped t' ht' (htop' ▸ htype), htop, htop', hoperands,
    hoperands', ← hcount, ← hcount', ← helement, ← helement']

variable {specConstant : Bool} {made : Id × Builder}

/-- A composite of a type with these members has this id. -/
def Builder.DeclaresComposite (b : Builder) (typeId : Id) (members : List Id) (id : Id) : Prop :=
  ∃ c ∈ b.constantsTypesGlobals, c.resultId = id ∧ c.opCode ∈ Op.composites ∧ c.typeId = typeId ∧
    c.operands = members

theorem compositeOp_mem : compositeOp specConstant ∈ Op.composites := by
  cases specConstant <;> decide

/-- The declarations after a new composite. -/
theorem makeComposite_declared (typeClass : Op) :
    (b.makeConstant typeClass (compositeOp specConstant) typeId members).2.constantsTypesGlobals =
      b.constantsTypesGlobals ++ [⟨compositeOp specConstant, b.uniqueId + 1, typeId, members⟩] := by
  obtain ⟨matrices, groups, hgroup⟩ := @groupConstant_cases b.drawId typeClass
    ⟨compositeOp specConstant, b.uniqueId + 1, typeId, members⟩
  change ((b.drawId.groupConstant typeClass _).declare _).constantsTypesGlobals = _
  rw [hgroup]
  rfl

/-- A new composite whose members fit keeps all fitting. -/
theorem makeComposite_composed (h : b.Inv) (hcomposed : b.Composed) {typeClass : Op}
    (hclass : b.HasClass typeId typeClass) (hfits : b.Fits typeId members) :
    (b.makeConstant typeClass (compositeOp specConstant) typeId members).2.Composed := by
  have hg := makeComposite_grows h hclass (List.Subset.refl members) specConstant
  intro c hc hop
  have hmem := hc
  rw [makeComposite_declared] at hmem
  rcases List.mem_append.mp hmem with hbefore | hnew
  · exact (hcomposed c hbefore hop).mono (hg.inv h) hg.stays (h.exists_type hbefore hop)
  · obtain rfl := List.mem_singleton.mp hnew
    obtain ⟨t, ht, hid, -⟩ := hclass
    exact hfits.mono (hg.inv h) hg.stays ⟨t, ht, hid⟩

/-- A call for a composite whose members fit keeps all fitting. -/
theorem makeCompositeConstant_composed (h : b.Inv) (hcomposed : b.Composed)
    (hfits : b.Fits typeId members)
    (hmade : b.makeCompositeConstant typeId members specConstant = some made) :
    made.2.Composed := by
  rcases makeCompositeConstant_cases hmade with rfl | ⟨typeClass, hclass, hcomposite, rfl | rfl⟩
  · exact (@makeFloatConstant_serves [] false b h 0 false).1.composed h hcomposed
  · exact hcomposed
  · exact makeComposite_composed h hcomposed (h.hasClass_composite hcomposite hclass) hfits

/-- A call for a composite of a vector or a matrix whose members fit returns a composite of that
type. -/
theorem makeCompositeConstant_declares (h : b.Inv) (hcomposed : b.Composed) {op : Op}
    (hop : op ∈ [Op.typeVector, .typeMatrix]) (hclass : b.getTypeClass typeId = some op)
    (hfits : b.Fits typeId members) (specConstant : Bool) :
    ∃ made, b.makeCompositeConstant typeId members specConstant = some made ∧
      made.2.DeclaresComposite typeId members made.1 := by
  obtain ⟨hcomposite, hmatrix⟩ := (by decide : ∀ op ∈ [Op.typeVector, .typeMatrix],
    op ∈ Builder.compositeClasses ∧ op ≠ .typeCooperativeMatrixKHR) op hop
  obtain ⟨t, ht, hid, htop⟩ := h.hasClass_composite hcomposite hclass
  refine ⟨_, makeCompositeConstant_eq hclass hcomposite specConstant, ?_⟩
  split_ifs with hexisting
  · cases specConstant with
    | true => exact absurd rfl hexisting
    | false =>
      have hlist : b.constantsOf op = b.groupedConstants op := if_neg hmatrix
      have hfind : existingComposite b op members false =
          (((b.groupedConstants op).find? fun constant =>
              constant.operands = members).map (·.resultId)).getD 0 :=
        if_neg hmatrix
      rw [hfind] at hexisting ⊢
      rcases @find_id (b.groupedConstants op) (fun constant => constant.operands = members)
        (hlist ▸ h.pos_constantsOf) with ⟨c, hc, hwanted, hfound, -⟩ | ⟨hnone, -⟩
      · obtain ⟨hcin, hcgrouped, t', ht', hid', htop'⟩ := (h.constants op c).mp (hlist ▸ hc)
        obtain ⟨t'', ht'', hid'', -, hkind⟩ := h.typed c hcin hcgrouped
        obtain rfl := h.eq_of_resultId ht' ht'' (hid'.trans hid''.symm)
        have hcop := hkind (htop' ▸ hcomposite)
        have hmembers : c.operands = members := of_decide_eq_true hwanted
        have hsame := eq_of_fits h hop ht ht' htop htop' (hid ▸ hfits)
          (hid' ▸ hmembers ▸ hcomposed c hcin hcop)
        exact ⟨c, hcin, hfound.symm, hcop, by rw [← hid', ← hsame, hid], hmembers⟩
      · exact absurd hnone hexisting
  · refine ⟨⟨compositeOp specConstant, b.uniqueId + 1, typeId, members⟩, ?_, rfl,
      compositeOp_mem, rfl, rfl⟩
    rw [makeComposite_declared]
    exact List.mem_append_right _ (List.mem_singleton_self _)

variable {requests : List Request} {ids : List Id}

/-- The members of every composite that is asked for fit when it is asked for. -/
def AsksFitting : List Request → Builder → Prop
  | [], _ => True
  | request :: requests, b =>
    (∀ c ∈ request.composite, b.Fits c.1 c.2) ∧ ∀ made ∈ serve b request,
      AsksFitting requests made.2

instance decidableAsksFitting : (requests : List Request) → (b : Builder) →
    Decidable (AsksFitting requests b)
  | [], _ => .isTrue trivial
  | request :: requests, b =>
    have (made : Id × Builder) : Decidable (AsksFitting requests made.2) :=
  decidableAsksFitting requests made.2
    inferInstanceAs (Decidable ((∀ c ∈ request.composite, b.Fits c.1 c.2) ∧
      ∀ made ∈ serve b request, AsksFitting requests made.2))

/-- A run that asks for composites that fit keeps all fitting. -/
theorem serveAll_composed (h : b.Inv) (hcomposed : b.Composed)
    (hproper : ∀ request ∈ requests, request.Proper) (hfitting : AsksFitting requests b)
    (hrun : serveAll requests b = some (ids, b')) : b'.Composed := by
  induction requests generalizing b ids with
  | nil =>
    obtain ⟨-, rfl⟩ := Prod.mk.inj (Option.some.inj hrun)
    exact hcomposed
  | cons request requests ih =>
    obtain ⟨hrequest, hproper⟩ := List.forall_mem_cons.mp hproper
    obtain ⟨⟨id, b₁⟩, hserve, hrun⟩ := Option.bind_eq_some_iff.mp hrun
    obtain ⟨⟨ids₁, b₂⟩, hrest, hrun⟩ := Option.bind_eq_some_iff.mp hrun
    obtain ⟨-, rfl⟩ := Prod.mk.inj (Option.some.inj hrun)
    obtain ⟨hgrows, -⟩ := serve_spec h hrequest hserve
    refine ih (hgrows.inv h) ?_ hproper (hfitting.2 _ hserve) hrest
    cases hkind : request.composite with
    | none =>
      rw [hkind] at hgrows
      exact hgrows.composed h hcomposed
    | some c =>
      obtain ⟨specConstant, rfl⟩ := Request.eq_of_composite hkind
      exact makeCompositeConstant_composed h hcomposed (hfitting.1 c hkind) hserve

/-- After every run, a composite of a vector or a matrix is of the type that was asked for. -/
theorem serveAll_composite (hproper : ∀ request ∈ requests, request.Proper)
    (hfitting : AsksFitting requests {}) (hrun : serveAll requests {} = some (ids, b)) {op : Op}
    (hop : op ∈ [Op.typeVector, .typeMatrix]) {typeId : Id}
    (hclass : b.getTypeClass typeId = some op) {members : List Id} (hfits : b.Fits typeId members)
    (specConstant : Bool) :
    ∃ id b', b.makeCompositeConstant typeId members specConstant = some (id, b') ∧
      b'.DeclaresComposite typeId members id := by
  obtain ⟨hinv, -, -⟩ := serveAll_spec inv_empty hproper hrun
  have hcomposed := serveAll_composed inv_empty (fun c hc => nomatch hc) hproper hfitting hrun
  obtain ⟨⟨id, b'⟩, hmade⟩ :=
    makeCompositeConstant_declares hinv hcomposed hop hclass hfits specConstant
  exact ⟨id, b', hmade⟩

/-- A run that asks for a composite. -/
def sampleComposites : List Request :=
  [.makeFloatType 32 none, .makeVectorType 1 2, .makeFloatConstant 0x3f800000 false,
    .makeCompositeConstant 2 [3, 3] false, .makeVectorType 1 3,
      .makeCompositeConstant 5 [3, 3, 3] false]

theorem serveAll_composite_sample :
    ∃ b, serveAll sampleComposites {} = some ([1, 2, 3, 4, 5, 6], b) ∧
    ∃ id b', b.makeCompositeConstant 2 [3, 3] false = some (id, b') ∧
      b'.DeclaresComposite 2 [3, 3] id := by
  have hproper : ∀ request ∈ sampleComposites, request.Proper := by
    simp [sampleComposites, Request.Proper]
  obtain ⟨⟨ids, b⟩, hrun, hids⟩ := Option.map_eq_some_iff.mp
    (by decide : (serveAll sampleComposites {}).map
      (fun made => (made.1, made.2.getTypeClass 2, decide (made.2.Fits 2 [3, 3]))) =
        some ([1, 2, 3, 4, 5, 6], some .typeVector, true))
  obtain ⟨rfl, hrest⟩ := Prod.mk.inj hids
  obtain ⟨hclass, hfits⟩ := Prod.mk.inj hrest
  exact ⟨b, hrun,
    serveAll_composite hproper (by decide) hrun (by decide) hclass (of_decide_eq_true hfits) false⟩

end DxilSpirv.Spv
