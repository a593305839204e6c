import DxilSpirv.Spirv.Declarations

/-!
# Making types

Each function that makes a type is a run of changes of the declarations. What it returns is the id
of a declaration of the type that was asked for, found or new.
-/

namespace DxilSpirv.Spv

variable {args : List Id} {composites : Bool} {b b' b'' : Builder} {i : Instruction}

/-- What touches no declaration. -/
theorem quiet_of_eq (hdeclared : b'.constantsTypesGlobals = b.constantsTypesGlobals)
    (hdrawn : b.uniqueId ≤ b'.uniqueId) (htypes : b'.typesOf = b.typesOf)
    (hconstants : b'.constantsOf = b.constantsOf) (hmodule : b'.module = b.module) :
    Quiet b b' where
  declared := hdeclared
  drawn := hdrawn
  types op := congrFun htypes op
  constants op := congrFun hconstants op
  known id _ := by rw [hmodule]
  fresh id i h _ := by rwa [hmodule] at h

theorem Quiet.rfl : Quiet b b := quiet_of_eq (by rfl) le_rfl (by rfl) (by rfl) (by rfl)

/-- Two quiet steps make a quiet step. -/
theorem Quiet.trans (h : Quiet b b') (h' : Quiet b' b'') : Quiet b b'' where
  declared := h'.declared.trans h.declared
  drawn := h.drawn.trans h'.drawn
  types op := (h'.types op).trans (h.types op)
  constants op := (h'.constants op).trans (h.constants op)
  known id hid := (h'.known id (hid.trans h.drawn)).trans (h.known id hid)
  fresh id i hid hop := h.fresh id i (h'.fresh id i hid hop) hop

/-- A quiet step is a step of growth that declares nothing. -/
theorem Quiet.grows (h : Quiet b b') : Grows args composites b b' := (Grows.refl b).quiet h

/-- To draw an id declares nothing. -/
theorem quiet_drawId : Quiet b b.drawId := quiet_of_eq rfl (Nat.le_succ _) rfl rfl rfl

/-- A capability is no declaration of the section. -/
theorem quiet_addCapability (cap : Capability) : Quiet b (b.addCapability cap) :=
  quiet_of_eq rfl le_rfl rfl rfl rfl

/-- An extension is no declaration of the section. -/
theorem quiet_addExtension (ext : String) : Quiet b (b.addExtension ext) :=
  quiet_of_eq rfl le_rfl rfl rfl rfl

/-- A name is kept apart from the declarations. -/
theorem quiet_addName (id : Id) (string : List UInt8) : Quiet b (b.addName id string) :=
  quiet_of_eq rfl le_rfl rfl rfl rfl

/-- A decoration is kept apart from the declarations. -/
theorem quiet_addDecoration (id : Id) (decoration : Nat) (num : Int) :
    Quiet b (b.addDecoration id decoration num) := by
  unfold Builder.addDecoration
  split
  · exact Quiet.rfl
  · exact quiet_of_eq rfl le_rfl rfl rfl rfl

/-- Decorations are removed without a change of the declarations. -/
theorem quiet_removeDecorations (ids : List Id) : Quiet b (b.removeDecorations ids) :=
  quiet_of_eq rfl le_rfl rfl rfl rfl

/-- The capability of an integer width declares nothing. -/
theorem quiet_integerCapability (width : Nat) : Quiet b (b.integerCapability width) := by
  unfold Builder.integerCapability
  split
  · exact quiet_addCapability _
  · exact quiet_addCapability _
  · exact quiet_addCapability _
  · exact Quiet.rfl

/-- The capability of a float width declares nothing. -/
theorem quiet_floatCapability (encoding : Option Nat) (width : Nat) :
    Quiet b (b.floatCapability encoding width) := by
  unfold Builder.floatCapability
  split
  · split_ifs
    · exact ((quiet_addExtension _).trans (quiet_addCapability _)).trans (quiet_addCapability _)
    · exact Quiet.rfl
  · exact quiet_addCapability _
  · exact quiet_addCapability _
  · exact Quiet.rfl

/-- The capability of an image type declares nothing. -/
theorem quiet_imageCapability (dim : Dim) (arrayed ms : Bool) (sampled : Nat) :
    Quiet b (b.imageCapability dim arrayed ms sampled) := by
  have hms (b : Builder) : Quiet b (if ms ∧ sampled = 2 then
      (if arrayed then (if dim ≠ .subpassData then b.addCapability .storageImageMultisample
        else b).addCapability .imageMSArray
        else if dim ≠ .subpassData then b.addCapability .storageImageMultisample else b)
      else b) := by
    split_ifs
    · exact (quiet_addCapability _).trans (quiet_addCapability _)
    · exact quiet_addCapability _
    · exact quiet_addCapability _
    · exact Quiet.rfl
    · exact Quiet.rfl
  unfold Builder.imageCapability
  refine Quiet.trans ?_ (hms _)
  cases dim
  case cube =>
    cases arrayed
    · exact Quiet.rfl
    · exact quiet_addCapability _
  case dim2D => exact Quiet.rfl
  case dim3D => exact Quiet.rfl
  all_goals exact quiet_addCapability _

/-- An instruction that draws its id and is not declared in the module, unless it is a type. -/
theorem quiet_of_drawn (hdeclared : b'.constantsTypesGlobals = b.constantsTypesGlobals)
    (hdrawn : b'.uniqueId = b.uniqueId + 1) (htypes : b'.typesOf = b.typesOf)
    (hconstants : b'.constantsOf = b.constantsOf)
    (hmodule : b'.module.getInstruction =
      Function.update b.module.getInstruction (b.uniqueId + 1) (some i))
    (hop : i.opCode ∉ Op.types) : Quiet b b' where
  declared := hdeclared
  drawn := hdrawn ▸ Nat.le_succ _
  types op := congrFun htypes op
  constants op := congrFun hconstants op
  known id hid := by rw [hmodule, Function.update_of_ne (Nat.lt_succ_of_le hid).ne]
  fresh id j hid hj := by
    rw [hmodule] at hid
    by_cases hnew : id = b.uniqueId + 1
    · rw [hnew, Function.update_self] at hid
      obtain rfl := Option.some.inj hid
      exact absurd hj hop
    · rwa [Function.update_of_ne hnew] at hid

/-- An instruction of a block declares nothing, unless it declares a type. -/
theorem quiet_addInstruction {opCode : Op} (hop : opCode ∉ Op.types) (typeId : Id)
    (operands : List Nat) :
    Quiet b (b.addInstruction opCode typeId operands).2 :=
  quiet_of_drawn (i := ⟨opCode, b.uniqueId + 1, typeId, operands⟩) rfl rfl rfl rfl rfl hop

/-- An instruction of a fresh id that is no type declares nothing. -/
theorem quiet_drawInstruction (hid : i.resultId = b.uniqueId + 1) (hop : i.opCode ∉ Op.types) :
    Quiet b (b.drawInstruction i) :=
  quiet_of_drawn rfl rfl rfl rfl (by rw [← hid]; rfl) hop

/-- A name that may be missing declares nothing either. -/
theorem quiet_addNameOf (id : Id) (name : Option (List UInt8)) : Quiet b (b.addNameOf id name) := by
  cases name with
  | none => exact Quiet.rfl
  | some name => exact quiet_addName id name

/-- The parameters of a function declare nothing. -/
theorem quiet_addParameters (typeIds : List Id) : Quiet b (Builder.addParameters typeIds b).2 := by
  induction typeIds generalizing b with
  | nil => exact Quiet.rfl
  | cons typeId typeIds ih =>
    exact (quiet_drawInstruction rfl (by decide : Op.functionParameter ∉ Op.types)).trans ih

/-- The functions of a module declare nothing. -/
theorem quiet_of_functions (functions : List Function) :
    Quiet b { b with module := { b.module with functions := functions } } where
  declared := rfl
  drawn := le_rfl
  types _ := rfl
  constants _ := rfl
  known _ _ := rfl
  fresh _ _ hid _ := hid

/-- A loop whose steps declare nothing. -/
theorem quiet_foldl {α : Type} {f : Builder → α → Builder} (hf : ∀ b a, Quiet b (f b a))
    (l : List α) :
    Quiet b (l.foldl f b) := by
  induction l generalizing b with
  | nil => exact Quiet.rfl
  | cons a l ih => exact (hf b a).trans ih

/-- The parameters of a function are decorated without a declaration. -/
theorem quiet_decorateParameters (firstParamId : Id) (decorations : List (List Nat)) :
    Quiet b (b.decorateParameters firstParamId decorations) :=
  quiet_foldl (fun _ _ => quiet_foldl (fun _ _ => quiet_addDecoration _ _ _) _) _

/-- The entry block of a function is no declaration. -/
theorem quiet_addEntryBlock : Quiet b b.addEntryBlock :=
  quiet_of_drawn (i := ⟨.label, b.uniqueId + 1, 0, []⟩) rfl rfl rfl rfl rfl
    (by decide : Op.label ∉ Op.types)

/-- A variable of a function is not declared in the module. -/
theorem quiet_addLocalVariable (hid : i.resultId = b.uniqueId + 1) (hop : i.opCode ∉ Op.types)
    (hadd : b.drawId.addLocalVariable i = some b') : Quiet b b' := by
  obtain ⟨f, -, hadd⟩ := Option.bind_eq_some_iff.mp hadd
  obtain ⟨entry, -, hadd⟩ := Option.bind_eq_some_iff.mp hadd
  obtain rfl := Option.some.inj hadd
  exact quiet_of_drawn rfl rfl rfl rfl (by rw [← hid]; rfl) hop

/-- What an id that was drawn last is new for. -/
theorem Builder.Inv.fresh (h : b.Inv) : b.uniqueId + 1 ∉ b.declaredIds := by
  intro hid
  obtain ⟨i, hi, heq⟩ := List.mem_map.mp hid
  exact absurd (heq ▸ (h.bounds i hi).2) (Nat.not_succ_le_self _)

/-- The types of a group are types, are kept nowhere else, and are no constants. -/
theorem groupedTypes_kind : ∀ op ∈ Op.groupedTypes, op ∈ Op.types ∧ op ∈ Op.keptTypes ∧
    op ∉ Op.ownTypes ∧ op ≠ .typeCooperativeMatrixKHR ∧ op ∉ Op.groupedConstants := by
  decide

/-- Types are no composites. -/
theorem types_not_composites : ∀ op ∈ Op.types, op ∉ Op.composites := by
  decide

/-- Types of different operations have different groups. -/
theorem mapOpToGroupIndex_inj : ∀ op ∈ Op.groupedTypes, ∀ op' ∈ Op.groupedTypes,
    Builder.mapOpToGroupIndex op = Builder.mapOpToGroupIndex op' → op = op' := by
  decide

/-- Types of a group are looked up in that group. -/
theorem Builder.typesOf_grouped {op : Op} (hop : op ∈ Op.groupedTypes) :
    b.typesOf op = b.groupedTypes (mapOpToGroupIndex op) := by
  obtain ⟨-, -, hown, hmatrix, -⟩ := groupedTypes_kind op hop
  unfold Builder.typesOf
  rw [if_neg hown, if_neg hmatrix]

/-- A type that is added to its group. -/
theorem mem_typesOf_groupType (hop : i.opCode ∈ Op.groupedTypes) (op : Op)
    (hkept : op ∈ Op.keptTypes) (j : Instruction) :
    j ∈ (b.groupType i).typesOf op ↔ j ∈ b.typesOf op ∨ j = i ∧ i.opCode = op := by
  by_cases hgrouped : op ∈ Op.groupedTypes
  · rw [Builder.typesOf_grouped hgrouped, Builder.typesOf_grouped hgrouped]
    change j ∈ Function.update b.groupedTypes _ _ _ ↔ _
    by_cases heq : i.opCode = op
    · rw [← heq, Function.update_self, List.mem_append, List.mem_singleton, and_iff_left rfl]
    · rw [Function.update_of_ne fun hindex =>
        heq (mapOpToGroupIndex_inj _ hop _ hgrouped hindex.symm)]
      exact (or_iff_left fun hj => heq hj.2).symm
  · have hsame : (b.groupType i).typesOf op = b.typesOf op := by
      unfold Builder.typesOf
      split_ifs with hown hmatrix
      · rfl
      · rfl
      · simp only [Op.keptTypes, List.cons_append, List.mem_cons, List.mem_append] at hkept
        exact absurd hkept (by tauto)
    rw [hsame]
    exact (or_iff_left fun hj : j = i ∧ i.opCode = op => hgrouped (hj.2 ▸ hop)).symm

variable {op : Op} {operands : List Nat}

/-- A type with these operands has this id. -/
def Builder.DeclaresType (b : Builder) (op : Op) (operands : List Nat) (id : Id) : Prop :=
  ∃ i ∈ b.constantsTypesGlobals, i.resultId = id ∧ i.opCode = op ∧ i.operands = operands

/-- The operands of a type name ids that are given or declared. -/
def Builder.Names (b : Builder) (args : List Id) (op : Op) (operands : List Nat) : Prop :=
  ∀ id ∈ Instruction.idOperands { opCode := op, operands }, id ∈ args ∨ id ∈ b.declaredIds

/-- A new type of a group is one more declaration. -/
theorem adds_makeType (h : b.Inv) (hop : op ∈ Op.groupedTypes)
    (harity : ∀ n, op.arity = some n → operands.length = n)
    (hnew : op ∈ Op.interned → ∀ j ∈ b.constantsTypesGlobals,
      j.opCode = op → j.operands ≠ operands) :
    Adds b (b.makeType op operands).2 { opCode := op, resultId := b.uniqueId + 1, operands } where
  declared := rfl
  drawn := Nat.le_succ _
  fresh := h.fresh
  pos := Nat.succ_pos _
  le := le_rfl
  known := rfl
  types :=
    @mem_typesOf_groupType b.drawId { opCode := op, resultId := b.uniqueId + 1, operands } hop
  constants _ _ := (or_iff_left fun hj => (groupedTypes_kind op hop).2.2.2.2 hj.2.1).symm
  arity := harity
  untyped _ := rfl
  typed hc := absurd hc (groupedTypes_kind op hop).2.2.2.2
  new hint j hj hkey := by
    have hsame : j.opCode = op := congrArg Prod.fst hkey
    refine hnew hint j hj hsame ?_
    have hoperands := congrArg (fun k => k.2.2) hkey
    simp only [Instruction.key] at hoperands
    rwa [hsame, if_neg (groupedTypes_kind op hop).2.2.2.1,
      if_neg (groupedTypes_kind op hop).2.2.2.1] at hoperands

/-- A new type is declared. -/
theorem grows_makeType (h : b.Inv) (hop : op ∈ Op.groupedTypes)
    (harity : ∀ n, op.arity = some n → operands.length = n)
    (hnew : op ∈ Op.interned → ∀ j ∈ b.constantsTypesGlobals, j.opCode = op → j.operands ≠ operands)
    (hnames : b.Names args op operands) :
    Grows args composites b (b.makeType op operands).2 ∧
      (b.makeType op operands).2.DeclaresType op operands (b.makeType op operands).1 :=
  ⟨(Grows.refl b).add (adds_makeType h hop harity hnew) (Nat.lt_succ_self _) hnames
      fun _ => types_not_composites op (groupedTypes_kind op hop).1,
    _, List.mem_append_right _ (List.mem_singleton_self _), rfl, rfl, rfl⟩

/-- What is declared stays so. -/
theorem Builder.DeclaresType.mono {b' : Builder} {id : Id} (hd : b.DeclaresType op operands id)
    (hstays : b.constantsTypesGlobals <+: b'.constantsTypesGlobals) :
    b'.DeclaresType op operands id := by
  obtain ⟨i, hi, rest⟩ := hd
  exact ⟨i, hstays.subset hi, rest⟩

/-- A type that is looked up by its operands is found or made. -/
theorem grows_findType (h : b.Inv) (hop : op ∈ Op.groupedTypes) {wanted : Instruction → Bool}
    {ask : Builder → Builder}
    (hwanted : ∀ i ∈ b.constantsTypesGlobals,
      i.opCode = op → (wanted i = true ↔ i.operands = operands))
    (harity : ∀ n, op.arity = some n → operands.length = n) (hnames : b.Names args op operands)
    (hask : ∀ b, Quiet b (ask b)) :
    Grows args composites b (b.findType op wanted operands ask).2 ∧
      (b.findType op wanted operands ask).2.DeclaresType op operands
        (b.findType op wanted operands ask).1 := by
  have hgroup (i : Instruction) : i ∈ b.groupedTypes (Builder.mapOpToGroupIndex op) ↔
      i ∈ b.constantsTypesGlobals ∧ i.opCode = op := by
    rw [← Builder.typesOf_grouped hop, h.types op (groupedTypes_kind op hop).2.1]
  cases hfind : (b.groupedTypes (Builder.mapOpToGroupIndex op)).find? wanted with
  | some i =>
    have hmade : b.findType op wanted operands ask = (i.resultId, b) := by
      rw [Builder.findType, hfind]
    obtain ⟨hi, hiop⟩ := (hgroup i).mp (List.mem_of_find?_eq_some hfind)
    rw [hmade]
    exact ⟨Grows.refl b, i, hi, rfl, hiop, (hwanted i hi hiop).mp (List.find?_some hfind)⟩
  | none =>
    have hmade : b.findType op wanted operands ask =
        ((b.makeType op operands).1, ask (b.makeType op operands).2) := by
      rw [Builder.findType, hfind]
    obtain ⟨hgrows, hdeclares⟩ := grows_makeType h hop harity (fun _ j hj hjop heq =>
      List.find?_eq_none.mp hfind j ((hgroup j).mpr ⟨hj, hjop⟩) ((hwanted j hj hjop).mpr heq))
        hnames
    rw [hmade]
    have hquiet := hask (b.makeType op operands).2
    exact ⟨hgrows.quiet hquiet, hdeclares.mono (hquiet.declared ▸ List.prefix_rfl)⟩

/-- The operands of an instruction that has one. -/
theorem operands_one {i : Instruction} (hlen : i.operands.length = 1) (x : Nat) :
    i.getIdOperand 0 = x ↔ i.operands = [x] := by
  obtain ⟨a, ha⟩ := List.length_eq_one_iff.mp hlen
  simp [Instruction.getIdOperand, ha]

/-- The operands of an instruction that has two. -/
theorem operands_two {i : Instruction} (hlen : i.operands.length = 2) (x y : Nat) :
    i.getIdOperand 0 = x ∧ i.getIdOperand 1 = y ↔ i.operands = [x, y] := by
  obtain ⟨a, c, ha⟩ := List.length_eq_two.mp hlen
  simp [Instruction.getIdOperand, ha]

/-- A type without operands that has a group. -/
theorem grows_makeOnlyType (h : b.Inv) (hop : op ∈ [.typeVoid, .typeBool, .typeSampler]) :
    Grows args composites b (b.makeOnlyType op).2 ∧
      (b.makeOnlyType op).2.DeclaresType op [] (b.makeOnlyType op).1 := by
  obtain ⟨hgrouped, hindex, harity, hids⟩ :=
    (by decide : ∀ op ∈ [Op.typeVoid, .typeBool, .typeSampler],
    op ∈ Op.groupedTypes ∧ Builder.mapOpToGroupIndex op = op ∧ op.arity = some 0 ∧
      Instruction.idOperands { opCode := op, operands := [] } = []) op hop
  have hgroup (i : Instruction) : i ∈ b.groupedTypes op ↔
      i ∈ b.constantsTypesGlobals ∧ i.opCode = op := by
    have htypes := h.types op (groupedTypes_kind op hgrouped).2.1 i
    rwa [Builder.typesOf_grouped hgrouped, hindex] at htypes
  cases hlast : (b.groupedTypes op).getLast? with
  | some i =>
    have hmade : b.makeOnlyType op = (i.resultId, b) := by rw [Builder.makeOnlyType, hlast]
    obtain ⟨hi, hiop⟩ := (hgroup i).mp (List.mem_of_getLast? hlast)
    rw [hmade]
    exact ⟨Grows.refl b, i, hi, rfl, hiop,
      List.length_eq_zero_iff.mp (h.arity i hi 0 (hiop ▸ harity))⟩
  | none =>
    have hmade : b.makeOnlyType op = b.makeType op [] := by rw [Builder.makeOnlyType, hlast]
    rw [hmade]
    refine grows_makeType h hgrouped (fun n hn => Option.some.inj (harity.symm.trans hn))
      (fun _ j hj hjop _ => ?_) fun id hid => absurd (hids ▸ hid) List.not_mem_nil
    have hmem := (hgroup j).mpr ⟨hj, hjop⟩
    rw [List.getLast?_eq_none_iff.mp hlast] at hmem
    exact nomatch hmem

/-- A type without operands that has a field of its own. -/
theorem grows_makeOwnType (h : b.Inv) (hop : op ∈ Op.ownTypes) :
    Grows args composites b (b.makeOwnType op).2 ∧
      (b.makeOwnType op).2.DeclaresType op [] (b.makeOwnType op).1 := by
  obtain ⟨htype, hkept, hmatrix, hconstant, hgrouped, harity, hids⟩ :=
    (by decide : ∀ op ∈ Op.ownTypes,
    op ∈ Op.types ∧ op ∈ Op.keptTypes ∧ op ≠ .typeCooperativeMatrixKHR ∧ op ∉ Op.groupedConstants ∧
      op ∉ Op.groupedTypes ∧ op.arity = some 0 ∧
        Instruction.idOperands { opCode := op, operands := [] } = []) op hop
  have hown (b : Builder) : b.typesOf op = (b.ownType op).toList := by
    unfold Builder.typesOf
    rw [if_pos hop]
  have htypes (i : Instruction) : i ∈ (b.ownType op).toList ↔
      i ∈ b.constantsTypesGlobals ∧ i.opCode = op := by
    rw [← hown, h.types op hkept]
  cases hfield : b.ownType op with
  | some i =>
    have hmade : b.makeOwnType op = (i.resultId, b) := by rw [Builder.makeOwnType, hfield]
    obtain ⟨hi, hiop⟩ := (htypes i).mp (by rw [hfield]; exact List.mem_singleton_self _)
    rw [hmade]
    exact ⟨Grows.refl b, i, hi, rfl, hiop,
      List.length_eq_zero_iff.mp (h.arity i hi 0 (hiop ▸ harity))⟩
  | none =>
    have hnone (j : Instruction) (hj : j ∈ b.constantsTypesGlobals) :
        j.opCode ≠ op := fun hjop => by
      have hmem := (htypes j).mpr ⟨hj, hjop⟩
      rw [hfield] at hmem
      exact nomatch hmem
    have hmade : b.makeOwnType op = (b.uniqueId + 1,
        { b.drawId with ownType :=
          Function.update b.ownType op (some { opCode := op, resultId := b.uniqueId + 1 }) }.declare
          { opCode := op, resultId := b.uniqueId + 1 }) := by rw [Builder.makeOwnType, hfield]
    rw [hmade]
    have hempty (id : Id) : id ∉ Instruction.ids { opCode := op, resultId := b.uniqueId + 1 } := by
      change id ∉ Instruction.idOperands { opCode := op, operands := [] }
      rw [hids]
      exact List.not_mem_nil
    refine ⟨(Grows.refl b).add (i := { opCode := op, resultId := b.uniqueId + 1 }) ?_
      (Nat.lt_succ_self _)
        (fun id hid => absurd hid (hempty id)) fun _ => types_not_composites op htype, _,
          List.mem_append_right _ (List.mem_singleton_self _), rfl, rfl, rfl⟩
    constructor
    case declared => rfl
    case drawn => exact Nat.le_succ _
    case fresh => exact h.fresh
    case pos => exact Nat.succ_pos _
    case le => exact le_rfl
    case known => rfl
    case types =>
      intro op' _ j
      by_cases hsame : op = op'
      · subst hsame
        rw [hown, hown, hfield]
        change j ∈ (Function.update b.ownType op _ op).toList ↔ _
        rw [Function.update_self, and_iff_left rfl]
        exact List.mem_singleton.trans (or_iff_right List.not_mem_nil).symm
      · refine Iff.trans (iff_of_eq (congrArg (j ∈ ·) ?_))
          (or_iff_left fun hj : j = _ ∧ op = op' => hsame hj.2).symm
        change ite _ _ _ = ite _ _ _
        congr 2
        exact Function.update_of_ne (Ne.symm hsame) _ _
    case constants => exact fun _ _ => (or_iff_left fun hj => hconstant hj.2.1).symm
    case arity => exact fun n hn => Option.some.inj (harity.symm.trans hn)
    case untyped => exact fun _ => rfl
    case typed => exact fun hc => absurd hc hconstant
    case new => exact fun _ j hj hkey => hnone j hj (congrArg Prod.fst hkey)

/-- A declaration that is kept nowhere and never looked up. -/
theorem grows_declare (h : b.Inv) (hop : op ∈ [.typeRuntimeArray, .constantNull, .undef, .variable])
    (typeId : Id) (huntyped : op ∈ Op.types → typeId = 0) (operands : List Nat)
    (hids : ∀ id ∈ Instruction.ids ⟨op, b.uniqueId + 1, typeId, operands⟩,
      id ∈ args ∨ id ∈ b.declaredIds) :
    Grows args composites b (b.drawId.declare ⟨op, b.uniqueId + 1, typeId, operands⟩) := by
  obtain ⟨hkept, hconstant, hinterned, harity, hkind⟩ :=
    (by decide : ∀ op ∈ [Op.typeRuntimeArray, .constantNull,
    .undef, .variable], op ∉ Op.keptTypes ∧ op ∉ Op.groupedConstants ∧ op ∉ Op.interned ∧
      op.arity = none ∧ op ∉ Op.composites) op hop
  refine (Grows.refl b).add (i := ⟨op, b.uniqueId + 1, typeId, operands⟩) ?_
    (Nat.lt_succ_self _) hids fun _ => hkind
  constructor
  case declared => rfl
  case drawn => exact Nat.le_succ _
  case fresh => exact h.fresh
  case pos => exact Nat.succ_pos _
  case le => exact le_rfl
  case known => rfl
  case types => exact fun op' hop' j =>
    (or_iff_left fun hj : _ ∧ op = op' => hkept (hj.2 ▸ hop')).symm
  case constants => exact fun _ _ => (or_iff_left fun hj => hconstant hj.2.1).symm
  case arity => exact fun n hn => nomatch harity.symm.trans hn
  case untyped => exact huntyped
  case typed => exact fun hc => absurd hc hconstant
  case new => exact fun hi => absurd hi hinterned

/-- A call that returns the id of a type with these operands. -/
def ServesType (args : List Id) (composites : Bool) (b : Builder) (made : Id × Builder) (op : Op)
    (operands : List Nat) : Prop :=
  Grows args composites b made.2 ∧ made.2.DeclaresType op operands made.1

/-- `makePointer` gives the pointer type of this class and pointee. -/
theorem makePointer_serves (h : b.Inv) (storageClass : Nat) {pointee : Id}
    (hargs : pointee ∈ args) :
    ServesType args composites b (b.makePointer storageClass pointee) .typePointer
      [storageClass, pointee] :=
  grows_findType h (by decide)
    (fun i hi hop =>
      (decide_eq_true_iff).trans (operands_two (h.arity i hi 2 (hop ▸ rfl)) storageClass pointee))
    (fun n hn => Option.some.inj hn) (fun id hid => .inl (List.mem_singleton.mp hid ▸ hargs))
      fun _ => Quiet.rfl

/-- `makeUntypedPointer` gives the untyped pointer type of this class. -/
theorem makeUntypedPointer_serves (h : b.Inv) (storageClass : Nat) :
    ServesType args composites b (b.makeUntypedPointer storageClass) .typeUntypedPointerKHR
      [storageClass] :=
  grows_findType h (by decide)
    (fun i hi hop =>
      (decide_eq_true_iff).trans (operands_one (h.arity i hi 1 (hop ▸ rfl)) storageClass))
    (fun n hn => Option.some.inj hn) nofun fun _ => Quiet.rfl

/-- `makeIntegerType` gives the integer type of this width and sign. -/
theorem makeIntegerType_serves (h : b.Inv) (width : Nat) (hasSign : Bool) :
    ServesType args composites b (b.makeIntegerType width hasSign) .typeInt
      [width, hasSign.toNat] :=
  grows_findType h (by decide)
    (fun i hi hop =>
      (decide_eq_true_iff).trans (operands_two (h.arity i hi 2 (hop ▸ rfl)) width hasSign.toNat))
    (fun n hn => Option.some.inj hn) nofun fun _ => quiet_integerCapability _

/-- `makeFloatType` gives the float type of this width and encoding. -/
theorem makeFloatType_serves (h : b.Inv) (width : Nat) (encoding : Option Nat) :
    ServesType args composites b (b.makeFloatType width encoding) .typeFloat
      (width :: encoding.toList) := by
  refine grows_findType h (by decide) (fun i hi hop => ?_) (fun n hn => nomatch hn) nofun
    fun _ => quiet_floatCapability _ _
  cases encoding with
  | none =>
    refine decide_eq_true_iff.trans ⟨fun hw => (operands_one hw.1 width).mp hw.2, fun heq => ?_⟩
    have hlen : i.operands.length = 1 := by rw [heq]; rfl
    exact ⟨hlen, (operands_one hlen width).mpr heq⟩
  | some encoding =>
    refine decide_eq_true_iff.trans
      ⟨fun hw => (operands_two hw.1 width encoding).mp hw.2, fun heq => ?_⟩
    have hlen : i.operands.length = 2 := by rw [heq]; rfl
    exact ⟨hlen, (operands_two hlen width encoding).mpr heq⟩

/-- `makeVectorType` gives the vector type of this component and size. -/
theorem makeVectorType_serves (h : b.Inv) {component : Id} (hargs : component ∈ args) (size : Nat) :
    ServesType args composites b (b.makeVectorType component size) .typeVector
      [component, size] := by
  have hquiet : Quiet b (if size = 1 ∨ size > 4 then
      (b.addExtension "SPV_EXT_long_vector").addCapability .longVectorEXT else b) := by
    split
    · exact (quiet_addExtension _).trans (quiet_addCapability _)
    · exact Quiet.rfl
  have hinv := h.quiet hquiet
  obtain ⟨hgrows, hdeclares⟩ := @grows_findType args composites _ .typeVector
    [component, size] hinv (by decide)
    (fun type => type.getIdOperand 0 = component ∧ type.getIdOperand 1 = size) id
    (fun i hi hop =>
      (decide_eq_true_iff).trans (operands_two (hinv.arity i hi 2 (hop ▸ rfl)) component size))
    (fun n hn => Option.some.inj hn) (fun id hid => .inl (List.mem_singleton.mp hid ▸ hargs))
      fun _ => Quiet.rfl
  exact ⟨hquiet.grows.trans hgrows, hdeclares⟩

/-- `makeStructType` declares a structure of the members it is given. -/
theorem makeStructType_grows (h : b.Inv) {members : List Id} (hargs : members ⊆ args)
    (name : List UInt8) :
    Grows args composites b (b.makeStructType members name).2 :=
  (@grows_makeType args composites b .typeStruct members h (by decide) (fun _ hn =>
    absurd hn (by simp [Op.arity]))
    (fun hint => absurd hint (by decide)) fun _ hid => .inl (hargs hid)).1.quiet (quiet_addName _ _)

/-- `makeStructResultType` finds or declares a structure of two members. -/
theorem makeStructResultType_grows (h : b.Inv) {type0 type1 : Id} (h0 : type0 ∈ args)
    (h1 : type1 ∈ args) :
    Grows args composites b (b.makeStructResultType type0 type1).2 := by
  unfold Builder.makeStructResultType
  split
  · exact Grows.refl b
  · exact makeStructType_grows h
      (List.cons_subset.mpr ⟨h0, List.cons_subset.mpr ⟨h1, List.nil_subset _⟩⟩) _

/-- `makeArrayType` declares an array of the element and size it is given. -/
theorem makeArrayType_grows (h : b.Inv) {element sizeId : Id} (h0 : element ∈ args)
    (h1 : sizeId ∈ args) (stride : Nat) :
    Grows args composites b (b.makeArrayType element sizeId stride).2 := by
  have hmake : Grows args composites b (b.makeType .typeArray [element, sizeId]).2 :=
    (@grows_makeType args composites b .typeArray [element, sizeId] h (by decide)
      (fun _ hn => Option.some.inj hn) (fun hint => absurd hint (by decide))
      fun _ hid =>
        .inl ((List.cons_subset.mpr ⟨h0, List.cons_subset.mpr ⟨h1, List.nil_subset _⟩⟩) hid)).1
  unfold Builder.makeArrayType Builder.findType
  split
  · split
    · exact Grows.refl b
    · exact hmake
  · exact hmake

/-- `makeRuntimeArray` declares an array of the element it is given. -/
theorem makeRuntimeArray_grows (h : b.Inv) {element : Id} (hargs : element ∈ args) :
    Grows args composites b (b.makeRuntimeArray element).2 :=
  grows_declare h (by decide) 0 (fun _ => rfl) [element] fun _ hid =>
    .inl (List.mem_singleton.mp hid ▸ hargs)

/-- `makeFunctionType` gives the function type of these parameters. -/
theorem makeFunctionType_serves (h : b.Inv) {returnType : Id} {paramTypes : List Id}
    (h0 : returnType ∈ args) (h1 : paramTypes ⊆ args) :
    ServesType args composites b (b.makeFunctionType returnType paramTypes) .typeFunction
      (returnType :: paramTypes) :=
  grows_findType h (by decide) (fun i hi hop => decide_eq_true_iff) (fun n hn => nomatch hn)
    (fun id hid => .inl (List.cons_subset.mpr ⟨h0, h1⟩ hid)) fun _ => Quiet.rfl

/-- A function declares its type at most. -/
theorem makeFunctionEntry_grows (h : b.Inv) (precision : Nat) {returnType : Id}
    (h0 : returnType ∈ args) (name : Option (List UInt8)) {paramTypes : List Id}
    (h1 : paramTypes ⊆ args) (decorations : List (List Nat)) (entry : Bool) :
    Grows args composites b
      (b.makeFunctionEntry precision returnType name paramTypes decorations entry).2 := by
  have htype := (@makeFunctionType_serves args composites b h returnType paramTypes h0 h1).1
  have hparams := htype.quiet (quiet_addParameters paramTypes)
  unfold Builder.makeFunctionEntry
  refine Grows.quiet (Grows.quiet ?_ (quiet_addNameOf _ name)) (quiet_of_functions _)
  have hdecorated (operands : List Nat) (id firstParamId : Id) :=
    ((hparams.quiet (quiet_drawInstruction (i := ⟨.function, _, returnType, operands⟩) rfl
    (by decide : Op.function ∉ Op.types))).quiet (quiet_addDecoration id precision (-1))).quiet
      (quiet_decorateParameters firstParamId decorations)
  cases entry with
  | true => exact (hdecorated _ _ _).quiet quiet_addEntryBlock
  | false => exact hdecorated _ _ _

/-- `makeImageType` gives the image type of all seven operands. -/
theorem makeImageType_serves (h : b.Inv) {sampledType : Id} (hargs : sampledType ∈ args) (dim : Dim)
    (depth arrayed ms : Bool) (sampled format : Nat) :
    ServesType args composites b
      (b.makeImageType sampledType dim depth arrayed ms sampled format) .typeImage
      [sampledType, dim.toNat, depth.toNat, arrayed.toNat, ms.toNat, sampled, format] := by
  refine grows_findType h (by decide) (fun i hi hop => decide_eq_true_iff.trans ?_)
    (fun n hn => Option.some.inj hn) (fun id hid => .inl (List.mem_singleton.mp hid ▸ hargs))
    fun _ => quiet_imageCapability _ _ _ _
  have hlen := h.arity i hi 7 (hop ▸ rfl)
  obtain ⟨a₀, a₁, a₂, a₃, a₄, a₅, a₆, heq⟩ : ∃ a₀ a₁ a₂ a₃ a₄ a₅ a₆,
      i.operands = [a₀, a₁, a₂, a₃, a₄, a₅, a₆] := by
    match hi : i.operands, hlen with
    | [a₀, a₁, a₂, a₃, a₄, a₅, a₆], _ => exact ⟨a₀, a₁, a₂, a₃, a₄, a₅, a₆, rfl⟩
  simp [Instruction.getIdOperand, heq]

/-- `makeSampledImageType` gives the sampled image type of this image. -/
theorem makeSampledImageType_serves (h : b.Inv) {imageType : Id} (hargs : imageType ∈ args) :
    ServesType args composites b (b.makeSampledImageType imageType) .typeSampledImage [imageType] :=
  grows_findType h (by decide)
    (fun i hi hop =>
      (decide_eq_true_iff).trans (operands_one (h.arity i hi 1 (hop ▸ rfl)) imageType))
    (fun n hn => Option.some.inj hn) (fun id hid => .inl (List.mem_singleton.mp hid ▸ hargs))
      fun _ => Quiet.rfl

end DxilSpirv.Spv
