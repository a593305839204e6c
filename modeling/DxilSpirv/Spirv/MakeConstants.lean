import DxilSpirv.Spirv.MakeTypes

/-!
# Making constants

A scalar constant is looked up by its operation, its type and its value, a composite one by its
members alone. The type of a scalar constant is looked up first.
-/

namespace DxilSpirv.Spv

variable {args : List Id} {composites : Bool} {b : Builder} {op typeClass : Op} {typeId : Id}
  {operands : List Nat}

/-- The id of the instruction that a lookup finds, or zero. -/
theorem find_id {l : List Instruction} {wanted : Instruction → Bool}
    (hpos : ∀ c ∈ l, 0 < c.resultId) :
    (∃ c ∈ l, wanted c = true ∧ ((l.find? wanted).map (·.resultId)).getD 0 = c.resultId ∧
      c.resultId ≠ 0) ∨
      ((l.find? wanted).map (·.resultId)).getD 0 = 0 ∧ ∀ c ∈ l, ¬ wanted c = true := by
  cases hfind : l.find? wanted with
  | none => exact .inr ⟨rfl, List.find?_eq_none.mp hfind⟩
  | some c =>
    have hc := List.mem_of_find?_eq_some hfind
    exact .inl ⟨c, hc, List.find?_some hfind, rfl, (hpos c hc).ne'⟩

/-- The class of a type is one. -/
theorem Builder.HasClass.unique (h : b.Inv) {typeClass' : Op} (hc : b.HasClass typeId typeClass)
    (hc' : b.HasClass typeId typeClass') : typeClass = typeClass' := by
  obtain ⟨t, ht, hid, rfl⟩ := hc
  obtain ⟨t', ht', hid', rfl⟩ := hc'
  exact congrArg _ (h.eq_of_resultId ht ht' (hid.trans hid'.symm))

/-- A type that is declared has its operation as its class. -/
theorem Builder.DeclaresType.hasClass (hd : b.DeclaresType op operands typeId) :
    b.HasClass typeId op := by
  obtain ⟨t, ht, hid, hop, -⟩ := hd
  exact ⟨t, ht, hid, hop⟩

/-- The ids of declarations are not zero. -/
theorem Builder.Inv.pos_constantsOf (h : b.Inv) : ∀ c ∈ b.constantsOf typeClass, 0 < c.resultId :=
  fun c hc =>
  (h.bounds c ((h.constants typeClass c).mp hc).1).1

/-- A constant that is added to the group of its class. -/
theorem mem_constantsOf_groupConstant {i j : Instruction} {typeClass' : Op} :
    j ∈ (b.groupConstant typeClass i).constantsOf typeClass' ↔
      j ∈ b.constantsOf typeClass' ∨ j = i ∧ typeClass' = typeClass := by
  have hnew {l : List Instruction} : j ∈ l ++ [i] ↔ j ∈ l ∨ j = i ∧ typeClass = typeClass := by
    rw [List.mem_append, List.mem_singleton, and_iff_left rfl]
  unfold Builder.constantsOf Builder.groupConstant
  by_cases hsame : typeClass' = typeClass
  · subst hsame
    split_ifs
    · exact hnew
    · change j ∈ Function.update b.groupedConstants typeClass' _ typeClass' ↔ _
      rw [Function.update_self]
      exact hnew
  · rw [or_iff_left fun hj : j = i ∧ typeClass' = typeClass => hsame hj.2]
    split_ifs with h h' h'
    · exact absurd (h.trans h'.symm) hsame
    · rfl
    · rfl
    · change j ∈ Function.update b.groupedConstants typeClass _ typeClass' ↔ _
      rw [Function.update_of_ne hsame]

/-- What else is known of a builder does not depend on the groups of its constants. -/
theorem groupConstant_cases (i : Instruction) : ∃ matrices groups,
    b.groupConstant typeClass i =
      { b with coopmatConstants := matrices, groupedConstants := groups } := by
  unfold Builder.groupConstant
  split
  · exact ⟨_, _, rfl⟩
  · exact ⟨_, _, rfl⟩

/-- A new constant of a group is one more declaration. -/
theorem grows_makeConstant (h : b.Inv) (hop : op ∈ Op.groupedConstants)
    (hclass : b.HasClass typeId typeClass) (harity : ∀ n, op.arity = some n → operands.length = n)
    (hwords : op = .constant ∨ op = .specConstant →
      ∀ t ∈ b.constantsTypesGlobals, t.resultId = typeId → operands.length = t.scalarWords)
    (hnew : op ∈ Op.interned →
      ∀ j ∈ b.constantsTypesGlobals, j.opCode = op → j.typeId = typeId → j.operands ≠ operands)
    (hnames : b.Names args op operands)
    (hcomposite : typeClass ∈ Builder.compositeClasses → op ∈ Op.composites)
    (hkind : composites = false → op ∉ Op.composites) :
    Grows args composites b (b.makeConstant typeClass op typeId operands).2 := by
  obtain ⟨hkept, htype, hkey⟩ := (by decide : ∀ op ∈ Op.groupedConstants,
    op ∉ Op.keptTypes ∧ op ∉ Op.types ∧ op ≠ .typeCooperativeMatrixKHR) op hop
  obtain ⟨t, ht, hid, htop⟩ := hclass
  refine (Grows.refl b).add (i := ⟨op, b.uniqueId + 1, typeId, operands⟩) ?_ (Nat.lt_succ_self _)
    (fun id hids => ?_) hkind
  · obtain ⟨matrices, groups, hgroup⟩ :=
      @groupConstant_cases b.drawId typeClass ⟨op, b.uniqueId + 1, typeId, operands⟩
    have hmade : (b.makeConstant typeClass op typeId operands).2 = Builder.declare
        { b.drawId with
          coopmatConstants := matrices
          groupedConstants := groups } ⟨op, b.uniqueId + 1, typeId, operands⟩ := by
            rw [← hgroup]; rfl
    have hconstants (typeClass' : Op) (j : Instruction) :
        j ∈ (b.makeConstant typeClass op typeId operands).2.constantsOf typeClass' ↔
          j ∈ b.constantsOf typeClass' ∨ j = ⟨op, b.uniqueId + 1, typeId, operands⟩ ∧
              typeClass' = typeClass :=
      @mem_constantsOf_groupConstant b.drawId typeClass _ j typeClass'
    rw [hmade] at hconstants ⊢
    constructor
    case declared => rfl
    case drawn => exact Nat.le_succ _
    case fresh => exact h.fresh
    case pos => exact Nat.succ_pos _
    case le => exact le_rfl
    case known => rfl
    case types => exact fun op' hop' j =>
      (or_iff_left fun hj : _ ∧ op = op' => hkept (hj.2 ▸ hop')).symm
    case constants =>
      intro typeClass' j
      rw [hconstants]
      refine or_congr_right (and_congr_right fun _ => ⟨fun hsame => ?_, fun hj => ?_⟩)
      · exact ⟨hop, t, ht, hid, htop.trans hsame.symm⟩
      · exact hj.2.unique h ⟨t, ht, hid, htop⟩
    case arity => exact harity
    case untyped => exact fun hin => absurd hin htype
    case typed => exact fun _ =>
      ⟨t, ht, hid, fun hscalar => hwords hscalar t ht hid, fun hclass => hcomposite (htop ▸ hclass)⟩
    case new =>
      intro hint j hj hsame
      have hjop : j.opCode = op := congrArg Prod.fst hsame
      refine hnew hint j hj hjop (congrArg (fun k => k.2.1) hsame) ?_
      have hoperands := congrArg (fun k => k.2.2) hsame
      simp only [Instruction.key] at hoperands
      rwa [hjop, if_neg hkey, if_neg hkey] at hoperands
  · rcases List.mem_append.mp hids with htypeId | hoperand
    · refine .inr ?_
      dsimp only at htypeId
      split_ifs at htypeId
      · exact absurd htypeId List.not_mem_nil
      · rw [List.mem_singleton.mp htypeId, ← hid]
        exact List.mem_map_of_mem ht
    · exact hnames id hoperand

variable {b' : Builder}

/-- A scalar constant of a type has this id. -/
def Builder.DeclaresScalar (b : Builder) (op typeOp : Op) (typeOperands values : List Nat)
    (id : Id) : Prop :=
  ∃ typeId, b.DeclaresType typeOp typeOperands typeId ∧
    ∃ i ∈ b.constantsTypesGlobals, i.resultId = id ∧ i.opCode = op ∧ i.typeId = typeId ∧
      i.operands = values

/-- What is declared stays so. -/
theorem Builder.DeclaresScalar.mono {op typeOp : Op} {typeOperands values : List Nat} {id : Id}
    (hd : b.DeclaresScalar op typeOp typeOperands values id)
    (hstays : b.constantsTypesGlobals <+: b'.constantsTypesGlobals) :
    b'.DeclaresScalar op typeOp typeOperands values id := by
  obtain ⟨typeId, htype, i, hi, rest⟩ := hd
  exact ⟨typeId, htype.mono hstays, i, hstays.subset hi, rest⟩

/-- A call that returns the id of a scalar constant, unless it is to be specialized. -/
def ServesScalar (args : List Id) (composites : Bool) (b : Builder) (made : Id × Builder)
    (specConstant : Bool) (op typeOp : Op) (typeOperands values : List Nat) : Prop :=
  Grows args composites b made.2 ∧
    (specConstant = false → made.2.DeclaresScalar op typeOp typeOperands values made.1)

/-- A new constant is declared. -/
theorem makeConstant_declares {op typeClass typeOp : Op} {typeOperands values : List Nat}
    {typeId : Id} (htype : b.DeclaresType typeOp typeOperands typeId)
    (hg : Grows args composites b (b.makeConstant typeClass op typeId values).2) :
    (b.makeConstant typeClass op typeId values).2.DeclaresScalar op typeOp typeOperands values
      (b.makeConstant typeClass op typeId values).1 :=
  by
  obtain ⟨matrices, groups, hgroup⟩ :=
    @groupConstant_cases b.drawId typeClass ⟨op, b.uniqueId + 1, typeId, values⟩
  refine ⟨typeId, htype.mono hg.stays, ⟨op, b.uniqueId + 1, typeId, values⟩, ?_, rfl, rfl, rfl, rfl⟩
  change _ ∈ ((b.drawId.groupConstant typeClass _).declare _).constantsTypesGlobals
  rw [hgroup]
  exact List.mem_append_right _ (List.mem_singleton_self _)

/-- A scalar constant of a type of integers or floats is found or made. -/
theorem findOrMakeScalar_serves (h : b.Inv) {typeClass : Op}
    (hclass : typeClass ∈ [.typeInt, .typeFloat]) {typeOperands values : List Nat} {typeId : Id}
    (htype : b.DeclaresType typeClass typeOperands typeId)
    (hwords : values.length = if typeOperands.getD 0 0 = 64 then 2 else 1) (specConstant : Bool) :
    ServesScalar args composites b
      (b.findOrMakeScalar typeClass typeId values specConstant) specConstant .constant typeClass
      typeOperands values := by
  obtain ⟨hmatrix, hscalar⟩ := (by decide : ∀ op ∈ [Op.typeInt, .typeFloat],
    op ≠ .typeCooperativeMatrixKHR ∧ op ∉ Builder.compositeClasses) typeClass hclass
  have hlength (t : Instruction) (ht : t ∈ b.constantsTypesGlobals) (hid : t.resultId = typeId) :
      values.length = t.scalarWords := by
    obtain ⟨t', ht', hid', -, hoperands⟩ := htype
    obtain rfl := h.eq_of_resultId ht ht' (hid.trans hid'.symm)
    rw [Instruction.scalarWords, Instruction.getIdOperand, hoperands]
    exact hwords
  have hmake {op : Op} (hop : op ∈ [Op.constant, .specConstant]) (hnew : op ∈ Op.interned →
      ∀ j ∈ b.constantsTypesGlobals, j.opCode = op → j.typeId = typeId → j.operands ≠ values) :
      Grows args composites b (b.makeConstant typeClass op typeId values).2 := by
    obtain ⟨hgrouped, harity, hkind, hids⟩ := (by decide : ∀ op ∈ [Op.constant, .specConstant],
      op ∈ Op.groupedConstants ∧ op.arity = none ∧ op ∉ Op.composites ∧
        (op = .constant ∨ op = .specConstant)) op hop
    refine grows_makeConstant h hgrouped htype.hasClass
      (fun n hn => absurd (harity.symm.trans hn).symm (Option.some_ne_none n))
      (fun _ => hlength) hnew (fun id hid => ?_) (fun hcomposite => absurd hcomposite hscalar)
        fun _ => hkind
    rcases hids with rfl | rfl <;> exact absurd hid List.not_mem_nil
  cases specConstant with
  | true =>
    have hmade : b.findOrMakeScalar typeClass typeId values true =
        b.makeConstant typeClass .specConstant typeId values :=
      rfl
    rw [hmade]
    exact ⟨hmake (by decide) fun hint => absurd hint (by decide),
      fun hspec => absurd hspec (by decide)⟩
  | false =>
    have hlist : b.constantsOf typeClass = b.groupedConstants typeClass := if_neg hmatrix
    rcases @find_id (b.groupedConstants typeClass) (fun constant => constant.opCode = .constant ∧
        constant.typeId = typeId ∧ constant.operands.take values.length = values)
      (hlist ▸ h.pos_constantsOf) with ⟨c, hc, hwanted, hfound, hne⟩ | ⟨hnone, hothers⟩
    · have hmade : b.findOrMakeScalar typeClass typeId values false = (c.resultId, b) := by
        change (if b.findScalarConstant typeClass .constant typeId values ≠ 0 then
          (b.findScalarConstant typeClass .constant typeId values, b) else _) = _
        have hexisting : b.findScalarConstant typeClass .constant typeId values =
          c.resultId := hfound
        rw [hexisting, if_pos hne]
      obtain ⟨hcop, hctype, htake⟩ := of_decide_eq_true hwanted
      obtain ⟨hcin, hcconst, -⟩ := (h.constants typeClass c).mp (hlist ▸ hc)
      obtain ⟨t, ht, htid, hcwords⟩ := h.typed c hcin hcconst
      have hcoperands : c.operands = values := by
        rw [← htake, eq_comm, List.take_eq_self_iff, hcwords.1 (.inl hcop),
          hlength t ht (htid.trans hctype)]
      rw [hmade]
      exact ⟨Grows.refl b, fun _ => ⟨typeId, htype, c, hcin, rfl, hcop, hctype, hcoperands⟩⟩
    · have hmade : b.findOrMakeScalar typeClass typeId values false =
          b.makeConstant typeClass .constant typeId values := by
        change (if b.findScalarConstant typeClass .constant typeId values ≠ 0 then _ else _) = _
        have hexisting : b.findScalarConstant typeClass .constant typeId values = 0 := hnone
        rw [hexisting, if_neg (not_not_intro rfl)]
        rfl
      have hgrows := @hmake .constant (by decide) fun _ j hj hjop hjtype hoperands => by
        refine hothers j ?_ (decide_eq_true ⟨hjop, hjtype, by rw [hoperands, List.take_length]⟩)
        rw [← hlist, h.constants]
        exact ⟨hj, hjop ▸ by decide, hjtype ▸ htype.hasClass⟩
      rw [hmade]
      exact ⟨hgrows, fun _ => makeConstant_declares htype hgrows⟩

/-- A constant of a type that is looked up first. -/
theorem ServesType.scalar (h : b.Inv) {type made : Id × Builder} {typeClass : Op}
    {typeOperands values : List Nat}
    (hserves : ServesType args composites b type typeClass typeOperands) {specConstant : Bool}
    (hscalar : type.2.Inv → type.2.DeclaresType typeClass typeOperands type.1 →
      ServesScalar args composites type.2 made specConstant .constant typeClass
        typeOperands values) :
    ServesScalar args composites b made specConstant .constant typeClass typeOperands values := by
  obtain ⟨hgrows, hdeclares⟩ := hscalar (hserves.1.inv h) hserves.2
  exact ⟨hserves.1.trans hgrows, hdeclares⟩

/-- `makeIntegerConstant` gives the constant of this integer type and word. -/
theorem makeIntegerConstant_serves (h : b.Inv) {width : Nat} (hwidth : width ≠ 64) (hasSign : Bool)
    (value : Nat) (specConstant : Bool) :
    ServesScalar args composites b
      (b.makeIntegerConstant width hasSign value specConstant) specConstant .constant .typeInt
      [width, hasSign.toNat] [value] :=
  (makeIntegerType_serves h width hasSign).scalar h fun hinv htype =>
    findOrMakeScalar_serves hinv (by decide) htype (if_neg hwidth).symm specConstant

/-- A wide integer constant has its low word and its high word. -/
theorem makeWideConstant_serves (h : b.Inv) (hasSign : Bool) (value : BitVec 64)
    (specConstant : Bool) :
    ServesScalar args composites b
      (b.makeWideConstant hasSign value specConstant) specConstant .constant .typeInt
      [64, hasSign.toNat] [value.toNat &&& 0xFFFFFFFF, value.toNat >>> 32] :=
  (makeIntegerType_serves h 64 hasSign).scalar h fun hinv htype =>
    findOrMakeScalar_serves hinv (by decide) htype rfl specConstant

/-- `makeFloatConstant` gives the constant of these 32 bits. -/
theorem makeFloatConstant_serves (h : b.Inv) (f : BitVec 32) (specConstant : Bool) :
    ServesScalar args composites b
      (b.makeFloatConstant f specConstant) specConstant .constant .typeFloat [32] [f.toNat] :=
  (makeFloatType_serves h 32 none).scalar h fun hinv htype =>
    findOrMakeScalar_serves hinv (by decide) htype rfl specConstant

/-- A double constant has its low word and its high word. -/
theorem makeDoubleConstant_serves (h : b.Inv) (d : BitVec 64) (specConstant : Bool) :
    ServesScalar args composites b
      (b.makeDoubleConstant d specConstant) specConstant .constant .typeFloat [64]
      [d.toNat &&& 0xFFFFFFFF, d.toNat >>> 32] :=
  (makeFloatType_serves h 64 none).scalar h fun hinv htype =>
    findOrMakeScalar_serves hinv (by decide) htype rfl specConstant

/-- `makeFloat16Constant` gives the constant of these 16 bits. -/
theorem makeFloat16Constant_serves (h : b.Inv) (f16 : BitVec 16) (specConstant : Bool) :
    ServesScalar args composites b
      (b.makeFloat16Constant f16 specConstant) specConstant .constant .typeFloat [16] [f16.toNat] :=
  (makeFloatType_serves h 16 none).scalar h fun hinv htype =>
    findOrMakeScalar_serves hinv (by decide) htype rfl specConstant

/-- `makeFloat8Constant` gives the constant of these 8 bits and this encoding. -/
theorem makeFloat8Constant_serves (h : b.Inv) (f8 : BitVec 8) (encoding : Option Nat)
    (specConstant : Bool) :
    ServesScalar args composites b
      (b.makeFloat8Constant f8 encoding specConstant) specConstant .constant .typeFloat
      (8 :: encoding.toList) [f8.toNat] :=
  (makeFloatType_serves h 8 encoding).scalar h fun hinv htype =>
    findOrMakeScalar_serves hinv (by decide) htype rfl specConstant

/-- The operation of a boolean constant. -/
def boolOp (value : Bool) : Op := if value then .constantTrue else .constantFalse

/-- `makeBoolConstant` gives the constant of this truth value. -/
theorem makeBoolConstant_serves (h : b.Inv) (value specConstant : Bool) :
    ServesScalar args composites b (b.makeBoolConstant value specConstant) specConstant
      (boolOp value) .typeBool [] [] := by
  obtain ⟨hgrows, htype⟩ : ServesType args composites b b.makeBoolType .typeBool [] :=
    grows_makeOnlyType h (by decide)
  have hinv := hgrows.inv h
  have hmake {op : Op}
    (hop : op ∈ [Op.constantTrue, .constantFalse, .specConstantTrue, .specConstantFalse])
      (hnew : op ∈ Op.interned → ∀ j ∈ b.makeBoolType.2.constantsTypesGlobals, j.opCode = op →
        j.typeId = b.makeBoolType.1 → j.operands ≠ []) :
      Grows args composites b.makeBoolType.2
          (b.makeBoolType.2.makeConstant .typeBool op b.makeBoolType.1 []).2 := by
    obtain ⟨hgrouped, harity, hkind, hscalar⟩ :=
      (by decide : ∀ op ∈ [Op.constantTrue, .constantFalse,
      .specConstantTrue, .specConstantFalse], op ∈ Op.groupedConstants ∧
        (op.arity = some 0 ∨ op.arity = none) ∧
        op ∉ Op.composites ∧ ¬ (op = .constant ∨ op = .specConstant)) op hop
    refine grows_makeConstant hinv hgrouped htype.hasClass (fun n hn => ?_)
      (fun heq => absurd heq hscalar) hnew (fun id hid => ?_)
        (fun hcomposite => absurd hcomposite (by decide))
      fun _ => hkind
    · rcases harity with harity | harity
      · exact Option.some.inj (harity.symm.trans hn)
      · exact nomatch harity.symm.trans hn
    · simp only [List.mem_cons, List.not_mem_nil, or_false] at hop
      rcases hop with rfl | rfl | rfl | rfl <;> exact nomatch hid
  cases specConstant with
  | true =>
    have hmade : b.makeBoolConstant value true = b.makeBoolType.2.makeConstant .typeBool
        (if value then .specConstantTrue else .specConstantFalse) b.makeBoolType.1 [] := rfl
    rw [hmade]
    refine ⟨hgrows.trans (hmake ?_ fun hint => ?_), nofun⟩ <;> cases value
    · decide
    · decide
    · exact absurd hint (by decide)
    · exact absurd hint (by decide)
  | false =>
    have hop : boolOp value ∈ [Op.constantTrue, .constantFalse] := by cases value <;> decide
    obtain ⟨hopfour, hopgrouped, hoparity⟩ := (by decide : ∀ op ∈ [Op.constantTrue, .constantFalse],
      op ∈ [Op.constantTrue, .constantFalse, .specConstantTrue, .specConstantFalse] ∧
        op ∈ Op.groupedConstants ∧ op.arity = some 0) _ hop
    have hlist : b.makeBoolType.2.constantsOf .typeBool =
      b.makeBoolType.2.groupedConstants .typeBool := rfl
    have hconstants (c : Instruction) := hlist ▸ hinv.constants .typeBool c
    cases hlast : ((b.makeBoolType.2.groupedConstants .typeBool).filter fun constant =>
        constant.typeId = b.makeBoolType.1 ∧ constant.opCode = boolOp value).getLast? with
    | some c =>
      obtain ⟨hc, hwanted⟩ := List.mem_filter.mp (List.mem_of_getLast? hlast)
      obtain ⟨hctype, hcop⟩ := of_decide_eq_true hwanted
      have hcin := ((hconstants c).mp hc).1
      have hmade : b.makeBoolConstant value false = (c.resultId, b.makeBoolType.2) := by
        change (if ((List.filter _ _).getLast?.map _).getD 0 ≠ 0 then
          (((List.filter _ _).getLast?.map _).getD 0, b.makeBoolType.2) else _) = _
        unfold boolOp at hlast
        simp only [Bool.false_eq_true, if_false, hlast, Option.map_some, Option.getD_some]
        rw [if_pos (hinv.bounds c hcin).1.ne']
      rw [hmade]
      exact ⟨hgrows, fun _ => ⟨b.makeBoolType.1, htype, c, hcin, rfl, hcop, hctype,
        List.length_eq_zero_iff.mp (hinv.arity c hcin 0 (hcop ▸ hoparity))⟩⟩
    | none =>
      have hmade : b.makeBoolConstant value false =
          b.makeBoolType.2.makeConstant .typeBool (boolOp value) b.makeBoolType.1 [] := by
        change (if ((List.filter _ _).getLast?.map _).getD 0 ≠ 0 then _ else _) = _
        unfold boolOp at hlast
        simp only [Bool.false_eq_true, if_false, hlast, Option.map_none, Option.getD_none, ne_eq,
          not_true_eq_false]
        rfl
      have hnone := List.getLast?_eq_none_iff.mp hlast
      have hmore := hmake hopfour fun _ j hj hjop hjtype _ => by
        have hmem := (hconstants j).mpr ⟨hj, hjop ▸ hopgrouped, hjtype ▸ htype.hasClass⟩
        have hin : j ∈ (b.makeBoolType.2.groupedConstants .typeBool).filter fun constant =>
            constant.typeId = b.makeBoolType.1 ∧ constant.opCode = boolOp value :=
          List.mem_filter.mpr ⟨hmem, decide_eq_true ⟨hjtype, hjop⟩⟩
        rw [hnone] at hin
        exact nomatch hin
      rw [hmade]
      exact ⟨hgrows.trans hmore, fun _ => makeConstant_declares htype hmore⟩

/-- A null constant is found or declared. -/
theorem makeNullConstant_grows (h : b.Inv) {typeId : Id} (hargs : typeId ∈ args) :
    Grows args composites b (b.makeNullConstant typeId).2 :=
  grows_declare h (by decide) typeId (fun hin => absurd hin (by decide)) [] fun id hid => by
    unfold Instruction.ids at hid
    split_ifs at hid
    · exact nomatch hid
    · exact .inl (List.mem_singleton.mp hid ▸ hargs)

/-- An undefined value is declared each time. -/
theorem createUndefinedConstant_grows (h : b.Inv) {type : Id} (hargs : type ∈ args) :
    Grows args composites b (b.createUndefinedConstant type).2 :=
  grows_declare h (by decide) type (fun hin => absurd hin (by decide)) [] fun id hid => by
    unfold Instruction.ids at hid
    split_ifs at hid
    · exact nomatch hid
    · exact .inl (List.mem_singleton.mp hid ▸ hargs)

/-- A variable of the module is declared, and one of a function is not. -/
theorem createVariable_grows (h : b.Inv) {storageClass : Nat} {type initializer : Id}
    (htype : type ∈ args) (hinit : initializer ≠ 0 → initializer ∈ args)
    {name : Option (List UInt8)} {made : Id × Builder}
    (hmade : b.createVariable storageClass type initializer name = some made) :
    Grows args composites b made.2 := by
  obtain ⟨hgrows, i, hi, hid, -⟩ := @makePointer_serves args composites b h storageClass type htype
  obtain ⟨b', hb', hmade⟩ := Option.bind_eq_some_iff.mp hmade
  obtain rfl := Option.some.inj hmade
  refine Grows.quiet ?_ (quiet_addNameOf _ name)
  unfold Builder.addVariable at hb'
  by_cases hclass : storageClass = StorageClassFunction
  · rw [if_pos hclass] at hb'
    exact hgrows.quiet (quiet_addLocalVariable rfl (by decide : Op.variable ∉ Op.types) hb')
  rw [if_neg hclass] at hb'
  obtain rfl := Option.some.inj hb'
  have hmore := @grows_declare args composites _ .variable (hgrows.inv h) (by decide)
    (b.makePointer storageClass type).1
    (fun hin => absurd hin (by decide))
        (storageClass :: if initializer = 0 then [] else [initializer]) fun id hid' => by
      rcases List.mem_append.mp hid' with hpointer | hoperand
      · dsimp only at hpointer
        split_ifs at hpointer
        · exact absurd hpointer List.not_mem_nil
        · rw [List.mem_singleton.mp hpointer, ← hid]
          exact .inr (List.mem_map_of_mem hi)
      · change id ∈ (if initializer = 0 then [] else [initializer]) at hoperand
        split_ifs at hoperand with hzero
        · exact absurd hoperand List.not_mem_nil
        · exact .inl (List.mem_singleton.mp hoperand ▸ hinit hzero)
  exact hgrows.trans hmore

/-- A matrix of these dimensions and this use has this id. -/
def Builder.DeclaresMatrix (b : Builder) (scalarType rows cols use id : Id) : Prop :=
  ∃ scope, b.DeclaresType .typeCooperativeMatrixKHR [scalarType, scope, rows, cols, use] id

/-- Making the scope of a matrix makes no matrix. -/
theorem makeUintConstant_coopmatTypes (u : BitVec 32) (specConstant : Bool) :
    (b.makeUintConstant u specConstant).2.coopmatTypes = b.coopmatTypes := by
  have hcapability (b : Builder) : (b.integerCapability 32).coopmatTypes = b.coopmatTypes := rfl
  have htype : (b.makeIntegerType 32 false).2.coopmatTypes = b.coopmatTypes := by
    unfold Builder.makeIntegerType Builder.findType
    split
    · rfl
    · exact hcapability _
  rw [← htype]
  unfold Builder.makeUintConstant Builder.makeIntegerConstant Builder.makeIntConstantOf
    Builder.findOrMakeScalar
  dsimp only
  split_ifs <;> rfl

/-- The five elements of a list. -/
theorem exists_of_length_five {l : List Nat} (hlen : l.length = 5) :
    ∃ a₀ a₁ a₂ a₃ a₄, l = [a₀, a₁, a₂, a₃, a₄] := by
  obtain ⟨a₀, l, rfl⟩ := List.exists_of_length_succ l hlen
  obtain ⟨a₁, l, rfl⟩ := List.exists_of_length_succ l (Nat.succ_inj.mp hlen)
  obtain ⟨a₂, a₃, a₄, rfl⟩ := List.length_eq_three.mp (Nat.succ_inj.mp (Nat.succ_inj.mp hlen))
  exact ⟨a₀, a₁, a₂, a₃, a₄, rfl⟩

/-- The operands of a matrix that are looked at. -/
theorem operands_five {i : Instruction} (hlen : i.operands.length = 5) (x₀ x₂ x₃ x₄ : Nat) :
    i.getIdOperand 0 = x₀ ∧ i.getIdOperand 2 = x₂ ∧ i.getIdOperand 3 = x₃ ∧ i.getIdOperand 4 = x₄ ↔
      i.operands = [x₀, i.getIdOperand 1, x₂, x₃, x₄] := by
  obtain ⟨a₀, a₁, a₂, a₃, a₄, heq⟩ := exists_of_length_five hlen
  simp [Instruction.getIdOperand, heq]

/-- A new matrix is one more declaration, of an id that was drawn for it before. -/
theorem adds_matrix (h : b.Inv) {id scalarType scope rows cols use : Id}
    (hfresh : id ∉ b.declaredIds) (hpos : 0 < id)
    (hle : id ≤ b.uniqueId)
    (hnone : ∀ j ∈ b.coopmatTypes, ¬ (j.getIdOperand 0 = scalarType ∧ j.getIdOperand 2 = rows ∧
      j.getIdOperand 3 = cols ∧ j.getIdOperand 4 = use)) {type : Instruction}
    (htype : type = ⟨.typeCooperativeMatrixKHR, id, 0, [scalarType, scope, rows, cols, use]⟩) :
    Adds b ({ b with coopmatTypes := b.coopmatTypes ++ [type] }.declare type) type := by
  have hop : type.opCode = .typeCooperativeMatrixKHR := by rw [htype]
  have hid : type.resultId = id := by rw [htype]
  have hlist (b : Builder) : b.typesOf .typeCooperativeMatrixKHR = b.coopmatTypes := rfl
  have hconstant : type.opCode ∉ Op.groupedConstants := hop ▸ (by decide)
  constructor
  case declared => rfl
  case drawn => exact le_rfl
  case fresh => exact hid ▸ hfresh
  case pos => exact hid ▸ hpos
  case le => exact hid ▸ hle
  case known => rfl
  case types =>
    intro op _ j
    by_cases hsame : op = .typeCooperativeMatrixKHR
    · rw [hsame, hlist, hlist, and_iff_left hop]
      exact List.mem_append.trans (or_congr_right List.mem_singleton)
    · refine Iff.trans (iff_of_eq (congrArg (j ∈ ·) ?_))
        (or_iff_left fun hj => hsame (hj.2.symm.trans hop)).symm
      unfold Builder.typesOf
      rw [if_neg hsame, if_neg hsame]
      rfl
  case constants => exact fun _ _ => (or_iff_left fun hj => hconstant hj.2.1).symm
  case arity => exact fun n hn => by rw [hop] at hn; rw [htype]; exact Option.some.inj hn
  case untyped => exact fun _ => by rw [htype]
  case typed => exact fun hconst => absurd hconst hconstant
  case new =>
    intro _ j hj hkey
    have hjop : j.opCode = .typeCooperativeMatrixKHR := (congrArg Prod.fst hkey).trans hop
    have hjmem := (h.types _ (by decide) j).mpr ⟨hj, hjop⟩
    refine hnone j (hlist b ▸ hjmem) ?_
    have hlen := h.arity j hj 5 (hjop ▸ rfl)
    have hoperands : j.operands.eraseIdx 1 = [scalarType, rows, cols, use] := by
      have hthird := congrArg (fun k => k.2.2) hkey
      simp only [Instruction.key, hjop, hop, if_true] at hthird
      rw [hthird, htype]
      rfl
    obtain ⟨a₀, a₁, a₂, a₃, a₄, heq⟩ := exists_of_length_five hlen
    rw [heq] at hoperands
    simp only [List.eraseIdx, List.cons.injEq, and_true] at hoperands
    obtain ⟨rfl, rfl, rfl, rfl⟩ := hoperands
    simp [Instruction.getIdOperand, heq]

/-- `makeCooperativeMatrixType` gives the matrix type of these four operands. -/
theorem makeCooperativeMatrixType_serves (h : b.Inv) {scalarType rows cols use : Id}
    (h0 : scalarType ∈ args) (h1 : rows ∈ args) (h2 : cols ∈ args) (h3 : use ∈ args) :
    Grows args composites b (b.makeCooperativeMatrixType scalarType rows cols use).2 ∧
      (b.makeCooperativeMatrixType scalarType rows cols use).2.DeclaresMatrix scalarType
        rows cols use (b.makeCooperativeMatrixType scalarType rows cols use).1 := by
  have hlist : b.typesOf .typeCooperativeMatrixKHR = b.coopmatTypes := rfl
  cases hfind : b.coopmatTypes.find? fun type => type.getIdOperand 0 = scalarType ∧
    type.getIdOperand 2 = rows ∧ type.getIdOperand 3 = cols ∧ type.getIdOperand 4 = use with
  | some i =>
    have hmade : b.makeCooperativeMatrixType scalarType rows cols use = (i.resultId, b) := by
      rw [Builder.makeCooperativeMatrixType, hfind]
    obtain ⟨hi, hiop⟩ := (h.types _ (by decide) i).mp (hlist ▸ List.mem_of_find?_eq_some hfind)
    have hwanted := List.find?_some hfind
    have hoperands := (operands_five (h.arity i hi 5 (hiop ▸ rfl)) _ _ _ _).mp
      (of_decide_eq_true hwanted)
    rw [hmade]
    exact ⟨Grows.refl b, _, i, hi, rfl, hiop, hoperands⟩
  | none =>
    -- The id of the type is drawn first, so that the scope gets a later one.
    obtain ⟨b₁, hb₁⟩ : ∃ b₁ : Builder, b₁ =
        ((b.addExtension "SPV_KHR_cooperative_matrix").addCapability
          .cooperativeMatrixKHR).drawId := ⟨_, rfl⟩
    have hquiet : Quiet b b₁ :=
      hb₁ ▸ ((quiet_addExtension _).trans (quiet_addCapability _)).trans quiet_drawId
    have hdrawn₁ : b₁.uniqueId = b.uniqueId + 1 := hb₁ ▸ rfl
    have hinv₁ := h.quiet hquiet
    obtain ⟨scope, hscope⟩ : ∃ scope,
      scope = b₁.makeUintConstant (BitVec.ofNat 32 ScopeSubgroup) false := ⟨_, rfl⟩
    have hserves : ServesScalar args composites b₁ scope false .constant .typeInt [32, 0] [3] :=
      hscope ▸ makeIntegerConstant_serves hinv₁ (by decide) false _ false
    obtain ⟨hgrows, hscalar⟩ := hserves
    obtain ⟨-, -, c, hc, hcid, -⟩ := hscalar rfl
    have hcoopmat : scope.2.coopmatTypes = b.coopmatTypes := by
      rw [hscope, makeUintConstant_coopmatTypes, hb₁]
      rfl
    obtain ⟨type, htype⟩ : ∃ type : Instruction,
      type = ⟨.typeCooperativeMatrixKHR, b.uniqueId + 1, 0,
        [scalarType, scope.1, rows, cols, use]⟩ := ⟨_, rfl⟩
    have hmade : b.makeCooperativeMatrixType scalarType rows cols use =
        (type.resultId,
            { scope.2 with coopmatTypes := scope.2.coopmatTypes ++ [type] }.declare type) := by
      rw [Builder.makeCooperativeMatrixType, hfind, htype, hscope, hb₁]
      rfl
    have hfresh : b.uniqueId + 1 ∉ scope.2.declaredIds := by
      intro hid
      obtain ⟨j, hj, hjid⟩ := List.mem_map.mp hid
      rcases hgrows.since hj with hj | hj
      · exact h.fresh (List.mem_map.mpr ⟨j, hquiet.declared ▸ hj, hjid⟩)
      · rw [hjid, hdrawn₁] at hj
        exact absurd hj (lt_irrefl _)
    have hadds := adds_matrix (hgrows.inv hinv₁) hfresh (Nat.succ_pos _) (hdrawn₁ ▸ hgrows.drawn)
      (fun j hj hwanted => List.find?_eq_none.mp hfind j (hcoopmat ▸ hj) (decide_eq_true hwanted))
        htype
    have hall : Grows args composites b scope.2 := hquiet.grows.trans hgrows
    rw [hmade]
    have hkind : type.opCode ∉ Op.composites :=
      htype ▸ types_not_composites .typeCooperativeMatrixKHR (by decide)
    refine ⟨hall.add hadds (htype ▸ Nat.lt_succ_self _) (fun id hid => ?_) fun _ => hkind,
      scope.1, type,
      List.mem_append_right _ (List.mem_singleton_self _), rfl, by rw [htype], by rw [htype]⟩
    rw [htype] at hid
    simp only [Instruction.ids, Instruction.idOperands, if_true, List.nil_append, List.mem_cons,
      List.not_mem_nil, or_false] at hid
    rcases hid with rfl | rfl | rfl | rfl | rfl
    · exact .inl h0
    · exact .inr (hcid ▸ List.mem_map_of_mem hc)
    · exact .inl h1
    · exact .inl h2
    · exact .inl h3

variable {members : List Id}

/-- The class of a type that is known by its id. -/
theorem Builder.Inv.hasClass (h : b.Inv) {typeClass : Op} (htype : typeClass ∈ Op.types)
    (hclass : b.getTypeClass typeId = some typeClass) : b.HasClass typeId typeClass := by
  obtain ⟨t, ht, rfl⟩ := Option.map_eq_some_iff.mp hclass
  obtain ⟨hin, hid⟩ := h.known_types typeId t ht htype
  exact ⟨t, hin, hid, rfl⟩

/-- The operation of a composite. -/
def compositeOp (specConstant : Bool) : Op :=
  if specConstant then .specConstantComposite else .constantComposite

/-- The composite of some members that is found, if one is to be found. -/
def existingComposite (b : Builder) (typeClass : Op) (members : List Id) (specConstant : Bool) :
    Id :=
  if specConstant then 0 else b.findCompositeConstant typeClass members

/-- A composite of a type is found or made. -/
theorem makeCompositeConstant_eq {typeClass : Op} (hclass : b.getTypeClass typeId = some typeClass)
    (hcomposite : typeClass ∈ Builder.compositeClasses) (specConstant : Bool) :
    b.makeCompositeConstant typeId members specConstant =
      some (if existingComposite b typeClass members specConstant ≠ 0 then
          (existingComposite b typeClass members specConstant, b)
        else b.makeConstant typeClass (compositeOp specConstant) typeId members) := by
  unfold Builder.makeCompositeConstant
  rw [hclass]
  change (if typeClass ∈ Builder.compositeClasses then _ else _) = _
  rw [if_pos hcomposite]
  exact (apply_ite some _ _ _).symm

/-- A composite of known members is found or declared. -/
theorem makeComposite_grows (h : b.Inv) {typeClass : Op} (hclass : b.HasClass typeId typeClass)
    (hargs : members ⊆ args) (specConstant : Bool) :
    Grows args true b (b.makeConstant typeClass (compositeOp specConstant) typeId members).2 := by
  cases specConstant
  all_goals
    exact grows_makeConstant h (by decide) hclass
      (fun n hn => absurd hn (by simp [compositeOp, Op.arity]))
      (fun hscalar => absurd hscalar (by decide)) (fun hint => absurd hint (by decide))
        (fun id hid => .inl (hargs hid))
      (fun _ => by decide) fun hcomposites => absurd hcomposites (by decide)

/-- What a call for a composite returns: a constant of another kind where the type has no
composites, a composite that is found, or a new one. -/
theorem makeCompositeConstant_cases {specConstant : Bool} {made : Id × Builder}
    (hmade : b.makeCompositeConstant typeId members specConstant = some made) :
    made = b.makeFloatConstant 0 false ∨
      ∃ typeClass, b.getTypeClass typeId = some typeClass ∧ typeClass ∈ Builder.compositeClasses ∧
        (made = (existingComposite b typeClass members specConstant, b) ∨
          made = b.makeConstant typeClass (compositeOp specConstant) typeId members) := by
  cases hclass : b.getTypeClass typeId with
  | none =>
    unfold Builder.makeCompositeConstant at hmade
    rw [hclass] at hmade
    exact nomatch hmade
  | some typeClass =>
    by_cases hcomposite : typeClass ∈ Builder.compositeClasses
    · rw [makeCompositeConstant_eq hclass hcomposite] at hmade
      refine .inr ⟨typeClass, rfl, hcomposite, ?_⟩
      rw [← Option.some.inj hmade]
      split_ifs
      · exact .inl rfl
      · exact .inr rfl
    · unfold Builder.makeCompositeConstant at hmade
      rw [hclass] at hmade
      change (if typeClass ∈ Builder.compositeClasses then _ else _) = _ at hmade
      rw [if_neg hcomposite] at hmade
      exact .inl (Option.some.inj hmade).symm

/-- The class of a type of composites is that of a declared type. -/
theorem Builder.Inv.hasClass_composite (h : b.Inv) {typeClass : Op}
    (hcomposite : typeClass ∈ Builder.compositeClasses)
    (hclass : b.getTypeClass typeId = some typeClass) : b.HasClass typeId typeClass :=
  h.hasClass ((by decide : ∀ op ∈ Builder.compositeClasses, op ∈ Op.types) _ hcomposite) hclass

/-- `makeCompositeConstant` finds or declares the composite for every class of type. -/
theorem makeCompositeConstant_grows (h : b.Inv) (hargs : members ⊆ args) {specConstant : Bool}
    {made : Id × Builder}
    (hmade : b.makeCompositeConstant typeId members specConstant = some made) :
    Grows args true b made.2 := by
  rcases makeCompositeConstant_cases hmade with rfl | ⟨typeClass, hclass, hcomposite, rfl | rfl⟩
  · exact (makeFloatConstant_serves h 0 false).1
  · exact Grows.refl b
  · exact makeComposite_grows h (h.hasClass_composite hcomposite hclass) hargs specConstant

end DxilSpirv.Spv
