import DxilSpirv.Spirv.MakeConstants

/-!
# What is looked up is declared once

Runs of a builder, by calls in any order. Their declarations have distinct ids below the bound of
the module and name what is declared before them, and two calls for types or scalar constants get
one id exactly when they ask for the same.
-/

namespace DxilSpirv.Spv

/-- A call of the builder. -/
inductive Request where
  | makeVoidType
  | makeBoolType
  | makeSamplerType
  | makeAccelerationStructureType
  | makeRayQueryType
  | makeHitObjectNVType
  | makeHitObjectType
  | makePointer (storageClass : Nat) (pointee : Id)
  | makeUntypedPointer (storageClass : Nat)
  | makeIntegerType (width : Nat) (hasSign : Bool)
  | makeFloatType (width : Nat) (encoding : Option Nat)
  | makeCooperativeMatrixType (scalarType rows cols use : Id)
  | makeStructType (members : List Id) (name : List UInt8)
  | makeStructResultType (type0 type1 : Id)
  | makeVectorType (component : Id) (size : Nat)
  | makeMatrixType (component : Id) (cols rows : Nat)
  | makeArrayType (element sizeId : Id) (stride : Nat)
  | makeRuntimeArray (element : Id)
  | makeFunctionType (returnType : Id) (paramTypes : List Id)
  | makeImageType (sampledType : Id) (dim : Dim) (depth arrayed ms : Bool) (sampled format : Nat)
  | makeSampledImageType (imageType : Id)
  | makeNullConstant (typeId : Id)
  | makeBoolConstant (value specConstant : Bool)
  | makeIntConstant (i : BitVec 32) (specConstant : Bool)
  | makeUintConstant (u : BitVec 32) (specConstant : Bool)
  | makeInt16Constant (i : BitVec 16) (specConstant : Bool)
  | makeUint16Constant (u : BitVec 16) (specConstant : Bool)
  | makeInt8Constant (i : BitVec 8) (specConstant : Bool)
  | makeUint8Constant (u : BitVec 8) (specConstant : Bool)
  | makeWideConstant (hasSign : Bool) (value : BitVec 64) (specConstant : Bool)
  | makeFloatConstant (f : BitVec 32) (specConstant : Bool)
  | makeDoubleConstant (d : BitVec 64) (specConstant : Bool)
  | makeFloat16Constant (f16 : BitVec 16) (specConstant : Bool)
  | makeFloat8Constant (f8 : BitVec 8) (encoding : Option Nat) (specConstant : Bool)
  | makeCompositeConstant (typeId : Id) (members : List Id) (specConstant : Bool)
  | createUndefinedConstant (type : Id)
  | createVariable (storageClass : Nat) (type initializer : Id) (name : Option (List UInt8))
  | makeFunctionEntry (precision : Nat) (returnType : Id) (name : Option (List UInt8))
      (paramTypes : List Id) (decorations : List (List Nat)) (entry : Bool)
  | addInstruction (opCode : Op) (typeId : Id) (operands : List Nat)
  | addName (id : Id) (string : List UInt8)
  | addDecoration (id : Id) (decoration : Nat) (num : Int)
  | removeDecorations (ids : List Id)
  deriving DecidableEq, Repr

/-- The id that a call returns, zero if it returns none, and the builder after it. -/
def serve (b : Builder) : Request → Option (Id × Builder)
  | .makeVoidType => some b.makeVoidType
  | .makeBoolType => some b.makeBoolType
  | .makeSamplerType => some b.makeSamplerType
  | .makeAccelerationStructureType => some b.makeAccelerationStructureType
  | .makeRayQueryType => some b.makeRayQueryType
  | .makeHitObjectNVType => some b.makeHitObjectNVType
  | .makeHitObjectType => some b.makeHitObjectType
  | .makePointer storageClass pointee => some (b.makePointer storageClass pointee)
  | .makeUntypedPointer storageClass => some (b.makeUntypedPointer storageClass)
  | .makeIntegerType width hasSign => some (b.makeIntegerType width hasSign)
  | .makeFloatType width encoding => some (b.makeFloatType width encoding)
  | .makeCooperativeMatrixType scalarType rows cols use =>
    some (b.makeCooperativeMatrixType scalarType rows cols use)
  | .makeStructType members name => some (b.makeStructType members name)
  | .makeStructResultType type0 type1 => some (b.makeStructResultType type0 type1)
  | .makeVectorType component size => some (b.makeVectorType component size)
  | .makeMatrixType component cols rows => some (b.makeMatrixType component cols rows)
  | .makeArrayType element sizeId stride => some (b.makeArrayType element sizeId stride)
  | .makeRuntimeArray element => some (b.makeRuntimeArray element)
  | .makeFunctionType returnType paramTypes => some (b.makeFunctionType returnType paramTypes)
  | .makeImageType sampledType dim depth arrayed ms sampled format =>
    some (b.makeImageType sampledType dim depth arrayed ms sampled format)
  | .makeSampledImageType imageType => some (b.makeSampledImageType imageType)
  | .makeNullConstant typeId => some (b.makeNullConstant typeId)
  | .makeBoolConstant value specConstant => some (b.makeBoolConstant value specConstant)
  | .makeIntConstant i specConstant => some (b.makeIntConstant i specConstant)
  | .makeUintConstant u specConstant => some (b.makeUintConstant u specConstant)
  | .makeInt16Constant i specConstant => some (b.makeInt16Constant i specConstant)
  | .makeUint16Constant u specConstant => some (b.makeUint16Constant u specConstant)
  | .makeInt8Constant i specConstant => some (b.makeInt8Constant i specConstant)
  | .makeUint8Constant u specConstant => some (b.makeUint8Constant u specConstant)
  | .makeWideConstant hasSign value specConstant =>
    some (b.makeWideConstant hasSign value specConstant)
  | .makeFloatConstant f specConstant => some (b.makeFloatConstant f specConstant)
  | .makeDoubleConstant d specConstant => some (b.makeDoubleConstant d specConstant)
  | .makeFloat16Constant f16 specConstant => some (b.makeFloat16Constant f16 specConstant)
  | .makeFloat8Constant f8 encoding specConstant =>
    some (b.makeFloat8Constant f8 encoding specConstant)
  | .makeCompositeConstant typeId members specConstant =>
    b.makeCompositeConstant typeId members specConstant
  | .createUndefinedConstant type => some (b.createUndefinedConstant type)
  | .createVariable storageClass type initializer name =>
    b.createVariable storageClass type initializer name
  | .makeFunctionEntry precision returnType name paramTypes decorations entry =>
    some (b.makeFunctionEntry precision returnType name paramTypes decorations entry)
  | .addInstruction opCode typeId operands => some (b.addInstruction opCode typeId operands)
  | .addName id string => some (0, b.addName id string)
  | .addDecoration id decoration num => some (0, b.addDecoration id decoration num)
  | .removeDecorations ids => some (0, b.removeDecorations ids)

/-- The ids that a run of calls returns, and the builder after it. -/
def serveAll : List Request → Builder → Option (List Id × Builder)
  | [], b => some ([], b)
  | request :: requests, b => do
    let (id, b) ← serve b request
    let (ids, b) ← serveAll requests b
    some (id :: ids, b)

/-- The declared ids that a call names, besides zero for no initializer. -/
def Request.args : Request → List Id
  | .makePointer _ pointee => [pointee]
  | .makeCooperativeMatrixType scalarType rows cols use => [scalarType, rows, cols, use]
  | .makeStructType members _ => members
  | .makeStructResultType type0 type1 => [type0, type1]
  | .makeVectorType component _ => [component]
  | .makeMatrixType component _ _ => [component]
  | .makeArrayType element sizeId _ => [element, sizeId]
  | .makeRuntimeArray element => [element]
  | .makeFunctionType returnType paramTypes => returnType :: paramTypes
  | .makeImageType sampledType _ _ _ _ _ _ => [sampledType]
  | .makeSampledImageType imageType => [imageType]
  | .makeNullConstant typeId => [typeId]
  | .makeCompositeConstant typeId members _ => typeId :: members
  | .createUndefinedConstant type => [type]
  | .createVariable _ type initializer _ => type :: if initializer = 0 then [] else [initializer]
  | .makeFunctionEntry _ returnType _ paramTypes _ _ => returnType :: paramTypes
  | _ => []

/-- The type and the members of a composite that a call asks for. -/
def Request.composite : Request → Option (Id × List Id)
  | .makeCompositeConstant typeId members _ => some (typeId, members)
  | _ => none

/-- A call that asks for a composite. -/
theorem Request.eq_of_composite {request : Request} {c : Id × List Id}
    (h : request.composite = some c) :
    ∃ specConstant, request = .makeCompositeConstant c.1 c.2 specConstant := by
  cases request with
  | makeCompositeConstant typeId members specConstant =>
    exact ⟨specConstant, Option.some.inj h ▸ rfl⟩
  | _ => exact nomatch h

/-- Instructions of blocks declare no types. -/
def Request.Proper : Request → Prop
  | .addInstruction opCode _ _ => opCode ∉ Op.types
  | _ => True

/-- What a call asks for, if it is looked up. -/
inductive Key where
  | type (op : Op) (operands : List Nat)
  | matrix (component rows cols : Nat)
  | cooperativeMatrix (scalarType rows cols use : Id)
  | scalar (op typeOp : Op) (typeOperands values : List Nat)
  deriving DecidableEq, Repr

/-- The key of a scalar constant, unless it is to be specialized. -/
def scalarKey (specConstant : Bool) (op typeOp : Op) (typeOperands values : List Nat) :
    Option Key :=
  if specConstant then none else some (.scalar op typeOp typeOperands values)

/-- The key of a call. -/
def Request.key : Request → Option Key
  | .makeVoidType => some (.type .typeVoid [])
  | .makeBoolType => some (.type .typeBool [])
  | .makeSamplerType => some (.type .typeSampler [])
  | .makeAccelerationStructureType => some (.type .typeAccelerationStructureKHR [])
  | .makeRayQueryType => some (.type .typeRayQueryKHR [])
  | .makeHitObjectNVType => some (.type .typeHitObjectNV [])
  | .makeHitObjectType => some (.type .typeHitObjectEXT [])
  | .makePointer storageClass pointee => some (.type .typePointer [storageClass, pointee])
  | .makeUntypedPointer storageClass => some (.type .typeUntypedPointerKHR [storageClass])
  | .makeIntegerType width hasSign => some (.type .typeInt [width, hasSign.toNat])
  | .makeFloatType width encoding => some (.type .typeFloat (width :: encoding.toList))
  | .makeCooperativeMatrixType scalarType rows cols use =>
    some (.cooperativeMatrix scalarType rows cols use)
  | .makeVectorType component size => some (.type .typeVector [component, size])
  | .makeMatrixType component cols rows => some (.matrix component rows cols)
  | .makeFunctionType returnType paramTypes => some (.type .typeFunction (returnType :: paramTypes))
  | .makeImageType sampledType dim depth arrayed ms sampled format =>
    some (.type .typeImage [sampledType, dim.toNat, depth.toNat, arrayed.toNat, ms.toNat,
      sampled, format])
  | .makeSampledImageType imageType => some (.type .typeSampledImage [imageType])
  | .makeBoolConstant value specConstant => scalarKey specConstant (boolOp value) .typeBool [] []
  | .makeIntConstant i specConstant =>
    scalarKey specConstant .constant .typeInt [32, 1] [Builder.toUnsigned i.toInt]
  | .makeUintConstant u specConstant => scalarKey specConstant .constant .typeInt [32, 0] [u.toNat]
  | .makeInt16Constant i specConstant =>
    scalarKey specConstant .constant .typeInt [16, 1] [Builder.toUnsigned i.toInt]
  | .makeUint16Constant u specConstant =>
    scalarKey specConstant .constant .typeInt [16, 0] [u.toNat]
  | .makeInt8Constant i specConstant =>
    scalarKey specConstant .constant .typeInt [8, 1] [Builder.toUnsigned i.toInt]
  | .makeUint8Constant u specConstant => scalarKey specConstant .constant .typeInt [8, 0] [u.toNat]
  | .makeWideConstant hasSign value specConstant =>
    scalarKey specConstant .constant .typeInt [64, hasSign.toNat]
    [value.toNat &&& 0xFFFFFFFF, value.toNat >>> 32]
  | .makeFloatConstant f specConstant => scalarKey specConstant .constant .typeFloat [32] [f.toNat]
  | .makeDoubleConstant d specConstant => scalarKey specConstant .constant .typeFloat [64]
    [d.toNat &&& 0xFFFFFFFF, d.toNat >>> 32]
  | .makeFloat16Constant f16 specConstant =>
    scalarKey specConstant .constant .typeFloat [16] [f16.toNat]
  | .makeFloat8Constant f8 encoding specConstant =>
    scalarKey specConstant .constant .typeFloat (8 :: encoding.toList) [f8.toNat]
  | _ => none

variable {args : List Id} {composites : Bool} {b b' : Builder} {key key' : Key} {id id' : Id}

/-- The types that are looked up by all their operands. -/
def Op.plainTypes : List Op :=
  [.typeVoid, .typeBool, .typeInt, .typeFloat, .typeVector, .typeImage, .typeSampler,
    .typeSampledImage, .typePointer,
    .typeFunction, .typeUntypedPointerKHR, .typeAccelerationStructureKHR, .typeRayQueryKHR,
      .typeHitObjectNV,
    .typeHitObjectEXT]

/-- The operations of scalar constants. -/
def Op.scalars : List Op := [.constant, .constantTrue, .constantFalse]

/-- What a key asks for has this id. -/
def Builder.Declares (b : Builder) : Key → Id → Prop
  | .type op operands, id => op ∈ Op.plainTypes ∧ b.DeclaresType op operands id
  | .matrix component rows cols, id => ∃ column,
      b.DeclaresType .typeVector [component, rows] column ∧
    b.DeclaresType .typeMatrix [column, cols] id
  | .cooperativeMatrix scalarType rows cols use, id => b.DeclaresMatrix scalarType rows cols use id
  | .scalar op typeOp typeOperands values, id => op ∈ Op.scalars ∧ typeOp ∈ Op.plainTypes ∧
    b.DeclaresScalar op typeOp typeOperands values id

/-- The operation of what a key asks for. -/
def Key.op : Key → Op
  | .type op _ => op
  | .matrix .. => .typeMatrix
  | .cooperativeMatrix .. => .typeCooperativeMatrixKHR
  | .scalar op .. => op

/-- What is declared stays so. -/
theorem Builder.Declares.mono (hd : b.Declares key id)
    (hstays : b.constantsTypesGlobals <+: b'.constantsTypesGlobals) : b'.Declares key id := by
  cases key with
  | type op operands => exact ⟨hd.1, hd.2.mono hstays⟩
  | matrix component rows cols =>
    obtain ⟨column, hcolumn, hmatrix⟩ := hd
    exact ⟨column, hcolumn.mono hstays, hmatrix.mono hstays⟩
  | cooperativeMatrix scalarType rows cols use =>
    obtain ⟨scope, hmatrix⟩ := hd
    exact ⟨scope, hmatrix.mono hstays⟩
  | scalar op typeOp typeOperands values => exact ⟨hd.1, hd.2.1, hd.2.2.mono hstays⟩

/-- Types with the same operands are the same, but for the scope of a matrix. -/
theorem Builder.DeclaresType.unique (h : b.Inv) {op : Op} (hop : op ∈ Op.types)
    (hint : op ∈ Op.interned)
    {operands operands' : List Nat} (hd : b.DeclaresType op operands id)
    (hd' : b.DeclaresType op operands' id')
    (hsame : operands = operands' ∨ op = .typeCooperativeMatrixKHR ∧
      operands.eraseIdx 1 = operands'.eraseIdx 1) :
    id = id' := by
  obtain ⟨i, hi, rfl, hiop, hioperands⟩ := hd
  obtain ⟨j, hj, rfl, hjop, hjoperands⟩ := hd'
  refine congrArg _ (h.keys i hi j hj (hiop ▸ hint) ?_)
  unfold Instruction.key
  rw [h.untyped i hi (hiop ▸ hop), h.untyped j hj (hjop ▸ hop), hiop, hjop, hioperands, hjoperands]
  rcases hsame with rfl | ⟨rfl, herase⟩
  · rfl
  · rw [if_pos rfl, if_pos rfl, herase]

/-- The declaration of an id has one operation and one list of operands. -/
theorem Builder.DeclaresType.inj (h : b.Inv) {op op' : Op} {operands operands' : List Nat}
    (hd : b.DeclaresType op operands id) (hd' : b.DeclaresType op' operands' id) :
    op = op' ∧ operands = operands' := by
  obtain ⟨i, hi, hid, rfl, rfl⟩ := hd
  obtain ⟨j, hj, hjd, rfl, rfl⟩ := hd'
  obtain rfl := h.eq_of_resultId hi hj (hid.trans hjd.symm)
  exact ⟨rfl, rfl⟩

/-- The operation of the declaration that a key asks for. -/
theorem Builder.Declares.exists_op (hd : b.Declares key id) :
    ∃ i ∈ b.constantsTypesGlobals, i.resultId = id ∧ i.opCode = key.op := by
  cases key with
  | type op operands =>
    obtain ⟨-, i, hi, hid, hop, -⟩ := hd
    exact ⟨i, hi, hid, hop⟩
  | matrix component rows cols =>
    obtain ⟨-, -, i, hi, hid, hop, -⟩ := hd
    exact ⟨i, hi, hid, hop⟩
  | cooperativeMatrix scalarType rows cols use =>
    obtain ⟨-, i, hi, hid, hop, -⟩ := hd
    exact ⟨i, hi, hid, hop⟩
  | scalar op typeOp typeOperands values =>
    obtain ⟨-, -, -, -, i, hi, hid, hop, -⟩ := hd
    exact ⟨i, hi, hid, hop⟩

/-- What a key asks for has one id. -/
theorem Builder.Declares.unique (h : b.Inv) (hd : b.Declares key id) (hd' : b.Declares key id') :
    id = id' := by
  have hplain : ∀ op ∈ Op.plainTypes, op ∈ Op.types ∧ op ∈ Op.interned := by decide
  cases key with
  | type op operands => exact hd.2.unique h (hplain op hd.1).1 (hplain op hd.1).2 hd'.2 (.inl rfl)
  | matrix component rows cols =>
    obtain ⟨column, hcolumn, hmatrix⟩ := hd
    obtain ⟨column', hcolumn', hmatrix'⟩ := hd'
    obtain rfl := hcolumn.unique h (by decide) (by decide) hcolumn' (.inl rfl)
    exact hmatrix.unique h (by decide) (by decide) hmatrix' (.inl rfl)
  | cooperativeMatrix scalarType rows cols use =>
    obtain ⟨scope, hmatrix⟩ := hd
    obtain ⟨scope', hmatrix'⟩ := hd'
    exact hmatrix.unique h (by decide) (by decide) hmatrix' (.inr ⟨rfl, rfl⟩)
  | scalar op typeOp typeOperands values =>
    obtain ⟨hop, htypeOp, typeId, htype, i, hi, rfl, hiop, hitype, hivalues⟩ := hd
    obtain ⟨-, -, typeId', htype', j, hj, rfl, hjop, hjtype, hjvalues⟩ := hd'
    obtain rfl := htype.unique h (hplain _ htypeOp).1 (hplain _ htypeOp).2 htype' (.inl rfl)
    obtain ⟨hinterned, hmatrix⟩ := (by decide : ∀ op ∈ Op.scalars, op ∈ Op.interned ∧
      op ≠ .typeCooperativeMatrixKHR) op hop
    refine congrArg _ (h.keys i hi j hj (hiop ▸ hinterned) ?_)
    unfold Instruction.key
    rw [hiop, hjop, hitype, hjtype, if_neg hmatrix, if_neg hmatrix, hivalues, hjvalues]

/-- An id is that of what one key asks for. -/
theorem Builder.Declares.inj (h : b.Inv) (hd : b.Declares key id) (hd' : b.Declares key' id) :
    key = key' := by
  have hops : key.op = key'.op := by
    obtain ⟨i, hi, hid, hop⟩ := hd.exists_op
    obtain ⟨j, hj, hjd, hop'⟩ := hd'.exists_op
    rw [← hop, ← hop', h.eq_of_resultId hi hj (hid.trans hjd.symm)]
  have hplain : ∀ op ∈ Op.plainTypes, op ≠ .typeMatrix ∧ op ≠ .typeCooperativeMatrixKHR ∧
    op ∉ Op.scalars := by decide
  have hscalar : ∀ op ∈ Op.scalars, op ≠ .typeMatrix ∧ op ≠ .typeCooperativeMatrixKHR := by decide
  cases key <;> cases key'
  case type.type op operands op' operands' =>
    obtain ⟨rfl, rfl⟩ := hd.2.inj h hd'.2
    rfl
  case matrix.matrix =>
    obtain ⟨column, hcolumn, hmatrix⟩ := hd
    obtain ⟨column', hcolumn', hmatrix'⟩ := hd'
    obtain ⟨-, hcols⟩ := hmatrix.inj h hmatrix'
    simp only [List.cons.injEq, and_true] at hcols
    obtain ⟨rfl, rfl⟩ := hcols
    obtain ⟨-, hrows⟩ := hcolumn.inj h hcolumn'
    simp only [List.cons.injEq, and_true] at hrows
    obtain ⟨rfl, rfl⟩ := hrows
    rfl
  case cooperativeMatrix.cooperativeMatrix =>
    obtain ⟨scope, hmatrix⟩ := hd
    obtain ⟨scope', hmatrix'⟩ := hd'
    obtain ⟨-, hoperands⟩ := hmatrix.inj h hmatrix'
    simp only [List.cons.injEq, and_true] at hoperands
    obtain ⟨rfl, -, rfl, rfl, rfl⟩ := hoperands
    rfl
  case scalar.scalar =>
    obtain ⟨-, -, typeId, htype, i, hi, hid, rfl, rfl, rfl⟩ := hd
    obtain ⟨-, -, typeId', htype', j, hj, hjd, rfl, rfl, rfl⟩ := hd'
    obtain rfl := h.eq_of_resultId hi hj (hid.trans hjd.symm)
    obtain ⟨rfl, rfl⟩ := htype.inj h htype'
    rfl
  case type.matrix => exact absurd hops (hplain _ hd.1).1
  case type.cooperativeMatrix => exact absurd hops (hplain _ hd.1).2.1
  case type.scalar op _ op' _ _ _ =>
    obtain rfl : op = op' := hops
    exact absurd hd'.1 (hplain _ hd.1).2.2
  case matrix.type => exact absurd hops.symm (hplain _ hd'.1).1
  case matrix.cooperativeMatrix => exact nomatch hops
  case matrix.scalar => exact absurd hops.symm (hscalar _ hd'.1).1
  case cooperativeMatrix.type => exact absurd hops.symm (hplain _ hd'.1).2.1
  case cooperativeMatrix.matrix => exact nomatch hops
  case cooperativeMatrix.scalar => exact absurd hops.symm (hscalar _ hd'.1).2
  case scalar.type op _ _ _ op' _ =>
    obtain rfl : op = op' := hops
    exact absurd hd.1 (hplain _ hd'.1).2.2
  case scalar.matrix => exact absurd hops (hscalar _ hd.1).1
  case scalar.cooperativeMatrix => exact absurd hops (hscalar _ hd.1).2

theorem makeMatrixType_serves (h : b.Inv) {component : Id} (hargs : component ∈ args)
    (cols rows : Nat) :
    Grows args composites b (b.makeMatrixType component cols rows).2 ∧
      (b.makeMatrixType component cols rows).2.Declares (.matrix component rows cols)
        (b.makeMatrixType component cols rows).1 := by
  obtain ⟨hgrows, hcolumn⟩ := @makeVectorType_serves args composites b h component hargs rows
  have hinv := hgrows.inv h
  obtain ⟨hmore, hmatrix⟩ := @grows_findType args composites _ .typeMatrix
    [(b.makeVectorType component rows).1, cols] hinv
    (by decide)
    (fun type => type.getIdOperand 0 = (b.makeVectorType component rows).1 ∧
      type.getIdOperand 1 = cols) id
    (fun i hi hop => (decide_eq_true_iff).trans (operands_two (hinv.arity i hi 2 (hop ▸ rfl)) _ _))
    (fun n hn => Option.some.inj hn)
    (fun id hid => by
      obtain ⟨i, hi, hiid, -⟩ := hcolumn
      exact .inr (List.mem_singleton.mp hid ▸ hiid ▸ List.mem_map_of_mem hi)) fun _ => Quiet.rfl
  exact ⟨hgrows.trans hmore, _, hcolumn.mono hmore.stays, hmatrix⟩

/-- A call has made declarations, and returned the id of what it asks for. -/
def Request.Answered (request : Request) (b : Builder) (made : Id × Builder) : Prop :=
  Grows request.args request.composite.isSome b made.2 ∧
    ∀ key, request.key = some key → made.2.Declares key made.1

variable {request : Request} {made : Id × Builder} {op typeOp : Op}
  {operands typeOperands values : List Nat} {specConstant : Bool}

/-- A call for a type. -/
theorem ServesType.answered
    (hs : ServesType request.args request.composite.isSome b made op operands)
    (hop : op ∈ Op.plainTypes) (hkey : request.key = some (.type op operands)) :
    request.Answered b made :=
  ⟨hs.1, fun _ hk => Option.some.inj (hkey.symm.trans hk) ▸ ⟨hop, hs.2⟩⟩

/-- A call for a scalar constant. -/
theorem ServesScalar.answered
    (hs : ServesScalar request.args request.composite.isSome b made specConstant op typeOp
      typeOperands values)
    (hop : op ∈ Op.scalars) (htypeOp : typeOp ∈ Op.plainTypes)
    (hkey : request.key = scalarKey specConstant op typeOp typeOperands values) :
    request.Answered b made := by
  refine ⟨hs.1, fun key hk => ?_⟩
  rw [hkey] at hk
  cases specConstant with
  | true => exact nomatch hk
  | false => exact Option.some.inj hk ▸ ⟨hop, htypeOp, hs.2 rfl⟩

/-- A call that is not looked up asks for nothing. -/
theorem Grows.answered (hg : Grows request.args request.composite.isSome b made.2)
    (hkey : request.key = none) : request.Answered b made :=
  ⟨hg, fun _ hk => nomatch hkey.symm.trans hk⟩

/-- The calls that make types. -/
def Request.makesType : Request → Bool
  | .makeVoidType | .makeBoolType | .makeSamplerType | .makeAccelerationStructureType
  | .makeRayQueryType | .makeHitObjectNVType | .makeHitObjectType | .makePointer ..
  | .makeUntypedPointer _ | .makeIntegerType .. | .makeFloatType .. | .makeCooperativeMatrixType ..
  | .makeStructType .. | .makeStructResultType .. | .makeVectorType .. | .makeMatrixType ..
  | .makeArrayType .. | .makeRuntimeArray _ | .makeFunctionType .. | .makeImageType ..
  | .makeSampledImageType _ => true
  | _ => false

/-- A call for a type is answered. -/
theorem serve_type (h : b.Inv) (htype : request.makesType = true)
    (hserve : serve b request = some made) : request.Answered b made := by
  cases request <;> try cases htype
  all_goals obtain rfl := Option.some.inj hserve
  case makeVoidType =>
    exact ServesType.answered (grows_makeOnlyType h (by decide)) (by decide) rfl
  case makeBoolType =>
    exact ServesType.answered (grows_makeOnlyType h (by decide)) (by decide) rfl
  case makeSamplerType =>
    exact ServesType.answered (grows_makeOnlyType h (by decide)) (by decide) rfl
  case makeAccelerationStructureType =>
    exact ServesType.answered (grows_makeOwnType h (by decide)) (by decide) rfl
  case makeRayQueryType =>
    exact ServesType.answered (grows_makeOwnType h (by decide)) (by decide) rfl
  case makeHitObjectNVType =>
    exact ServesType.answered (grows_makeOwnType h (by decide)) (by decide) rfl
  case makeHitObjectType =>
    exact ServesType.answered (grows_makeOwnType h (by decide)) (by decide) rfl
  case makePointer storageClass pointee =>
    exact ServesType.answered (makePointer_serves h storageClass (List.mem_singleton_self pointee))
      (by decide) rfl
  case makeUntypedPointer storageClass =>
    exact ServesType.answered (makeUntypedPointer_serves h storageClass) (by decide) rfl
  case makeIntegerType width hasSign =>
    exact ServesType.answered (makeIntegerType_serves h width hasSign) (by decide) rfl
  case makeFloatType width encoding =>
    exact ServesType.answered (makeFloatType_serves h width encoding) (by decide) rfl
  case makeCooperativeMatrixType scalarType rows cols use =>
    obtain ⟨hgrows, hmatrix⟩ := @makeCooperativeMatrixType_serves
      [scalarType, rows, cols, use] false b h scalarType rows cols
      use (by simp) (by simp) (by simp) (by simp)
    exact ⟨hgrows, fun key hkey => Option.some.inj hkey ▸ hmatrix⟩
  case makeStructType members name =>
    exact Grows.answered (makeStructType_grows h (List.Subset.refl _) name) rfl
  case makeStructResultType type0 type1 =>
    exact Grows.answered
      (makeStructResultType_grows h (by simp [Request.args]) (by simp [Request.args])) rfl
  case makeVectorType component size =>
    exact ServesType.answered (makeVectorType_serves h (List.mem_singleton_self component) size)
      (by decide) rfl
  case makeMatrixType component cols rows =>
    obtain ⟨hgrows, hmatrix⟩ := @makeMatrixType_serves [component] false b h component
      (List.mem_singleton_self component) cols rows
    exact ⟨hgrows, fun key hkey => Option.some.inj hkey ▸ hmatrix⟩
  case makeArrayType element sizeId stride =>
    exact Grows.answered
      (makeArrayType_grows h (by simp [Request.args]) (by simp [Request.args]) stride) rfl
  case makeRuntimeArray element =>
    exact Grows.answered (makeRuntimeArray_grows h (List.mem_singleton_self element)) rfl
  case makeFunctionType returnType paramTypes =>
    exact ServesType.answered
      (makeFunctionType_serves h List.mem_cons_self (List.subset_cons_self _ _)) (by decide) rfl
  case makeImageType sampledType dim depth arrayed ms sampled format =>
    exact ServesType.answered (makeImageType_serves h (List.mem_singleton_self sampledType) dim
      depth arrayed ms sampled format) (by decide) rfl
  case makeSampledImageType imageType =>
    exact ServesType.answered (makeSampledImageType_serves h (List.mem_singleton_self imageType))
      (by decide) rfl

/-- A call makes declarations, and returns the id of what it asks for. -/
theorem serve_spec (h : b.Inv) (hproper : request.Proper) (hserve : serve b request = some made) :
    request.Answered b made := by
  by_cases htype : request.makesType = true
  · exact serve_type h htype hserve
  cases request <;> try exact absurd rfl htype
  case makeCompositeConstant typeId members specConstant =>
    exact Grows.answered (makeCompositeConstant_grows h (List.subset_cons_self _ _) hserve) rfl
  case createVariable storageClass type initializer name =>
    refine Grows.answered (createVariable_grows h List.mem_cons_self (fun hinit => ?_) hserve) rfl
    rw [if_neg hinit]
    exact List.mem_cons_of_mem _ (List.mem_singleton_self _)
  all_goals obtain rfl := Option.some.inj hserve
  case makeNullConstant typeId =>
    exact Grows.answered (makeNullConstant_grows h (List.mem_singleton_self typeId)) rfl
  case makeBoolConstant value specConstant =>
    exact ServesScalar.answered (makeBoolConstant_serves h value specConstant)
      (by cases value <;> decide) (by decide) rfl
  case makeIntConstant i specConstant =>
    exact ServesScalar.answered (makeIntegerConstant_serves h (by decide : 32 ≠ 64) true
      (Builder.toUnsigned i.toInt) specConstant) (by decide) (by decide) rfl
  case makeUintConstant u specConstant =>
    exact ServesScalar.answered (makeIntegerConstant_serves h (by decide : 32 ≠ 64) false
      u.toNat specConstant) (by decide) (by decide) rfl
  case makeInt16Constant i specConstant =>
    exact ServesScalar.answered (makeIntegerConstant_serves h (by decide : 16 ≠ 64) true
      (Builder.toUnsigned i.toInt) specConstant) (by decide) (by decide) rfl
  case makeUint16Constant u specConstant =>
    exact ServesScalar.answered (makeIntegerConstant_serves h (by decide : 16 ≠ 64) false
      u.toNat specConstant) (by decide) (by decide) rfl
  case makeInt8Constant i specConstant =>
    exact ServesScalar.answered (makeIntegerConstant_serves h (by decide : 8 ≠ 64) true
      (Builder.toUnsigned i.toInt) specConstant) (by decide) (by decide) rfl
  case makeUint8Constant u specConstant =>
    exact ServesScalar.answered (makeIntegerConstant_serves h (by decide : 8 ≠ 64) false
      u.toNat specConstant) (by decide) (by decide) rfl
  case makeWideConstant hasSign value specConstant =>
    exact ServesScalar.answered (makeWideConstant_serves h hasSign value specConstant)
      (by decide) (by decide) rfl
  case makeFloatConstant f specConstant =>
    exact ServesScalar.answered (makeFloatConstant_serves h f specConstant)
      (by decide) (by decide) rfl
  case makeDoubleConstant d specConstant =>
    exact ServesScalar.answered (makeDoubleConstant_serves h d specConstant)
      (by decide) (by decide) rfl
  case makeFloat16Constant f16 specConstant =>
    exact ServesScalar.answered (makeFloat16Constant_serves h f16 specConstant)
      (by decide) (by decide) rfl
  case makeFloat8Constant f8 encoding specConstant =>
    exact ServesScalar.answered (makeFloat8Constant_serves h f8 encoding specConstant)
      (by decide) (by decide) rfl
  case createUndefinedConstant type =>
    exact Grows.answered (createUndefinedConstant_grows h (List.mem_singleton_self type)) rfl
  case makeFunctionEntry precision returnType name paramTypes decorations entry =>
    exact Grows.answered (makeFunctionEntry_grows h precision List.mem_cons_self name
      (List.subset_cons_self _ _) decorations entry) rfl
  case addInstruction opCode typeId operands =>
    exact Grows.answered (Quiet.grows (quiet_addInstruction hproper typeId operands)) rfl
  case addName id string => exact Grows.answered (Quiet.grows (quiet_addName id string)) rfl
  case addDecoration id decoration num =>
    exact Grows.answered (Quiet.grows (quiet_addDecoration id decoration num)) rfl
  case removeDecorations ids => exact Grows.answered (Quiet.grows (quiet_removeDecorations ids)) rfl

variable {requests : List Request} {ids : List Id}

/-- A run of calls makes declarations, and returns the ids of what the calls ask for. -/
theorem serveAll_spec (h : b.Inv) (hproper : ∀ request ∈ requests, request.Proper)
    (hrun : serveAll requests b = some (ids, b')) :
    b'.Inv ∧ b.constantsTypesGlobals <+: b'.constantsTypesGlobals ∧
      List.Forall₂ (fun request id => ∀ key, Request.key request = some key → b'.Declares key id)
        requests ids := by
  induction requests generalizing b ids with
  | nil =>
    obtain ⟨rfl, rfl⟩ := Prod.mk.inj (Option.some.inj hrun)
    exact ⟨h, List.prefix_rfl, .nil⟩
  | cons request requests ih =>
    obtain ⟨hrequest, hproper⟩ := List.forall_mem_cons.mp hproper
    obtain ⟨⟨id, b₁⟩, hserve, hrun⟩ := Option.bind_eq_some_iff.mp hrun
    obtain ⟨⟨ids₁, b₂⟩, hrest, hrun⟩ := Option.bind_eq_some_iff.mp hrun
    obtain ⟨rfl, rfl⟩ := Prod.mk.inj (Option.some.inj hrun)
    obtain ⟨hgrows, hdeclares⟩ := serve_spec h hrequest hserve
    obtain ⟨hinv, hstays, hids⟩ := ih (hgrows.inv h) hproper hrest
    exact ⟨hinv, hgrows.stays.trans hstays,
      .cons (fun key hkey => (hdeclares key hkey).mono hstays) hids⟩

/-- Every call names ids that are declared when it is made. -/
def AsksDeclared : List Request → Builder → Prop
  | [], _ => True
  | request :: requests, b => request.args ⊆ b.declaredIds ∧ ∀ made ∈ serve b request,
      AsksDeclared requests made.2

instance decidableAsksDeclared : (requests : List Request) → (b : Builder) →
    Decidable (AsksDeclared requests b)
  | [], _ => .isTrue trivial
  | request :: requests, b =>
    have (made : Id × Builder) : Decidable (AsksDeclared requests made.2) :=
  decidableAsksDeclared requests made.2
    inferInstanceAs (Decidable (request.args ⊆ b.declaredIds ∧ ∀ made ∈ serve b request,
      AsksDeclared requests made.2))

/-- A run whose calls name what is declared keeps the order of the declarations. -/
theorem serveAll_ordered (h : b.Inv) (hordered : b.Ordered)
    (hproper : ∀ request ∈ requests, request.Proper) (hasks : AsksDeclared requests b)
    (hrun : serveAll requests b = some (ids, b')) : b'.Ordered := by
  induction requests generalizing b ids with
  | nil =>
    obtain ⟨-, rfl⟩ := Prod.mk.inj (Option.some.inj hrun)
    exact hordered
  | cons request requests ih =>
    obtain ⟨hrequest, hproper⟩ := List.forall_mem_cons.mp hproper
    obtain ⟨⟨id, b₁⟩, hserve, hrun⟩ := Option.bind_eq_some_iff.mp hrun
    obtain ⟨⟨ids₁, b₂⟩, hrest, hrun⟩ := Option.bind_eq_some_iff.mp hrun
    obtain ⟨-, rfl⟩ := Prod.mk.inj (Option.some.inj hrun)
    obtain ⟨hgrows, -⟩ := serve_spec h hrequest hserve
    exact ih (hgrows.inv h) (hgrows.ordered hordered hasks.1) hproper (hasks.2 _ hserve) hrest

/-- A run that asks for some types and constants twice. -/
def sampleRequests : List Request :=
  [.makeFloatType 32 none, .makeVectorType 1 4, .makeIntConstant 3 false, .makeUintConstant 3 false,
    .makePointer 7 2, .makeArrayType 2 6 16, .makeVectorType 1 4, .makeUintConstant 3 false,
      .makeVoidType,
    .makeFunctionEntry DecorationMax 9 none [1] [] true, .addInstruction .undef 1 [],
      .createVariable 7 8 0 none,
    .createVariable 6 8 0 none, .makeCooperativeMatrixType 1 6 6 4]

theorem sampleRequests_proper : ∀ request ∈ sampleRequests, request.Proper := by
  simp [sampleRequests, Request.Proper, Op.types]

theorem sampleRequests_run :
    ∃ b, serveAll sampleRequests {} =
      some ([1, 2, 4, 6, 7, 8, 2, 6, 9, 12, 14, 16, 18, 19], b) := by
  obtain ⟨⟨ids, b⟩, hrun, hids⟩ := Option.map_eq_some_iff.mp
    (by decide : (serveAll sampleRequests {}).map Prod.fst =
          some [1, 2, 4, 6, 7, 8, 2, 6, 9, 12, 14, 16, 18, 19])
  exact ⟨b, hids ▸ hrun⟩

/-- What is declared in a run has distinct ids below the bound of the module, and names what is
declared before it. No type but structs and arrays, and no scalar constant that is not specialized,
is declared twice. -/
theorem serveAll_wellFormed (hproper : ∀ request ∈ requests, request.Proper)
    (hasks : AsksDeclared requests {}) (hrun : serveAll requests {} = some (ids, b)) :
    b.declaredIds.Nodup ∧ (∀ id ∈ b.declaredIds, 0 < id ∧ id < b.uniqueId + 1) ∧
      (∀ before i after, b.constantsTypesGlobals = before ++ i :: after →
        ∀ id ∈ i.ids, id ∈ before.map (·.resultId)) ∧
      ((b.constantsTypesGlobals.filter (·.opCode ∈ Op.interned)).map fun i =>
        (i.opCode, i.typeId, i.operands)).Nodup := by
  obtain ⟨hinv, -, -⟩ := serveAll_spec inv_empty hproper hrun
  have hempty : Builder.Ordered {} := fun before i after heq =>
    absurd heq (List.append_ne_nil_of_right_ne_nil _
    (List.cons_ne_nil _ _)).symm
  refine ⟨hinv.nodup, fun id hid => ?_, serveAll_ordered inv_empty hempty hproper hasks hrun, ?_⟩
  · obtain ⟨i, hi, rfl⟩ := List.mem_map.mp hid
    exact ⟨(hinv.bounds i hi).1, Nat.lt_succ_of_le (hinv.bounds i hi).2⟩
  · refine List.Nodup.map_on (fun i hi j hj hsame => ?_) ((List.Nodup.of_map _ hinv.nodup).filter _)
    obtain ⟨hi, hop⟩ := List.mem_filter.mp hi
    obtain ⟨hop', hsame⟩ := Prod.mk.inj hsame
    obtain ⟨htype, hoperands⟩ := Prod.mk.inj hsame
    refine hinv.keys i hi j (List.mem_filter.mp hj).1 (of_decide_eq_true hop) ?_
    unfold Instruction.key
    rw [hop', htype, hoperands]

theorem serveAll_wellFormed_sample :
    ∃ b, serveAll sampleRequests {} = some ([1, 2, 4, 6, 7, 8, 2, 6, 9, 12, 14, 16, 18, 19], b) ∧
      b.declaredIds.Nodup ∧ (∀ id ∈ b.declaredIds, 0 < id ∧ id < b.uniqueId + 1) ∧
      (∀ before i after, b.constantsTypesGlobals = before ++ i :: after →
        ∀ id ∈ i.ids, id ∈ before.map (·.resultId)) ∧
      ((b.constantsTypesGlobals.filter (·.opCode ∈ Op.interned)).map fun i =>
        (i.opCode, i.typeId, i.operands)).Nodup := by
  obtain ⟨b, hrun⟩ := sampleRequests_run
  exact ⟨b, hrun, serveAll_wellFormed sampleRequests_proper (by decide) hrun⟩

/-- Two calls of a run that are looked up get one id exactly when they ask for the same. -/
theorem serveAll_interned (hproper : ∀ request ∈ requests, request.Proper)
    (hrun : serveAll requests {} = some (ids, b)) {j k : Nat} {request request' : Request}
    {id id' : Id} (hj : (requests.zip ids)[j]? = some (request, id))
    (hk : (requests.zip ids)[k]? = some (request', id')) (hkey : request.key.isSome)
    (hkey' : request'.key.isSome) : id = id' ↔ request.key = request'.key := by
  obtain ⟨hinv, -, hids⟩ := serveAll_spec inv_empty hproper hrun
  have hdeclares {j : Nat} {request : Request} {id : Id}
    (hj : (requests.zip ids)[j]? = some (request, id)) :
      ∀ key, request.key = some key → b.Declares key id :=
    (List.forall₂_iff_zip.mp hids).2 (List.mem_of_getElem? hj)
  obtain ⟨key, heq⟩ := Option.isSome_iff_exists.mp hkey
  obtain ⟨key', heq'⟩ := Option.isSome_iff_exists.mp hkey'
  rw [heq, heq', Option.some_inj]
  constructor
  · rintro rfl
    exact (hdeclares hj key heq).inj hinv (hdeclares hk key' heq')
  · rintro rfl
    exact (hdeclares hj key heq).unique hinv (hdeclares hk key heq')

theorem serveAll_interned_sample :
    (4 = 6 ↔ (Request.makeIntConstant 3 false).key = (Request.makeUintConstant 3 false).key) ∧
      (2 = 2 ↔ (Request.makeVectorType 1 4).key = (Request.makeVectorType 1 4).key) := by
  obtain ⟨b, hrun⟩ := sampleRequests_run
  exact ⟨@serveAll_interned b _ _ sampleRequests_proper hrun 2 3 _ _ 4 6 rfl rfl rfl rfl,
    @serveAll_interned b _ _ sampleRequests_proper hrun 1 6 _ _ 2 2 rfl rfl rfl rfl⟩

end DxilSpirv.Spv
