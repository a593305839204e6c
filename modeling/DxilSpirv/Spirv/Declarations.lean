import DxilSpirv.Spirv.Builder
import Mathlib.Data.List.Nodup
import Mathlib.Data.List.Infix

/-!
# Declarations of a module

What may change when a builder makes something: nothing that is declared, or one declaration more,
with a fresh id. From this come the invariants of the declarations: their ids are distinct and
known, the groups hold what is declared of their kind, and nothing of a kind that is looked up is
declared twice.
-/

namespace DxilSpirv.Spv

/-- The operations that declare types. -/
def Op.types : List Op :=
  [.typeVoid, .typeBool, .typeInt, .typeFloat, .typeVector, .typeMatrix, .typeImage, .typeSampler,
    .typeSampledImage,
    .typeArray, .typeRuntimeArray, .typeStruct, .typePointer, .typeFunction, .typeUntypedPointerKHR,
    .typeCooperativeMatrixKHR, .typeAccelerationStructureKHR, .typeRayQueryKHR, .typeHitObjectNV,
      .typeHitObjectEXT]

/-- The types that have a list in `groupedTypes`. -/
def Op.groupedTypes : List Op :=
  [.typeVoid, .typeBool, .typeInt, .typeFloat, .typeVector, .typeMatrix, .typeImage, .typeSampler,
    .typeSampledImage, .typeArray, .typeStruct, .typePointer, .typeFunction, .typeUntypedPointerKHR]

/-- The types that have a field of their own. -/
def Op.ownTypes : List Op :=
  [.typeAccelerationStructureKHR, .typeRayQueryKHR, .typeHitObjectNV, .typeHitObjectEXT]

/-- The types that are looked up somewhere. -/
def Op.keptTypes : List Op := .typeCooperativeMatrixKHR :: Op.ownTypes ++ Op.groupedTypes

/-- The operations that declare constants that are kept in a group. -/
def Op.groupedConstants : List Op :=
  [.constantTrue, .constantFalse, .constant, .constantComposite, .specConstantTrue,
    .specConstantFalse, .specConstant, .specConstantComposite]

/-- The operations whose declarations are looked up before they are made. -/
def Op.interned : List Op :=
  [.typeVoid, .typeBool, .typeInt, .typeFloat, .typeVector, .typeMatrix, .typeImage, .typeSampler,
    .typeSampledImage,
    .typePointer, .typeFunction, .typeUntypedPointerKHR, .typeCooperativeMatrixKHR,
      .typeAccelerationStructureKHR,
    .typeRayQueryKHR, .typeHitObjectNV, .typeHitObjectEXT, .constantTrue, .constantFalse, .constant]

/-- The operations that declare composites. -/
def Op.composites : List Op := [.constantComposite, .specConstantComposite]

/-- The number of operands of an operation that always has as many. -/
def Op.arity : Op → Option Nat
  | .typeVoid | .typeBool | .typeSampler | .typeAccelerationStructureKHR | .typeRayQueryKHR
  | .typeHitObjectNV | .typeHitObjectEXT | .constantTrue | .constantFalse => some 0
  | .typeInt => some 2
  | .typeVector => some 2
  | .typeMatrix => some 2
  | .typeArray => some 2
  | .typePointer => some 2
  | .typeImage => some 7
  | .typeSampledImage => some 1
  | .typeUntypedPointerKHR => some 1
  | .typeCooperativeMatrixKHR => some 5
  | _ => none

namespace Instruction

/-- What a lookup tells declarations apart by. The scope of a matrix is not looked at. -/
def key (i : Instruction) : Op × Id × List Nat :=
  (i.opCode, i.typeId, if i.opCode = .typeCooperativeMatrixKHR then i.operands.eraseIdx 1
    else i.operands)

/-- The number of words of a scalar constant of a type. -/
def scalarWords (type : Instruction) : Nat := if type.getIdOperand 0 = 64 then 2 else 1

/-- The operands that are ids. -/
def idOperands (i : Instruction) : List Id :=
  match i.opCode with
  | .typePointer => i.operands.drop 1
  | .typeVector => i.operands.take 1
  | .typeMatrix => i.operands.take 1
  | .typeImage => i.operands.take 1
  | .variable => i.operands.drop 1
  | .typeArray | .typeRuntimeArray | .typeStruct | .typeFunction | .typeSampledImage
  | .typeCooperativeMatrixKHR | .constantComposite | .specConstantComposite => i.operands
  | _ => []

/-- The ids that an instruction names. -/
def ids (i : Instruction) : List Id := (if i.typeId = 0 then [] else [i.typeId]) ++ i.idOperands

end Instruction

namespace Builder

variable (b : Builder)

/-- Where a type is looked up. -/
def typesOf (op : Op) : List Instruction :=
  if op ∈ Op.ownTypes then (b.ownType op).toList
  else if op = .typeCooperativeMatrixKHR then b.coopmatTypes
  else b.groupedTypes (mapOpToGroupIndex op)

/-- Where a constant is looked up, by the class of its type. -/
def constantsOf (typeClass : Op) : List Instruction :=
  if typeClass = .typeCooperativeMatrixKHR then b.coopmatConstants else b.groupedConstants typeClass

/-- The ids that are declared. -/
def declaredIds : List Id := b.constantsTypesGlobals.map (·.resultId)

/-- The class of a declared type. -/
def HasClass (typeId : Id) (typeClass : Op) : Prop :=
  ∃ t ∈ b.constantsTypesGlobals, t.resultId = typeId ∧ t.opCode = typeClass

end Builder

variable {b b' b'' : Builder} {i j : Instruction}

/-- Nothing is declared. Ids may be drawn, and instructions that are no types may become known by
fresh ids. -/
structure Quiet (b b' : Builder) : Prop where
  declared : b'.constantsTypesGlobals = b.constantsTypesGlobals
  drawn : b.uniqueId ≤ b'.uniqueId
  types : ∀ op, b'.typesOf op = b.typesOf op
  constants : ∀ typeClass, b'.constantsOf typeClass = b.constantsOf typeClass
  known : ∀ id ≤ b.uniqueId, b'.module.getInstruction id = b.module.getInstruction id
  fresh : ∀ id i, b'.module.getInstruction id = some i → i.opCode ∈ Op.types →
    b.module.getInstruction id = some i

/-- One more instruction is declared. It has a fresh id and operands as its operation has them, it
is kept where it is looked up, and it is new if its kind is looked up. -/
structure Adds (b b' : Builder) (i : Instruction) : Prop where
  declared : b'.constantsTypesGlobals = b.constantsTypesGlobals ++ [i]
  drawn : b.uniqueId ≤ b'.uniqueId
  fresh : i.resultId ∉ b.declaredIds
  pos : 0 < i.resultId
  le : i.resultId ≤ b'.uniqueId
  known : b'.module.getInstruction = Function.update b.module.getInstruction i.resultId (some i)
  types : ∀ op ∈ Op.keptTypes, ∀ j, j ∈ b'.typesOf op ↔ j ∈ b.typesOf op ∨ j = i ∧ i.opCode = op
  constants : ∀ typeClass j, j ∈ b'.constantsOf typeClass ↔
    j ∈ b.constantsOf typeClass ∨ j = i ∧ i.opCode ∈ Op.groupedConstants ∧
      b.HasClass i.typeId typeClass
  arity : ∀ n, i.opCode.arity = some n → i.operands.length = n
  untyped : i.opCode ∈ Op.types → i.typeId = 0
  typed : i.opCode ∈ Op.groupedConstants → ∃ t ∈ b.constantsTypesGlobals, t.resultId = i.typeId ∧
    (i.opCode = .constant ∨ i.opCode = .specConstant → i.operands.length = t.scalarWords) ∧
      (t.opCode ∈ Builder.compositeClasses → i.opCode ∈ Op.composites)
  new : i.opCode ∈ Op.interned → ∀ j ∈ b.constantsTypesGlobals, j.key ≠ i.key

/-- Changes one after the other. What is declared has an id that was drawn since, and names what is
declared already or what is given. It may be a composite if that is told. -/
inductive Grows (args : List Id) (composites : Bool) : Builder → Builder → Prop
  | refl (b : Builder) : Grows args composites b b
  | quiet {b b' b'' : Builder} (h : Grows args composites b b') (hq : Quiet b' b'') :
      Grows args composites b b''
  | add {b b' b'' : Builder} {i : Instruction} (h : Grows args composites b b') (ha : Adds b' b'' i)
      (hsince : b.uniqueId < i.resultId) (hids : ∀ id ∈ i.ids, id ∈ args ∨ id ∈ b'.declaredIds)
      (hkind : composites = false → i.opCode ∉ Op.composites) : Grows args composites b b''

/-- What holds of the declarations at all times. -/
structure Builder.Inv (b : Builder) : Prop where
  nodup : b.declaredIds.Nodup
  bounds : ∀ i ∈ b.constantsTypesGlobals, 0 < i.resultId ∧ i.resultId ≤ b.uniqueId
  known : ∀ i ∈ b.constantsTypesGlobals, b.module.getInstruction i.resultId = some i
  known_types : ∀ id i, b.module.getInstruction id = some i → i.opCode ∈ Op.types →
    i ∈ b.constantsTypesGlobals ∧ i.resultId = id
  types : ∀ op ∈ Op.keptTypes, ∀ i, i ∈ b.typesOf op ↔ i ∈ b.constantsTypesGlobals ∧ i.opCode = op
  constants : ∀ typeClass i, i ∈ b.constantsOf typeClass ↔
    i ∈ b.constantsTypesGlobals ∧ i.opCode ∈ Op.groupedConstants ∧ b.HasClass i.typeId typeClass
  arity : ∀ i ∈ b.constantsTypesGlobals, ∀ n, i.opCode.arity = some n → i.operands.length = n
  untyped : ∀ i ∈ b.constantsTypesGlobals, i.opCode ∈ Op.types → i.typeId = 0
  typed : ∀ i ∈ b.constantsTypesGlobals, i.opCode ∈ Op.groupedConstants →
    ∃ t ∈ b.constantsTypesGlobals,
    t.resultId = i.typeId ∧ (i.opCode = .constant ∨ i.opCode = .specConstant →
      i.operands.length = t.scalarWords) ∧
      (t.opCode ∈ Builder.compositeClasses → i.opCode ∈ Op.composites)
  keys : ∀ i ∈ b.constantsTypesGlobals, ∀ j ∈ b.constantsTypesGlobals, i.opCode ∈ Op.interned →
    i.key = j.key → i = j

/-- Declarations with one id are one. -/
theorem Builder.Inv.eq_of_resultId (h : b.Inv) (hi : i ∈ b.constantsTypesGlobals)
    (hj : j ∈ b.constantsTypesGlobals) (hid : i.resultId = j.resultId) : i = j :=
  Option.some.inj ((h.known i hi).symm.trans (hid ▸ h.known j hj))

/-- A builder that has made nothing yet. -/
theorem inv_empty : Builder.Inv {} := by
  have htypes (op : Op) : Builder.typesOf {} op = [] := by
    unfold Builder.typesOf
    split_ifs <;> rfl
  have hconstants (op : Op) : Builder.constantsOf {} op = [] := by
    unfold Builder.constantsOf
    split_ifs <;> rfl
  constructor
  case nodup => exact List.nodup_nil
  case types => exact fun op _ i => by rw [htypes]; exact ⟨nofun, fun h => nomatch h.1⟩
  case constants => exact fun op i => by rw [hconstants]; exact ⟨nofun, fun h => nomatch h.1⟩
  case known_types => exact fun id i h => nomatch h
  all_goals exact fun i hi => nomatch hi

/-- What declares nothing keeps the invariant. -/
theorem Builder.Inv.quiet (h : b.Inv) (hq : Quiet b b') : b'.Inv := by
  have hids : b'.declaredIds = b.declaredIds := congrArg (List.map _) hq.declared
  have hclass (typeId : Id) (op : Op) : b'.HasClass typeId op ↔ b.HasClass typeId op := by
    unfold Builder.HasClass
    rw [hq.declared]
  have hknown : ∀ i ∈ b.constantsTypesGlobals,
      b'.module.getInstruction i.resultId = some i := fun i hi => by
    rw [hq.known _ (h.bounds i hi).2, h.known i hi]
  constructor
  case nodup => exact hids ▸ h.nodup
  case types => exact fun op hop i => by rw [hq.types, hq.declared, h.types op hop]
  case constants => exact fun op i => by rw [hq.constants, hq.declared, hclass, h.constants]
  all_goals rw [hq.declared]
  case bounds => exact fun i hi => ⟨(h.bounds i hi).1, (h.bounds i hi).2.trans hq.drawn⟩
  case known => exact hknown
  case known_types => exact fun id i hid hi => h.known_types id i (hq.fresh id i hid hi) hi
  case arity => exact h.arity
  case untyped => exact h.untyped
  case typed => exact h.typed
  case keys => exact h.keys

/-- One more declaration keeps the invariant. -/
theorem Builder.Inv.add (h : b.Inv) (ha : Adds b b' i) : b'.Inv := by
  have hmem {j : Instruction} : j ∈ b'.constantsTypesGlobals ↔
      j ∈ b.constantsTypesGlobals ∨ j = i := by
    rw [ha.declared, List.mem_append, List.mem_singleton]
  have hne {j : Instruction} (hj : j ∈ b.constantsTypesGlobals) :
      j.resultId ≠ i.resultId := fun heq =>
    ha.fresh (heq ▸ List.mem_map_of_mem hj)
  have hclass {typeId : Id} {op : Op} (hc : b.HasClass typeId op) : b'.HasClass typeId op := by
    obtain ⟨t, ht, hid, hop⟩ := hc
    exact ⟨t, hmem.mpr (.inl ht), hid, hop⟩
  -- The type of a constant was declared before it, so its class stays what it was.
  have hclass_iff {j : Instruction}
    (hj : ∃ t ∈ b.constantsTypesGlobals, t.resultId = j.typeId) (op : Op) :
      b'.HasClass j.typeId op ↔ b.HasClass j.typeId op := by
    refine ⟨?_, hclass⟩
    rintro ⟨t, ht, hid, hop⟩
    rcases hmem.mp ht with ht | rfl
    · exact ⟨t, ht, hid, hop⟩
    · obtain ⟨t', ht', hid'⟩ := hj
      exact absurd (hid'.trans hid.symm) (hne ht')
  constructor
  case nodup =>
    rw [Builder.declaredIds, ha.declared, List.map_append]
    refine List.nodup_append'.mpr ⟨h.nodup, List.nodup_singleton _, fun id hid hi => ?_⟩
    obtain rfl : id = i.resultId := List.mem_singleton.mp hi
    exact ha.fresh hid
  case bounds =>
    intro j hj
    rcases hmem.mp hj with hj | rfl
    · exact ⟨(h.bounds j hj).1, (h.bounds j hj).2.trans ha.drawn⟩
    · exact ⟨ha.pos, ha.le⟩
  case known =>
    intro j hj
    rw [ha.known]
    rcases hmem.mp hj with hj | rfl
    · rw [Function.update_of_ne (hne hj), h.known j hj]
    · rw [Function.update_self]
  case known_types =>
    intro id j hid hj
    rw [ha.known] at hid
    by_cases heq : id = i.resultId
    · rw [heq, Function.update_self] at hid
      obtain rfl := Option.some.inj hid
      exact ⟨hmem.mpr (.inr rfl), heq.symm⟩
    · rw [Function.update_of_ne heq] at hid
      obtain ⟨hj, hjid⟩ := h.known_types id j hid hj
      exact ⟨hmem.mpr (.inl hj), hjid⟩
  case types =>
    intro op hop j
    rw [ha.types op hop, h.types op hop, hmem, or_and_right]
    exact or_congr_right (and_congr_right fun hj => by rw [hj])
  case constants =>
    intro op j
    rw [ha.constants, h.constants, hmem, or_and_right]
    refine or_congr (and_congr_right fun hj => and_congr_right fun hop => (hclass_iff ?_ op).symm)
      (and_congr_right fun hj => ?_)
    · obtain ⟨t, ht, hid, -⟩ := h.typed j hj hop
      exact ⟨t, ht, hid⟩
    · rw [hj]
      refine and_congr_right fun hop => (hclass_iff ?_ op).symm
      obtain ⟨t, ht, hid, -⟩ := ha.typed hop
      exact ⟨t, ht, hid⟩
  case arity =>
    intro j hj
    rcases hmem.mp hj with hj | rfl
    · exact h.arity j hj
    · exact ha.arity
  case untyped =>
    intro j hj
    rcases hmem.mp hj with hj | rfl
    · exact h.untyped j hj
    · exact ha.untyped
  case typed =>
    intro j hj hop
    rcases hmem.mp hj with hj | rfl
    · obtain ⟨t, ht, hid⟩ := h.typed j hj hop
      exact ⟨t, hmem.mpr (.inl ht), hid⟩
    · obtain ⟨t, ht, hid⟩ := ha.typed hop
      exact ⟨t, hmem.mpr (.inl ht), hid⟩
  case keys =>
    intro j hj k hk hop hkey
    rcases hmem.mp hj with hj | rfl <;> rcases hmem.mp hk with hk | rfl
    · exact h.keys j hj k hk hop hkey
    · have hsame : j.opCode = k.opCode := congrArg Prod.fst hkey
      exact absurd hkey (ha.new (hsame ▸ hop) j hj)
    · exact absurd hkey.symm (ha.new hop k hk)
    · rfl

variable {args : List Id} {composites : Bool}

/-- Changes keep the invariant. -/
theorem Grows.inv (hg : Grows args composites b b') (h : b.Inv) : b'.Inv := by
  induction hg with
  | refl => exact h
  | quiet _ hq ih => exact ih.quiet hq
  | add _ ha _ _ _ ih => exact ih.add ha

/-- What is declared stays declared, in its place. -/
theorem Grows.stays (hg : Grows args composites b b') :
    b.constantsTypesGlobals <+: b'.constantsTypesGlobals := by
  induction hg with
  | refl => exact List.prefix_rfl
  | quiet _ hq ih => exact hq.declared ▸ ih
  | add _ ha _ _ _ ih => exact ih.trans (ha.declared ▸ List.prefix_append _ _)

/-- Ids are only ever drawn. -/
theorem Grows.drawn (hg : Grows args composites b b') : b.uniqueId ≤ b'.uniqueId := by
  induction hg with
  | refl => exact le_rfl
  | quiet _ hq ih => exact ih.trans hq.drawn
  | add _ ha _ _ _ ih => exact ih.trans ha.drawn

/-- Changes after changes. -/
theorem Grows.trans (hg : Grows args composites b b') (hg' : Grows args composites b' b'') :
    Grows args composites b b'' := by
  induction hg' with
  | refl => exact hg
  | quiet _ hq ih => exact ih.quiet hq
  | add _ ha hsince hids hkind ih => exact ih.add ha (lt_of_le_of_lt hg.drawn hsince) hids hkind

/-- What is declared was declared before, or has an id that was drawn since. -/
theorem Grows.since (hg : Grows args composites b b') (hi : i ∈ b'.constantsTypesGlobals) :
    i ∈ b.constantsTypesGlobals ∨ b.uniqueId < i.resultId := by
  induction hg with
  | refl => exact .inl hi
  | quiet _ hq ih => exact ih (hq.declared ▸ hi)
  | add _ ha hsince _ _ ih =>
    rw [ha.declared] at hi
    rcases List.mem_append.mp hi with hi | hi
    · exact ih hi
    · exact .inr (List.mem_singleton.mp hi ▸ hsince)

/-- Every declaration names what is declared before it. -/
def Builder.Ordered (b : Builder) : Prop :=
  ∀ before i after, b.constantsTypesGlobals = before ++ i :: after → ∀ id ∈ i.ids,
    id ∈ before.map (·.resultId)

/-- Changes whose arguments are declared keep the order. -/
theorem Grows.ordered (hg : Grows args composites b b') (h : b.Ordered)
    (hargs : ∀ id ∈ args, id ∈ b.declaredIds) : b'.Ordered := by
  induction hg with
  | refl => exact h
  | quiet _ hq ih =>
    intro before i after heq
    rw [hq.declared] at heq
    exact ih before i after heq
  | @add b₁ b₂ i hg ha _ hids _ ih =>
    intro before j after heq id hid
    rw [ha.declared] at heq
    rcases List.append_eq_append_iff.mp heq with ⟨more, hbefore, hmore⟩ | ⟨more, hbefore, hmore⟩
    · -- The new declaration is at the end.
      cases more with
      | nil =>
        obtain ⟨rfl, -⟩ := List.cons.inj hmore
        rw [hbefore, List.append_nil]
        refine (hids id hid).elim (fun harg => ?_) fun hdec => hdec
        exact List.map_subset _ hg.stays.subset (hargs id harg)
      | cons k more => exact absurd (congrArg List.length hmore) (by simp)
    · cases more with
      | nil =>
        obtain ⟨rfl, -⟩ := List.cons.inj hmore.symm
        rw [List.append_nil] at hbefore
        rw [← hbefore]
        refine (hids id hid).elim (fun harg => ?_) fun hdec => hdec
        exact List.map_subset _ hg.stays.subset (hargs id harg)
      | cons k more =>
        obtain ⟨rfl, -⟩ := List.cons.inj hmore
        exact ih before j more hbefore id hid

end DxilSpirv.Spv
