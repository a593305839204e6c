import DxilSpirv.Convert.IntegerSemantics

/-!
# When integer instructions keep their meaning

What is emitted for an instruction is followed to the register that its id ends up with, for
operands with any upper bits.
-/

namespace DxilSpirv.LlvmBuiltins

open Spirv
open Converter (physicalIntegerBitWidth)

variable {n : Nat}

/-- The width of the physical type for every width of the module. -/
theorem physicalIntegerBitWidth_cases (hn : 1 ≤ n) (hle : n ≤ 64) :
    physicalIntegerBitWidth n = 1 ∧ n = 1 ∨ physicalIntegerBitWidth n = 8 ∧ n = 8 ∨
      physicalIntegerBitWidth n = 16 ∧ n = 16 ∨ physicalIntegerBitWidth n = 32 ∧ n ≤ 32 ∨
      physicalIntegerBitWidth n = 64 ∧ 32 < n := by
  unfold physicalIntegerBitWidth
  split
  · rename_i h
    simp only [List.mem_cons, List.not_mem_nil, or_false] at h
    omega
  · split
    · omega
    · omega

/-- The physical type is wide enough. -/
theorem le_physicalIntegerBitWidth (hn : 1 ≤ n) (hle : n ≤ 64) :
    n ≤ physicalIntegerBitWidth n := by
  have h := physicalIntegerBitWidth_cases hn hle
  omega

/-- Only a width of eight has the physical width eight. -/
theorem physicalIntegerBitWidth_eq_eight (hn : 1 ≤ n) (hle : n ≤ 64) :
    physicalIntegerBitWidth n = 8 ↔ n = 8 := by
  constructor
  · intro h
    have h := physicalIntegerBitWidth_cases hn hle
    omega
  · rintro rfl
    rfl

/-- Only integers of 8 bits have constants without an id. -/
theorem getIdForConstant_eq (hn : 1 ≤ n) (hle : n ≤ 64) (hne : n ≠ 8) (c : BitVec n) :
    getIdForConstant n c.toNat = .scalar (physicalIntegerBitWidth n) c.toNat := by
  rcases physicalIntegerBitWidth_cases hn hle with ⟨h, rfl⟩ | ⟨h, rfl⟩ | ⟨h, rfl⟩ | ⟨h, -⟩ | ⟨h, -⟩
  · have hlt := c.isLt
    have hzero : (if c.toNat = 0 then 0 else 1) = c.toNat := by
      split
      · omega
      · omega
    rw [getIdForConstant, h]
    simp only [hzero]
  · exact absurd rfl hne
  · rw [getIdForConstant, h]
    rfl
  · rw [getIdForConstant, h]
    rfl
  · rw [getIdForConstant, h]
    rfl

variable {α β : Type} (s : Emitter)

theorem run_bind (m : Emit α) (f : α → Emit β) :
    (m >>= f).run s = (f (m.run s).1).run (m.run s).2 := rfl

theorem run_pure (a : α) : (pure a : Emit α).run s = (a, s) := rfl

theorem run_get : (get : Emit Emitter).run s = (s, s) := rfl

/-- An operation is added behind the others. -/
theorem run_add (op : Instruction) :
    (add op).run s = ((), { s with operations := s.operations ++ [op] }) := rfl

/-- `rewrite_value` maps the value to the id. -/
theorem run_rewriteValue (v : Nat) (id : SpvId) :
    (rewriteValue v id).run s =
      ((), { s with valueMap := Function.update s.valueMap v (some id) }) := rfl

/-- `allocate` draws the next id. -/
theorem run_allocate (opcode : Opcode) (type : RegisterType) :
    (allocate opcode type).run s =
      (⟨opcode, .result s.nextId, type, []⟩, { s with nextId := s.nextId + 1 }) := rfl

/-- A register with an id gives the id. -/
theorem run_getIdForRegister_of_some {v : Nat} {id : SpvId} (h : s.valueMap v = some id) :
    (getIdForRegister v).run s = (id, s) := by
  rw [getIdForRegister, run_bind, run_get]
  simp only [h]
  rfl

/-- A register without an id draws one. -/
theorem run_getIdForRegister_of_none {v : Nat} (h : s.valueMap v = none) :
    (getIdForRegister v).run s = (.result s.nextId,
      { s with
        nextId := s.nextId + 1
        valueMap := Function.update s.valueMap v (some (.result s.nextId)) }) := by
  rw [getIdForRegister, run_bind, run_get]
  simp only [h]
  rfl

section Operands

variable {T : Target} {s} {env₀ env : Env} {result components : Nat} {operands : List (LlvmValue n)}
  {x : LlvmValue n → Nat → BitVec n} {a : LlvmValue n}

/-- The id of an operand that is there. -/
def LlvmValue.idOf (s : Emitter) (components : Nat) : LlvmValue n → SpvId
  | register v _ => (s.valueMap v).getD .null
  | constantInt c => getIdForConstant n c.toNat
  | constantDataVector elements => compositeConstant components elements
  | constantAggregate elements => compositeConstant components elements
  | constantAggregateZero => .nullConstant (physicalType n components)
  | undef => .undef (physicalType n components)

/-- A represented value gives its id and changes nothing. -/
theorem run_getIdForValue (h : a.Represented T s env components (x a)) :
    (getIdForValue components a).run s = (a.idOf s components, s) := by
  cases a with
  | register v isUndefined =>
    obtain ⟨id, r, hid, -⟩ := h
    rw [LlvmValue.idOf, hid]
    exact run_getIdForRegister_of_some s hid
  | constantInt c => rfl
  | constantDataVector elements => rfl
  | constantAggregate elements => rfl
  | constantAggregateZero => rfl
  | undef => rfl

/-- The register of an operand. -/
structure Holds (T : Target) (env : Env) (components : Nat) (id : SpvId) (a : LlvmValue n)
    (x : Nat → BitVec n) (r : Register) : Prop where
  get : env.get T id = some r
  type : r.type = physicalType n components
  word : instructionIsUndefinedValue a = false → ∀ i < components, r.word n i = x i
  clean : ¬ a.IsRegister → instructionIsUndefinedValue a = false →
    ∀ i < components, r.lane i = (x i).toNat

/-- The composite of a vector constant. -/
theorem compositeConstant_eq (hn : 1 ≤ n) (hle : n ≤ 64) (hne : n ≠ 8)
    (elements : List (BitVec n)) : compositeConstant components elements =
      .composite (physicalType n components) (elements.map fun c => some c.toNat) := by
  have hmap : elements.map (fun c => constituent (getIdForConstant n c.toNat)) =
      elements.map fun c => some c.toNat := by
    apply List.map_congr_left
    intro c _
    rw [getIdForConstant_eq hn hle hne c]
    rfl
  rw [compositeConstant, hmap]

/-- A composite constant holds the value of its components. -/
theorem holds_composite (hn : 1 ≤ n) (hle : n ≤ 64) (hne : n ≠ 8) (elements : List (BitVec n))
    (hx : ∀ i < components, x a i = elements.getD i 0) (hlength : elements.length = components) :
    Holds T env components (compositeConstant components elements) a (x a)
      ⟨physicalType n components,
        fun i => ((elements.map fun c => some c.toNat)[i]?.join).getD 0⟩ := by
  have hlane : ∀ i < components,
      ((elements.map fun c => some c.toNat)[i]?.join).getD 0 = (x a i).toNat := by
    intro i hi
    rw [hx i hi, List.getD_eq_getElem?_getD, List.getElem?_map,
      List.getElem?_eq_getElem (by omega)]
    rfl
  constructor
  · rw [compositeConstant_eq hn hle hne, Env.get, if_neg]
    simp
  · rfl
  · intro _ i hi
    rw [Register.word]
    simp only
    rw [hlane i hi, BitVec.ofNat_toNat, BitVec.setWidth_eq]
  · exact fun _ _ => hlane

/-- An operand with an id is in a register. -/
theorem exists_holds (hn : 1 ≤ n) (hle : n ≤ 64) (hwf : a.WellFormed result components)
    (h : a.Represented T s env components (x a)) (hid : a.HasId) :
    ∃ r, Holds T env components (a.idOf s components) a (x a) r := by
  cases a with
  | register v isUndefined =>
    obtain ⟨id, r, hmap, hget, htype, hword⟩ := h
    refine ⟨r, ?_, htype, fun _ => hword, fun hreg => absurd trivial hreg⟩
    rw [LlvmValue.idOf, hmap]
    exact hget
  | constantInt c =>
    have hone : components = 1 := hwf
    refine ⟨⟨⟨physicalIntegerBitWidth n, 1⟩, fun _ => c.toNat⟩, ?_, ?_, ?_, ?_⟩
    · rw [LlvmValue.idOf, getIdForConstant_eq hn hle hid]
      rfl
    · rw [hone, physicalType]
    · intro _ i hi
      rw [h i hi, Register.word, BitVec.ofNat_toNat, BitVec.setWidth_eq]
      rfl
    · intro _ _ i hi
      rw [h i hi]
      rfl
  | constantDataVector elements => exact ⟨_, holds_composite hn hle hid elements h hwf.2⟩
  | constantAggregate elements => exact ⟨_, holds_composite hn hle hid elements h hwf.2⟩
  | constantAggregateZero =>
    refine ⟨⟨physicalType n components, fun _ => 0⟩, rfl, rfl, ?_, ?_⟩
    · intro _ i hi
      rw [h i hi]
      rfl
    · intro _ _ i hi
      rw [h i hi]
      rfl
  | undef =>
    refine ⟨⟨physicalType n components, T.undef (physicalType n components)⟩, rfl, rfl, ?_, ?_⟩
    · intro hundef
      cases hundef
    · intro _ hundef
      cases hundef

/-- The other operands are constants of 8 bits, and their id is not defined. -/
theorem get_idOf_of_not_hasId (T : Target) (s : Emitter) (env : Env)
    (hwf : a.WellFormed result components) (hpos : 0 < components) (hid : ¬ a.HasId) :
    n = 8 ∧ ¬ a.IsRegister ∧ env.get T (a.idOf s components) = none := by
  have hnone : ∀ elements : List (BitVec n), n = 8 → elements.length = components →
      env.get T (compositeConstant components elements) = none := by
    rintro elements rfl hlength
    rw [compositeConstant, Env.get, if_pos]
    obtain ⟨c, hc⟩ := List.exists_mem_of_length_pos (by omega : 0 < elements.length)
    exact List.mem_map.mpr ⟨c, hc, rfl⟩
  cases a with
  | register v isUndefined => exact absurd trivial hid
  | constantInt c =>
    have heq : n = 8 := by_contra hid
    subst heq
    exact ⟨rfl, id, rfl⟩
  | constantDataVector elements =>
    have heq : n = 8 := by_contra hid
    exact ⟨heq, id, hnone elements heq hwf.2⟩
  | constantAggregate elements =>
    have heq : n = 8 := by_contra hid
    exact ⟨heq, id, hnone elements heq hwf.2⟩
  | constantAggregateZero => exact absurd trivial hid
  | undef => exact absurd trivial hid

end Operands

section Steps

variable {T : Target} {s} {env₀ env : Env} {result components : Nat} {operands : List (LlvmValue n)}
  {x : LlvmValue n → Nat → BitVec n} {a : LlvmValue n}

/-- What an instruction ends up with. -/
def Gives (T : Target) (s : Emitter) (env₀ : Env) (result : Nat) (r : Register) : Prop :=
  ∃ id env, s.valueMap result = some id ∧ run T s.operations env₀ = some env ∧
    env.get T id = some r

/-- The emitted operations give the result once. -/
theorem Gives.unique {r r' : Register} (h : Gives T s env₀ result r)
    (h' : Gives T s env₀ result r') : r = r' := by
  obtain ⟨id, env, hid, hrun, hget⟩ := h
  obtain ⟨id', env', hid', hrun', hget'⟩ := h'
  rw [hid] at hid'
  cases hid'
  rw [hrun] at hrun'
  cases hrun'
  rw [hget] at hget'
  exact Option.some.inj hget'

/-- The id of an operand stays when nothing but the instruction gets a new one. -/
theorem idOf_congr {s' : Emitter} (hmap : ∀ v, v ≠ result → s'.valueMap v = s.valueMap v)
    (hwf : a.WellFormed result components) : a.idOf s' components = a.idOf s components := by
  cases a with
  | register v isUndefined => rw [LlvmValue.idOf, LlvmValue.idOf, hmap v hwf]
  | constantInt c => rfl
  | constantDataVector elements => rfl
  | constantAggregate elements => rfl
  | constantAggregateZero => rfl
  | undef => rfl

/-- A value stays represented when only the result gets an id and no register changes. -/
theorem represented_congr {s' : Emitter} {env' : Env} {y : Nat → BitVec n}
    (hmap : ∀ v, v ≠ result → s'.valueMap v = s.valueMap v)
    (henv : ∀ id r, env.get T id = some r → env'.get T id = some r)
    (hwf : a.WellFormed result components) (h : a.Represented T s env components y) :
    a.Represented T s' env' components y := by
  cases a with
  | register v isUndefined =>
    obtain ⟨id, r, hid, hget, h⟩ := h
    exact ⟨id, r, by rw [hmap v hwf, hid], henv id r hget, h⟩
  | constantInt c => exact h
  | constantDataVector elements => exact h
  | constantAggregate elements => exact h
  | constantAggregateZero => exact h
  | undef => exact h

/-- The instruction gets its id. -/
theorem Ready.run_allocateFor (h : Ready T s env₀ env result components operands x)
    (hwf : ∀ a ∈ operands, a.WellFormed result components) (opcode : Opcode) (type : RegisterType) :
    ∃ j s', (allocateFor opcode result type).run s = (⟨opcode, .result j, type, []⟩, s') ∧
      s'.valueMap result = some (.result j) ∧ s'.operations = s.operations ∧
      (∀ v, v ≠ result → s'.valueMap v = s.valueMap v) ∧
      Ready T s' env₀ env result components operands x := by
  cases hown : s.valueMap result with
  | some id =>
    obtain ⟨j, hj, rfl, hnew⟩ := h.own id hown
    refine ⟨j, s, ?_, hown, rfl, fun _ _ => rfl, h⟩
    rw [allocateFor, run_bind, run_getIdForRegister_of_some s hown]
    rfl
  | none =>
    have hmap : ∀ v, v ≠ result →
        Function.update s.valueMap result (some (.result s.nextId)) v = s.valueMap v :=
      fun v hv => Function.update_of_ne hv ..
    refine ⟨s.nextId,
      { s with
        nextId := s.nextId + 1
        valueMap := Function.update s.valueMap result (some (.result s.nextId)) },
      ?_, Function.update_self .., rfl, hmap, ?_⟩
    · rw [allocateFor, run_bind, run_getIdForRegister_of_none s hown]
      rfl
    · constructor
      · exact h.run
      · exact fun id hid => h.fresh id (Nat.le_of_succ_le hid)
      · intro id hid
        simp only [Function.update_self, Option.some.injEq] at hid
        exact ⟨s.nextId, Nat.lt_succ_self _, hid.symm, h.fresh _ (Nat.le_refl _)⟩
      · exact fun a ha => represented_congr hmap (fun _ _ hget => hget) (hwf a ha) (h.operands a ha)

/-- An id is taken. -/
theorem Ready.allocated (h : Ready T s env₀ env result components operands x) :
    Ready T { s with nextId := s.nextId + 1 } env₀ env result components operands x := by
  constructor
  · exact h.run
  · exact fun id hid => h.fresh id (Nat.le_of_succ_le hid)
  · intro id hid
    obtain ⟨j, hj, hrest⟩ := h.own id hid
    exact ⟨j, Nat.lt_succ_of_lt hj, hrest⟩
  · exact h.operands

/-- The next id is not that of the instruction. -/
theorem Ready.own_ne (h : Ready T s env₀ env result components operands x) :
    s.valueMap result ≠ some (.result s.nextId) := by
  intro hown
  obtain ⟨j, hj, heq, -⟩ := h.own _ hown
  cases heq
  omega

/-- An intermediate result is added. -/
theorem Ready.intermediate (h : Ready T s env₀ env result components operands x)
    (hwf : ∀ a ∈ operands, a.WellFormed result components) {op : Instruction}
    {registers : List Register} {r : Register} {j : Nat} (hj : op.id = .result j)
    (hnew : env j = none) (hlt : j < s.nextId) (hne : s.valueMap result ≠ some (.result j))
    (harguments : op.arguments.mapM (env.get T) = some registers)
    (hopcode : op.opcode ≠ .assumeTrue) (hvalue : op.value T registers = some r) :
    ∃ env', Ready T { s with operations := s.operations ++ [op] } env₀ env' result components
        operands x ∧ (∀ id r, env.get T id = some r → env'.get T id = some r) ∧
      env' = Function.update env j (some r) := by
  have henv : ∀ id r', env.get T id = some r' →
      Env.get T (Function.update env j (some r)) id = some r' :=
    fun id r' hget => get_update hnew hget
  refine ⟨_, ?_, henv, rfl⟩
  constructor
  · exact run_append_step h.run harguments hopcode hvalue hj hnew
  · intro id hid
    simp only at hid
    rw [Function.update_of_ne (by omega)]
    exact h.fresh id hid
  · intro id hid
    obtain ⟨j', hj', rfl, hnone⟩ := h.own id hid
    refine ⟨j', hj', rfl, ?_⟩
    rw [Function.update_of_ne]
    · exact hnone
    · rintro rfl
      exact hne hid
  · exact fun a ha => represented_congr (fun _ _ => rfl) henv (hwf a ha) (h.operands a ha)

/-- The instruction itself is added. -/
theorem Ready.finish (h : Ready T s env₀ env result components operands x) {op : Instruction}
    {registers : List Register} {r : Register} {j : Nat} (hj : op.id = .result j)
    (hmap : s.valueMap result = some (.result j))
    (harguments : op.arguments.mapM (env.get T) = some registers)
    (hopcode : op.opcode ≠ .assumeTrue) (hvalue : op.value T registers = some r) :
    Gives T { s with operations := s.operations ++ [op] } env₀ result r := by
  obtain ⟨j', -, heq, hnew⟩ := h.own _ hmap
  cases heq
  exact ⟨.result j, _, hmap, run_append_step h.run harguments hopcode hvalue hj hnew,
    Function.update_self ..⟩

/-- An instruction with an argument that is not defined. -/
theorem Ready.not_gives (h : Ready T s env₀ env result components operands x) {op : Instruction}
    (hargument : op.arguments.mapM (env.get T) = none) (r : Register) :
    ¬ Gives T { s with operations := s.operations ++ [op] } env₀ result r := by
  rintro ⟨id, env', -, hrun, -⟩
  rw [run_append_of_argument h.run hargument] at hrun
  cases hrun

/-- Extending an operand: its low bits, extended. -/
theorem Ready.extended (h : Ready T s env₀ env result components operands x) (hn : 1 ≤ n)
    (hle : n ≤ 64) (hwf : ∀ a ∈ operands, a.WellFormed result components) (ha : a ∈ operands)
    {r : Register} (hr : env.get T (a.idOf s components) = some r)
    (htype : r.type = physicalType n components) {bits : Nat} (hbits : bits ≤ n) (isSigned : Bool) :
    ∃ id s' env' r', (buildNaturallyExtendedValue components a bits isSigned).run s = (id, s') ∧
      s'.valueMap = s.valueMap ∧ (∀ j < s.nextId, env' j = env j ∧ j < s'.nextId) ∧
      Ready T s' env₀ env' result components operands x ∧
      (∀ id r, env.get T id = some r → env'.get T id = some r) ∧ env'.get T id = some r' ∧
      r'.type = physicalType n components ∧
      ∀ i, r'.word (physicalIntegerBitWidth n) i =
        extend isSigned bits (r.word (physicalIntegerBitWidth n) i) := by
  have hw := le_physicalIntegerBitWidth hn hle
  by_cases hphysical : bits = physicalIntegerBitWidth n
  · refine ⟨a.idOf s components, s, env, r, ?_, rfl, fun j hj => ⟨rfl, hj⟩, h,
      fun _ _ hget => hget, hr, htype, ?_⟩
    · rw [buildNaturallyExtendedValue, run_bind, run_getIdForValue (h.operands a ha),
        if_pos hphysical]
      rfl
    · intro i
      subst hphysical
      rw [extend_self]
  · have hnew := h.fresh s.nextId (Nat.le_refl _)
    let op : Instruction :=
      ⟨if isSigned then .bitFieldSExtract else .bitFieldUExtract, .result s.nextId,
        physicalType n components, [a.idOf s components, makeUintConstant 0, makeUintConstant bits]⟩
    have harguments : op.arguments.mapM (env.get T) =
        some [r, ⟨⟨32, 1⟩, fun _ => 0⟩, ⟨⟨32, 1⟩, fun _ => bits⟩] := by
      simp only [op, makeUintConstant, List.mapM_cons, List.mapM_nil, hr]
      rfl
    have hvalue : op.value T [r, ⟨⟨32, 1⟩, fun _ => 0⟩, ⟨⟨32, 1⟩, fun _ => bits⟩] =
        some ⟨physicalType n components, fun i =>
          (bitFieldExtract (T.undefined _) isSigned (r.word (physicalIntegerBitWidth n) i)
            0 bits).toNat⟩ := by
      cases isSigned with
      | true => exact if_pos ⟨htype, rfl, rfl⟩
      | false => exact if_pos ⟨htype, rfl, rfl⟩
    have hopcode : op.opcode ≠ .assumeTrue := by
      cases isSigned with
      | true => exact Opcode.noConfusion
      | false => exact Opcode.noConfusion
    obtain ⟨env', hready', hmono, rfl⟩ := h.allocated.intermediate hwf rfl hnew
      (Nat.lt_succ_self _) h.own_ne harguments hopcode hvalue
    refine ⟨.result s.nextId,
      { s with
        nextId := s.nextId + 1
        operations := s.operations ++ [op] },
      _, _, ?_, rfl, ?_, hready', hmono, Function.update_self .., rfl, ?_⟩
    · rw [buildNaturallyExtendedValue, run_bind, run_getIdForValue (h.operands a ha),
        if_neg hphysical]
      rfl
    · intro j hj
      exact ⟨Function.update_of_ne (Nat.ne_of_lt hj) .., Nat.lt_succ_of_lt hj⟩
    · intro i
      rw [Register.word]
      simp only
      rw [bitFieldExtract_low _ _ _ (by omega), BitVec.ofNat_toNat, BitVec.setWidth_eq]

/-- An operand, extended where the instruction depends on the width. -/
def operandId (components : Nat) (sensitive isSigned : Bool) (a : LlvmValue n) : Emit SpvId :=
  if sensitive then buildNaturallyExtendedValue components a n isSigned
  else getIdForValue components a

/-- The word that an instruction gets from an operand. -/
def operandWord {w : Nat} (n : Nat) (sensitive isSigned : Bool) (x : BitVec w) : BitVec w :=
  if sensitive then extend isSigned n x else x

/-- An operand is emitted as a register that holds its value in the physical width. -/
theorem Ready.run_operandId (h : Ready T s env₀ env result components operands x) (hn : 1 ≤ n)
    (hle : n ≤ 64) (hwf : ∀ a ∈ operands, a.WellFormed result components) (ha : a ∈ operands)
    {r : Register} (hr : env.get T (a.idOf s components) = some r)
    (htype : r.type = physicalType n components) (sensitive isSigned : Bool) :
    ∃ id s' env' r', (operandId components sensitive isSigned a).run s = (id, s') ∧
      s'.valueMap = s.valueMap ∧ (∀ j < s.nextId, env' j = env j ∧ j < s'.nextId) ∧
      Ready T s' env₀ env' result components operands x ∧
      (∀ id r, env.get T id = some r → env'.get T id = some r) ∧ env'.get T id = some r' ∧
      r'.type = physicalType n components ∧
      ∀ i, r'.word (physicalIntegerBitWidth n) i =
        operandWord n sensitive isSigned (r.word (physicalIntegerBitWidth n) i) := by
  cases sensitive with
  | true => exact h.extended hn hle hwf ha hr htype (Nat.le_refl n) isSigned
  | false =>
    exact ⟨a.idOf s components, s, env, r, run_getIdForValue (h.operands a ha), rfl,
      fun j hj => ⟨rfl, hj⟩, h, fun _ _ hget => hget, hr, htype, fun _ => rfl⟩

/-- The end of an instruction with two operands. -/
def emitOperands (components : Nat) (sensitive isSigned : Bool) (a b : LlvmValue n)
    (op : Instruction) : Emit SpvId := do
  let id0 ← operandId components sensitive isSigned a
  let id1 ← operandId components sensitive isSigned b
  add { op with arguments := [id0, id1] }
  return op.id

/-- Two operands are emitted one after the other, and the second leaves the first as it was. -/
theorem Ready.gives_emitOperands {b : LlvmValue n}
    (h : Ready T s env₀ env result components operands x) (hn : 1 ≤ n)
    (hle : n ≤ 64) (hwf : ∀ a ∈ operands, a.WellFormed result components) (ha : a ∈ operands)
    (hb : b ∈ operands) {ra rb : Register} (hra : env.get T (a.idOf s components) = some ra)
    (hrb : env.get T (b.idOf s components) = some rb)
    (hatype : ra.type = physicalType n components) (hbtype : rb.type = physicalType n components)
    (sensitive isSigned : Bool) {op : Instruction} {j : Nat} (hj : op.id = .result j)
    (hmap : s.valueMap result = some (.result j)) (hopcode : op.opcode ≠ .assumeTrue) :
    ∃ ra' rb' s' arguments, ra'.type = physicalType n components ∧
      rb'.type = physicalType n components ∧
      (∀ i, ra'.word (physicalIntegerBitWidth n) i =
        operandWord n sensitive isSigned (ra.word (physicalIntegerBitWidth n) i)) ∧
      (∀ i, rb'.word (physicalIntegerBitWidth n) i =
        operandWord n sensitive isSigned (rb.word (physicalIntegerBitWidth n) i)) ∧
      (emitOperands components sensitive isSigned a b op).run s = (op.id, s') ∧
      (∀ r, ({ op with arguments := arguments }).value T [ra', rb'] = some r →
        Gives T s' env₀ result r) ∧
      (({ op with arguments := arguments }).value T [ra', rb'] = none →
        ∀ r, ¬ Gives T s' env₀ result r) := by
  obtain ⟨id0, s1, env1, ra', hrun0, hmap1, -, h1, hmono1, hget0, htype0, hword0⟩ :=
    h.run_operandId hn hle hwf ha hra hatype sensitive isSigned
  have hrb1 : env1.get T (b.idOf s1 components) = some rb := by
    have hcongr : b.idOf s1 components = b.idOf s components :=
      idOf_congr (fun v _ => by rw [hmap1]) (hwf b hb)
    rw [hcongr]
    exact hmono1 _ _ hrb
  obtain ⟨id1, s2, env2, rb', hrun1, hmap2, -, h2, hmono2, hget1, htype1, hword1⟩ :=
    h1.run_operandId hn hle hwf hb hrb1 hbtype sensitive isSigned
  have harguments : ({ op with arguments := [id0, id1] } : Instruction).arguments.mapM
    (env2.get T) = some [ra', rb'] := by
    simp only [List.mapM_cons, List.mapM_nil, hmono2 _ _ hget0, hget1]
    rfl
  refine ⟨ra', rb',
    { s2 with operations := s2.operations ++ [{ op with arguments := [id0, id1] }] },
    [id0, id1], htype0, htype1, hword0, hword1, ?_, ?_, ?_⟩
  · rw [emitOperands, run_bind, hrun0, run_bind]
    simp only
    rw [hrun1]
    rfl
  · intro r hvalue
    exact h2.finish hj (by rw [hmap2, hmap1, hmap]) harguments hopcode hvalue
  · rintro hvalue r ⟨id, env', -, hrun, -⟩
    rw [run_append_of_value h2.run harguments hopcode hvalue] at hrun
    cases hrun

/-- An operand of 8 bits is not extended. -/
theorem run_operandId_eight (hn : n = 8) (h : a.Represented T s env components (x a))
    (sensitive isSigned : Bool) :
    (operandId components sensitive isSigned a).run s = (a.idOf s components, s) := by
  subst hn
  cases sensitive with
  | true =>
    rw [operandId, if_pos rfl, buildNaturallyExtendedValue, run_bind,
      run_getIdForValue h]
    rfl
  | false => exact run_getIdForValue h

/-- An operand without an id leaves the instruction undefined. -/
theorem Ready.not_gives_emitOperands {b : LlvmValue n}
    (h : Ready T s env₀ env result components operands x) (hpos : 0 < components)
    (hwf : ∀ a ∈ operands, a.WellFormed result components) (ha : a ∈ operands)
    (hb : b ∈ operands) (hid : ¬ (a.HasId ∧ b.HasId)) (sensitive isSigned : Bool)
    (op : Instruction) (r : Register) :
    ((emitOperands components sensitive isSigned a b op).run s).1 = op.id ∧
      ¬ Gives T ((emitOperands components sensitive isSigned a b op).run s).2 env₀ result r := by
  have hnone : n = 8 ∧ [a.idOf s components, b.idOf s components].mapM (env.get T) = none := by
    rcases not_and_or.mp hid with hida | hidb
    · obtain ⟨hn, -, hget⟩ :=
        get_idOf_of_not_hasId T s env (hwf a ha) hpos hida
      refine ⟨hn, ?_⟩
      rw [List.mapM_cons, hget]
      rfl
    · obtain ⟨hn, -, hget⟩ :=
        get_idOf_of_not_hasId T s env (hwf b hb) hpos hidb
      refine ⟨hn, ?_⟩
      rw [List.mapM_cons, List.mapM_cons, hget]
      cases env.get T (a.idOf s components) with
      | none => rfl
      | some ra => rfl
  have hrun : (emitOperands components sensitive isSigned a b op).run s =
      (op.id, { s with
        operations := s.operations ++
          [{ op with arguments := [a.idOf s components, b.idOf s components] }] }) := by
    rw [emitOperands, run_bind,
      run_operandId_eight hnone.1 (h.operands a ha) sensitive isSigned, run_bind,
      run_operandId_eight hnone.1 (h.operands b hb) sensitive isSigned]
    rfl
  rw [hrun]
  exact ⟨rfl, h.not_gives hnone.2 r⟩

end Steps

variable {T : Target} {result components : Nat} {operands : List (LlvmValue n)}

/-- An emitter at an instruction all of whose operands are in one register. -/
def startEmitter (result : Nat) : Emitter :=
  ⟨1, fun v => if v = result then none else some (.result 0), []⟩

/-- The register holds the numbers `f`. -/
def startEnv (n components : Nat) (f : Nat → Nat) : Env :=
  Function.update (fun _ => none) 0 (some ⟨physicalType n components, f⟩)

def startValue (f : Nat → Nat) : LlvmValue n → Nat → BitVec n
  | .register _ _ => fun i => BitVec.ofNat n (f i)
  | constant => fun i => constant.element i

/-- Before the instruction every operand is represented. -/
theorem ready_start (f : Nat → Nat) (hwf : ∀ a ∈ operands, a.WellFormed result components) :
    Ready T (startEmitter result) (startEnv n components f)
      (startEnv n components f) result components operands (startValue f) := by
  constructor
  · rfl
  · intro id hid
    have hne : id ≠ 0 := by
      have hle : 1 ≤ id := hid
      omega
    rw [startEnv, Function.update_of_ne hne]
  · intro id hid
    rw [startEmitter] at hid
    simp at hid
  · intro a ha
    have hresult := hwf a ha
    cases a with
    | register v isUndefined =>
      exact ⟨.result 0, ⟨physicalType n components, f⟩, if_neg hresult, rfl, rfl, fun _ _ => rfl⟩
    | constantInt c => exact fun _ _ => rfl
    | constantDataVector elements => exact fun _ _ => rfl
    | constantAggregate elements => exact fun _ _ => rfl
    | constantAggregateZero => exact fun _ _ => rfl
    | undef => trivial

/-- The register of an operand at the start. -/
theorem holds_start (f : Nat → Nat) {v : Nat} {isUndefined : Bool} (hv : v ≠ result) :
    (startEnv n components f).get T
      ((LlvmValue.register v isUndefined : LlvmValue n).idOf (startEmitter result) components) =
      some ⟨physicalType n components, f⟩ := by
  have hid : (startEmitter result).valueMap v = some (.result 0) := if_neg hv
  rw [LlvmValue.idOf, hid]
  rfl

/-- An emission that never defines the instruction does not keep its meaning. -/
theorem not_lowers {m : Nat} {emit : Emit SpvId}
    {llvm : (LlvmValue n → BitVec n) → Option (BitVec m)}
    (hwf : ∀ a ∈ operands, a.WellFormed result components)
    (h : ∀ u undef s env₀ env x, Ready (target u undef) s env₀ env result components operands x →
      (emit.run s).1 ≠ .null ∧ ∀ r, ¬ Gives (target u undef) (emit.run s).2 env₀ result r) :
    ¬ Lowers emit result components operands llvm := by
  intro hlowers
  let u : ∀ w, Undefined w := fun w => ⟨fun a _ => a, fun a _ _ => a, id, id⟩
  have hready := ready_start (T := target u fun _ _ => 0) (fun _ => 0) hwf
  obtain ⟨hne, hnot⟩ := h _ _ _ _ _ _ hready
  obtain ⟨id, env, r, hid, hrun, hget, -⟩ := hlowers _ _ _ _ _ _ hready hne
  exact hnot r ⟨id, env, hid, hrun, hget⟩

section Binary

variable {u : ∀ w, Undefined w} {undef : RegisterType → Nat → Nat} {s} {env₀ env : Env}
  {a b : LlvmValue n} {x : LlvmValue n → Nat → BitVec n}

/-- An instruction with two operands. -/
def emitTwo (opcode : Opcode) (result : Nat) (type : RegisterType) (components : Nat)
    (sensitive isSigned : Bool) (a b : LlvmValue n) : Emit SpvId := do
  let op ← allocateFor opcode result type
  emitOperands components sensitive isSigned a b op

/-- The operands and what is known of them. -/
structure Operands (n result components : Nat) (a b : LlvmValue n) : Prop where
  one_le : 1 ≤ n
  le : n ≤ 64
  pos : 0 < components
  wf : ∀ y ∈ [a, b], y.WellFormed result components

/-- Both operands of the instruction hold their values. -/
theorem Operands.exists_holds {T : Target} (hI : Operands n result components a b)
    (h : Ready T s env₀ env result components [a, b] x) (ha : a.HasId) (hb : b.HasId) :
    ∃ ra rb, Holds T env components (a.idOf s components) a (x a) ra ∧
      Holds T env components (b.idOf s components) b (x b) rb := by
  have hina : a ∈ [a, b] := List.mem_cons_self ..
  have hinb : b ∈ [a, b] := List.mem_cons_of_mem _ (List.mem_singleton_self b)
  obtain ⟨ra, hra⟩ := LlvmBuiltins.exists_holds hI.one_le hI.le (hI.wf a hina)
    (h.operands a hina) ha
  obtain ⟨rb, hrb⟩ := LlvmBuiltins.exists_holds hI.one_le hI.le (hI.wf b hinb)
    (h.operands b hinb) hb
  exact ⟨ra, rb, hra, hrb⟩

/-- Without an id for an operand the instruction is never defined. -/
theorem Operands.not_gives {T : Target} (hI : Operands n result components a b)
    (h : Ready T s env₀ env result components [a, b] x) (hid : ¬ (a.HasId ∧ b.HasId))
    (opcode : Opcode) (type : RegisterType) (sensitive isSigned : Bool) :
    ((emitTwo opcode result type components sensitive isSigned a b).run s).1 ≠ .null ∧
      ∀ r, ¬ Gives T
      ((emitTwo opcode result type components sensitive isSigned a b).run s).2 env₀ result r := by
  obtain ⟨j, s', hrun, -, -, -, hready⟩ := h.run_allocateFor hI.wf opcode type
  have hnot := hready.not_gives_emitOperands hI.pos hI.wf (List.mem_cons_self ..)
    (List.mem_cons_of_mem _ (List.mem_singleton_self b)) hid sensitive isSigned
    ⟨opcode, .result j, type, []⟩
  rw [emitTwo, run_bind, hrun]
  refine ⟨?_, fun r => (hnot r).2⟩
  simp only
  rw [(hnot ⟨type, fun _ => 0⟩).1]
  exact SpvId.noConfusion

/-- What an instruction with two operands ends up with. -/
theorem Operands.gives {T : Target} (hI : Operands n result components a b)
    (h : Ready T s env₀ env result components [a, b] x) {ra rb : Register}
    (hra : env.get T (a.idOf s components) = some ra)
    (hrb : env.get T (b.idOf s components) = some rb)
    (hatype : ra.type = physicalType n components) (hbtype : rb.type = physicalType n components)
    {opcode : Opcode} (hopcode : opcode ≠ .assumeTrue) (type : RegisterType)
    (sensitive isSigned : Bool) :
    ((emitTwo opcode result type components sensitive isSigned a b).run s).1 ≠ .null ∧
    ∃ ra' rb' id arguments, ra'.type = physicalType n components ∧
      rb'.type = physicalType n components ∧
      (∀ i, ra'.word (physicalIntegerBitWidth n) i =
        operandWord n sensitive isSigned (ra.word (physicalIntegerBitWidth n) i)) ∧
      (∀ i, rb'.word (physicalIntegerBitWidth n) i =
        operandWord n sensitive isSigned (rb.word (physicalIntegerBitWidth n) i)) ∧
      (∀ r, (⟨opcode, id, type, arguments⟩ : Instruction).value T [ra', rb'] = some r → Gives T
        ((emitTwo opcode result type components sensitive isSigned a b).run s).2 env₀ result r) ∧
      ((⟨opcode, id, type, arguments⟩ : Instruction).value T [ra', rb'] = none → ∀ r, ¬ Gives T
        ((emitTwo opcode result type components sensitive isSigned a b).run s).2 env₀
          result r) := by
  obtain ⟨j, s', hrun, hmap, -, hmaps, hready⟩ := h.run_allocateFor hI.wf opcode type
  have hina : a ∈ [a, b] := List.mem_cons_self ..
  have hinb : b ∈ [a, b] := List.mem_cons_of_mem _ (List.mem_singleton_self b)
  have hra' : env.get T (a.idOf s' components) = some ra := by
    rw [idOf_congr hmaps (hI.wf a hina), hra]
  have hrb' : env.get T (b.idOf s' components) = some rb := by
    rw [idOf_congr hmaps (hI.wf b hinb), hrb]
  have hj : (⟨opcode, .result j, type, []⟩ : Instruction).id = .result j := rfl
  obtain ⟨ra', rb', s'', arguments, hta, htb, hwa, hwb, hrun', hsome, hnone⟩ :=
    hready.gives_emitOperands hI.one_le hI.le hI.wf hina hinb hra' hrb' hatype hbtype sensitive
      isSigned hj hmap hopcode
  have hall : (emitTwo opcode result type components sensitive isSigned a b).run s =
      (.result j, s'') := by
    rw [emitTwo, run_bind, hrun]
    exact hrun'
  rw [hall]
  exact ⟨SpvId.noConfusion, ra', rb', .result j, arguments, hta, htb, hwa, hwb, hsome, hnone⟩

/-- The word of a constant is its element. -/
def WordOf {w : Nat} (a : LlvmValue n) (i : Nat) (r : BitVec w) : Prop :=
  ¬ a.IsRegister → r.toNat = (a.element i).toNat

/-- A constant is what its elements say. -/
theorem represented_constant {T : Target} {s : Emitter} {env : Env} {components : Nat}
    {y : Nat → BitVec n} {a : LlvmValue n} (h : a.Represented T s env components y)
    (hregister : ¬ a.IsRegister) (hundef : instructionIsUndefinedValue a = false) {i : Nat}
    (hi : i < components) : y i = a.element i := by
  cases a with
  | register v isUndefined => exact absurd trivial hregister
  | undef => cases hundef
  | constantInt c => exact h i hi
  | constantDataVector elements => exact h i hi
  | constantAggregate elements => exact h i hi
  | constantAggregateZero => exact h i hi

/-- A register that holds a defined value holds one of its words in each component. -/
theorem Holds.wordOf {T : Target} {s : Emitter} {env : Env} {id : SpvId} {r : Register}
    (hn : 1 ≤ n) (hle : n ≤ 64) (h : Holds T env components id a (x a) r)
    (hrepresented : a.Represented T s env components (x a))
    (hdefined : instructionIsUndefinedValue a = false) {i : Nat} (hi : i < components) :
    WordOf a i (r.word (physicalIntegerBitWidth n) i) := by
  intro hreg
  have hw := le_physicalIntegerBitWidth hn hle
  have hpow := Nat.pow_le_pow_right (show 0 < 2 by omega) hw
  have hlt := (x a i).isLt
  rw [Register.word, h.clean hreg hdefined i hi, BitVec.toNat_ofNat,
    Nat.mod_eq_of_lt (show (x a i).toNat < 2 ^ physicalIntegerBitWidth n by omega),
    represented_constant hrepresented hreg hdefined hi]

/-- Such a word has no upper bits. -/
theorem WordOf.low {w : Nat} {a : LlvmValue n} {i : Nat} {r : BitVec w} (h : WordOf a i r)
    (hreg : ¬ a.IsRegister) : r.setWidth n = a.element i ∧ r.toNat = (r.setWidth n).toNat := by
  have hr := h hreg
  have heq : r.setWidth n = a.element i := by
    apply BitVec.eq_of_toNat_eq
    rw [BitVec.toNat_setWidth, hr, Nat.mod_eq_of_lt (a.element i).isLt]
  exact ⟨heq, by rw [heq, hr]⟩

/-- The word of a narrow width is the low part of the word. -/
theorem setWidth_word {r : Register} {w : Nat} (h : n ≤ w) (i : Nat) :
    (r.word w i).setWidth n = r.word n i := BitVec.setWidth_ofNat_of_le h _

/-- Emitting defines an instruction whose components are computed from those of its operands. -/
def Computes (emit : Emit SpvId) (result components : Nat) (a b : LlvmValue n)
    (g : (∀ w, Undefined w) → BitVec (physicalIntegerBitWidth n) →
      BitVec (physicalIntegerBitWidth n) → BitVec (physicalIntegerBitWidth n)) : Prop :=
  ∀ u undef s env₀ env x, Ready (target u undef) s env₀ env result components [a, b] x →
    ∃ ra rb, Holds (target u undef) env components (a.idOf s components) a (x a) ra ∧
      Holds (target u undef) env components (b.idOf s components) b (x b) rb ∧
      (emit.run s).1 ≠ .null ∧
      ∃ r, Gives (target u undef) (emit.run s).2 env₀ result r ∧
        r.type = physicalType n components ∧
        ∀ i < components, r.lane i = (g u (ra.word _ i) (rb.word _ i)).toNat

/-- An instruction from words to a word. -/
theorem Operands.computes (hI : Operands n result components a b) (hids : a.HasId ∧ b.HasId)
    {opcode : Opcode} (hopcode : opcode ≠ .assumeTrue) (sensitive isSigned : Bool)
    {f : (∀ w, Undefined w) → BitVec (physicalIntegerBitWidth n) →
      BitVec (physicalIntegerBitWidth n) → BitVec (physicalIntegerBitWidth n)}
    (hf : ∀ u undef, opcode.word (target u undef) (physicalIntegerBitWidth n) = some (f u)) :
    Computes (emitTwo opcode result (physicalType n components) components sensitive isSigned a b)
      result components a b fun u ra rb =>
        f u (operandWord n sensitive isSigned ra) (operandWord n sensitive isSigned rb) := by
  intro u undef s env₀ env x hready
  obtain ⟨ra, rb, hra, hrb⟩ := hI.exists_holds hready hids.1 hids.2
  obtain ⟨hne, ra', rb', id, arguments, hta, htb, hwa, hwb, hgives, -⟩ :=
    hI.gives hready hra.get hrb.get hra.type hrb.type hopcode (physicalType n components) sensitive
      isSigned
  refine ⟨ra, rb, hra, hrb, hne, _, hgives _ (value_word (hf u undef) hta htb), rfl, fun i _ => ?_⟩
  have hwa := hwa i
  have hwb := hwb i
  simp only [physicalType] at hwa hwb ⊢
  rw [hwa, hwb]

/-- It keeps the meaning when its low bits do. -/
theorem Computes.lowers (hI : Operands n result components a b) {emit : Emit SpvId}
    {g : (∀ w, Undefined w) → BitVec (physicalIntegerBitWidth n) →
      BitVec (physicalIntegerBitWidth n) → BitVec (physicalIntegerBitWidth n)}
    (h : Computes emit result components a b g) {op : BinaryOps}
    (hlow : instructionIsUndefinedValue a = false → instructionIsUndefinedValue b = false →
      ∀ u, ∀ i < components, ∀ ra rb z, WordOf a i ra → WordOf b i rb →
        op.result (ra.setWidth n) (rb.setWidth n) = some z → (g u ra rb).setWidth n = z) :
    Lowers emit result components [a, b] fun x => op.result (x a) (x b) := by
  intro u undef s env₀ env x hready _
  obtain ⟨ra, rb, hra, hrb, -, r, ⟨id, env', hid, hrun, hget⟩, htype, hlane⟩ :=
    h u undef s env₀ env x hready
  refine ⟨id, env', r, hid, hrun, hget, htype, fun hdefined i hi z hz => ?_⟩
  have hina : a ∈ [a, b] := List.mem_cons_self ..
  have hinb : b ∈ [a, b] := List.mem_cons_of_mem _ (List.mem_singleton_self b)
  have hda := hdefined a hina
  have hdb := hdefined b hinb
  have hw := le_physicalIntegerBitWidth hI.one_le hI.le
  have hvalue := hlow hda hdb u i hi (ra.word _ i) (rb.word _ i) z
    (hra.wordOf hI.one_le hI.le (hready.operands a hina) hda hi)
    (hrb.wordOf hI.one_le hI.le (hready.operands b hinb) hdb hi)
  rw [setWidth_word hw, setWidth_word hw, hra.word hda i hi, hrb.word hdb i hi] at hvalue
  rw [← hvalue hz, Register.word, hlane i hi, BitVec.ofNat_toNat]

/-- The word of an operand when all registers hold the number `f`. -/
def startWord (w : Nat) (a : LlvmValue n) (f i : Nat) : BitVec w :=
  match a with
  | .register _ _ => BitVec.ofNat w f
  | constant => BitVec.ofNat w (constant.element i).toNat

/-- The value an operand starts with is one of its words. -/
theorem wordOf_startWord {w : Nat} (h : n ≤ w) (a : LlvmValue n) (f i : Nat) :
    WordOf a i (startWord w a f i) := by
  have hpow := Nat.pow_le_pow_right (show 0 < 2 by omega) h
  have hmod : ∀ c : BitVec n, (BitVec.ofNat w c.toNat).toNat = c.toNat := by
    intro c
    have hlt := c.isLt
    rw [BitVec.toNat_ofNat, Nat.mod_eq_of_lt (by omega)]
  intro hreg
  cases a with
  | register v isUndefined => exact absurd trivial hreg
  | constantInt c => exact hmod _
  | constantDataVector elements => exact hmod _
  | constantAggregate elements => exact hmod _
  | constantAggregateZero => exact hmod _
  | undef => exact hmod _

/-- A register starts with the given bits. -/
theorem startWord_register {w : Nat} {a : LlvmValue n} (h : a.IsRegister) (f i : Nat) :
    startWord w a f i = BitVec.ofNat w f := by
  cases a with
  | register v isUndefined => rfl
  | constantInt c => cases h
  | constantDataVector elements => cases h
  | constantAggregate elements => cases h
  | constantAggregateZero => cases h
  | undef => cases h

/-- At the start, the word of a register is the word its operand starts with. -/
theorem word_of_start {T : Target} {f : Nat} {r : Register} (hn : 1 ≤ n) (hle : n ≤ 64)
    (hwf : a.WellFormed result components)
    (hrepresented : a.Represented T (startEmitter result) (startEnv n components fun _ => f)
      components (startValue (fun _ => f) a))
    (hr : Holds T (startEnv n components fun _ => f) components
      (a.idOf (startEmitter result) components) a (startValue (fun _ => f) a) r)
    (hdefined : instructionIsUndefinedValue a = false) {i : Nat} (hi : i < components) :
    r.word _ i = startWord (physicalIntegerBitWidth n) a f i := by
  have hw := le_physicalIntegerBitWidth hn hle
  by_cases hreg : a.IsRegister
  · rw [startWord_register hreg]
    cases a with
    | register v isUndefined =>
      have hget := hr.get
      rw [holds_start (fun _ => f) hwf] at hget
      cases hget
      rfl
    | constantInt c => cases hreg
    | constantDataVector elements => cases hreg
    | constantAggregate elements => cases hreg
    | constantAggregateZero => cases hreg
    | undef => cases hreg
  · apply BitVec.eq_of_toNat_eq
    rw [hr.wordOf (x := fun _ => _) hn hle hrepresented hdefined hi hreg,
      wordOf_startWord hw a f i hreg]

/-- Nothing else does. -/
theorem Computes.of_lowers (hI : Operands n result components a b) {emit : Emit SpvId}
    {g : (∀ w, Undefined w) → BitVec (physicalIntegerBitWidth n) →
      BitVec (physicalIntegerBitWidth n) → BitVec (physicalIntegerBitWidth n)}
    (h : Computes emit result components a b g) {op : BinaryOps}
    (hlowers : Lowers emit result components [a, b] fun x => op.result (x a) (x b))
    (hda : instructionIsUndefinedValue a = false) (hdb : instructionIsUndefinedValue b = false)
    (u : ∀ w, Undefined w) {i : Nat} (hi : i < components) (f : Nat) {z : BitVec n}
    (hz : op.result ((startWord (physicalIntegerBitWidth n) a f i).setWidth n)
      ((startWord (physicalIntegerBitWidth n) b f i).setWidth n) = some z) :
    (g u (startWord _ a f i) (startWord _ b f i)).setWidth n = z := by
  have hready := ready_start (T := target u fun _ _ => 0) (fun _ => f) hI.wf
  obtain ⟨ra', rb', hra', hrb', hne, r, hgives, -, hlane⟩ := h _ _ _ _ _ _ hready
  obtain ⟨id, env', r', hid, hrun, hget, -, hlow⟩ := hlowers _ _ _ _ _ _ hready hne
  have heq : r' = r := Gives.unique ⟨id, env', hid, hrun, hget⟩ hgives
  have hina : a ∈ [a, b] := List.mem_cons_self ..
  have hinb : b ∈ [a, b] := List.mem_cons_of_mem _ (List.mem_singleton_self b)
  have hw := le_physicalIntegerBitWidth hI.one_le hI.le
  have hwa := word_of_start hI.one_le hI.le (hI.wf a hina) (hready.operands a hina) hra' hda hi
  have hwb := word_of_start hI.one_le hI.le (hI.wf b hinb) (hready.operands b hinb) hrb' hdb hi
  have hxa := hra'.word hda i hi
  have hxb := hrb'.word hdb i hi
  rw [← setWidth_word hw, hwa] at hxa
  rw [← setWidth_word hw, hwb] at hxb
  have hdefined : ∀ y ∈ [a, b], instructionIsUndefinedValue y = false := by
    intro y hy
    rcases List.mem_cons.mp hy with rfl | hy
    · exact hda
    · rw [List.mem_singleton.mp hy]
      exact hdb
  rw [hxa, hxb] at hz
  have hresult := hlow hdefined i hi z hz
  rw [heq, Register.word, hlane i hi, hwa, hwb, BitVec.ofNat_toNat] at hresult
  exact hresult

end Binary

variable {I : BinaryInstruction} {opcode : Opcode} {sensitive isSigned : Bool} {s} {env₀ env : Env}
  {x : LlvmValue I.width → Nat → BitVec I.width}

/-- What a binary instruction emits for its operands. -/
abbrev emitTwoOf (I : BinaryInstruction) (opcode : Opcode) (sensitive isSigned : Bool) :
    Emit SpvId :=
  emitTwo opcode I.result (physicalType I.width I.components) I.components sensitive
    isSigned I.operand0 I.operand1

/-- With two defined operands the instruction is the operation of two. -/
theorem emitBinaryOperation_eq (h0 : instructionIsUndefinedValue I.operand0 = false)
    (h1 : instructionIsUndefinedValue I.operand1 = false) :
    emitBinaryOperation I opcode sensitive isSigned = emitTwoOf I opcode sensitive isSigned := by
  rw [emitBinaryOperation, h0, h1]
  rfl

/-- An undefined value has an id. -/
theorem hasId_of_undefined {n : Nat} {a : LlvmValue n} (h : instructionIsUndefinedValue a = true) :
    a.HasId := by
  cases a with
  | register v isUndefined => trivial
  | constantInt c => cases h
  | constantDataVector elements => cases h
  | constantAggregate elements => cases h
  | constantAggregateZero => trivial
  | undef => trivial

/-- With an undefined operand, the id of the other one is the id of the instruction, if it is
one. -/
theorem exists_forward
    (hready : Ready T s env₀ env I.result I.components [I.operand0, I.operand1] x)
    (h : ¬ (instructionIsUndefinedValue I.operand0 = false ∧
      instructionIsUndefinedValue I.operand1 = false)) :
    ∃ c ∈ [I.operand0, I.operand1], (c.HasId ↔ I.operand0.HasId ∧ I.operand1.HasId) ∧
      (emitBinaryOperation I opcode sensitive isSigned).run s =
        if c.idOf s I.components ≠ .null then
          (c.idOf s I.components, { s with
            valueMap := Function.update s.valueMap I.result (some (c.idOf s I.components)) })
        else (emitTwoOf I opcode sensitive isSigned).run s := by
  cases h1 : instructionIsUndefinedValue I.operand1 with
  | true =>
    have hid := hasId_of_undefined h1
    refine ⟨I.operand0, List.mem_cons_self .., ⟨fun h0 => ⟨h0, hid⟩, And.left⟩, ?_⟩
    rw [emitBinaryOperation, h1, if_pos rfl, run_bind,
      run_getIdForValue (hready.operands I.operand0 (List.mem_cons_self ..))]
    simp only
    by_cases hne : I.operand0.idOf s I.components ≠ .null
    · rw [if_pos hne, if_pos hne]
      rfl
    · rw [if_neg hne, if_neg hne]
      rfl
  | false =>
    have h0 : instructionIsUndefinedValue I.operand0 = true := by
      cases h0 : instructionIsUndefinedValue I.operand0 with
      | true => rfl
      | false => exact absurd ⟨h0, h1⟩ h
    have hid := hasId_of_undefined h0
    have hin : I.operand1 ∈ [I.operand0, I.operand1] :=
      List.mem_cons_of_mem _ (List.mem_singleton_self _)
    refine ⟨I.operand1, hin, ⟨fun h1 => ⟨hid, h1⟩, And.right⟩, ?_⟩
    rw [emitBinaryOperation, h1, h0, if_neg Bool.false_ne_true, if_pos rfl, run_bind,
      run_getIdForValue (hready.operands I.operand1 hin)]
    simp only
    by_cases hne : I.operand1.idOf s I.components ≠ .null
    · rw [if_pos hne, if_pos hne]
      rfl
    · rw [if_neg hne, if_neg hne]
      rfl

/-- A binary operation that is no division needs an id for each operand. -/
theorem hasId_of_lowers_emitBinaryOperation
    (hI : Operands I.width I.result I.components I.operand0 I.operand1)
    {llvm : (LlvmValue I.width → BitVec I.width) → Option (BitVec I.width)}
    (h : Lowers (emitBinaryOperation I opcode sensitive isSigned) I.result I.components
      [I.operand0, I.operand1] llvm) : I.operand0.HasId ∧ I.operand1.HasId := by
  by_contra hid
  apply not_lowers hI.wf _ h
  intro u undef s env₀ env x hready
  have hnot := hI.not_gives hready hid opcode (physicalType I.width I.components) sensitive isSigned
  by_cases hdefined : instructionIsUndefinedValue I.operand0 = false ∧
      instructionIsUndefinedValue I.operand1 = false
  · rw [emitBinaryOperation_eq hdefined.1 hdefined.2]
    exact hnot
  · obtain ⟨c, hc, hiff, hrun⟩ := exists_forward hready hdefined
    rw [hrun]
    split
    · rename_i hne
      refine ⟨hne, ?_⟩
      rintro r ⟨id, env', hmap, hops, hget⟩
      simp only [Function.update_self, Option.some.injEq] at hmap
      have henv : env = env' := by
        have hrun := hready.run
        rw [hrun] at hops
        exact Option.some.inj hops
      obtain ⟨-, -, hnone⟩ := get_idOf_of_not_hasId (target u undef) s env (hI.wf c hc) hI.pos
        fun hcid => hid (hiff.mp hcid)
      rw [← henv, ← hmap, hnone] at hget
      cases hget
    · exact hnot

/-- With an id for each operand it keeps the meaning when the low bits do. -/
theorem lowers_emitBinaryOperation
    (hI : Operands I.width I.result I.components I.operand0 I.operand1)
    (hids : I.operand0.HasId ∧ I.operand1.HasId) {op : BinaryOps}
    (h : instructionIsUndefinedValue I.operand0 = false →
      instructionIsUndefinedValue I.operand1 = false →
      Lowers (emitTwoOf I opcode sensitive isSigned) I.result I.components [I.operand0, I.operand1]
        fun x => op.result (x I.operand0) (x I.operand1)) :
    Lowers (emitBinaryOperation I opcode sensitive isSigned) I.result I.components
      [I.operand0, I.operand1] fun x => op.result (x I.operand0) (x I.operand1) := by
  by_cases hdefined : instructionIsUndefinedValue I.operand0 = false ∧
      instructionIsUndefinedValue I.operand1 = false
  · rw [emitBinaryOperation_eq hdefined.1 hdefined.2]
    exact h hdefined.1 hdefined.2
  · intro u undef s env₀ env x hready _
    obtain ⟨c, hc, hiff, hrun⟩ := exists_forward hready hdefined
    obtain ⟨r, hr⟩ := exists_holds hI.one_le hI.le (hI.wf c hc) (hready.operands c hc)
      (hiff.mpr hids)
    have hne : c.idOf s I.components ≠ .null := by
      intro hnull
      have hget := hr.get
      rw [hnull] at hget
      cases hget
    rw [hrun, if_pos hne]
    refine ⟨c.idOf s I.components, env, r, Function.update_self .., hready.run, hr.get, hr.type,
      fun hall => ?_⟩
    exact absurd ⟨hall _ (List.mem_cons_self ..),
      hall _ (List.mem_cons_of_mem _ (List.mem_singleton_self _))⟩ hdefined

end DxilSpirv.LlvmBuiltins
