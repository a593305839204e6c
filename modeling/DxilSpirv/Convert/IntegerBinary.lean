import DxilSpirv.Convert.IntegerDivision

/-!
# Binary operations on integers

Which of them are emitted right: the upper bits of a register do not matter to most operations,
right shifts and signed divisions extend their operands, left shifts and unsigned divisions do not.
-/

namespace DxilSpirv.LlvmBuiltins

open Spirv
open Converter (physicalIntegerBitWidth)

variable {I : BinaryInstruction} {opcode : Opcode} {c : LlvmValue I.width} {op : BinaryOps}

theorem not_lowers_emitUnaryOperation
    (hI : Operands I.width I.result I.components I.operand0 I.operand1)
    (hc : c ∈ [I.operand0, I.operand1]) (hid : ¬ c.HasId)
    {llvm : (LlvmValue I.width → BitVec I.width) → Option (BitVec I.width)} :
    ¬ Lowers (emitUnaryOperation I opcode c) I.result I.components
      [I.operand0, I.operand1] llvm := by
  apply not_lowers hI.wf
  intro u undef s env₀ env x hready
  obtain ⟨j, s', hrun, -, -, -, hready'⟩ :=
    hready.run_allocateFor hI.wf opcode (physicalType I.width I.components)
  obtain ⟨-, -, hnone⟩ := get_idOf_of_not_hasId (target u undef) s' env (hI.wf c hc) hI.pos hid
  have hall : (emitUnaryOperation I opcode c).run s = (.result j, { s' with
      operations := s'.operations ++ [⟨opcode, .result j, physicalType I.width I.components,
        [c.idOf s' I.components]⟩] }) := by
    rw [emitUnaryOperation, run_bind, hrun]
    simp only
    rw [run_bind, run_getIdForValue (hready'.operands c hc)]
    rfl
  rw [hall]
  refine ⟨SpvId.noConfusion, fun r => hready'.not_gives ?_ r⟩
  rw [List.mapM_cons, hnone]
  rfl

theorem lowers_emitUnaryOperation
    (hI : Operands I.width I.result I.components I.operand0 I.operand1)
    (hc : c ∈ [I.operand0, I.operand1]) (hid : c.HasId) (hopcode : opcode ≠ .assumeTrue)
    {f : ∀ w, BitVec w → BitVec w}
    (hunary : ∀ type r, r.type = type →
      opcode.unary type r = some ⟨type, fun i => (f _ (r.word type.width i)).toNat⟩)
    (hlow : ∀ w (y : BitVec w),
      I.width ≤ w → (f w y).setWidth I.width = f I.width (y.setWidth I.width))
    (hllvm : ∀ T s env₀ env x, Ready T s env₀ env I.result I.components [I.operand0, I.operand1] x →
      ∀ i < I.components, op.result (x I.operand0 i) (x I.operand1 i) = some (f I.width (x c i))) :
    Lowers (emitUnaryOperation I opcode c) I.result I.components [I.operand0, I.operand1]
      fun x => op.result (x I.operand0) (x I.operand1) := by
  intro u undef s env₀ env x hready _
  obtain ⟨j, s', hrun, hmap, -, -, hready'⟩ :=
    hready.run_allocateFor hI.wf opcode (physicalType I.width I.components)
  obtain ⟨r, hr⟩ := exists_holds hI.one_le hI.le (hI.wf c hc) (hready'.operands c hc) hid
  have hall : (emitUnaryOperation I opcode c).run s = (.result j, { s' with
      operations := s'.operations ++ [⟨opcode, .result j, physicalType I.width I.components,
        [c.idOf s' I.components]⟩] }) := by
    rw [emitUnaryOperation, run_bind, hrun]
    simp only
    rw [run_bind, run_getIdForValue (hready'.operands c hc)]
    rfl
  have harguments : [c.idOf s' I.components].mapM (env.get (target u undef)) = some [r] := by
    rw [List.mapM_cons, hr.get]
    rfl
  have hj : (⟨opcode, .result j, physicalType I.width I.components, [c.idOf s' I.components]⟩ :
      Instruction).id = .result j := rfl
  have hgives := hready'.finish hj hmap harguments hopcode (hunary _ r hr.type)
  rw [hall]
  obtain ⟨id, env', hid, hops, hget⟩ := hgives
  refine ⟨id, env', _, hid, hops, hget, rfl, fun hdefined i hi z hz => ?_⟩
  simp only at hz
  rw [hllvm _ _ _ _ _ hready i hi] at hz
  have hw := le_physicalIntegerBitWidth hI.one_le hI.le
  rw [← Option.some.inj hz, Register.word]
  simp only [physicalType]
  rw [BitVec.ofNat_toNat, hlow _ _ hw, setWidth_word hw, hr.word (hdefined c hc) i hi]

variable {n : Nat}

theorem allBits_eq (n : Nat) : allBits n = 2 ^ n - 1 := by
  unfold allBits
  split
  · rename_i h
    rw [h]
  · rfl

theorem and_allBits_iff (c : BitVec n) :
    (c.toNat &&& allBits n == allBits n) = true ↔ c = BitVec.allOnes n := by
  rw [allBits_eq, Nat.and_two_pow_sub_one_eq_mod, Nat.mod_eq_of_lt c.isLt, beq_iff_eq,
    ← BitVec.toNat_allOnes, BitVec.toNat_inj]

/-- All elements of such a constant are all ones. -/
theorem element_of_allBitsSet {a : LlvmValue n} {result components : Nat}
    (hwf : a.WellFormed result components) (h : constantIsAllBitsSet a = true) {i : Nat}
    (hi : i < components) : a.element i = BitVec.allOnes n := by
  cases a with
  | constantInt c => exact (and_allBits_iff c).mp h
  | constantDataVector elements =>
    have hlt : i < elements.length := by
      rw [hwf.2]
      exact hi
    rw [LlvmValue.element, List.getD_eq_getElem?_getD, List.getElem?_eq_getElem hlt]
    exact (and_allBits_iff _).mp (List.all_eq_true.mp h _ (List.getElem_mem hlt))
  | register v isUndefined => cases h
  | constantAggregate elements => cases h
  | constantAggregateZero => cases h
  | undef => cases h

theorem not_isRegister_of_allBitsSet {a : LlvmValue n} (h : constantIsAllBitsSet a = true) :
    ¬ a.IsRegister ∧ instructionIsUndefinedValue a = false := by
  cases a with
  | constantInt c => exact ⟨id, rfl⟩
  | constantDataVector elements => exact ⟨id, rfl⟩
  | register v isUndefined => cases h
  | constantAggregate elements => cases h
  | constantAggregateZero => cases h
  | undef => cases h

/-- The operands of an instruction that is well formed. -/
theorem BinaryInstruction.operands (h : (IntegerInstruction.binary I).WellFormed) :
    Operands I.width I.result I.components I.operand0 I.operand1 := by
  obtain ⟨htwo, hle, hpos, h0, h1⟩ := h
  refine ⟨by omega, hle, hpos, fun y hy => ?_⟩
  rcases List.mem_cons.mp hy with rfl | hy
  · exact h0
  · rw [List.mem_singleton.mp hy]
    exact h1

theorem mem_operands_iff {p : LlvmValue I.width → Prop} :
    (∀ a ∈ [I.operand0, I.operand1], p a) ↔ p I.operand0 ∧ p I.operand1 := by
  simp

/-- An operation whose low bits only depend on low bits needs ids for its operands. -/
theorem lowers_emitBinaryOperation_iff
    (hI : Operands I.width I.result I.components I.operand0 I.operand1) {opcode : Opcode}
    (hopcode : opcode ≠ .assumeTrue) (sensitive isSigned : Bool)
    {f : (∀ w, Undefined w) → BitVec (physicalIntegerBitWidth I.width) →
      BitVec (physicalIntegerBitWidth I.width) → BitVec (physicalIntegerBitWidth I.width)}
    (hf : ∀ u undef, opcode.word (target u undef) (physicalIntegerBitWidth I.width) = some (f u))
    {op : BinaryOps}
    (hlow : ∀ u ra rb z, op.result (ra.setWidth I.width) (rb.setWidth I.width) = some z →
      (f u (operandWord I.width sensitive isSigned ra)
        (operandWord I.width sensitive isSigned rb)).setWidth I.width = z) :
    Lowers (emitBinaryOperation I opcode sensitive isSigned) I.result I.components
      [I.operand0, I.operand1] (fun x => op.result (x I.operand0) (x I.operand1)) ↔
      ∀ a ∈ [I.operand0, I.operand1], a.HasId := by
  rw [mem_operands_iff]
  constructor
  · exact hasId_of_lowers_emitBinaryOperation hI
  · intro hids
    apply lowers_emitBinaryOperation hI hids
    intro _ _
    apply (hI.computes hids hopcode sensitive isSigned hf).lowers hI
    exact fun _ _ u _ _ ra rb z _ _ => hlow u ra rb z

variable {expectAssume : Bool}

/-- A subtraction from the constant zero negates. -/
theorem lowers_sub_iff (hI : Operands I.width I.result I.components I.operand0 I.operand1)
    (hop : I.opcode = .sub) :
    Lowers (emitBinaryInstruction expectAssume I) I.result I.components [I.operand0, I.operand1]
      (fun x => BinaryOps.sub.result (x I.operand0) (x I.operand1)) ↔
      ∀ a ∈ I.usedOperands, a.HasId := by
  have hw := le_physicalIntegerBitWidth hI.one_le hI.le
  cases hneg : canOptimizeToSnegate I with
  | false =>
    rw [emitBinaryInstruction, hop]
    simp only [hneg, Bool.false_eq_true, if_false, BinaryInstruction.usedOperands, hop,
      reduceCtorEq]
    apply lowers_emitBinaryOperation_iff hI Opcode.noConfusion false false (f := fun _ a b => a - b)
      fun _ _ => rfl
    intro u ra rb z hz
    rw [← Option.some.inj hz]
    exact setWidth_sub ra rb hw
  | true =>
    have hin : I.operand1 ∈ [I.operand0, I.operand1] :=
      List.mem_cons_of_mem _ (List.mem_singleton_self _)
    rw [emitBinaryInstruction, hop]
    simp only [hneg, if_true, BinaryInstruction.usedOperands, List.forall_mem_singleton]
    constructor
    · intro h
      by_contra hid
      exact not_lowers_emitUnaryOperation hI hin hid h
    · intro hid
      apply lowers_emitUnaryOperation hI hin hid Opcode.noConfusion (f := fun _ y => -y)
      · exact fun type r htype => if_pos htype
      · exact fun w y h => BitVec.setWidth_neg_of_le h
      · intro T s env₀ env x hready i hi
        have hzero : x I.operand0 i = 0 := by
          have hrepresented := hready.operands I.operand0 (List.mem_cons_self ..)
          unfold canOptimizeToSnegate at hneg
          rw [hop] at hneg
          cases h0 : I.operand0 with
          | constantInt c =>
            rw [h0] at hneg hrepresented
            rw [hrepresented i hi]
            have hc : c = 0 := BitVec.eq_of_toNat_eq (by simpa using hneg)
            exact hc
          | register v isUndefined =>
            rw [h0] at hneg
            cases hneg
          | constantDataVector elements =>
            rw [h0] at hneg
            cases hneg
          | constantAggregate elements =>
            rw [h0] at hneg
            cases hneg
          | constantAggregateZero =>
            rw [h0] at hneg
            cases hneg
          | undef =>
            rw [h0] at hneg
            cases hneg
        rw [hzero]
        exact congrArg some (BitVec.zero_sub _)

/-- An exclusive or with all ones is a negation. -/
theorem lowers_xor_iff (hI : Operands I.width I.result I.components I.operand0 I.operand1)
    (htwo : 2 ≤ I.width) (hop : I.opcode = .xor) :
    Lowers (emitBinaryInstruction expectAssume I) I.result I.components [I.operand0, I.operand1]
      (fun x => BinaryOps.xor.result (x I.operand0) (x I.operand1)) ↔
      ∀ a ∈ I.usedOperands, a.HasId := by
  have hw := le_physicalIntegerBitWidth hI.one_le hI.le
  have hone : I.width ≠ 1 := by omega
  have hsub : canOptimizeToSnegate I = false := by
    unfold canOptimizeToSnegate
    rw [hop]
  have hin0 : I.operand0 ∈ [I.operand0, I.operand1] := List.mem_cons_self ..
  have hin1 : I.operand1 ∈ [I.operand0, I.operand1] :=
    List.mem_cons_of_mem _ (List.mem_singleton_self _)
  cases hnot : getBitwiseNotFromXor I.operand0 I.operand1 with
  | none =>
    rw [emitBinaryInstruction, hop]
    simp only [hnot, hone, if_false, BinaryInstruction.usedOperands, hsub, hop, if_true,
      Bool.false_eq_true]
    apply lowers_emitBinaryOperation_iff hI Opcode.noConfusion false false
      (f := fun _ a b => a ^^^ b) fun _ _ => rfl
    intro u ra rb z hz
    rw [← Option.some.inj hz]
    exact BitVec.setWidth_xor
  | some c =>
    rw [emitBinaryInstruction, hop]
    simp only [hnot, hone, if_false, BinaryInstruction.usedOperands, hsub, hop, if_true,
      Bool.false_eq_true, List.forall_mem_singleton]
    have hc : c ∈ [I.operand0, I.operand1] ∧ ∀ x : LlvmValue I.width → Nat → BitVec I.width,
        (∀ a ∈ [I.operand0, I.operand1], constantIsAllBitsSet a = true → ∀ i < I.components,
          x a i = BitVec.allOnes I.width) → ∀ i < I.components,
        BinaryOps.xor.result (x I.operand0 i) (x I.operand1 i) = some (~~~x c i) := by
      unfold getBitwiseNotFromXor at hnot
      split at hnot
      · rename_i hall
        cases hnot
        refine ⟨hin1, fun x hx i hi => ?_⟩
        rw [hx _ hin0 hall i hi]
        exact congrArg some BitVec.allOnes_xor
      · split at hnot
        · rename_i hall
          cases hnot
          refine ⟨hin0, fun x hx i hi => ?_⟩
          rw [hx _ hin1 hall i hi]
          exact congrArg some BitVec.xor_allOnes
        · cases hnot
    constructor
    · intro h
      by_contra hid
      exact not_lowers_emitUnaryOperation hI hc.1 hid h
    · intro hid
      apply lowers_emitUnaryOperation hI hc.1 hid Opcode.noConfusion (f := fun _ y => ~~~y)
      · exact fun type r htype => if_pos htype
      · exact fun w y h => BitVec.setWidth_not h
      · intro T s env₀ env x hready i hi
        refine hc.2 x (fun a ha hall i hi => ?_) i hi
        obtain ⟨hreg, hundef⟩ := not_isRegister_of_allBitsSet hall
        rw [represented_constant (hready.operands a ha) hreg hundef hi,
          element_of_allBitsSet (hI.wf a ha) hall hi]

/-- A number that only the top bit of a register has. -/
theorem setWidth_ofNat_top {n w : Nat} (h : n < w) :
    (BitVec.ofNat w (2 ^ (w - 1))).setWidth n = 0 := by
  apply BitVec.eq_of_toNat_eq
  have hdvd : 2 ^ n ∣ 2 ^ (w - 1) := Nat.pow_dvd_pow 2 (by omega)
  rw [BitVec.setWidth_ofNat_of_le (by omega), BitVec.toNat_ofNat, Nat.mod_eq_zero_of_dvd hdvd]
  rfl

theorem toNat_ofNat_top {w : Nat} (h : 0 < w) :
    (BitVec.ofNat w (2 ^ (w - 1))).toNat = 2 ^ (w - 1) := by
  rw [BitVec.toNat_ofNat]
  exact Nat.mod_eq_of_lt (Nat.pow_lt_pow_right (by omega) (by omega))

/-- A left shift reads all bits of the amount. -/
theorem lowers_shl_iff (hI : Operands I.width I.result I.components I.operand0 I.operand1)
    (htwo : 2 ≤ I.width) (hop : I.opcode = .shl) :
    Lowers (emitBinaryInstruction expectAssume I) I.result I.components [I.operand0, I.operand1]
      (fun x => BinaryOps.shl.result (x I.operand0) (x I.operand1)) ↔
      (∀ a ∈ I.usedOperands, a.HasId) ∧ I.UpperBitsHarmless := by
  have hw := le_physicalIntegerBitWidth hI.one_le hI.le
  have hsub : canOptimizeToSnegate I = false := by
    unfold canOptimizeToSnegate
    rw [hop]
  rw [emitBinaryInstruction, hop]
  simp only [BinaryInstruction.usedOperands, hsub, hop, Bool.false_eq_true, if_false, reduceCtorEq,
    mem_operands_iff]
  have hcomputes : I.operand0.HasId ∧ I.operand1.HasId →
      Computes (emitTwoOf I .shiftLeftLogical false false) I.result I.components
        I.operand0 I.operand1 fun u ra rb => shiftLeftLogical (u _) ra rb :=
    fun hids => hI.computes hids Opcode.noConfusion false false
      (f := fun u => shiftLeftLogical (u _)) fun _ _ => rfl
  constructor
  · intro h
    have hids := hasId_of_lowers_emitBinaryOperation hI h
    refine ⟨hids, ?_⟩
    by_contra hharmful
    rw [BinaryInstruction.UpperBitsHarmless, hop] at hharmful
    simp only [not_or, not_and_or, not_not, true_or, not_true_eq_false, or_false] at hharmful
    obtain ⟨hodd, hda, hdb, hreg⟩ := hharmful
    rw [Bool.not_eq_true] at hda hdb
    rw [emitBinaryOperation_eq hda hdb] at h
    -- The amount is zero, and the register far too large.
    let u : ∀ w, Undefined w := fun w => ⟨fun a _ => a + 1, fun a _ _ => a, id, id⟩
    let w := physicalIntegerBitWidth I.width
    have hlt : I.width < w := by omega
    have hzero : (startWord w I.operand1 (2 ^ (w - 1)) 0).setWidth I.width = 0 := by
      rw [startWord_register hreg, setWidth_ofNat_top hlt]
    have hresult := (hcomputes hids).of_lowers hI h hda hdb u hI.pos (2 ^ (w - 1))
      (z := (startWord w I.operand0 (2 ^ (w - 1)) 0).setWidth I.width) (by
        rw [hzero]
        simp only [BinaryOps.result]
        rw [if_pos (by simpa using Nat.lt_of_lt_of_le Nat.zero_lt_two htwo)]
        simp [w])
    have hlarge : ¬ (startWord w I.operand1 (2 ^ (w - 1)) 0).toNat < w := by
      rw [startWord_register hreg, toNat_ofNat_top (by omega)]
      have hpow : w - 1 < 2 ^ (w - 1) := Nat.lt_two_pow_self
      omega
    rw [shiftLeftLogical, if_neg hlarge] at hresult
    have hadd := BitVec.setWidth_add (startWord w I.operand0 (2 ^ (w - 1)) 0) 1 hw
    have hone : ((1 : BitVec w).setWidth I.width) = 1 := BitVec.setWidth_ofNat_of_le hw 1
    rw [hone] at hadd
    have hcontra : (startWord w I.operand0 (2 ^ (w - 1)) 0).setWidth I.width + 1 =
        (startWord w I.operand0 (2 ^ (w - 1)) 0).setWidth I.width := hadd.symm.trans hresult
    have hzero' : (1 : BitVec I.width) = 0 := by simpa using hcontra
    have hnat := congrArg BitVec.toNat hzero'
    have hpow : 2 ^ 2 ≤ 2 ^ I.width := Nat.pow_le_pow_right (by omega) htwo
    simp only [BitVec.ofNat_eq_ofNat, BitVec.toNat_ofNat, Nat.zero_mod] at hnat
    rw [Nat.mod_eq_of_lt (by omega)] at hnat
    omega
  · rintro ⟨hids, hharmless⟩
    apply lowers_emitBinaryOperation hI hids
    intro hda hdb
    apply (hcomputes hids).lowers hI
    intro _ _ u i _ ra rb z _ hrb hz
    simp only [BinaryOps.result] at hz
    split at hz
    · rename_i hamount
      rw [← Option.some.inj hz]
      refine shiftLeftLogical_low (u _) hw ?_ hamount
      rcases hharmless with hnatural | hundef | hundef | ⟨hreg, -⟩
      · have hpow : 2 ^ physicalIntegerBitWidth I.width = 2 ^ I.width := by rw [hnatural]
        have hrb := rb.isLt
        rw [BitVec.toNat_setWidth, Nat.mod_eq_of_lt (by omega)]
      · rw [hda] at hundef
        cases hundef
      · rw [hdb] at hundef
        cases hundef
      · exact (hrb.low hreg).2
    · cases hz

end DxilSpirv.LlvmBuiltins
