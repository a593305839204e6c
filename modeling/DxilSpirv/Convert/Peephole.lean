import DxilSpirv.Convert.Expressions

/-!
# Peepholes

Some instructions are replaced while they are emitted, after a look at the instructions behind their
operands. What is matched are the operands as the function has them, not what they were replaced by.
-/

namespace DxilSpirv.Peephole

open DxilSpirv.Spirv DxilSpirv.Convert DxilSpirv.Program

/-- The options that the peepholes depend on. -/
structure Options where
  forcePrecise : Bool

section Matching

variable (f : List Instruction)

/-- A call of an intrinsic of one floating point operand, and the operand. -/
def unaryCall : Value → Option (UnaryOp × Value)
  | .instruction i =>
    match f[i]? with
    | some (.dxUnary op _ x) => some (op, x)
    | _ => none
  | _ => none

/-- `dyn_cast<BinaryOperator>`. -/
def binaryOperator : Value → Option BinaryOperator
  | .instruction i =>
    match f[i]? with
    | some (.binary op) => some op
    | _ => none
  | _ => none

/-- A call of `FirstbitHi` or `FirstbitSHi`, with the width of its operand. -/
def firstbitCall : Value → Option (FirstbitOp × Nat × Value)
  | .instruction i =>
    match f[i]? with
    | some (.firstbit op width x) => some (op, width, x)
    | _ => none
  | _ => none

/-- `dyn_cast<CmpInst>`. -/
def cmpInst : Value → Option (Predicate × Value × Value)
  | .instruction i =>
    match f[i]? with
    | some (.cmp predicate _ x y) => some (predicate, x, y)
    | _ => none
  | _ => none

/-- `get_constant_operand`: a constant integer, cut to 32 bits. -/
def getConstantOperand : Value → Option (BitVec 32)
  | .constantInt _ value => some (value.setWidth 32)
  | _ => none

end Matching

section Emission

variable (options : Options) (f : List Instruction)

/-- The instruction of the extended set for an intrinsic. -/
def UnaryOp.opcode : UnaryOp → Std450Unary
  | exp => .exp2
  | log => .log2
  | other id => .other id

/-- `emit_dxil_std450_unary_instruction`. -/
def emitDxilStd450UnaryInstruction (op : UnaryOp) (precise : Bool) (x : Value) : Operation :=
  match unaryCall f x with
  | some (inner, base) =>
    if (op.opcode = .exp2 ∨ op.opcode = .log2) ∧ (precise || options.forcePrecise) = false ∧
        ((op.opcode = .exp2 ∧ inner = .log) ∨ inner = .exp) then .rewriteValue base
    else .std450Unary op.opcode x
  | none => .std450Unary op.opcode x

/-- `can_optimize_to_snegate`. -/
def canOptimizeToSnegate (op : BinaryOperator) : Bool :=
  op.opcode == .sub &&
    match op.operand0 with
    | .constantInt _ value => value.toNat == 0
    | _ => false

/-- The instruction of the extended set for an intrinsic. -/
def BinaryOp.opcode : BinaryOp → Std450Binary
  | iMax => .sMax
  | other id => .other id

/-- `emit_dxil_peephole_iabs`. -/
def emitDxilPeepholeIabs (opcode : Std450Binary) (width : Nat) (x y : Value) : Option Operation :=
  if opcode ≠ .sMax then none
  else
    let negates (v w : Value) := (binaryOperator f v).any fun op =>
      canOptimizeToSnegate op && op.operand1 == w
    if negates x y then some (.sAbs width y)
    else if negates y x then some (.sAbs width x)
    else none

/-- `emit_dxil_std450_binary_instruction`. -/
def emitDxilStd450BinaryInstruction (op : BinaryOp) (width : Nat) (x y : Value) : Operation :=
  (emitDxilPeepholeIabs f op.opcode width x y).getD (.std450Binary op.opcode width x y)

/-- All bits of the width of a constant integer. -/
def allBitsSet {w : Nat} (value : BitVec w) : Bool :=
  let mask := if w = 64 then 0xFFFFFFFFFFFFFFFF else (1 <<< w) - 1
  value.toNat &&& mask == mask

/-- `constant_is_all_bits_set`. -/
def constantIsAllBitsSet : Value → Bool
  | .constantDataVector _ first rest => (first :: rest).all allBitsSet
  | .constantInt _ value => allBitsSet value
  | _ => false

/-- `get_bitwise_not_from_xor`. -/
def getBitwiseNotFromXor (a b : Value) : Option Value :=
  if constantIsAllBitsSet a then some b
  else if constantIsAllBitsSet b then some a
  else none

/-- `hoist_value`: what is left of the inner operator once the outer one cancels a value. -/
def hoistValue (counterOpIsCommutative : Bool) (binop : BinaryOperator) (inverseValue : Value) :
    Option Value :=
  if counterOpIsCommutative ∧ binop.operand0 = inverseValue then some binop.operand1
  else if binop.operand1 = inverseValue then some binop.operand0
  else none

/-- `peephole_trivial_arithmetic_identity`. -/
def peepholeTrivialArithmeticIdentity (op : BinaryOperator) (inverseOperation : BinaryOps)
    (isCommutative : Bool) : Option Value :=
  if ¬ op.isFast ∨ options.forcePrecise then none
  else
    let cancel (v inverseValue : Value) := (binaryOperator f v).bind fun binop =>
      if binop.isFast ∧ binop.opcode = inverseOperation then
        hoistValue (!isCommutative) binop inverseValue
      else none
    (cancel op.operand0 op.operand1).or
      (if isCommutative then cancel op.operand1 op.operand0 else none)

/-- `emit_binary_instruction_impl`. -/
def emitBinaryInstruction (op : BinaryOperator) : Operation :=
  let plain := Operation.binary op.opcode op.type op.operand0 op.operand1
  match op.opcode with
  | .fMul =>
    ((peepholeTrivialArithmeticIdentity options f op .fDiv true).map .rewriteValue).getD plain
  | .fDiv =>
    ((peepholeTrivialArithmeticIdentity options f op .fMul false).map .rewriteValue).getD plain
  | .sub => if canOptimizeToSnegate op then .sNegate op.type op.operand1 else plain
  | .xor =>
    match getBitwiseNotFromXor op.operand0 op.operand1 with
    | some v => if op.type = .int 1 then .logicalNot op.type v else .not op.type v
    | none => plain
  | _ => plain

/-- The search for a bit behind an intrinsic. -/
def FirstbitOp.opcode : FirstbitOp → GLSLstd450
  | firstbitHi => .findUMsb
  | firstbitSHi => .findSMsb

/-- A constant integer whose bits are all set, as a signed number. -/
def isMinusOne : Value → Bool
  | .constantInt _ value => value.toInt == -1
  | _ => false

/-- `emit_peephole_findmsb`: `clz(x) == -1 ? -1 : (bits - 1 - clz(x))`. -/
def emitPeepholeFindmsb (condition trueValue falseValue : Value) : Option Operation := do
  let (predicate, clz, minusOne) ← cmpInst f condition
  guard (predicate = .icmpEQ)
  let (op, width, x) ← firstbitCall f clz
  guard (getConstantOperand minusOne = some 0xFFFFFFFF)
  guard (isMinusOne trueValue)
  let sub ← binaryOperator f falseValue
  guard (sub.opcode = .sub ∧ sub.operand1 = clz)
  guard (getConstantOperand sub.operand0 = some (BitVec.ofNat 32 width - 1))
  return .nativeBitscan op.opcode width x

/-- `emit_instruction`. -/
def emitInstruction : Instruction → Operation
  | .binary op => emitBinaryInstruction options f op
  | .dxUnary op precise x => emitDxilStd450UnaryInstruction options f op precise x
  | .dxBinary op width x y => emitDxilStd450BinaryInstruction f op width x y
  | .firstbit op width x => .findHighBit op.opcode width x
  | .cmp predicate _ x y => .compare predicate x y
  | .select type c t g => (emitPeepholeFindmsb f c t g).getD (.select type c t g)
  | .other id type operands => .other id type operands

end Emission

/-- The lowering that replaces nothing. -/
def lowerInstruction : Instruction → Operation
  | .binary op => .binary op.opcode op.type op.operand0 op.operand1
  | .dxUnary op _ x => .std450Unary op.opcode x
  | .dxBinary op width x y => .std450Binary op.opcode width x y
  | .firstbit op width x => .findHighBit op.opcode width x
  | .cmp predicate _ x y => .compare predicate x y
  | .select type c t g => .select type c t g
  | .other id type operands => .other id type operands

instance : Inhabited Lanes := ⟨fun _ => .float 1⟩

/-- The values of the instructions as they are emitted. -/
def emittedValue (options : Options) (f : Function) (M : Meaning) : Nat → Lanes :=
  valueAt (Operation.eval M) (f.instructions.map (emitInstruction options f.instructions))

/-- The values of the instructions without peepholes. -/
def plainValue (f : Function) (M : Meaning) : Nat → Lanes :=
  valueAt (Operation.eval M) (f.instructions.map lowerInstruction)

/-- A peephole replaces the instruction. -/
def Replaced (options : Options) (f : Function) (i : Nat) : Prop :=
  ∃ instruction, f.instructions[i]? = some instruction ∧
    emitInstruction options f.instructions instruction ≠ lowerInstruction instruction

/-- Every instruction that is replaced gets the value of the plain lowering. -/
def PreservesValues (options : Options) (f : Function) : Prop :=
  ∀ i, Replaced options f i → ∀ M lane, emittedValue options f M i lane = plainValue f M i lane

variable {f : Function} {instruction : Instruction} {v : Value} {type : ValueType} {i j n : Nat}

/-- An instruction of the function has the types it asks for. -/
theorem typedAt_of (h : f.instructions[i]? = some instruction) :
    instruction.typedAt f.instructions i = true :=
  List.all_eq_true.mp f.typed (instruction, i) (List.mk_mem_zipIdx_iff_getElem?.mpr h)

/-- An instruction of the function fits. -/
theorem fits_of (h : f.instructions[i]? = some instruction) : instruction.fits = true := by
  have := typedAt_of h
  rw [Instruction.typedAt, Bool.and_eq_true] at this
  exact this.1

/-- The operands of an instruction come before it. -/
theorem isBefore_of_mem (h : f.instructions[i]? = some instruction)
    (hv : v ∈ instruction.operands) : v.isBefore i = true := by
  have := typedAt_of h
  rw [Instruction.typedAt, Bool.and_eq_true, Bool.and_eq_true] at this
  exact List.all_eq_true.mp this.2.1 v hv

/-- An operand has the type its instruction asks for. -/
theorem typeOf_of_mem (h : f.instructions[i]? = some instruction)
    (hv : (v, type) ∈ instruction.typedOperands) : typeOf f.instructions v = some type := by
  have := typedAt_of h
  rw [Instruction.typedAt, Bool.and_eq_true, Bool.and_eq_true] at this
  exact eq_of_beq (List.all_eq_true.mp this.2.2 (v, type) hv)

/-- What is before an instruction is before the later ones. -/
theorem isBefore_mono (h : v.isBefore j = true) (hle : j ≤ i) : v.isBefore i = true := by
  cases v with
  | instruction k =>
    simp only [Value.isBefore, decide_eq_true_eq] at *
    omega
  | _ => rfl

/-- A value that is seen as a call of one operand is one. -/
theorem unaryCall_eq_some {op : UnaryOp} {x : Value}
    (h : unaryCall f.instructions v = some (op, x)) :
    ∃ j precise, v = .instruction j ∧ f.instructions[j]? = some (.dxUnary op precise x) := by
  unfold unaryCall at h
  split at h
  · rename_i j
    split at h
    · rename_i op' precise x' hj
      cases h
      exact ⟨j, precise, rfl, hj⟩
    · cases h
  · cases h

/-- A value that is seen as a binary operator is one. -/
theorem binaryOperator_eq_some {op : BinaryOperator}
    (h : binaryOperator f.instructions v = some op) :
    ∃ j, v = .instruction j ∧ f.instructions[j]? = some (.binary op) := by
  unfold binaryOperator at h
  split at h
  · rename_i j
    split at h
    · rename_i op' hj
      cases h
      exact ⟨j, rfl, hj⟩
    · cases h
  · cases h

/-- A value that is seen as a bit search is one. -/
theorem firstbitCall_eq_some {op : FirstbitOp} {width : Nat} {x : Value}
    (h : firstbitCall f.instructions v = some (op, width, x)) :
    ∃ j, v = .instruction j ∧ f.instructions[j]? = some (.firstbit op width x) := by
  unfold firstbitCall at h
  split at h
  · rename_i j
    split at h
    · rename_i op' width' x' hj
      cases h
      exact ⟨j, rfl, hj⟩
    · cases h
  · cases h

/-- A value that is seen as a comparison is one. -/
theorem cmpInst_eq_some {predicate : Predicate} {x y : Value}
    (h : cmpInst f.instructions v = some (predicate, x, y)) :
    ∃ j type, v = .instruction j ∧ f.instructions[j]? = some (.cmp predicate type x y) := by
  unfold cmpInst at h
  split at h
  · rename_i j
    split at h
    · rename_i predicate' type x' y' hj
      cases h
      exact ⟨j, type, rfl, hj⟩
    · cases h
  · cases h

/-- The operands of an instruction behind an operand come first as well. -/
theorem isBefore_behind (hv : (Value.instruction j).isBefore i = true)
    (hj : f.instructions[j]? = some instruction) {x : Value} (hx : x ∈ instruction.operands) :
    x.isBefore i = true := by
  have hlt : j < i := by simpa [Value.isBefore] using hv
  exact isBefore_mono (isBefore_of_mem hj hx) hlt.le

variable {options : Options}

/-- What is hoisted is the operand that the other operator does not cancel. -/
theorem hoistValue_eq_some {binop : BinaryOperator} {commutative : Bool} {inverseValue : Value}
    (h : hoistValue commutative binop inverseValue = some v) :
    (commutative = true ∧ binop.operand0 = inverseValue ∧ v = binop.operand1) ∨
      (binop.operand1 = inverseValue ∧ v = binop.operand0) := by
  unfold hoistValue at h
  split at h
  · rename_i hleft
    cases h
    exact Or.inl ⟨hleft.1, hleft.2, rfl⟩
  · split at h
    · rename_i hright
      cases h
      exact Or.inr ⟨hright, rfl⟩
    · cases h

/-- An operand is an inverse operator that cancels with the other operand. -/
theorem peepholeTrivialArithmeticIdentity_eq_some {op : BinaryOperator} {inverse : BinaryOps}
    {commutative : Bool}
    (h : peepholeTrivialArithmeticIdentity options f.instructions op inverse commutative = some v) :
    ∃ x inverseValue binop, ((x = op.operand0 ∧ inverseValue = op.operand1) ∨
        (commutative = true ∧ x = op.operand1 ∧ inverseValue = op.operand0)) ∧
      binaryOperator f.instructions x = some binop ∧ binop.opcode = inverse ∧
      hoistValue (!commutative) binop inverseValue = some v := by
  have hcancel : ∀ {x inverseValue : Value}, ((binaryOperator f.instructions x).bind fun binop =>
      if binop.isFast ∧ binop.opcode = inverse then hoistValue (!commutative) binop inverseValue
      else none) = some v → ∃ binop, binaryOperator f.instructions x = some binop ∧
        binop.opcode = inverse ∧ hoistValue (!commutative) binop inverseValue = some v := by
    intro x inverseValue hx
    obtain ⟨binop, hbinop, hhoist⟩ := Option.bind_eq_some_iff.mp hx
    split at hhoist
    · rename_i hmatch
      exact ⟨binop, hbinop, hmatch.2, hhoist⟩
    · cases hhoist
  unfold peepholeTrivialArithmeticIdentity at h
  split at h
  · cases h
  rcases Option.or_eq_some_iff.mp h with hfirst | ⟨-, hsecond⟩
  · obtain ⟨binop, hbinop⟩ := hcancel hfirst
    exact ⟨_, _, binop, Or.inl ⟨rfl, rfl⟩, hbinop⟩
  · split at hsecond
    · rename_i hcommutative
      obtain ⟨binop, hbinop⟩ := hcancel hsecond
      exact ⟨_, _, binop, Or.inr ⟨hcommutative, rfl, rfl⟩, hbinop⟩
    · cases hsecond

/-- The operand that is negated by the other one. -/
theorem emitDxilPeepholeIabs_eq_some {opcode : Std450Binary} {width : Nat} {x y : Value}
    {operation : Operation}
    (h : emitDxilPeepholeIabs f.instructions opcode width x y = some operation) :
    opcode = .sMax ∧ ∃ v w op, ((v = x ∧ w = y) ∨ (v = y ∧ w = x)) ∧
      binaryOperator f.instructions v = some op ∧ canOptimizeToSnegate op = true ∧
      op.operand1 = w ∧ operation = .sAbs width w := by
  have hnegates : ∀ {v w : Value}, ((binaryOperator f.instructions v).any fun op =>
      canOptimizeToSnegate op && op.operand1 == w) = true →
      ∃ op, binaryOperator f.instructions v = some op ∧ canOptimizeToSnegate op = true ∧
        op.operand1 = w := by
    intro v w hany
    obtain ⟨op, hop, hmatch⟩ := (Option.any_eq_true _ _).mp hany
    rw [Bool.and_eq_true, beq_iff_eq] at hmatch
    exact ⟨op, hop, hmatch⟩
  unfold emitDxilPeepholeIabs at h
  split at h
  · cases h
  rename_i hopcode
  refine ⟨not_not.mp hopcode, ?_⟩
  simp only at h
  split at h
  · rename_i hfirst
    obtain ⟨op, hop, hnegate, hoperand⟩ := hnegates hfirst
    exact ⟨x, y, op, Or.inl ⟨rfl, rfl⟩, hop, hnegate, hoperand, (Option.some.inj h).symm⟩
  · split at h
    · rename_i hsecond
      obtain ⟨op, hop, hnegate, hoperand⟩ := hnegates hsecond
      exact ⟨y, x, op, Or.inr ⟨rfl, rfl⟩, hop, hnegate, hoperand, (Option.some.inj h).symm⟩
    · cases h

/-- The operands of the double conversion. -/
theorem emitPeepholeFindmsb_eq_some {c t g : Value} {operation : Operation}
    (h : emitPeepholeFindmsb f.instructions c t g = some operation) :
    ∃ clz minusOne op width x sub,
      cmpInst f.instructions c = some (.icmpEQ, clz, minusOne) ∧
      firstbitCall f.instructions clz = some (op, width, x) ∧
      getConstantOperand minusOne = some 0xFFFFFFFF ∧ isMinusOne t = true ∧
      binaryOperator f.instructions g = some sub ∧ sub.opcode = .sub ∧ sub.operand1 = clz ∧
      getConstantOperand sub.operand0 = some (BitVec.ofNat 32 width - 1) ∧
      operation = .nativeBitscan op.opcode width x := by
  unfold emitPeepholeFindmsb at h
  simp only [Option.bind_eq_bind, Option.bind_eq_some_iff, Prod.exists, Option.guard_eq_some',
    Option.pure_def, Option.some.injEq, exists_const] at h
  obtain ⟨predicate, clz, minusOne, hcmp, hpredicate, op, width, x, hcall, hminus, htrue, sub, hsub,
    ⟨hopcode, hclz⟩, hwidth, hoperation⟩ := h
  subst hpredicate
  exact ⟨clz, minusOne, op, width, x, sub, hcmp, hcall, hminus, htrue, hsub, hopcode, hclz, hwidth,
    hoperation.symm⟩

variable {M : Meaning} {ρ σ : Nat → Lanes}

/-- A value depends on the results before it only. -/
theorem eval_congr (h : v.isBefore n = true) (hρ : ∀ j < n, ρ j = σ j) :
    v.eval M ρ = v.eval M σ := by
  cases v with
  | instruction j => exact hρ j (by simpa [Value.isBefore] using h)
  | _ => rfl

/-- The values that an operation reads. -/
def Operation.operands : Operation → List Value
  | rewriteValue v => [v]
  | std450Unary _ x | sAbs _ x | nativeBitscan _ _ x | findHighBit _ _ x | sNegate _ x | not _ x
  | logicalNot _ x => [x]
  | std450Binary _ _ x y | binary _ _ x y | compare _ x y => [x, y]
  | select _ c t f => [c, t, f]
  | other _ _ operands => operands

/-- An operation depends on its operands only. -/
theorem readsBelow_eval {operation : Operation}
    (h : ∀ v ∈ operation.operands, v.isBefore n = true) :
    ReadsBelow (Operation.eval M) n operation := by
  intro ρ σ hρ
  have heval : ∀ v ∈ operation.operands, v.eval M ρ = v.eval M σ := fun v hv =>
    eval_congr (h v hv) hρ
  cases operation with
  | other id type operands =>
    have hmap : operands.map (·.eval M ρ) = operands.map (·.eval M σ) := List.map_congr_left heval
    funext lane
    simp only [Operation.eval, hmap]
  | _ =>
    simp only [Operation.operands, List.mem_cons, List.not_mem_nil, or_false, forall_eq_or_imp,
      forall_eq] at heval
    funext lane
    simp only [Operation.eval, heval]

/-- A lowered instruction has the operands it had. -/
theorem operands_lowerInstruction :
    (lowerInstruction instruction).operands = instruction.operands := by
  cases instruction <;> rfl

/-- What is hoisted out of an operand comes before the instruction. -/
theorem isBefore_identity {op : BinaryOperator} {inverse : BinaryOps} {commutative : Bool}
    (hi : f.instructions[i]? = some (.binary op))
    (h : peepholeTrivialArithmeticIdentity options f.instructions op inverse commutative = some v) :
    v.isBefore i = true := by
  obtain ⟨x, inverseValue, binop, hx, hbinop, -, hhoist⟩ :=
    peepholeTrivialArithmeticIdentity_eq_some h
  obtain ⟨j, rfl, hj⟩ := binaryOperator_eq_some hbinop
  have hbefore : (Value.instruction j).isBefore i = true := by
    refine isBefore_of_mem hi ?_
    rcases hx with ⟨hx, -⟩ | ⟨-, hx, -⟩ <;> rw [hx] <;> simp [Instruction.operands,
      Instruction.typedOperands]
  refine isBefore_behind hbefore hj ?_
  rcases hoistValue_eq_some hhoist with ⟨-, -, rfl⟩ | ⟨-, rfl⟩ <;>
    simp [Instruction.operands, Instruction.typedOperands]

/-- What is emitted for an instruction reads values before it. -/
theorem isBefore_emitInstruction (hi : f.instructions[i]? = some instruction) :
    ∀ v ∈ (emitInstruction options f.instructions instruction).operands, v.isBefore i = true := by
  have hplain : ∀ v ∈ (lowerInstruction instruction).operands, v.isBefore i = true := fun v hv =>
    isBefore_of_mem hi (by rwa [operands_lowerInstruction] at hv)
  cases instruction with
  | binary op =>
    have hoperand1 : op.operand1.isBefore i = true :=
      hplain op.operand1 (by simp [lowerInstruction, Operation.operands])
    have hoperand0 : op.operand0.isBefore i = true :=
      hplain op.operand0 (by simp [lowerInstruction, Operation.operands])
    have hidentity : ∀ inverse commutative, ∀ v ∈ (((peepholeTrivialArithmeticIdentity options
        f.instructions op inverse commutative).map .rewriteValue).getD
        (lowerInstruction (.binary op))).operands, v.isBefore i = true := by
      intro inverse commutative v hv
      cases hmatch : peepholeTrivialArithmeticIdentity options f.instructions op inverse
          commutative with
      | none =>
        rw [hmatch] at hv
        exact hplain v hv
      | some base =>
        rw [hmatch] at hv
        obtain rfl : v = base := by simpa [Operation.operands] using hv
        exact isBefore_identity hi hmatch
    show ∀ v ∈ (emitBinaryInstruction options f.instructions op).operands, _
    unfold emitBinaryInstruction
    simp only
    split
    · exact hidentity .fDiv true
    · exact hidentity .fMul false
    · split
      · simpa [Operation.operands] using hoperand1
      · exact hplain
    · split
      · rename_i base hbase
        have hbefore : base.isBefore i = true := by
          unfold getBitwiseNotFromXor at hbase
          split at hbase
          · cases hbase
            exact hoperand1
          · split at hbase
            · cases hbase
              exact hoperand0
            · cases hbase
        split <;> simpa [Operation.operands] using hbefore
      · exact hplain
    · exact hplain
  | dxUnary op precise x =>
    show ∀ v ∈ (emitDxilStd450UnaryInstruction options f.instructions op precise x).operands, _
    unfold emitDxilStd450UnaryInstruction
    split
    · rename_i inner base hcall
      split
      · obtain ⟨j, precise', rfl, hj⟩ := unaryCall_eq_some hcall
        have hbefore := hplain (.instruction j) (by simp [lowerInstruction, Operation.operands])
        have := isBefore_behind hbefore hj (x := base)
          (by simp [Instruction.operands, Instruction.typedOperands])
        simpa [Operation.operands] using this
      · exact hplain
    · exact hplain
  | dxBinary op width x y =>
    show ∀ v ∈ (emitDxilStd450BinaryInstruction f.instructions op width x y).operands, _
    unfold emitDxilStd450BinaryInstruction
    cases hmatch : emitDxilPeepholeIabs f.instructions op.opcode width x y with
    | none => exact hplain
    | some operation =>
      obtain ⟨-, v, w, sub, hvw, -, -, -, rfl⟩ := emitDxilPeepholeIabs_eq_some hmatch
      have hx := hplain x (by simp [lowerInstruction, Operation.operands])
      have hy := hplain y (by simp [lowerInstruction, Operation.operands])
      rcases hvw with ⟨-, rfl⟩ | ⟨-, rfl⟩ <;> simpa [Operation.operands]
  | select type c t g =>
    show ∀ v ∈ ((emitPeepholeFindmsb f.instructions c t g).getD (.select type c t g)).operands, _
    cases hmatch : emitPeepholeFindmsb f.instructions c t g with
    | none => exact hplain
    | some operation =>
      obtain ⟨clz, minusOne, op, width, x, sub, hcmp, hcall, -, -, -, -, -, -, rfl⟩ :=
        emitPeepholeFindmsb_eq_some hmatch
      obtain ⟨j, ctype, rfl, hj⟩ := cmpInst_eq_some hcmp
      obtain ⟨k, rfl, hk⟩ := firstbitCall_eq_some hcall
      have hcond := hplain (.instruction j) (by simp [lowerInstruction, Operation.operands])
      have hclz := isBefore_behind hcond hj (x := .instruction k)
        (by simp [Instruction.operands, Instruction.typedOperands])
      have := isBefore_behind hclz hk (x := x)
        (by simp [Instruction.operands, Instruction.typedOperands])
      simpa [Operation.operands] using this
  | firstbit op width x => exact hplain
  | cmp predicate type x y => exact hplain
  | other id type operands => exact hplain

/-- The lowered operations read earlier results only. -/
theorem ordered_lower (f : Function) (M : Meaning) :
    Ordered (Operation.eval M) (f.instructions.map lowerInstruction) := by
  intro i operation hi
  rw [List.getElem?_map, Option.map_eq_some_iff] at hi
  obtain ⟨instruction, hi, rfl⟩ := hi
  refine readsBelow_eval fun v hv => isBefore_of_mem hi ?_
  rwa [operands_lowerInstruction] at hv

/-- The emitted operations read earlier results only. -/
theorem ordered_emit (options : Options) (f : Function) (M : Meaning) :
    Ordered (Operation.eval M) (f.instructions.map (emitInstruction options f.instructions)) := by
  intro i operation hi
  rw [List.getElem?_map, Option.map_eq_some_iff] at hi
  obtain ⟨instruction, hi, rfl⟩ := hi
  exact readsBelow_eval (isBefore_emitInstruction hi)

/-- The plain values satisfy the lowered instructions. -/
theorem plainValue_eq (hi : f.instructions[i]? = some instruction) :
    plainValue f M i = (lowerInstruction instruction).eval M (plainValue f M) :=
  valueAt_eq (ordered_lower f M) (by rw [List.getElem?_map, hi]; rfl)

/-- The emitted values satisfy what is emitted. -/
theorem emittedValue_eq (hi : f.instructions[i]? = some instruction) :
    emittedValue options f M i =
      (emitInstruction options f.instructions instruction).eval M (emittedValue options f M) :=
  valueAt_eq (ordered_emit options f M) (by rw [List.getElem?_map, hi]; rfl)

variable {lane : Nat}

/-- What an operation defines has the type of the instruction. -/
theorem read_eval_lowerInstruction (h : instruction.fits = true) (ρ : Nat → Lanes) :
    instruction.type.read ((lowerInstruction instruction).eval M ρ lane) =
      (lowerInstruction instruction).eval M ρ lane := by
  cases instruction with
  | binary op =>
    obtain ⟨opcode, isFast, type, x, y⟩ := op
    simp only [Instruction.fits] at h
    cases type with
    | float =>
      cases opcode <;>
        simp_all
          [lowerInstruction, Operation.eval, BinaryOps.apply, Instruction.type, ValueType.read,
          BinaryOps.isFloat]
    | int w =>
      cases opcode <;>
        simp_all
          [lowerInstruction, Operation.eval, BinaryOps.apply, Instruction.type, ValueType.read,
          BinaryOps.isFloat]
  | select type c t g => exact ValueType.read_read _ _
  | other id type operands => exact ValueType.read_read _ _
  | _ => simp [lowerInstruction, Operation.eval, Instruction.type, ValueType.read]

/-- Values have the types of the function. -/
theorem read_eval (h : typeOf f.instructions v = some type) :
    type.read (v.eval M (plainValue f M) lane) = v.eval M (plainValue f M) lane := by
  cases v with
  | instruction j =>
    obtain ⟨instruction, hj, rfl⟩ := Option.map_eq_some_iff.mp h
    show _ = plainValue f M j lane
    rw [Value.eval, plainValue_eq hj]
    exact read_eval_lowerInstruction (fits_of hj) _
  | constantInt width value =>
    cases h
    simp [Value.eval, ValueType.read]
  | constantDataVector width first rest =>
    cases h
    simp [Value.eval, ValueType.read]
  | leaf id type =>
    cases h
    exact ValueType.read_read _ _

/-- The value of an operator behind an operand. -/
theorem eval_of_binaryOperator (M : Meaning) (lane : Nat) {op : BinaryOperator}
    (h : binaryOperator f.instructions v = some op) :
    v.eval M (plainValue f M) lane = op.opcode.apply M op.type
      (op.operand0.eval M (plainValue f M) lane) (op.operand1.eval M (plainValue f M) lane) := by
  obtain ⟨j, rfl, hj⟩ := binaryOperator_eq_some h
  rw [Value.eval, plainValue_eq hj]
  rfl

/-- A float operator has the float type. -/
theorem type_of_isFloat {op : BinaryOperator} (hi : f.instructions[i]? = some (.binary op))
    (h : op.opcode.isFloat = true) : op.type = .float := by
  have := fits_of hi
  simp only [Instruction.fits, h] at this
  simpa using this

/-- Every other operator has an integer type. -/
theorem type_of_not_isFloat {op : BinaryOperator} (hi : f.instructions[i]? = some (.binary op))
    (h : op.opcode.isFloat = false) : ∃ w, op.type = .int w := by
  have := fits_of hi
  simp only [Instruction.fits, h] at this
  cases htype : op.type with
  | float => simp [htype] at this
  | int w => exact ⟨w, rfl⟩

/-- What is left of a multiplication and a division that cancel. -/
theorem eval_identity {op : BinaryOperator} (hop : op.opcode = .fMul ∨ op.opcode = .fDiv)
    (h : peepholeTrivialArithmeticIdentity options f.instructions op
      (if op.opcode = .fMul then .fDiv else .fMul) (op.opcode = .fMul) = some v) :
    v.eval M (plainValue f M) lane = op.opcode.apply M op.type
      (op.operand0.eval M (plainValue f M) lane) (op.operand1.eval M (plainValue f M) lane) := by
  obtain ⟨x, inverseValue, binop, hx, hbinop, hopcode, hhoist⟩ :=
    peepholeTrivialArithmeticIdentity_eq_some h
  obtain ⟨j, -, hj⟩ := binaryOperator_eq_some hbinop
  have hinner := eval_of_binaryOperator M lane hbinop
  have hfloat : binop.type = .float := type_of_isFloat hj (by
    rw [hopcode]
    split <;> rfl)
  have htyped : ∀ w, w = binop.operand0 ∨ w = binop.operand1 → ∃ q : ℚˣ,
      w.eval M (plainValue f M) lane = .float q := fun w hw => by
    have htype : typeOf f.instructions w = some .float := by
      rw [← hfloat]
      refine typeOf_of_mem hj ?_
      rcases hw with rfl | rfl <;> simp [Instruction.typedOperands]
    exact ⟨_, (read_eval htype).symm⟩
  obtain ⟨a, ha⟩ := htyped _ (Or.inl rfl)
  obtain ⟨b, hb⟩ := htyped _ (Or.inr rfl)
  rw [hopcode, ha, hb] at hinner
  rcases hop with hop | hop
  · -- A division inside a multiplication.
    rw [if_pos hop] at hinner
    simp only [BinaryOps.apply, Scalar.real_float] at hinner
    rw [hop]
    rcases hoistValue_eq_some hhoist with ⟨hcommutative, -⟩ | ⟨hright, rfl⟩
    · simp [hop] at hcommutative
    · rcases hx with ⟨rfl, rfl⟩ | ⟨-, rfl, rfl⟩
      · rw [hinner, ← hright, ha, hb]
        simp [BinaryOps.apply]
      · rw [hinner, ← hright, ha, hb]
        simp [BinaryOps.apply]
  · -- A multiplication inside a division.
    rw [if_neg (by rw [hop]; decide)] at hinner
    simp only [BinaryOps.apply, Scalar.real_float] at hinner
    have hfirst : x = op.operand0 ∧ inverseValue = op.operand1 := by
      rcases hx with hx | ⟨hcommutative, -⟩
      · exact hx
      · simp [hop] at hcommutative
    obtain ⟨rfl, rfl⟩ := hfirst
    rw [hop]
    rcases hoistValue_eq_some hhoist with ⟨-, hleft, rfl⟩ | ⟨hright, rfl⟩
    · rw [hinner, ← hleft, ha, hb]
      simp [BinaryOps.apply]
    · rw [hinner, ← hright, ha, hb]
      simp [BinaryOps.apply]

/-- A constant integer with all bits set. -/
theorem eq_allOnes_of_allBitsSet {w : Nat} {value : BitVec w} (h : allBitsSet value = true) :
    value = BitVec.allOnes w := by
  have hmask : (if w = 64 then 0xFFFFFFFFFFFFFFFF else (1 <<< w) - 1) = 2 ^ w - 1 := by
    split
    · rename_i hw
      subst hw
      rfl
    · rw [Nat.one_shiftLeft]
  unfold allBitsSet at h
  rw [hmask] at h
  simp only [beq_iff_eq, Nat.and_two_pow_sub_one_eq_mod, Nat.mod_eq_of_lt value.isLt] at h
  exact BitVec.eq_of_toNat_eq (by rw [h, BitVec.toNat_allOnes])

/-- Every component of such a constant. -/
theorem eval_of_constantIsAllBitsSet {w : Nat} {ρ : Nat → Lanes} (h : constantIsAllBitsSet v = true)
    (htype : typeOf f.instructions v = some (.int w)) :
    (v.eval M ρ lane).word w = BitVec.allOnes w := by
  cases v with
  | constantInt width value =>
    cases htype
    rw [Value.eval, Scalar.word_int]
    exact eq_allOnes_of_allBitsSet h
  | constantDataVector width first rest =>
    cases htype
    rw [Value.eval, Scalar.word_int]
    have hall := List.all_eq_true.mp h
    have hlt : lane % (rest.length + 1) < (first :: rest).length := Nat.mod_lt _ (Nat.succ_pos _)
    rw [List.getD_eq_getElem _ _ hlt]
    exact eq_allOnes_of_allBitsSet (hall _ (List.getElem_mem hlt))
  | _ => cases h

/-- `xor` with all ones is the complement of the other operand. -/
theorem eval_bitwiseNot (M : Meaning) (lane : Nat) {op : BinaryOperator}
    (hi : f.instructions[i]? = some (.binary op)) (hop : op.opcode = .xor)
    (h : getBitwiseNotFromXor op.operand0 op.operand1 = some v) (ρ : Nat → Lanes) :
    op.type.complement (v.eval M ρ lane) =
      op.opcode.apply M op.type (op.operand0.eval M ρ lane) (op.operand1.eval M ρ lane) := by
  obtain ⟨w, hw⟩ := type_of_not_isFloat hi (by rw [hop]; rfl)
  have htyped : ∀ x, x = op.operand0 ∨ x = op.operand1 → typeOf f.instructions x = some (.int w) :=
    fun x hx => by
      rw [← hw]
      refine typeOf_of_mem hi ?_
      rcases hx with rfl | rfl <;> simp [Instruction.typedOperands]
  rw [hop, hw]
  simp only [ValueType.complement, BinaryOps.apply]
  unfold getBitwiseNotFromXor at h
  split at h
  · rename_i hones
    cases h
    rw [eval_of_constantIsAllBitsSet hones (htyped _ (Or.inl rfl)), BitVec.allOnes_xor]
  · split at h
    · rename_i hones
      cases h
      rw [eval_of_constantIsAllBitsSet hones (htyped _ (Or.inr rfl)), BitVec.xor_allOnes]
    · cases h

/-- What is subtracted from zero is negated. -/
theorem apply_of_canOptimizeToSnegate {op : BinaryOperator} (h : canOptimizeToSnegate op = true)
    {ρ : Nat → Lanes} {w : Nat} (hw : op.type = .int w) :
    op.opcode.apply M op.type (op.operand0.eval M ρ lane) (op.operand1.eval M ρ lane) =
      .int w (-(op.operand1.eval M ρ lane).word w) := by
  rw [canOptimizeToSnegate, Bool.and_eq_true, beq_iff_eq] at h
  obtain ⟨hop, hzero⟩ := h
  rw [hop, hw]
  simp only [BinaryOps.apply]
  split at hzero
  · rename_i width value hoperand
    have hvalue : value = 0 := BitVec.eq_of_toNat_eq (by simpa using hzero)
    have hword : (op.operand0.eval M ρ lane).word w = 0 := by
      rw [hoperand, Value.eval, Scalar.word, hvalue]
      simp
    rw [hword]
    congr 1
  · cases hzero

/-- The larger one of a value and its negation is the absolute value. -/
theorem max_neg {w : Nat} (a : BitVec w) :
    (if a.slt (-a) then -a else a) = (if a.slt 0 then -a else a) ∧
      (if (-a).slt a then a else -a) = (if a.slt 0 then -a else a) := by
  have hzero : (0 : BitVec w).toInt = 0 := BitVec.toInt_zero
  rcases Decidable.em (a = BitVec.intMin w) with hmin | hmin
  · have hneg : -a = a := by rw [hmin, BitVec.neg_intMin]
    simp [hneg]
  · have hneg : (-a).toInt = -a.toInt := by rw [BitVec.toInt_neg_eq_ite, if_neg hmin]
    rcases Int.lt_trichotomy a.toInt 0 with ht | ht | ht
    · simp only [BitVec.slt_eq_decide, hneg, hzero, decide_eq_true_eq]
      exact ⟨by rw [if_pos (by omega), if_pos ht], by rw [if_neg (by omega), if_pos ht]⟩
    · have ha : a = 0 := BitVec.eq_of_toInt_eq (by rw [ht, hzero])
      simp [ha]
    · simp only [BitVec.slt_eq_decide, hneg, hzero, decide_eq_true_eq]
      exact ⟨by rw [if_neg (by omega), if_neg (by omega)],
        by rw [if_pos (by omega), if_neg (by omega)]⟩

/-- `SAbs` is the larger one of the operands. -/
theorem eval_iabs {opcode : Std450Binary} {width : Nat} {x y : Value} {operation : Operation}
    {op : BinaryOp} (hi : f.instructions[i]? = some (.dxBinary op width x y))
    (h : emitDxilPeepholeIabs f.instructions opcode width x y = some operation) :
    operation.eval M (plainValue f M) lane =
      (Operation.std450Binary opcode width x y).eval M (plainValue f M) lane := by
  obtain ⟨rfl, v, w, sub, hvw, hsub, hnegate, rfl, rfl⟩ := emitDxilPeepholeIabs_eq_some h
  obtain ⟨j, rfl, hj⟩ := binaryOperator_eq_some hsub
  have htype : typeOf f.instructions (.instruction j) = some (.int width) := by
    refine typeOf_of_mem hi ?_
    rcases hvw with ⟨rfl, -⟩ | ⟨rfl, -⟩ <;> simp [Instruction.typedOperands]
  have hwidth : sub.type = .int width := by
    rw [typeOf, hj] at htype
    simpa [Instruction.type] using htype
  have hvalue := eval_of_binaryOperator M lane hsub
  rw [apply_of_canOptimizeToSnegate hnegate hwidth] at hvalue
  rcases hvw with ⟨rfl, rfl⟩ | ⟨rfl, rfl⟩
  · simp only [Operation.eval, Std450Binary.apply, hvalue, Scalar.word_int]
    rw [(max_neg _).2]
  · simp only [Operation.eval, Std450Binary.apply, hvalue, Scalar.word_int]
    rw [(max_neg _).1]

/-- Counting from the top twice is the scan. -/
theorem select_countComponent {w : Nat} (hw : 0 < w) (hle : w ≤ 64) (op : FirstbitOp)
    (a : BitVec w) : (if countComponent M op.opcode a = BitVec.allOnes 32 then BitVec.allOnes 32
      else BitVec.ofNat 32 (w - 1) - countComponent M op.opcode a) =
        scanComponent M op.opcode a := by
  have hopcode : op.opcode ≠ .findILsb := by cases op <;> decide
  obtain ⟨index, hscan, hlt⟩ : ∃ index : Option Nat,
      scanComponent M op.opcode a = indexWord index ∧ ∀ k ∈ index, k < w :=
    emitNativeBitscan_lt hopcode _
  have hback : (index.map (w - 1 - ·)).map (w - 1 - ·) = index := by
    cases index with
    | none => rfl
    | some k =>
      have := hlt k rfl
      show some (w - 1 - (w - 1 - k)) = some k
      congr 1
      omega
  have hcount : countComponent M op.opcode a = indexWord (index.map (w - 1 - ·)) := by
    have h := select_sub_indexWord (i := index.map (w - 1 - ·)) hw hle fun k hk => by
      obtain ⟨l, hl, rfl⟩ := Option.map_eq_some_iff.mp hk
      omega
    rw [hback] at h
    rw [← h, ← hscan]
    rfl
  rw [hcount, hscan]
  exact select_sub_indexWord hw hle hlt

/-- A constant operand of 32 bits. -/
theorem eval_of_getConstantOperand {ρ : Nat → Lanes} {value : BitVec 32}
    (h : getConstantOperand v = some value) (htype : typeOf f.instructions v = some (.int 32)) :
    v.eval M ρ lane = .int 32 value := by
  cases v with
  | constantInt width c =>
    cases htype
    rw [getConstantOperand, BitVec.setWidth_eq] at h
    cases h
    rfl
  | _ => cases h

/-- What is seen as minus one has all bits set. -/
theorem eval_of_isMinusOne {ρ : Nat → Lanes} {w : Nat} (h : isMinusOne v = true)
    (htype : typeOf f.instructions v = some (.int w)) :
    v.eval M ρ lane = .int w (BitVec.allOnes w) := by
  cases v with
  | constantInt width c =>
    cases htype
    have hint : c.toInt = -1 := by simpa [isMinusOne] using h
    have hones : c = BitVec.allOnes w := by
      apply BitVec.eq_of_toInt_eq
      rw [hint, BitVec.toInt_allOnes]
      split
      · rfl
      · obtain rfl : w = 0 := by omega
        rw [BitVec.toInt_zero_length] at hint
        omega
    rw [Value.eval, hones]
  | _ => cases h

/-- The scan replaces the double conversion. -/
theorem eval_findmsb {type : ValueType} {c t g : Value} {operation : Operation}
    (hi : f.instructions[i]? = some (.select type c t g))
    (h : emitPeepholeFindmsb f.instructions c t g = some operation) :
    operation.eval M (plainValue f M) lane =
      (Operation.select type c t g).eval M (plainValue f M) lane := by
  obtain ⟨clz, minusOne, op, width, x, sub, hcmp, hcall, hminus, htrue, hsub, hopcode, hclz, hwidth,
    rfl⟩ := emitPeepholeFindmsb_eq_some h
  obtain ⟨j, cmpType, rfl, hj⟩ := cmpInst_eq_some hcmp
  obtain ⟨k, rfl, hk⟩ := firstbitCall_eq_some hcall
  obtain ⟨l, rfl, hl⟩ := binaryOperator_eq_some hsub
  -- Everything has 32 bits, as the count does.
  have hcount : typeOf f.instructions (.instruction k) = some (.int 32) := by
    rw [typeOf, hk]
    rfl
  have hcmpType : cmpType = .int 32 := by
    have hclzType : typeOf f.instructions (.instruction k) = some cmpType :=
      typeOf_of_mem hj (by simp [Instruction.typedOperands])
    rw [hcount] at hclzType
    exact (Option.some.inj hclzType).symm
  have hsubType : sub.type = .int 32 := by
    have hclzType : typeOf f.instructions sub.operand1 = some sub.type :=
      typeOf_of_mem hl (by simp [Instruction.typedOperands])
    rw [hclz, hcount] at hclzType
    exact (Option.some.inj hclzType).symm
  have htype : type = .int 32 := by
    have hfalseType : typeOf f.instructions (.instruction l) = some type :=
      typeOf_of_mem hi (by simp [Instruction.typedOperands])
    rw [typeOf, hl] at hfalseType
    rw [← Option.some.inj hfalseType]
    exact hsubType
  subst hcmpType htype
  -- The values of the four parts.
  have hvalue : plainValue f M k lane =
      .int 32 (countComponent M op.opcode ((x.eval M (plainValue f M) lane).word width)) := by
    rw [plainValue_eq hk]
    rfl
  have hones : minusOne.eval M (plainValue f M) lane = .int 32 (BitVec.allOnes 32) :=
    eval_of_getConstantOperand hminus (typeOf_of_mem hj (by simp [Instruction.typedOperands]))
  have htrue : t.eval M (plainValue f M) lane = .int 32 (BitVec.allOnes 32) :=
    eval_of_isMinusOne htrue (typeOf_of_mem hi (by simp [Instruction.typedOperands]))
  have hpos : 0 < width ∧ width ≤ 64 := by simpa [Instruction.fits] using fits_of hk
  have hlast : (BitVec.ofNat 32 width - 1 : BitVec 32) = BitVec.ofNat 32 (width - 1) := by
    have hone : (1 : BitVec 32).toNat = 1 := rfl
    apply BitVec.eq_of_toNat_eq
    simp only [BitVec.toNat_sub, BitVec.toNat_ofNat, hone]
    omega
  have hsubtract : plainValue f M l lane = .int 32 (BitVec.ofNat 32 (width - 1) -
      countComponent M op.opcode ((x.eval M (plainValue f M) lane).word width)) := by
    have hoperand : sub.operand0.eval M (plainValue f M) lane =
        .int 32 (BitVec.ofNat 32 width - 1) :=
      eval_of_getConstantOperand hwidth (by
        rw [← hsubType]
        exact typeOf_of_mem hl (by simp [Instruction.typedOperands]))
    have := eval_of_binaryOperator M lane hsub
    rw [hopcode, hsubType, hoperand, hclz, Value.eval_instruction,
      Value.eval_instruction, hvalue, hlast] at this
    simpa [BinaryOps.apply] using this
  have hcondition : plainValue f M j lane = .int 1 (BitVec.ofBool
      (countComponent M op.opcode ((x.eval M (plainValue f M) lane).word width) ==
        BitVec.allOnes 32)) := by
    rw [plainValue_eq hj]
    show Scalar.int 1 (BitVec.ofBool (Predicate.icmpEQ.apply M (plainValue f M k lane)
      (minusOne.eval M (plainValue f M) lane))) = _
    rw [hvalue, hones]
    simp only [Predicate.apply, Scalar.word_int]
  simp only [Operation.eval, Value.eval_instruction, hcondition, htrue, hsubtract, Scalar.word_int]
  rw [← select_countComponent hpos.1 hpos.2]
  by_cases hall : countComponent M op.opcode ((x.eval M (plainValue f M) lane).word width) =
      BitVec.allOnes 32
  · rw [if_pos hall, hall]
    simp [ValueType.read]
  · rw [if_neg hall, beq_false_of_ne hall]
    simp [ValueType.read]

/-- The instruction is an exponential of an exponential that may be replaced. -/
def IsExpOfExp (options : Options) (f : Function) (i : Nat) : Prop :=
  options.forcePrecise = false ∧ ∃ x base, f.instructions[i]? = some (.dxUnary .exp false x) ∧
    unaryCall f.instructions x = some (.exp, base)

/-- A unary intrinsic that is replaced cancels the intrinsic behind its operand. -/
theorem eval_unary {op : UnaryOp} {precise : Bool} {x : Value}
    (hi : f.instructions[i]? = some (.dxUnary op precise x)) (hexp : ¬ IsExpOfExp options f i) :
    (emitDxilStd450UnaryInstruction options f.instructions op precise x).eval M
      (plainValue f M) lane = (Operation.std450Unary op.opcode x).eval M (plainValue f M) lane := by
  unfold emitDxilStd450UnaryInstruction
  split
  · rename_i inner base hcall
    split
    · rename_i hmatch
      obtain ⟨hopcode, hprecise, hinner⟩ := hmatch
      rw [Bool.or_eq_false_iff] at hprecise
      obtain ⟨j, precise', rfl, hj⟩ := unaryCall_eq_some hcall
      have hfloat : typeOf f.instructions base = some .float :=
        typeOf_of_mem hj (by simp [Instruction.typedOperands])
      obtain ⟨q, hq⟩ : ∃ q : ℚˣ, base.eval M (plainValue f M) lane = .float q :=
        ⟨_, (read_eval hfloat).symm⟩
      have hvalue : plainValue f M j lane = .float (inner.opcode.apply M q) := by
        rw [plainValue_eq hj]
        simp [lowerInstruction, Operation.eval, hq]
      simp only [Operation.eval, Value.eval_instruction, hvalue, hq, Scalar.real_float]
      rcases hinner with ⟨hop, rfl⟩ | rfl
      · rw [hop]
        simp [UnaryOp.opcode, Std450Unary.apply]
      · cases op with
        | exp =>
          refine absurd ⟨hprecise.2, .instruction j, base, ?_, hcall⟩ hexp
          rw [hi, hprecise.1]
        | log => simp [UnaryOp.opcode, Std450Unary.apply]
        | other id => simp [UnaryOp.opcode] at hopcode
    · rfl
  · rfl

/-- Apart from an exponential of an exponential, what is emitted means what the plain lowering
does. -/
theorem eval_emitInstruction (hi : f.instructions[i]? = some instruction)
    (hexp : ¬ IsExpOfExp options f i) :
    (emitInstruction options f.instructions instruction).eval M (plainValue f M) =
      (lowerInstruction instruction).eval M (plainValue f M) := by
  funext lane
  cases instruction with
  | binary op =>
    show (emitBinaryInstruction options f.instructions op).eval M (plainValue f M) lane = _
    have hidentity : ∀ inverse commutative, (∀ v, peepholeTrivialArithmeticIdentity options
        f.instructions op inverse commutative = some v → v.eval M (plainValue f M) lane =
          (lowerInstruction (.binary op)).eval M (plainValue f M) lane) →
        (((peepholeTrivialArithmeticIdentity options f.instructions op inverse commutative).map
          .rewriteValue).getD (lowerInstruction (.binary op))).eval M (plainValue f M) lane =
          (lowerInstruction (.binary op)).eval M
              (plainValue f M) lane := fun inverse commutative h => by
      cases hmatch : peepholeTrivialArithmeticIdentity options f.instructions op inverse
          commutative with
      | none => rfl
      | some v => exact h v hmatch
    unfold emitBinaryInstruction
    simp only
    split
    · rename_i hop
      exact hidentity .fDiv true fun v hv => eval_identity (Or.inl hop) (by simpa [hop] using hv)
    · rename_i hop
      exact hidentity .fMul false fun v hv => eval_identity (Or.inr hop) (by simpa [hop] using hv)
    · split
      · rename_i hop hnegate
        obtain ⟨w, hw⟩ := type_of_not_isFloat hi (by rw [hop]; rfl)
        simp only [Operation.eval, lowerInstruction]
        rw [apply_of_canOptimizeToSnegate hnegate hw, hw]
        rfl
      · rfl
    · rename_i hop
      split
      · rename_i v hv
        have := eval_bitwiseNot M lane hi hop hv (plainValue f M)
        split <;> exact this
      · rfl
    · rfl
  | dxUnary op precise x => exact eval_unary hi hexp
  | dxBinary op width x y =>
    show (emitDxilStd450BinaryInstruction f.instructions op width x y).eval M
      (plainValue f M) lane = _
    unfold emitDxilStd450BinaryInstruction
    cases hmatch : emitDxilPeepholeIabs f.instructions op.opcode width x y with
    | none => rfl
    | some operation => exact eval_iabs hi hmatch
  | select type c t g =>
    show ((emitPeepholeFindmsb f.instructions c t g).getD (.select type c t g)).eval M
      (plainValue f M) lane = _
    cases hmatch : emitPeepholeFindmsb f.instructions c t g with
    | none => rfl
    | some operation => exact eval_findmsb hi hmatch
  | firstbit op width x => rfl
  | cmp predicate type x y => rfl
  | other id type operands => rfl

/-- Up to the first exponential of an exponential the emitted values are the plain ones. -/
theorem emittedValue_eq_plainValue {n : Nat} (h : ∀ i < n, ¬ IsExpOfExp options f i) :
    ∀ i < n, emittedValue options f M i = plainValue f M i := by
  refine valueAt_congr (ordered_lower f M) (ordered_emit options f M) (by simp) ?_
  intro i hi operation emitted hoperation hemitted
  rw [List.getElem?_map, Option.map_eq_some_iff] at hoperation hemitted
  obtain ⟨instruction, hinstruction, rfl⟩ := hoperation
  obtain ⟨instruction', hinstruction', rfl⟩ := hemitted
  obtain rfl : instruction = instruction' :=
    Option.some.inj (hinstruction.symm.trans hinstruction')
  exact eval_emitInstruction hinstruction (h i hi)

/-- Doubling has an inverse and no value that two steps lead back to. -/
def doubling : Meaning where
  exp2 := Equiv.mulLeft (Units.mk0 2 (by norm_num))
  unary _ q := q
  binary _ _ a _ := a
  operator _ a _ := a
  compare _ _ _ := true
  other _ _ _ := .float 1
  leaf _ _ := .float 1
  undefined := ⟨fun a _ => a, fun a _ _ => a, fun a => a, fun a => a⟩

/-- Twice the exponential is never the value itself. -/
theorem exp2_exp2_ne (q : ℚˣ) : doubling.exp2 (doubling.exp2 q) ≠ q := by
  intro h
  have hq : (2 : ℚ) * (2 * q) = q := by
    have := congrArg Units.val h
    simpa [doubling] using this
  exact q.ne_zero (by linarith)

/-- The first exponential of an exponential does not get its plain value. -/
theorem emittedValue_ne_plainValue (hi : IsExpOfExp options f i)
    (hbefore : ∀ j < i, ¬ IsExpOfExp options f j) :
    Replaced options f i ∧
      emittedValue options f doubling i 0 ≠ plainValue f doubling i 0 := by
  obtain ⟨hforce, x, base, hinstruction, hcall⟩ := hi
  obtain ⟨j, precise, rfl, hj⟩ := unaryCall_eq_some hcall
  have hemit : emitInstruction options f.instructions (.dxUnary .exp false (.instruction j)) =
      .rewriteValue base := by
    simp [emitInstruction, emitDxilStd450UnaryInstruction, hcall, hforce, UnaryOp.opcode]
  have hoperand : (Value.instruction j).isBefore i = true :=
    isBefore_of_mem hinstruction (by simp [Instruction.operands, Instruction.typedOperands])
  have hbase : base.isBefore i = true :=
    isBefore_behind hoperand hj (by simp [Instruction.operands, Instruction.typedOperands])
  refine ⟨⟨_, hinstruction, by rw [hemit]; simp [lowerInstruction]⟩, ?_⟩
  have hfloat : typeOf f.instructions base = some .float :=
    typeOf_of_mem hj (by simp [Instruction.typedOperands])
  have hvalue : base.eval doubling (plainValue f doubling) 0 =
      .float (base.eval doubling (plainValue f doubling) 0).real := (read_eval hfloat).symm
  generalize (base.eval doubling (plainValue f doubling) 0).real = q at hvalue
  have hemitted : emittedValue options f doubling i 0 = .float q := by
    rw [emittedValue_eq hinstruction, hemit, ← hvalue]
    show base.eval _ _ 0 = base.eval _ _ 0
    rw [eval_congr hbase (emittedValue_eq_plainValue hbefore)]
  have hinner : plainValue f doubling j 0 = .float (doubling.exp2 q) := by
    rw [plainValue_eq hj]
    simp [lowerInstruction, Operation.eval, hvalue, UnaryOp.opcode, Std450Unary.apply]
  have hplain : plainValue f doubling i 0 = .float (doubling.exp2 (doubling.exp2 q)) := by
    rw [plainValue_eq hinstruction]
    simp [lowerInstruction, Operation.eval, hinner, UnaryOp.opcode, Std450Unary.apply]
  rw [hemitted, hplain]
  intro h
  exact exp2_exp2_ne q (Scalar.float.inj h).symm

/-- The peepholes preserve values just where no exponential of an exponential is replaced. -/
theorem preservesValues_iff (options : Options) (f : Function) :
    PreservesValues options f ↔ ∀ i, ¬ IsExpOfExp options f i := by
  constructor
  · intro h i
    induction i using Nat.strongRecOn with
    | ind i ih =>
      intro hi
      obtain ⟨hreplaced, hne⟩ := emittedValue_ne_plainValue hi ih
      exact hne (h i hreplaced doubling 0)
  · intro h i _ M lane
    rw [emittedValue_eq_plainValue (fun j _ => h j) i (Nat.lt_succ_self i)]

/-- The exponential of an exponential of an argument. -/
def expOfExp : Function :=
  ⟨[.dxUnary .exp false (.leaf 0 .float), .dxUnary .exp false (.instruction 0)], by decide⟩

/-- It becomes the argument. -/
theorem not_preservesValues :
    ¬ ∀ (options : Options) (f : Function), PreservesValues options f := by
  intro h
  have hexp : IsExpOfExp ⟨false⟩ expOfExp 1 := ⟨rfl, .instruction 0, .leaf 0 .float, rfl, rfl⟩
  have hfirst : ∀ j < 1, ¬ IsExpOfExp ⟨false⟩ expOfExp j := by
    intro j hj
    obtain rfl : j = 0 := by omega
    rintro ⟨-, x, base, hx, hcall⟩
    obtain rfl : x = .leaf 0 .float := by
      have := Option.some.inj hx
      injection this with _ _ hx
      exact hx.symm
    cases hcall
  obtain ⟨hreplaced, hne⟩ := emittedValue_ne_plainValue hexp hfirst
  exact hne (h ⟨false⟩ expOfExp 1 hreplaced doubling 0)

end DxilSpirv.Peephole
