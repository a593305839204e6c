import DxilSpirv.Convert.IntegerCorrect

/-!
# Integer divisions

A constant divisor is divided by at once; any other divisor goes through a function that gives all
ones for a division by zero.
-/

namespace DxilSpirv.LlvmBuiltins

open Spirv
open Converter (physicalIntegerBitWidth)

variable {u : ∀ w, Undefined w} {undef : RegisterType → Nat → Nat} {op : Opcode}

/-- A division with all ones for a division by zero. -/
def guarded {w : Nat} (divide : BitVec w → BitVec w → BitVec w) (a b : BitVec w) : BitVec w :=
  if b = 0 then BitVec.allOnes w else divide a b

/-- The instructions that divide. -/
def IsDivision (op : Opcode) : Prop := op ∈ [Opcode.uDiv, .uMod, .sDiv, .sRem]

/-- The loop over the components sets each of them. -/
theorem foldlM_divisionPhi {type : RegisterType} {num den : Register} {f : Nat → Nat}
    (hphi : ∀ c, divisionPhi u op type.width (num.lane c) (den.lane c) = some (f c))
    (l : List Nat) (result : Register) (htype : result.type = type) :
    ∃ r, l.foldlM (fun (result : Register) c => do
        let value ← divisionPhi u op type.width (num.lane c) (den.lane c)
        return (⟨type, Function.update result.lane c value⟩ : Register)) result = some r ∧
      r.type = type ∧ ∀ i, r.lane i = if i ∈ l then f i else result.lane i := by
  induction l generalizing result with
  | nil => exact ⟨result, rfl, htype, fun i => by simp⟩
  | cons c l ih =>
    obtain ⟨r, hr, hrtype, hlane⟩ := ih ⟨type, Function.update result.lane c (f c)⟩ rfl
    refine ⟨r, ?_, hrtype, fun i => ?_⟩
    · rw [List.foldlM_cons, hphi c]
      exact hr
    · rw [hlane i]
      by_cases hi : i ∈ l
      · rw [if_pos hi, if_pos (List.mem_cons_of_mem c hi)]
      · rw [if_neg hi]
        by_cases hic : i = c
        · subst hic
          rw [if_pos (List.mem_cons_self ..)]
          exact Function.update_self ..
        · rw [if_neg (by simp [hic, hi])]
          exact Function.update_of_ne hic ..

/-- The PHI of a component has the quotient, or all ones. -/
theorem divisionPhi_eq (hop : IsDivision op) {w : Nat} (hw : w ∈ [16, 32, 64])
    {f : BitVec w → BitVec w → BitVec w} (hf : op.word (target u undef) w = some f)
    (num den : Nat) :
    divisionPhi u op w num den =
      some (guarded f (BitVec.ofNat w num) (BitVec.ofNat w den)).toNat := by
  have hzero : divisionByZero w = (⟨w, 1⟩, (BitVec.allOnes w).toNat) := by
    simp only [List.mem_cons, List.not_mem_nil, or_false] at hw
    rcases hw with rfl | rfl | rfl
    · rfl
    · rfl
    · rfl
  have hphi : divisionPhi.phi w num den f =
      (guarded f (BitVec.ofNat w num) (BitVec.ofNat w den)).toNat := by
    rw [divisionPhi.phi, guarded, hzero]
    split
    · rfl
    · rfl
  unfold divisionPhi
  rw [hzero, if_pos rfl]
  simp only [IsDivision, List.mem_cons, List.not_mem_nil, or_false] at hop
  rcases hop with rfl | rfl | rfl | rfl
  · cases hf
    exact congrArg some hphi
  · cases hf
    exact congrArg some hphi
  · cases hf
    exact congrArg some hphi
  · cases hf
    exact congrArg some hphi

/-- The function that divides computes each component. -/
theorem buildUdivUmod_eq (hop : IsDivision op) {type : RegisterType}
    (hw : type.width ∈ [16, 32, 64]) {f : BitVec type.width → BitVec type.width → BitVec type.width}
    (hf : op.word (target u undef) type.width = some f) (num den : Register) :
    ∃ r, buildUdivUmod u undef op type num den = some r ∧ r.type = type ∧
      ∀ i < type.components,
        r.lane i = (guarded f (num.word type.width i) (den.word type.width i)).toNat := by
  have hphi := fun c => divisionPhi_eq hop hw hf (num.lane c) (den.lane c)
  rw [buildUdivUmod]
  split
  · rename_i hone
    rw [hphi 0]
    refine ⟨_, rfl, rfl, fun i hi => ?_⟩
    have hzero : i = 0 := by omega
    rw [hzero]
    rfl
  · obtain ⟨r, hr, htype, hlane⟩ :=
      foldlM_divisionPhi hphi (List.range type.components) ⟨type, undef type⟩ rfl
    refine ⟨r, hr, htype, fun i hi => ?_⟩
    rw [hlane i, if_pos (List.mem_range.mpr hi)]
    rfl

/-- There is no such function for integers of 8 bits. -/
theorem buildUdivUmod_eight {components : Nat} (hpos : 0 < components) (num den : Register) :
    buildUdivUmod u undef op ⟨8, components⟩ num den = none := by
  have hphi : ∀ num den, divisionPhi u op 8 num den = none := fun _ _ => rfl
  rw [buildUdivUmod]
  split
  · rw [hphi]
    rfl
  · obtain ⟨k, rfl⟩ : ∃ k, components = k + 1 := ⟨components - 1, by omega⟩
    rw [List.range_succ_eq_map, List.foldlM_cons, hphi]
    rfl

/-- A call of it does not run. -/
theorem step_functionCall_eight {env : Env} {components : Nat} (hpos : 0 < components) {id : SpvId}
    {arguments : List SpvId} (hlength : arguments.length = 2) :
    step (target u undef) env ⟨.functionCall op, id, ⟨8, components⟩, arguments⟩ = none := by
  obtain ⟨a, b, rfl⟩ := List.length_eq_two.mp hlength
  rw [step]
  cases ha : env.get (target u undef) a with
  | none =>
    rw [List.mapM_cons, ha]
    rfl
  | some ra =>
    cases hb : env.get (target u undef) b with
    | none =>
      rw [List.mapM_cons, List.mapM_cons, ha, hb]
      rfl
    | some rb =>
      have hargs : [a, b].mapM (env.get (target u undef)) = some [ra, rb] := by
        rw [List.mapM_cons, List.mapM_cons, ha, hb]
        rfl
      have hvalue : (⟨.functionCall op, id, ⟨8, components⟩, [a, b]⟩ : Instruction).value
          (target u undef) [ra, rb] = none := by
        simp only [Instruction.value, target]
        rw [buildUdivUmod_eight hpos, ite_self]
      rw [hargs]
      simp [hvalue]

variable {n : Nat} {T : Target} {s : Emitter} {env₀ env : Env} {result components : Nat}
  {operands : List (LlvmValue n)} {x : LlvmValue n → Nat → BitVec n} {a : LlvmValue n}

/-- An assertion is added. -/
theorem Ready.assertion (h : Ready T s env₀ env result components operands x) {condition : SpvId}
    {r : Register} (hr : env.get T condition = some r) (type : RegisterType) :
    Ready T { s with operations := s.operations ++
      [⟨.assumeTrue, .null, type, [condition, makeUintConstant 0]⟩] } env₀ env result components
      operands x := by
  constructor
  · rw [run_append, h.run]
    have hstep : step T env ⟨.assumeTrue, .null, type, [condition, makeUintConstant 0]⟩ =
        some env := by
      rw [step]
      simp only [List.mapM_cons, List.mapM_nil, hr]
      rfl
    simp [Spirv.run, hstep]
  · exact h.fresh
  · exact h.own
  · exact h.operands

/-- The assertion on the divisor changes nothing else. -/
theorem Ready.assumeNonZero (h : Ready T s env₀ env result components operands x) (hn : 1 ≤ n)
    (hle : n ≤ 64) (hwf : ∀ a ∈ operands, a.WellFormed result components) (ha : a ∈ operands)
    {r : Register} (hr : env.get T (a.idOf s components) = some r)
    (htype : r.type = physicalType n components) (isSigned : Bool) :
    ∃ s' env', (emitAssumeNonZero components isSigned a).run s = ((), s') ∧
      s'.valueMap = s.valueMap ∧ Ready T s' env₀ env' result components operands x ∧
      ∀ id r, env.get T id = some r → env'.get T id = some r := by
  have hnew := h.fresh s.nextId (Nat.le_refl _)
  obtain ⟨id, s1, env1, r', hrun1, hmap1, hagree1, h1, hmono1, hget1, htype1, -⟩ :=
    h.allocated.run_operandId hn hle hwf ha hr htype isSigned true
  obtain ⟨hnone, hlt⟩ := hagree1 s.nextId (Nat.lt_succ_self _)
  let type : RegisterType := ⟨1, components⟩
  let neq : Instruction := ⟨.iNotEqual, .result s.nextId, type,
    [id, .nullConstant (physicalType n components)]⟩
  have hneqid : neq.id = .result s.nextId := rfl
  have hneqargs : neq.arguments.mapM (env1.get T) =
      some [r', ⟨physicalType n components, fun _ => 0⟩] := by
    simp only [neq, List.mapM_cons, List.mapM_nil, hget1]
    rfl
  obtain ⟨rneq, hneqvalue, hneqtype⟩ : ∃ rneq : Register,
      neq.value T [r', ⟨physicalType n components, fun _ => 0⟩] = some rneq ∧ rneq.type = type :=
    ⟨_, value_relation rfl rfl htype1 rfl rfl, rfl⟩
  have hown1 : s1.valueMap result ≠ some (.result s.nextId) := by
    rw [hmap1]
    exact h.own_ne
  obtain ⟨env2, h2, hmono2, henv2⟩ := h1.intermediate hwf hneqid
    (hnone.trans hnew) hlt hown1 hneqargs Opcode.noConfusion hneqvalue
  have hget2 : env2.get T (.result s.nextId) = some rneq := by
    rw [henv2]
    exact Function.update_self ..
  have hrun : (emitAssumeNonZero components isSigned a).run s = (do
      if components > 1 then
        let all ← allocate .all ⟨1, 1⟩
        add { all with arguments := [.result s.nextId] }
        add ⟨.assumeTrue, .null, ⟨0, 0⟩, [all.id, makeUintConstant 0]⟩
      else add ⟨.assumeTrue, .null, ⟨0, 0⟩, [.result s.nextId, makeUintConstant 0]⟩ : Emit Unit).run
        { s1 with operations := s1.operations ++ [neq] } := by
    rw [emitAssumeNonZero, run_bind, run_allocate]
    have hdivisor : divisionOperandId components isSigned a =
        operandId components isSigned true a :=
      rfl
    rw [hdivisor, run_bind]
    simp only
    rw [hrun1]
    rfl
  rw [hrun]
  by_cases hvector : components > 1
  · rw [if_pos hvector]
    let all : Instruction := ⟨.all, .result s1.nextId, ⟨1, 1⟩, [.result s.nextId]⟩
    have hallid : all.id = .result s1.nextId := rfl
    have hallargs : all.arguments.mapM (env2.get T) = some [rneq] := by
      simp only [all, List.mapM_cons, List.mapM_nil, hget2]
      rfl
    obtain ⟨rall, hallvalue⟩ : ∃ rall : Register, all.value T [rneq] = some rall := by
      refine ⟨_, if_pos ⟨?_, rfl⟩⟩
      rw [hneqtype]
    have hallnew := h2.fresh s1.nextId (Nat.le_refl _)
    obtain ⟨env3, h3, hmono3, henv3⟩ := h2.allocated.intermediate hwf hallid hallnew
      (Nat.lt_succ_self _) h2.own_ne hallargs Opcode.noConfusion hallvalue
    have hget3 : env3.get T (.result s1.nextId) = some rall := by
      rw [henv3]
      exact Function.update_self ..
    exact ⟨_, env3, rfl, hmap1, h3.assertion hget3 ⟨0, 0⟩,
      fun id r hget => hmono3 id r (hmono2 id r (hmono1 id r hget))⟩
  · rw [if_neg hvector]
    exact ⟨_, env2, rfl, hmap1, h2.assertion hget2 ⟨0, 0⟩,
      fun id r hget => hmono2 id r (hmono1 id r hget)⟩

variable {expectAssume : Bool} {I : BinaryInstruction} {opcode : Opcode}

/-- Whether the operands are sign-extended. -/
def isSignedDivision (opcode : Opcode) : Bool := opcode == .sDiv || opcode == .sRem

/-- A constant divisor that is not zero is divided by at once. -/
theorem emitDivision_constant {c : BitVec I.width} (hc : I.operand1 = .constantInt c)
    (hne : c.toNat ≠ 0) :
    emitIntegerDivisionInstruction expectAssume I opcode =
      emitTwo opcode I.result (physicalType I.width I.components) I.components
        (isSignedDivision opcode) true I.operand0 I.operand1 := by
  unfold emitIntegerDivisionInstruction
  rw [hc]
  exact if_pos hne

/-- The emission for a divisor that is no constant. -/
theorem emitDivision_call (hc : ∀ c, I.operand1 ≠ .constantInt c) :
    emitIntegerDivisionInstruction expectAssume I opcode = (do
      let call ← allocateFor (.functionCall opcode) I.result (physicalType I.width I.components)
      if expectAssume then
        emitAssumeNonZero I.components (isSignedDivision opcode) I.operand1
      emitOperands I.components (isSignedDivision opcode) true I.operand0 I.operand1 call) := by
  unfold emitIntegerDivisionInstruction
  cases h : I.operand1 with
  | constantInt c => exact absurd h (hc c)
  | register v isUndefined => rfl
  | constantDataVector elements => rfl
  | constantAggregate elements => rfl
  | constantAggregateZero => rfl
  | undef => rfl

theorem hasId_of_ne {n : Nat} (hne : n ≠ 8) (a : LlvmValue n) : a.HasId := by
  cases a with
  | register v isUndefined => trivial
  | constantInt c => exact hne
  | constantDataVector elements => exact hne
  | constantAggregate elements => exact hne
  | constantAggregateZero => trivial
  | undef => trivial

theorem physical_mem (htwo : 2 ≤ I.width) (hle : I.width ≤ 64) (hne : I.width ≠ 8) :
    physicalIntegerBitWidth I.width ∈ [16, 32, 64] := by
  have h := physicalIntegerBitWidth_cases (show 1 ≤ I.width by omega) hle
  simp only [List.mem_cons, List.not_mem_nil, or_false]
  omega

/-- A division by zero is a constant that the instruction is not rewritten to. -/
theorem not_lowers_division_zero
    (hI : Operands I.width I.result I.components I.operand0 I.operand1) {c : BitVec I.width}
    (hc : I.operand1 = .constantInt c) (hzero : c.toNat = 0) (htwo : 2 ≤ I.width)
    (hne : I.width ≠ 8) {llvm : (LlvmValue I.width → BitVec I.width) → Option (BitVec I.width)} :
    ¬ Lowers (emitIntegerDivisionInstruction expectAssume I opcode) I.result I.components
      [I.operand0, I.operand1] llvm := by
  have hemit : ∃ value, emitIntegerDivisionInstruction expectAssume I opcode =
      pure (.scalar (physicalIntegerBitWidth I.width) value) := by
    have hphysical := physical_mem htwo hI.le hne
    simp only [List.mem_cons, List.not_mem_nil, or_false] at hphysical
    unfold emitIntegerDivisionInstruction
    rw [hc]
    simp only [hzero, ne_eq, not_true_eq_false, if_false]
    rcases hphysical with h | h | h
    · refine ⟨2 ^ 16 - 1, ?_⟩
      rw [h]
      rfl
    · refine ⟨2 ^ 32 - 1, ?_⟩
      rw [h]
      rfl
    · refine ⟨2 ^ 64 - 1, ?_⟩
      rw [h]
      rfl
  obtain ⟨value, hemit⟩ := hemit
  apply not_lowers hI.wf
  intro u undef s env₀ env x hready
  rw [hemit, run_pure]
  refine ⟨SpvId.noConfusion, ?_⟩
  rintro r ⟨id, env', hmap, hrun, hget⟩
  obtain ⟨j, -, rfl, hnone⟩ := hready.own id hmap
  have hops := hready.run
  rw [hrun] at hops
  cases hops
  rw [Env.get, hnone] at hget
  cases hget

/-- A division by zero of integers of 8 bits is not emitted. -/
theorem lowers_division_zero_eight {c : BitVec I.width} (hc : I.operand1 = .constantInt c)
    (hzero : c.toNat = 0) (height : I.width = 8)
    {llvm : (LlvmValue I.width → BitVec I.width) → Option (BitVec I.width)} :
    Lowers (emitIntegerDivisionInstruction expectAssume I opcode) I.result I.components
      [I.operand0, I.operand1] llvm := by
  have hemit : emitIntegerDivisionInstruction expectAssume I opcode = pure .null := by
    unfold emitIntegerDivisionInstruction
    rw [hc]
    simp only [hzero, ne_eq, not_true_eq_false, if_false, height]
    rfl
  intro u undef s env₀ env x _ hne
  rw [hemit] at hne
  exact absurd rfl hne

/-- The function that divides integers of 8 bits does not exist. -/
theorem not_lowers_division_call
    (hI : Operands I.width I.result I.components I.operand0 I.operand1)
    (hc : ∀ c, I.operand1 ≠ .constantInt c) (height : I.width = 8)
    {llvm : (LlvmValue I.width → BitVec I.width) → Option (BitVec I.width)} :
    ¬ Lowers (emitIntegerDivisionInstruction expectAssume I opcode) I.result I.components
      [I.operand0, I.operand1] llvm := by
  apply not_lowers hI.wf
  intro u undef s env₀ env x hready
  obtain ⟨j, s', hrun, -, -, -, -⟩ := hready.run_allocateFor hI.wf (.functionCall opcode)
    (physicalType I.width I.components)
  have hlast : ∃ ops arguments, arguments.length = 2 ∧
      ((emitIntegerDivisionInstruction expectAssume I opcode).run s).1 = .result j ∧
      ((emitIntegerDivisionInstruction expectAssume I opcode).run s).2.operations =
        ops ++
            [⟨.functionCall opcode, .result j, physicalType I.width I.components, arguments⟩] := by
    rw [emitDivision_call hc, run_bind, hrun]
    cases expectAssume with
    | true => exact ⟨_, [_, _], rfl, rfl, rfl⟩
    | false => exact ⟨_, [_, _], rfl, rfl, rfl⟩
  obtain ⟨ops, arguments, hlength, hid, hoperations⟩ := hlast
  rw [hid]
  refine ⟨SpvId.noConfusion, ?_⟩
  rintro r ⟨id, env', -, hops, -⟩
  have htype : physicalType I.width I.components = ⟨8, I.components⟩ := by
    rw [physicalType, height]
    rfl
  rw [hoperations, run_append, htype] at hops
  obtain ⟨env1, -, hstep⟩ := Option.bind_eq_some_iff.mp hops
  have hnone : step (target u undef) env1
      ⟨.functionCall opcode, .result j, ⟨8, I.components⟩, arguments⟩ = none :=
    step_functionCall_eight hI.pos hlength
  simp [run, hnone] at hstep

/-- A call of the function that divides computes each component. -/
theorem computes_division_call
    (hI : Operands I.width I.result I.components I.operand0 I.operand1)
    (hc : ∀ c, I.operand1 ≠ .constantInt c) (htwo : 2 ≤ I.width) (hne : I.width ≠ 8)
    (hop : IsDivision opcode)
    {f : (∀ w, Undefined w) → BitVec (physicalIntegerBitWidth I.width) →
      BitVec (physicalIntegerBitWidth I.width) → BitVec (physicalIntegerBitWidth I.width)}
    (hf : ∀ u undef, opcode.word (target u undef) (physicalIntegerBitWidth I.width) = some (f u)) :
    Computes (emitIntegerDivisionInstruction expectAssume I opcode) I.result I.components I.operand0
      I.operand1 fun u ra rb =>
        guarded (f u) (operandWord I.width (isSignedDivision opcode) true ra)
        (operandWord I.width (isSignedDivision opcode) true rb) := by
  intro u undef s env₀ env x hready
  have hina : I.operand0 ∈ [I.operand0, I.operand1] := List.mem_cons_self ..
  have hinb : I.operand1 ∈ [I.operand0, I.operand1] :=
    List.mem_cons_of_mem _ (List.mem_singleton_self _)
  obtain ⟨ra, rb, hra, hrb⟩ :=
    hI.exists_holds hready (hasId_of_ne hne _) (hasId_of_ne hne _)
  obtain ⟨j, s1, hrun1, hmap1, -, hmaps1, hready1⟩ := hready.run_allocateFor hI.wf
    (.functionCall opcode) (physicalType I.width I.components)
  have hrb1 : env.get (target u undef) (I.operand1.idOf s1 I.components) = some rb := by
    rw [idOf_congr hmaps1 (hI.wf _ hinb), hrb.get]
  -- The assertion, if there is one, changes nothing.
  obtain ⟨s2, env2, hrun2, hmap2, hready2, hmono2⟩ : ∃ s2 env2,
      (if expectAssume then emitAssumeNonZero I.components (isSignedDivision opcode) I.operand1
        else pure () : Emit Unit).run s1 = ((), s2) ∧ s2.valueMap = s1.valueMap ∧
      Ready (target u undef) s2 env₀ env2 I.result I.components [I.operand0, I.operand1] x ∧
      ∀ id r, env.get (target u undef) id = some r → env2.get (target u undef) id = some r := by
    cases expectAssume with
    | true =>
      exact hready1.assumeNonZero hI.one_le hI.le hI.wf hinb hrb1 hrb.type (isSignedDivision opcode)
    | false => exact ⟨s1, env, rfl, rfl, hready1, fun _ _ hget => hget⟩
  have hmaps2 : ∀ v, v ≠ I.result → s2.valueMap v = s.valueMap v := by
    intro v hv
    rw [hmap2, hmaps1 v hv]
  have hra2 : env2.get (target u undef) (I.operand0.idOf s2 I.components) = some ra := by
    rw [idOf_congr hmaps2 (hI.wf _ hina)]
    exact hmono2 _ _ hra.get
  have hrb2 : env2.get (target u undef) (I.operand1.idOf s2 I.components) = some rb := by
    rw [idOf_congr hmaps2 (hI.wf _ hinb)]
    exact hmono2 _ _ hrb.get
  let type := physicalType I.width I.components
  have hj : (⟨.functionCall opcode, .result j, type, []⟩ : Instruction).id = .result j := rfl
  obtain ⟨ra', rb', s3, arguments, hta, htb, hwa, hwb, hrun3, hgives, -⟩ :=
    hready2.gives_emitOperands hI.one_le hI.le hI.wf hina hinb hra2 hrb2 hra.type hrb.type
      (isSignedDivision opcode) true hj (by rw [hmap2, hmap1]) Opcode.noConfusion
  have hall : (emitIntegerDivisionInstruction expectAssume I opcode).run s = (.result j, s3) := by
    rw [emitDivision_call hc, run_bind, hrun1]
    have hbind : ∀ (m : Emit Unit), m.run s1 = ((), s2) →
        (m >>= fun _ =>
          emitOperands I.components (isSignedDivision opcode) true I.operand0 I.operand1
          ⟨.functionCall opcode, .result j, type, []⟩).run s1 = (.result j, s3) := by
      intro m hm
      rw [run_bind, hm]
      exact hrun3
    cases expectAssume with
    | true => exact hbind _ hrun2
    | false => exact hbind _ hrun2
  have hwidth : type.width ∈ [16, 32, 64] := physical_mem htwo hI.le hne
  obtain ⟨r, hr, hrtype, hlane⟩ := buildUdivUmod_eq hop hwidth (hf u undef) ra' rb'
  have hvalue : (⟨.functionCall opcode, .result j, type, arguments⟩ : Instruction).value
      (target u undef) [ra', rb'] = some r := by
    rw [← hr]
    exact if_pos ⟨hta, htb⟩
  rw [hall]
  refine ⟨ra, rb, hra, hrb, SpvId.noConfusion, r, hgives r hvalue, hrtype, fun i hi => ?_⟩
  rw [hlane i hi]
  have hwa := hwa i
  have hwb := hwb i
  simp only [type, physicalType] at hwa hwb ⊢
  rw [hwa, hwb]

end DxilSpirv.LlvmBuiltins
