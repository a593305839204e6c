import DxilSpirv.Convert.IntegerExact

/-!
# Comparisons and casts of integers

They extend what they read, so that they are right wherever their operands have ids. With the binary
operations this gives exactly the instructions whose meaning is kept.
-/

namespace DxilSpirv.LlvmBuiltins

open Spirv
open Converter (physicalIntegerBitWidth)

section Comparison

variable {I : CmpInstruction}

theorem CmpInstruction.operands (h : (IntegerInstruction.compare I).WellFormed) :
    Operands I.width I.result I.components I.operand0 I.operand1 := by
  obtain ⟨htwo, hle, hpos, h0, h1⟩ := h
  refine ⟨by omega, hle, hpos, fun y hy => ?_⟩
  rcases List.mem_cons.mp hy with rfl | hy
  · exact h0
  · rw [List.mem_singleton.mp hy]
    exact h1

theorem emitCompareInstruction_eq (I : CmpInstruction) :
    emitCompareInstruction I = emitTwo (compareOpcode I.width I.predicate).1 I.result
      ⟨1, I.components⟩
      I.components true (compareOpcode I.width I.predicate).2 I.operand0 I.operand1 := rfl

/-- The instruction of a comparison, on words that are extended as it asks. -/
theorem compareOpcode_relation {n w : Nat} (hn : n ≠ 1) (h : n ≤ w) (predicate : Predicate) :
    ∃ f : BitVec w → BitVec w → Bool, (compareOpcode n predicate).1.relation w = some f ∧
      (∀ T v, (compareOpcode n predicate).1.word T v = none) ∧
      ∀ x y : BitVec w, f (extend (compareOpcode n predicate).2 n x)
        (extend (compareOpcode n predicate).2 n y) =
          predicate.result (x.setWidth n) (y.setWidth n) := by
  cases predicate with
  | eq =>
    refine ⟨fun a b => a == b, ?_, ?_, fun x y => ?_⟩
    · simp [compareOpcode, hn, Opcode.relation]
    · simp [compareOpcode, hn, Opcode.word]
    · rw [Bool.eq_iff_iff]
      simpa [compareOpcode, Predicate.result] using extend_inj false h
  | ne =>
    refine ⟨fun a b => a != b, ?_, ?_, fun x y => ?_⟩
    · simp [compareOpcode, hn, Opcode.relation]
    · simp [compareOpcode, hn, Opcode.word]
    · rw [Bool.eq_iff_iff]
      simpa [compareOpcode, Predicate.result] using not_congr (extend_inj false h)
  | ugt => exact ⟨_, rfl, fun _ _ => rfl, fun _ _ => extend_ult h⟩
  | uge => exact ⟨_, rfl, fun _ _ => rfl, fun _ _ => extend_ule h⟩
  | ult => exact ⟨_, rfl, fun _ _ => rfl, fun _ _ => extend_ult h⟩
  | ule => exact ⟨_, rfl, fun _ _ => rfl, fun _ _ => extend_ule h⟩
  | sgt => exact ⟨_, rfl, fun _ _ => rfl, fun _ _ => extend_slt h⟩
  | sge => exact ⟨_, rfl, fun _ _ => rfl, fun _ _ => extend_sle h⟩
  | slt => exact ⟨_, rfl, fun _ _ => rfl, fun _ _ => extend_slt h⟩
  | sle => exact ⟨_, rfl, fun _ _ => rfl, fun _ _ => extend_sle h⟩

/-- A comparison keeps its meaning exactly when its operands have ids. -/
theorem compare_keepsMeaning_iff (h : (IntegerInstruction.compare I).WellFormed) :
    Lowers (emitCompareInstruction I) I.result I.components [I.operand0, I.operand1]
      (fun x => some (BitVec.ofBool (I.predicate.result (x I.operand0) (x I.operand1)))) ↔
      I.operand0.HasId ∧ I.operand1.HasId := by
  have hI := I.operands h
  have hw := le_physicalIntegerBitWidth hI.one_le hI.le
  have hone : I.width ≠ 1 := by
    have htwo := h.1
    omega
  obtain ⟨f, hrelation, hword, hf⟩ := compareOpcode_relation hone hw I.predicate
  rw [emitCompareInstruction_eq]
  constructor
  · intro hlowers
    by_contra hid
    exact not_lowers hI.wf (fun u undef s env₀ env x hready =>
      hI.not_gives hready hid _ _ _ _) hlowers
  · intro hids u undef s env₀ env x hready _
    obtain ⟨ra, rb, hra, hrb⟩ := hI.exists_holds hready hids.1 hids.2
    have hopcode : (compareOpcode I.width I.predicate).1 ≠ .assumeTrue := by
      intro heq
      rw [heq] at hrelation
      cases hrelation
    obtain ⟨-, ra', rb', id, arguments, hta, htb, hwa, hwb, hgives, -⟩ :=
      hI.gives hready hra.get hrb.get hra.type hrb.type hopcode ⟨1, I.components⟩ true
        (compareOpcode I.width I.predicate).2
    have hrelation : (compareOpcode I.width I.predicate).1.relation
        (physicalType I.width I.components).width = some f := hrelation
    obtain ⟨id', env', hid, hrun, hget⟩ :=
      hgives _ (value_relation hrelation (hword _ _) hta htb rfl)
    refine ⟨id', env', _, hid, hrun, hget, rfl, fun hdefined i hi z hz => ?_⟩
    have hda := hdefined I.operand0 (List.mem_cons_self ..)
    have hdb := hdefined I.operand1 (List.mem_cons_of_mem _ (List.mem_singleton_self _))
    have hwa := hwa i
    have hwb := hwb i
    rw [← Option.some.inj hz, Register.word]
    simp only [physicalType] at hwa hwb ⊢
    rw [hwa, hwb]
    simp only [operandWord, if_true]
    rw [hf, setWidth_word hw, setWidth_word hw, hra.word hda i hi, hrb.word hdb i hi]
    cases I.predicate.result (x I.operand0 i) (x I.operand1 i) with
    | true => rfl
    | false => rfl

end Comparison

variable {n m v w : Nat}

/-- What a conversion does to a word. -/
def convert (isSigned : Bool) (v : Nat) (x : BitVec w) : BitVec v :=
  if isSigned then x.signExtend v else x.setWidth v

theorem setWidth_convert (isSigned : Bool) (x : BitVec w) (h : m ≤ v) :
    (convert isSigned v x).setWidth m = convert isSigned m x := by
  cases isSigned with
  | true => exact setWidth_signExtend x h
  | false => exact BitVec.setWidth_setWidth_of_le x h

theorem convert_eq_setWidth (isSigned : Bool) (x : BitVec w) (h : m ≤ w) :
    convert isSigned m x = x.setWidth m := by
  cases isSigned with
  | true => exact BitVec.signExtend_eq_setWidth_of_le x h
  | false => rfl

theorem signExtend_signExtend (x : BitVec n) (h : n ≤ w) :
    (x.signExtend w).signExtend m = x.signExtend m := by
  by_cases hm : m ≤ w
  · rw [BitVec.signExtend_eq_setWidth_of_le _ hm, setWidth_signExtend x hm]
  · apply BitVec.eq_of_toInt_eq
    rw [BitVec.toInt_signExtend_of_le (by omega), BitVec.toInt_signExtend_of_le h,
      BitVec.toInt_signExtend_of_le (by omega)]

/-- A cast is a conversion of the low bits, extended. -/
theorem convert_extend {opcode : CastOps} {isSigned : Bool} (hsigned : isSigned = (opcode == .sext))
    {bits : Nat} (hbits : bits = n ∨ opcode = .trunc ∧ bits = m) (hm : opcode = .trunc → m ≤ n)
    (h : n ≤ w) (x : BitVec w) :
    convert isSigned m (extend isSigned bits x) = opcode.result m (x.setWidth n) := by
  subst hsigned
  cases opcode with
  | sext =>
    rcases hbits with rfl | ⟨htrunc, -⟩
    · exact signExtend_signExtend _ h
    · cases htrunc
  | zext =>
    rcases hbits with rfl | ⟨htrunc, -⟩
    · exact BitVec.setWidth_setWidth (by omega)
    · cases htrunc
  | trunc =>
    have hmn := hm rfl
    have hle : m ≤ bits ∧ bits ≤ w := by omega
    show ((x.setWidth bits).setWidth w).setWidth m = (x.setWidth n).setWidth m
    rw [BitVec.setWidth_setWidth (by omega), BitVec.setWidth_setWidth (by omega),
      BitVec.setWidth_setWidth (by omega)]

variable {I : CastInstruction} {u : ∀ w, Undefined w} {undef : RegisterType → Nat → Nat}
  {s : Emitter} {env₀ env : Env} {x : LlvmValue I.inputWidth → Nat → BitVec I.inputWidth}

/-- A conversion of the low bits of the operand. -/
def emitConvert (I : CastInstruction) (opcode : Opcode) (bits : Nat) (isSigned : Bool) :
    Emit SpvId := do
  let op ← allocateFor opcode I.result (physicalType I.outputWidth I.components)
  let id ← buildNaturallyExtendedValue I.components I.operand bits isSigned
  add { op with arguments := [id] }
  return op.id

/-- The operand of a cast and what is known of it. -/
structure CastOperand (I : CastInstruction) : Prop where
  one_le : 1 ≤ I.inputWidth
  le : I.inputWidth ≤ 64
  one_le' : 1 ≤ I.outputWidth
  le' : I.outputWidth ≤ 64
  pos : 0 < I.components
  wf : I.operand.WellFormed I.result I.components
  widths : if I.opcode = .trunc then I.outputWidth < I.inputWidth else I.inputWidth < I.outputWidth

theorem CastInstruction.castOperand (h : (IntegerInstruction.cast I).WellFormed) :
    CastOperand I := by
  obtain ⟨h1, h2, h3, h4, h5, h6, h7⟩ := h
  exact ⟨h1, h2, h3, h4, h5, h6, h7⟩

namespace CastOperand

theorem forall_wf (hI : CastOperand I) :
    ∀ a ∈ [I.operand], a.WellFormed I.result I.components := by
  intro a ha
  rw [List.mem_singleton.mp ha]
  exact hI.wf

/-- What a conversion ends up with. -/
theorem gives_emitConvert (hI : CastOperand I) {T : Target}
    (h : Ready T s env₀ env I.result I.components [I.operand] x) {r : Register}
    (hr : env.get T (I.operand.idOf s I.components) = some r)
    (htype : r.type = physicalType I.inputWidth I.components)
    (hwidth : physicalIntegerBitWidth I.inputWidth ≠ physicalIntegerBitWidth I.outputWidth)
    {bits : Nat} (hbits : bits ≤ I.inputWidth) (isSigned : Bool) :
    ∃ j s' r', (emitConvert I (if isSigned then .sConvert else .uConvert) bits isSigned).run s =
      (.result j, s') ∧ Gives T s' env₀ I.result r' ∧
      r'.type = physicalType I.outputWidth I.components ∧
      ∀ i, r'.lane i = (convert isSigned (physicalIntegerBitWidth I.outputWidth)
        (extend isSigned bits (r.word (physicalIntegerBitWidth I.inputWidth) i))).toNat := by
  let opcode : Opcode := if isSigned then .sConvert else .uConvert
  let type := physicalType I.outputWidth I.components
  obtain ⟨j, s1, hrun1, hmap1, -, hmaps1, h1⟩ := h.run_allocateFor hI.forall_wf opcode type
  have hin : I.operand ∈ [I.operand] := List.mem_singleton_self _
  have hr1 : env.get T (I.operand.idOf s1 I.components) = some r := by
    rw [idOf_congr hmaps1 hI.wf, hr]
  obtain ⟨id, s2, env2, r', hrun2, hmap2, -, h2, -, hget, htype', hword⟩ :=
    h1.extended hI.one_le hI.le hI.forall_wf hin hr1 htype hbits isSigned
  let op : Instruction := ⟨opcode, .result j, type, [id]⟩
  have hj : op.id = .result j := rfl
  have harguments : op.arguments.mapM (env2.get T) = some [r'] := by
    simp only [op, List.mapM_cons, List.mapM_nil, hget]
    rfl
  have hopcode : op.opcode ≠ .assumeTrue := by
    cases isSigned with
    | true => exact Opcode.noConfusion
    | false => exact Opcode.noConfusion
  have hfits : r'.type.components = type.components ∧ r'.type.width ≠ type.width := by
    rw [htype']
    exact ⟨rfl, hwidth⟩
  have hvalue : op.value T [r'] = some ⟨type, fun i =>
      (convert isSigned type.width (r'.word r'.type.width i)).toNat⟩ := by
    cases isSigned with
    | true => exact if_pos hfits
    | false => exact if_pos hfits
  refine ⟨j, _, _, ?_, h2.finish hj (by rw [hmap2, hmap1]) harguments hopcode hvalue, rfl,
    fun i => ?_⟩
  · rw [emitConvert, run_bind, hrun1, run_bind]
    simp only
    rw [hrun2]
    rfl
  · have hword := hword i
    rw [htype']
    simp only [physicalType, type] at hword ⊢
    rw [hword]

/-- Without an id for the operand the conversion is never defined. -/
theorem not_gives_emitConvert (hI : CastOperand I) {T : Target}
    (h : Ready T s env₀ env I.result I.components [I.operand] x) (hid : ¬ I.operand.HasId)
    (opcode : Opcode) (isSigned : Bool) :
    ((emitConvert I opcode I.inputWidth isSigned).run s).1 ≠ .null ∧ ∀ r, ¬ Gives T
      ((emitConvert I opcode I.inputWidth isSigned).run s).2 env₀ I.result r := by
  obtain ⟨j, s1, hrun1, -, -, -, h1⟩ := h.run_allocateFor hI.forall_wf opcode
    (physicalType I.outputWidth I.components)
  have hin : I.operand ∈ [I.operand] := List.mem_singleton_self _
  obtain ⟨height, -, hnone⟩ := get_idOf_of_not_hasId T s1 env hI.wf hI.pos hid
  have hrun := run_operandId_eight height (h1.operands _ hin) true isSigned
  have hall : (emitConvert I opcode I.inputWidth isSigned).run s = (.result j, { s1 with
      operations := s1.operations ++ [⟨opcode, .result j, physicalType I.outputWidth I.components,
        [I.operand.idOf s1 I.components]⟩] }) := by
    rw [emitConvert, run_bind, hrun1]
    simp only
    rw [operandId, if_pos rfl] at hrun
    rw [run_bind, hrun]
    rfl
  rw [hall]
  refine ⟨SpvId.noConfusion, fun r => h1.not_gives ?_ r⟩
  rw [List.mapM_cons, hnone]
  rfl

/-- Converting the low bits keeps the meaning of a cast. -/
theorem lowers_of_gives (hI : CastOperand I) (hid : I.operand.HasId) {emit : Emit SpvId}
    {isSigned : Bool} (hsigned : isSigned = (I.opcode == .sext)) {bits : Nat}
    (hbits : bits = I.inputWidth ∨ I.opcode = .trunc ∧ bits = I.outputWidth)
    (hgives : ∀ T s env₀ env x, Ready T s env₀ env I.result I.components [I.operand] x →
      ∀ r, env.get T (I.operand.idOf s I.components) = some r →
      r.type = physicalType I.inputWidth I.components →
      ∃ r', Gives T (emit.run s).2 env₀ I.result r' ∧
        r'.type = physicalType I.outputWidth I.components ∧
        ∀ i, r'.word I.outputWidth i = convert isSigned I.outputWidth
          (extend isSigned bits (r.word (physicalIntegerBitWidth I.inputWidth) i))) :
    Lowers emit I.result I.components [I.operand]
      fun x => some (I.opcode.result I.outputWidth (x I.operand)) := by
  intro u undef s env₀ env x hready _
  have hin : I.operand ∈ [I.operand] := List.mem_singleton_self _
  obtain ⟨r, hr⟩ := exists_holds hI.one_le hI.le hI.wf (hready.operands _ hin) hid
  obtain ⟨r', ⟨id, env', hmap, hrun, hget⟩, htype, hword⟩ :=
    hgives _ _ _ _ _ hready r hr.get hr.type
  refine ⟨id, env', r', hmap, hrun, hget, htype, fun hdefined i hi z hz => ?_⟩
  have hw := le_physicalIntegerBitWidth hI.one_le hI.le
  have hm : I.opcode = .trunc → I.outputWidth ≤ I.inputWidth := by
    intro htrunc
    have hwidths := hI.widths
    rw [if_pos htrunc] at hwidths
    omega
  rw [← Option.some.inj hz, hword i, convert_extend hsigned hbits hm hw, setWidth_word hw,
    hr.word (hdefined _ hin) i hi]

theorem ne_widths (hI : CastOperand I) : I.inputWidth ≠ I.outputWidth := by
  have hwidths := hI.widths
  split at hwidths
  · omega
  · omega

/-- The bits that a masked cast keeps. -/
theorem min_widths (hI : CastOperand I) :
    min I.outputWidth I.inputWidth = I.inputWidth ∨
      I.opcode = .trunc ∧ min I.outputWidth I.inputWidth = I.outputWidth := by
  have hwidths := hI.widths
  split at hwidths
  · rename_i htrunc
    exact Or.inr ⟨htrunc, by omega⟩
  · left
    omega

/-- A cast between integers needs an id for its operand. -/
theorem lowers_emitConvertInstruction_iff (hI : CastOperand I) {isSigned : Bool}
    (hsigned : isSigned = (I.opcode == .sext)) :
    Lowers (emitConvertInstruction I (if isSigned then .sConvert else .uConvert) isSigned) I.result
      I.components [I.operand] (fun x => some (I.opcode.result I.outputWidth (x I.operand))) ↔
      I.operand.HasId := by
  have hopcode : decide ((if isSigned then Opcode.sConvert else .uConvert) = .sConvert) =
      isSigned := by
    cases isSigned with
    | true => rfl
    | false => rfl
  have hm := le_physicalIntegerBitWidth hI.one_le' hI.le'
  have hbits : min I.outputWidth I.inputWidth ≤ I.inputWidth := Nat.min_le_right ..
  by_cases hsame : physicalIntegerBitWidth I.outputWidth = physicalIntegerBitWidth I.inputWidth
  · -- The low bits are extracted, and the instruction becomes their id.
    have hid : I.operand.HasId := by
      apply hasId_of_ne
      intro height
      have hout := (physicalIntegerBitWidth_eq_eight hI.one_le' hI.le').mp
        (by rw [hsame, height]; rfl)
      exact hI.ne_widths (by omega)
    apply iff_of_true _ hid
    apply hI.lowers_of_gives hid hsigned hI.min_widths
    intro T s env₀ env x hready r hr htype
    obtain ⟨id, s', env', r', hrun, hmap, -, hready', -, hget, htype', hword⟩ :=
      hready.extended hI.one_le hI.le hI.forall_wf
        (List.mem_singleton_self _) hr htype hbits isSigned
    have hne : id ≠ .null := by
      rintro rfl
      cases hget
    have hall :
      (emitConvertInstruction I (if isSigned then .sConvert else .uConvert) isSigned).run s =
        (id, { s' with valueMap := Function.update s'.valueMap I.result (some id) }) := by
      rw [emitConvertInstruction, run_bind, emitMaskedCastInstruction, if_pos hsame,
        run_bind, hopcode, hrun]
      simp only
      rw [run_bind, run_rewriteValue]
      simp only
      rw [run_pure]
      simp only
      rw [if_pos hne]
      rfl
    rw [hall]
    refine ⟨r', ⟨id, env', Function.update_self .., hready'.run, hget⟩, ?_, fun i => ?_⟩
    · rw [htype', physicalType, physicalType, hsame]
    · rw [← hword i, convert_eq_setWidth _ _ (by omega), setWidth_word (by omega)]
  · have hwidth : physicalIntegerBitWidth I.inputWidth ≠ physicalIntegerBitWidth I.outputWidth :=
      Ne.symm hsame
    -- What is emitted is a conversion, of the kept bits if the input has an odd width.
    have hconvert : ∀ bits, bits ≤ I.inputWidth →
        (bits = I.inputWidth ∨ I.opcode = .trunc ∧ bits = I.outputWidth) → I.operand.HasId →
        ∀ emit : Emit SpvId,
          (∀ T s env₀ env x, Ready T s env₀ env I.result I.components [I.operand] x →
          ∀ j s', (emitConvert I (if isSigned then .sConvert else .uConvert) bits isSigned).run s =
            (.result j, s') → (emit.run s).2 = s') →
        Lowers emit I.result I.components [I.operand]
          fun x => some (I.opcode.result I.outputWidth (x I.operand)) := by
      intro bits hle hbits hid emit hemit
      apply hI.lowers_of_gives hid hsigned hbits
      intro T s env₀ env x hready r hr htype
      obtain ⟨j, s', r', hrun, hgives, htype', hlane⟩ :=
        hI.gives_emitConvert hready hr htype hwidth hle isSigned
      rw [hemit _ _ _ _ _ hready j s' hrun]
      refine ⟨r', hgives, htype', fun i => ?_⟩
      rw [Register.word, hlane i, BitVec.ofNat_toNat, setWidth_convert _ _ hm]
    by_cases hodd : physicalIntegerBitWidth I.inputWidth = I.inputWidth
    · have hrun : emitConvertInstruction I (if isSigned then .sConvert else .uConvert) isSigned =
          emitConvert I (if isSigned then .sConvert else .uConvert) I.inputWidth isSigned := by
        rw [emitConvertInstruction, emitMaskedCastInstruction, if_neg hsame,
          if_neg (not_not.mpr hodd)]
        rfl
      rw [hrun]
      constructor
      · intro hlowers
        by_contra hid
        exact not_lowers hI.forall_wf (fun u undef s env₀ env x hready =>
          hI.not_gives_emitConvert hready hid _ _) hlowers
      · intro hid
        apply hconvert I.inputWidth (Nat.le_refl _) (Or.inl rfl) hid
        intro T s env₀ env x _ j s' hrun
        rw [hrun]
    · have hid : I.operand.HasId := by
        apply hasId_of_ne
        intro height
        exact hodd (by rw [height]; rfl)
      apply iff_of_true _ hid
      apply hconvert _ hbits hI.min_widths hid
      intro T s env₀ env x _ j s' hrun
      rw [emitConvertInstruction, run_bind, emitMaskedCastInstruction, if_neg hsame, if_pos hodd,
        hopcode]
      have hmask : ((do
          let maskOp ← allocateFor (if isSigned then .sConvert else .uConvert) I.result
            (physicalType I.outputWidth I.components)
          let id ← buildNaturallyExtendedValue I.components I.operand
            (min I.outputWidth I.inputWidth) isSigned
          add { maskOp with arguments := [id] }
          return maskOp.id : Emit SpvId)).run s = (.result j, s') := hrun
      rw [hmask]
      simp only
      rw [if_pos (show SpvId.result j ≠ .null from SpvId.noConfusion)]
      rfl

/-- A constant in each component. -/
theorem get_splatConstant (T : Target) (env : Env) (type : RegisterType) (value : Nat) :
    ∃ r, env.get T (splatConstant type (.scalar type.width value)) = some r ∧ r.type = type ∧
      ∀ i < type.components, r.lane i = value := by
  by_cases hone : type.components = 1
  · refine ⟨⟨⟨type.width, 1⟩, fun _ => value⟩, ?_, ?_, fun _ _ => rfl⟩
    · rw [splatConstant, if_pos hone]
      rfl
    · rw [← hone]
  · refine ⟨⟨type, fun i => (((List.replicate type.components (some value))[i]?).join).getD 0⟩, ?_,
      rfl, fun i hi => ?_⟩
    · rw [splatConstant, if_neg hone, Env.get, if_neg]
      · rfl
      · intro hin
        cases (List.mem_replicate.mp hin).2
    · simp only
      rw [List.getElem?_replicate_of_lt hi]
      rfl

/-- The constant that a cast from a boolean selects. -/
theorem select_low {opcode : CastOps} {isSigned : Bool} (hsigned : isSigned = (opcode == .sext))
    (htrunc : opcode ≠ .trunc) {m w : Nat} (hpos : 0 < m) (h : m ≤ w) (lane : Nat) :
    BitVec.ofNat m (if lane % 2 = 1 then (if isSigned then 2 ^ w - 1 else 1) % 2 ^ w else 0) =
      opcode.result m (BitVec.ofNat 1 lane) := by
  have hlow : BitVec.ofNat 1 lane = if lane % 2 = 1 then 1 else 0 := by
    apply BitVec.eq_of_toNat_eq
    rw [BitVec.toNat_ofNat]
    split
    · assumption
    · rename_i heven
      have hzero : lane % 2 = 0 := by omega
      exact hzero
  have hw : 2 ^ 1 ≤ 2 ^ w := Nat.pow_le_pow_right (by omega) (by omega)
  rw [hlow]
  by_cases hodd : lane % 2 = 1
  · rw [if_pos hodd, if_pos hodd]
    cases opcode with
    | trunc => exact absurd rfl htrunc
    | zext =>
      subst hsigned
      show BitVec.ofNat m (1 % 2 ^ w) = BitVec.setWidth m (1 : BitVec 1)
      rw [Nat.mod_eq_of_lt (by omega)]
      apply BitVec.eq_of_toNat_eq
      rw [BitVec.toNat_ofNat, BitVec.toNat_setWidth]
      rfl
    | sext =>
      subst hsigned
      show BitVec.ofNat m ((2 ^ w - 1) % 2 ^ w) = BitVec.signExtend m (1 : BitVec 1)
      have hones : BitVec.ofNat w (2 ^ w - 1) = BitVec.allOnes w := by
        apply BitVec.eq_of_toNat_eq
        rw [BitVec.toNat_ofNat, BitVec.toNat_allOnes, Nat.mod_eq_of_lt (by omega)]
      rw [Nat.mod_eq_of_lt (by omega), ← BitVec.setWidth_ofNat_of_le h, hones, setWidth_allOnes h]
      apply BitVec.eq_of_toInt_eq
      rw [BitVec.toInt_signExtend_of_le hpos, BitVec.toInt_allOnes, if_pos hpos]
      rfl
  · rw [if_neg hodd, if_neg hodd]
    cases opcode with
    | trunc => exact absurd rfl htrunc
    | zext => exact (BitVec.setWidth_zero ..).symm
    | sext =>
      show 0 = BitVec.signExtend m (0 : BitVec 1)
      rw [BitVec.signExtend_eq_setWidth_of_msb_false rfl]
      exact (BitVec.setWidth_zero ..).symm

/-- A cast from a boolean selects one of two constants. -/
theorem lowers_emitBooleanConvertInstruction (hI : CastOperand I) (hin : I.inputWidth = 1)
    {isSigned : Bool} (hsigned : isSigned = (I.opcode == .sext)) :
    Lowers (emitBooleanConvertInstruction I isSigned) I.result I.components [I.operand]
      fun x => some (I.opcode.result I.outputWidth (x I.operand)) := by
  obtain ⟨inputWidth, m, components, result, opcode, operand⟩ := I
  simp only at hin hsigned
  subst hin
  let type := physicalType m components
  by_cases hmem : type.width ∈ [16, 32, 64]
  · intro u undef s env₀ env x hready _
    let value := (if isSigned then 2 ^ type.width - 1 else 1) % 2 ^ type.width
    obtain ⟨j, s', hrun, hmap, -, -, hready'⟩ := hready.run_allocateFor hI.forall_wf .select type
    have hin : operand ∈ [operand] := List.mem_singleton_self _
    obtain ⟨r, hr⟩ := exists_holds hI.one_le hI.le hI.wf (hready'.operands _ hin)
      (hasId_of_ne (show (1 : Nat) ≠ 8 by omega) _)
    obtain ⟨r1, hr1, htype1, hlane1⟩ := get_splatConstant (target u undef) env type value
    obtain ⟨r0, hr0, htype0, hlane0⟩ := get_splatConstant (target u undef) env type 0
    let op : Instruction := ⟨.select, .result j, type, [operand.idOf s' components,
      splatConstant type (.scalar type.width value), splatConstant type (.scalar type.width 0)]⟩
    have hj : op.id = .result j := rfl
    have harguments : op.arguments.mapM (env.get (target u undef)) = some [r, r1, r0] := by
      simp only [op, List.mapM_cons, List.mapM_nil, hr.get, hr1, hr0]
      rfl
    have hvalue : op.value (target u undef) [r, r1, r0] =
        some ⟨type, fun i => if r.lane i % 2 = 1 then r1.lane i else r0.lane i⟩ :=
      if_pos ⟨hr.type, htype1, htype0⟩
    obtain ⟨id, env', hid, hops, hget⟩ :=
      hready'.finish hj hmap harguments Opcode.noConfusion hvalue
    have hall : (emitBooleanConvertInstruction ⟨1, m, components, result, opcode, operand⟩
        isSigned).run s = (.result j, { s' with operations := s'.operations ++ [op] }) := by
      have hconstant : ∀ v, physicalConstant type.width v =
          some (.scalar type.width (v % 2 ^ type.width)) := fun v => if_pos hmem
      rw [emitBooleanConvertInstruction]
      simp only [type] at hconstant
      simp only [hconstant]
      rw [run_bind, hrun]
      simp only
      rw [run_bind, run_getIdForValue (hready'.operands _ hin)]
      simp only [Nat.zero_mod]
      rfl
    rw [hall]
    refine ⟨id, env', _, hid, hops, hget, rfl, fun hdefined i hi z hz => ?_⟩
    have htrunc : opcode ≠ .trunc := by
      have hwidths := hI.widths
      have hpos := hI.one_le'
      rintro rfl
      simp at hwidths hpos
      omega
    rw [← Option.some.inj hz, Register.word]
    simp only
    rw [hlane1 i hi, hlane0 i hi, ← hr.word (hdefined _ hin) i hi]
    exact select_low hsigned htrunc hI.one_le' (le_physicalIntegerBitWidth hI.one_le' hI.le') _
  · intro u undef s env₀ env x hready hne
    have hzero : physicalConstant (physicalType m components).width 0 = none := if_neg hmem
    rw [emitBooleanConvertInstruction] at hne
    simp only [hzero] at hne
    exact absurd rfl hne

/-- Masking a word with one leaves its lowest bit. -/
theorem mask_low {n w : Nat} (hn : 2 ≤ n) (h : n ≤ w) (y : BitVec w) :
    BitVec.ofNat 1 ((extend false n y &&& BitVec.ofNat w 1) != BitVec.ofNat w 0).toNat =
      (y.setWidth n).setWidth 1 := by
  have hpow : 2 ^ 2 ≤ 2 ^ w := Nat.pow_le_pow_right (by omega) (by omega)
  have hand : (extend false n y &&& BitVec.ofNat w 1).toNat = (y.setWidth n).toNat % 2 := by
    rw [BitVec.toNat_and, toNat_extend y h, BitVec.toNat_ofNat, Nat.mod_eq_of_lt (by omega),
      Nat.and_one_is_mod]
  have hzero : (extend false n y &&& BitVec.ofNat w 1) = BitVec.ofNat w 0 ↔
      (y.setWidth n).toNat % 2 = 0 := by
    rw [← BitVec.toNat_inj, hand]
    simp
  apply BitVec.eq_of_toNat_eq
  rw [BitVec.toNat_setWidth (x := y.setWidth n), BitVec.toNat_ofNat]
  by_cases heven : (y.setWidth n).toNat % 2 = 0
  · rw [bne_eq_false_iff_eq.mpr (hzero.mpr heven)]
    exact heven.symm
  · rw [bne_iff_ne.mpr fun heq => heven (hzero.mp heq)]
    have hodd : 1 = (y.setWidth n).toNat % 2 := by omega
    exact hodd

/-- A cast to a boolean compares the lowest bit. -/
theorem lowers_emitBooleanTruncInstruction (hI : CastOperand I) (hout : I.outputWidth = 1)
    (htrunc : I.opcode = .trunc) :
    Lowers (emitBooleanTruncInstruction I) I.result I.components [I.operand]
      fun x => some (I.opcode.result I.outputWidth (x I.operand)) := by
  obtain ⟨n, outputWidth, components, result, opcode, operand⟩ := I
  simp only at hout htrunc
  subst hout
  subst htrunc
  let type := physicalType n components
  have hw := le_physicalIntegerBitWidth hI.one_le hI.le
  by_cases hmem : type.width ∈ [16, 32, 64]
  · have hid : operand.HasId := by
      apply hasId_of_ne
      rintro rfl
      have height : 8 ∉ [16, 32, 64] := by decide
      exact height hmem
    intro u undef s env₀ env x hready _
    have hin : operand ∈ [operand] := List.mem_singleton_self _
    have hnew := hready.fresh s.nextId (Nat.le_refl _)
    obtain ⟨r, hr⟩ := exists_holds hI.one_le hI.le hI.wf (hready.allocated.operands _ hin) hid
    obtain ⟨id, s1, env1, r', hrun1, hmap1, hagree1, h1, -, hget1, htype1, hword1⟩ :=
      hready.allocated.extended hI.one_le hI.le hI.forall_wf hin hr.get hr.type
        (Nat.le_refl n) false
    obtain ⟨hnone, hlt⟩ := hagree1 s.nextId (Nat.lt_succ_self _)
    obtain ⟨rone, hone, honetype, honelane⟩ := get_splatConstant (target u undef) env1 type 1
    let mask : Instruction :=
      ⟨.bitwiseAnd, .result s.nextId, type, [id, splatConstant type (.scalar type.width 1)]⟩
    have hmaskargs : mask.arguments.mapM (env1.get (target u undef)) = some [r', rone] := by
      simp only [mask, List.mapM_cons, List.mapM_nil, hget1, hone]
      rfl
    have hmask : mask.opcode.word (target u undef) mask.type.width = some fun a b => a &&& b := rfl
    have hmaskid : mask.id = .result s.nextId := rfl
    have hmaskvalue := value_word hmask htype1 honetype
    have hown1 : s1.valueMap result ≠ some (.result s.nextId) := by
      rw [hmap1]
      exact hready.own_ne
    obtain ⟨env2, h2, -, henv2⟩ := h1.intermediate hI.forall_wf hmaskid (hnone.trans hnew) hlt hown1
      hmaskargs Opcode.noConfusion hmaskvalue
    obtain ⟨j, s3, hrun3, hmap3, -, -, h3⟩ :=
      h2.run_allocateFor hI.forall_wf .iNotEqual (physicalType 1 components)
    have hget2 : env2.get (target u undef) (.result s.nextId) = some ⟨type, fun i =>
        (r'.word type.width i &&& rone.word type.width i).toNat⟩ := by
      rw [henv2]
      exact Function.update_self ..
    obtain ⟨rzero, hzero, hzerotype, hzerolane⟩ := get_splatConstant (target u undef) env2 type 0
    let op : Instruction := ⟨.iNotEqual, .result j, physicalType 1 components,
      [.result s.nextId, splatConstant type (.scalar type.width 0)]⟩
    have hargs : op.arguments.mapM (env2.get (target u undef)) = some [⟨type, fun i =>
        (r'.word type.width i &&& rone.word type.width i).toNat⟩, rzero] := by
      simp only [op, List.mapM_cons, List.mapM_nil, hget2, hzero]
      rfl
    have hop : op.opcode.relation type.width = some fun a b => a != b := rfl
    have hj : op.id = .result j := rfl
    have hvalue := value_relation (T := target u undef)
      (a := ⟨type, fun i => (r'.word type.width i &&& rone.word type.width i).toNat⟩) hop rfl rfl
      hzerotype rfl
    obtain ⟨id', env', hid', hops, hget⟩ := h3.finish hj hmap3 hargs Opcode.noConfusion hvalue
    have hall : (emitBooleanTruncInstruction ⟨n, 1, components, result, .trunc, operand⟩).run s =
        (.result j, { s3 with operations := s3.operations ++ [op] }) := by
      have hconstant : ∀ v, physicalConstant type.width v =
          some (.scalar type.width (v % 2 ^ type.width)) := fun v => if_pos hmem
      have hpow : 2 ^ 1 ≤ 2 ^ type.width :=
        Nat.pow_le_pow_right (by omega) (Nat.le_trans hI.one_le hw)
      have hone : 1 % 2 ^ type.width = 1 := Nat.mod_eq_of_lt (by omega)
      rw [emitBooleanTruncInstruction]
      simp only [type] at hconstant hone
      simp only [hconstant, hone, Nat.zero_mod]
      rw [run_bind, run_allocate]
      simp only
      rw [run_bind, hrun1]
      simp only
      rw [run_bind, run_add]
      simp only
      rw [run_bind, hrun3]
      rfl
    rw [hall]
    refine ⟨id', env', _, hid', hops, hget, rfl, fun hdefined i hi z hz => ?_⟩
    rw [← Option.some.inj hz, Register.word]
    simp only [Register.word, BitVec.ofNat_toNat, BitVec.setWidth_eq, type] at hword1 ⊢
    have htwo : 1 < n := by
      have hwidths := hI.widths
      simpa using hwidths
    have hextended : BitVec.ofNat (physicalType n components).width (r'.lane i) =
        extend false n (BitVec.ofNat (physicalIntegerBitWidth n) (r.lane i)) := hword1 i
    rw [honelane i hi, hzerolane i hi, hextended]
    refine (mask_low htwo hw _).trans ?_
    rw [BitVec.setWidth_ofNat_of_le hw, ← hr.word (hdefined _ hin) i hi]
    rfl
  · intro u undef s env₀ env x hready hne
    have hzero : physicalConstant (physicalType n components).width 0 = none := if_neg hmem
    rw [emitBooleanTruncInstruction] at hne
    simp only [hzero] at hne
    exact absurd rfl hne

/-- A cast keeps its meaning if it is to a boolean or its operand has an id. -/
theorem keepsMeaning_iff (hI : CastOperand I) :
    Lowers (emitCastInstruction I) I.result I.components [I.operand]
      (fun x => some (I.opcode.result I.outputWidth (x I.operand))) ↔
      I.outputWidth = 1 ∨ I.operand.HasId := by
  have hwidths := hI.widths
  have hconvert : ∀ isSigned, isSigned = (I.opcode == .sext) → I.outputWidth ≠ 1 →
      (Lowers (emitConvertInstruction I (if isSigned then .sConvert else .uConvert) isSigned)
        I.result
        I.components [I.operand] (fun x => some (I.opcode.result I.outputWidth (x I.operand))) ↔
        I.outputWidth = 1 ∨ I.operand.HasId) := by
    intro isSigned hsigned hout
    rw [hI.lowers_emitConvertInstruction_iff hsigned]
    exact ⟨Or.inr, fun h => h.resolve_left hout⟩
  have hboolean : ∀ isSigned, isSigned = (I.opcode == .sext) → I.inputWidth = 1 →
      (Lowers (emitBooleanConvertInstruction I isSigned) I.result I.components [I.operand]
        (fun x => some (I.opcode.result I.outputWidth (x I.operand))) ↔
        I.outputWidth = 1 ∨ I.operand.HasId) := by
    intro isSigned hsigned hin
    apply iff_of_true (hI.lowers_emitBooleanConvertInstruction hin hsigned)
    right
    apply hasId_of_ne
    omega
  cases hop : I.opcode with
  | sext =>
    rw [hop] at hwidths hconvert hboolean
    rw [if_neg CastOps.noConfusion] at hwidths
    rw [emitCastInstruction, hop]
    simp only
    split
    · exact hboolean true rfl (by assumption)
    · exact hconvert true rfl (by have hin := hI.one_le; omega)
  | zext =>
    rw [hop] at hwidths hconvert hboolean
    rw [if_neg CastOps.noConfusion] at hwidths
    rw [emitCastInstruction, hop]
    simp only
    split
    · exact hboolean false rfl (by assumption)
    · exact hconvert false rfl (by have hin := hI.one_le; omega)
  | trunc =>
    rw [hop] at hconvert
    rw [emitCastInstruction, hop]
    simp only
    split
    · rename_i hout
      have hlowers := hI.lowers_emitBooleanTruncInstruction hout hop
      rw [hop] at hlowers
      exact iff_of_true hlowers (Or.inl hout)
    · exact hconvert false rfl (by assumption)

end CastOperand

/-- Emitting an integer instruction keeps its meaning exactly for the instructions that are
`Lowerable`. -/
theorem integerInstruction_keepsMeaning_iff (expectAssume : Bool) (I : IntegerInstruction)
    (h : I.WellFormed) : I.KeepsMeaning expectAssume ↔ I.Lowerable := by
  cases I with
  | binary I => exact binary_keepsMeaning_iff h
  | cast I => exact (I.castOperand h).keepsMeaning_iff
  | compare I => exact compare_keepsMeaning_iff h

/-- A remainder of odd width by a constant. -/
def remainder (c : BitVec 5) : IntegerInstruction :=
  .binary ⟨5, 1, 0, .urem, .register 1 false, .constantInt c⟩

theorem remainder_wellFormed (c : BitVec 5) : (remainder c).WellFormed :=
  have htwo : 2 ≤ 5 := by decide
  have hle : 5 ≤ 64 := by decide
  ⟨htwo, hle, Nat.one_pos, Nat.one_ne_zero, rfl⟩

/-- By a power of two it keeps its meaning, by another constant it does not. -/
theorem remainder_keepsMeaning :
    (remainder 4).KeepsMeaning false ∧ ¬ (remainder 3).KeepsMeaning false := by
  constructor
  · apply (integerInstruction_keepsMeaning_iff false _ (remainder_wellFormed 4)).mpr
    have hemitted : (5 : Nat) ≠ 8 := by decide
    have hdvd : 4 ∣ 2 ^ 5 := by decide
    exact ⟨hemitted, fun _ => Or.inr (Or.inr (Or.inr ⟨id, Or.inr (Or.inr fun _ _ => Or.inr hdvd)⟩))⟩
  · intro hkeeps
    obtain ⟨-, hharmless⟩ :=
      (integerInstruction_keepsMeaning_iff false _ (remainder_wellFormed 3)).mp hkeeps
    have hne : (5 : Nat) ≠ 8 := by decide
    rcases hharmless hne with hnatural | hundef | hundef | ⟨-, hshl | hregister | hdivisor⟩
    · have hodd : physicalIntegerBitWidth 5 ≠ 5 := by decide
      exact hodd hnatural
    · cases hundef
    · cases hundef
    · cases hshl
    · exact hregister trivial
    · have hzero : (3 : BitVec 5) ≠ 0 := by decide
      have hdvd : ¬ 3 ∣ 2 ^ 5 := by decide
      rcases hdivisor 0 Nat.one_pos with h | h
      · exact hzero h
      · exact hdvd h

/-- A division by the constant zero does not define the instruction. -/
theorem division_by_zero_not_kept :
    ¬ ∀ expectAssume, ∀ I : IntegerInstruction, I.WellFormed → I.KeepsMeaning expectAssume := by
  intro h
  let I : BinaryInstruction := ⟨32, 1, 0, .udiv, .register 1 false, .constantInt 0⟩
  have hwf : (IntegerInstruction.binary I).WellFormed :=
    ⟨by decide, by decide, by decide, Nat.one_ne_zero, rfl⟩
  have htwo : 2 ≤ I.width := by decide
  have hne : I.width ≠ 8 := by decide
  have hkeeps : Lowers (emitIntegerDivisionInstruction false I .uDiv) I.result I.components
      [I.operand0, I.operand1] fun x => BinaryOps.udiv.result (x I.operand0) (x I.operand1) :=
    h false _ hwf
  exact not_lowers_division_zero (I.operands hwf) rfl rfl htwo hne hkeeps

end DxilSpirv.LlvmBuiltins
