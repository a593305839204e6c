import DxilSpirv.Convert.IntegerBinary

/-!
# Exactly which integer instructions keep their meaning

Divisions, casts and comparisons, and the theorem on all instructions.
-/

namespace DxilSpirv.LlvmBuiltins

open Spirv
open Converter (physicalIntegerBitWidth)

variable {expectAssume : Bool} {I : BinaryInstruction} {op : BinaryOps} {opcode : Opcode}

theorem setWidth_allOnes {n w : Nat} (h : n ≤ w) :
    (BitVec.allOnes w).setWidth n = BitVec.allOnes n := by
  have hpow := Nat.pow_le_pow_right (show 0 < 2 by omega) h
  have hdvd : 2 ^ n ∣ 2 ^ w := Nat.pow_dvd_pow 2 h
  obtain ⟨k, hk⟩ := hdvd
  apply BitVec.eq_of_toNat_eq
  rw [BitVec.toNat_setWidth, BitVec.toNat_allOnes, BitVec.toNat_allOnes, hk]
  have hpos := Nat.two_pow_pos n
  have hkpos : 0 < k := by
    rcases Nat.eq_zero_or_pos k with hzero | hpos
    · rw [hzero] at hk
      have hwpos := Nat.two_pow_pos w
      omega
    · exact hpos
  obtain ⟨j, rfl⟩ : ∃ j, k = j + 1 := ⟨k - 1, by omega⟩
  have hsplit : 2 ^ n * (j + 1) - 1 = (2 ^ n - 1) + 2 ^ n * j := by
    rw [Nat.mul_succ]
    omega
  rw [hsplit, Nat.add_mul_mod_self_left, Nat.mod_eq_of_lt (by omega)]

theorem setWidth_operandWord {n w : Nat} (sensitive isSigned : Bool) (x : BitVec w) (h : n ≤ w) :
    (operandWord n sensitive isSigned x).setWidth n = x.setWidth n := by
  cases sensitive with
  | true => exact setWidth_extend isSigned x h
  | false => rfl

/-- A division that is emitted computes each component, with all ones for a division by zero. -/
theorem computes_division (hI : Operands I.width I.result I.components I.operand0 I.operand1)
    (htwo : 2 ≤ I.width) (hne : I.width ≠ 8) (hzero : ∀ c, I.operand1 = .constantInt c → c ≠ 0)
    (hop : IsDivision opcode)
    {f : (∀ w, Undefined w) → BitVec (physicalIntegerBitWidth I.width) →
      BitVec (physicalIntegerBitWidth I.width) → BitVec (physicalIntegerBitWidth I.width)}
    (hf : ∀ u undef, opcode.word (target u undef) (physicalIntegerBitWidth I.width) = some (f u)) :
    Computes (emitIntegerDivisionInstruction expectAssume I opcode) I.result I.components I.operand0
      I.operand1 fun u ra rb =>
        guarded (f u) (operandWord I.width (isSignedDivision opcode) true ra)
        (operandWord I.width (isSignedDivision opcode) true rb) := by
  by_cases hc : ∀ c, I.operand1 ≠ .constantInt c
  · exact computes_division_call hI hc htwo hne hop hf
  · obtain ⟨c, hc⟩ : ∃ c, I.operand1 = .constantInt c := by
      by_contra hnot
      exact hc fun c heq => hnot ⟨c, heq⟩
    have hcne := hzero c hc
    have hopcode : opcode ≠ .assumeTrue := by
      rintro rfl
      simp [IsDivision] at hop
    have hcomputes := hI.computes ⟨hasId_of_ne hne _, hasId_of_ne hne _⟩ hopcode
      (isSignedDivision opcode) true hf
    rw [emitDivision_constant hc fun h => hcne (BitVec.eq_of_toNat_eq h)]
    intro u undef s env₀ env x hready
    obtain ⟨ra, rb, hra, hrb, hid, r, hgives, htype, hlane⟩ := hcomputes u undef s env₀ env x hready
    refine ⟨ra, rb, hra, hrb, hid, r, hgives, htype, fun i hi => ?_⟩
    have hw := le_physicalIntegerBitWidth hI.one_le hI.le
    have hin : I.operand1 ∈ [I.operand0, I.operand1] :=
      List.mem_cons_of_mem _ (List.mem_singleton_self _)
    have hvalue : x I.operand1 i = c := by
      have hrepresented := hready.operands _ hin
      have hreg : ¬ I.operand1.IsRegister := by
        rw [hc]
        exact id
      have hundef : instructionIsUndefinedValue I.operand1 = false := by
        rw [hc]
        rfl
      rw [represented_constant hrepresented hreg hundef hi, hc]
      rfl
    have hword : operandWord I.width (isSignedDivision opcode) true
        (rb.word (physicalIntegerBitWidth I.width) i) ≠ 0 := by
      intro heq
      have hlow := setWidth_operandWord (isSignedDivision opcode) true
        (rb.word (physicalIntegerBitWidth I.width) i) hw
      have hundef : instructionIsUndefinedValue I.operand1 = false := by
        rw [hc]
        rfl
      rw [heq, setWidth_word hw, hrb.word hundef i hi, hvalue] at hlow
      apply hcne
      rw [← hlow]
      exact BitVec.setWidth_zero ..
    rw [hlane i hi]
    simp only [guarded]
    rw [if_neg hword]

theorem BinaryInstruction.divisorEmitted_iff {I : BinaryInstruction} :
    I.DivisorEmitted ↔ (I.operand1 = .constantInt 0 ↔ I.width = 8) := by
  unfold BinaryInstruction.DivisorEmitted
  cases I.operand1 with
  | constantInt c =>
    by_cases hc : c = 0
    · simp [hc]
    · simp only [hc, if_false, ne_eq, LlvmValue.constantInt.injEq, false_iff]
  | register v isUndefined => simp
  | constantDataVector elements => simp
  | constantAggregate elements => simp
  | constantAggregateZero => simp
  | undef => simp

/-- A division whose divisor is not emitted does not keep its meaning, and where nothing is emitted
nothing is asked. -/
theorem lowers_division_iff (hI : Operands I.width I.result I.components I.operand0 I.operand1)
    (htwo : 2 ≤ I.width) {harmless : Prop} {llvm : (LlvmValue I.width → BitVec I.width) →
      Option (BitVec I.width)}
    (h : I.width ≠ 8 → (∀ c, I.operand1 = .constantInt c → c ≠ 0) →
      (Lowers (emitIntegerDivisionInstruction expectAssume I opcode) I.result I.components
        [I.operand0, I.operand1] llvm ↔ harmless)) :
    Lowers (emitIntegerDivisionInstruction expectAssume I opcode) I.result I.components
      [I.operand0, I.operand1] llvm ↔ I.DivisorEmitted ∧ (I.width ≠ 8 → harmless) := by
  rw [BinaryInstruction.divisorEmitted_iff]
  by_cases hc : I.operand1 = .constantInt 0
  · constructor
    · intro hlowers
      have height : I.width = 8 := by
        by_contra hne
        exact not_lowers_division_zero hI hc rfl htwo hne hlowers
      exact ⟨⟨fun _ => height, fun _ => hc⟩, fun hne => absurd height hne⟩
    · rintro ⟨hiff, -⟩
      exact lowers_division_zero_eight hc rfl (hiff.mp hc)
  · have hne : ∀ c, I.operand1 = .constantInt c → c ≠ 0 := by
      rintro c heq rfl
      exact hc heq
    by_cases height : I.width = 8
    · constructor
      · intro hlowers
        exfalso
        by_cases hc : ∀ c, I.operand1 ≠ .constantInt c
        · exact not_lowers_division_call hI hc height hlowers
        · obtain ⟨c, hc⟩ : ∃ c, I.operand1 = .constantInt c := by
            by_contra hnot
            exact hc fun c heq => hnot ⟨c, heq⟩
          rw [emitDivision_constant hc fun h => hne c hc (BitVec.eq_of_toNat_eq h)] at hlowers
          apply not_lowers hI.wf _ hlowers
          intro u undef s env₀ env x hready
          apply hI.not_gives hready
          rintro ⟨-, hid⟩
          rw [hc] at hid
          exact hid height
      · rintro ⟨hiff, -⟩
        exact absurd (hiff.mpr height) hc
    · rw [h height hne]
      have hiff : I.operand1 = .constantInt 0 ↔ I.width = 8 :=
        ⟨fun heq => absurd heq hc, fun heq => absurd heq height⟩
      exact ⟨fun hharmless => ⟨hiff, fun _ => hharmless⟩, fun hboth => hboth.2 height⟩

/-- Signed divisions extend their operands. -/
theorem lowers_signed_iff (hI : Operands I.width I.result I.components I.operand0 I.operand1)
    (htwo : 2 ≤ I.width) (hop : op = .sdiv ∧ opcode = .sDiv ∨ op = .srem ∧ opcode = .sRem) :
    Lowers (emitIntegerDivisionInstruction expectAssume I opcode) I.result I.components
      [I.operand0, I.operand1] (fun x => op.result (x I.operand0) (x I.operand1)) ↔
      I.DivisorEmitted := by
  have hw := le_physicalIntegerBitWidth hI.one_le hI.le
  suffices h : I.width ≠ 8 → (∀ c, I.operand1 = .constantInt c → c ≠ 0) →
      Lowers (emitIntegerDivisionInstruction expectAssume I opcode) I.result I.components
        [I.operand0, I.operand1] fun x => op.result (x I.operand0) (x I.operand1) by
    rw [lowers_division_iff hI htwo fun hne hzero => iff_true_intro (h hne hzero)]
    simp
  · intro hne hzero
    have hguarded : ∀ {f : BitVec (physicalIntegerBitWidth I.width) →
          BitVec (physicalIntegerBitWidth I.width) → BitVec (physicalIntegerBitWidth I.width)}
        {r : BitVec I.width → BitVec I.width → BitVec I.width}
        {ra rb : BitVec (physicalIntegerBitWidth I.width)} {z : BitVec I.width},
        (rb.setWidth I.width ≠ 0 → ¬ (ra.setWidth I.width = BitVec.intMin I.width ∧
          rb.setWidth I.width = -1) → (f (extend true I.width ra) (extend true I.width rb)).setWidth
            I.width = r (ra.setWidth I.width) (rb.setWidth I.width)) →
        (if rb.setWidth I.width = 0 then some (BitVec.allOnes I.width)
          else if ra.setWidth I.width = BitVec.intMin I.width ∧ rb.setWidth I.width = -1 then none
          else some (r (ra.setWidth I.width) (rb.setWidth I.width))) = some z →
        (guarded f (extend true I.width ra) (extend true I.width rb)).setWidth I.width = z := by
      intro f r ra rb z hf hz
      by_cases hb : rb.setWidth I.width = 0
      · rw [if_pos hb] at hz
        rw [guarded, if_pos ((extend_eq_iff hw).1.mpr hb), setWidth_allOnes hw]
        exact Option.some.inj hz
      · rw [if_neg hb] at hz
        split at hz
        · cases hz
        · rename_i hfits
          rw [guarded, if_neg fun h => hb ((extend_eq_iff hw).1.mp h), hf hb hfits]
          exact Option.some.inj hz
    rcases hop with ⟨rfl, rfl⟩ | ⟨rfl, rfl⟩
    · refine (computes_division hI htwo hne hzero (by simp [IsDivision])
        (f := fun u => sDiv (u _)) fun _ _ => rfl).lowers hI ?_
      intro _ _ u i _ ra rb z _ _ hz
      exact hguarded (r := BitVec.sdiv) (fun hb hfits => sDiv_low (u _) hw (by omega) hb hfits) hz
    · refine (computes_division hI htwo hne hzero (by simp [IsDivision])
        (f := fun u => sRem (u _)) fun _ _ => rfl).lowers hI ?_
      intro _ _ u i _ ra rb z _ _ hz
      exact hguarded (r := BitVec.srem) (fun hb hfits => sRem_low (u _) hw (by omega) hb hfits) hz

/-- The unsigned divisions: the operation, the instruction and what it does to numbers. -/
inductive Unsigned : BinaryOps → Opcode → (Nat → Nat → Nat) → Prop
  | udiv : Unsigned .udiv .uDiv (· / ·)
  | urem : Unsigned .urem .uMod (· % ·)

namespace Unsigned

variable {quot : Nat → Nat → Nat}

theorem le (h : Unsigned op opcode quot) (a b : Nat) : quot a b ≤ a := by
  cases h with
  | udiv => exact Nat.div_le_self a b
  | urem => exact Nat.mod_le a b

/-- The result of LLVM, as a number. -/
theorem result (h : Unsigned op opcode quot) {n : Nat} (a b : BitVec n) (hb : b ≠ 0) :
    ∃ z, op.result a b = some z ∧ z.toNat = quot a.toNat b.toNat := by
  cases h with
  | udiv => exact ⟨a / b, congrArg some (if_neg hb), BitVec.toNat_udiv⟩
  | urem => exact ⟨a % b, congrArg some (if_neg hb), BitVec.toNat_umod⟩

theorem result_zero (h : Unsigned op opcode quot) {n : Nat} (a : BitVec n) :
    op.result a 0 = some (BitVec.allOnes n) := by
  cases h with
  | udiv => exact congrArg some (if_pos rfl)
  | urem => exact congrArg some (if_pos rfl)

/-- The instruction, as a function of numbers. -/
theorem word (h : Unsigned op opcode quot) (w : Nat) :
    ∃ f : (∀ w, Undefined w) → BitVec w → BitVec w → BitVec w,
      (∀ u undef, opcode.word (target u undef) w = some (f u)) ∧
      ∀ u a b, b ≠ 0 → (f u a b).toNat = quot a.toNat b.toNat := by
  have hpos : ∀ b : BitVec w, b ≠ 0 → 0 < b.toNat :=
    fun b hb => Nat.pos_of_ne_zero fun hzero => hb (BitVec.eq_of_toNat_eq hzero)
  cases h with
  | udiv => exact ⟨fun u => uDiv (u w), fun _ _ => rfl, fun u a b hb => toNat_uDiv (hpos b hb)⟩
  | urem => exact ⟨fun u => uMod (u w), fun _ _ => rfl, fun u a b hb => toNat_uMod (hpos b hb)⟩

theorem isDivision (h : Unsigned op opcode quot) :
    IsDivision opcode ∧ isSignedDivision opcode = false := by
  cases h with
  | udiv => exact ⟨by simp [IsDivision], rfl⟩
  | urem => exact ⟨by simp [IsDivision], rfl⟩

/-- A harmless divisor gives the low bits from the low bits. -/
theorem harmless (h : Unsigned op opcode quot) {n : Nat} {d : BitVec n} (hd : d ≠ 0)
    (hharmless : HarmlessDivisor op d) (a : Nat) :
    quot a d.toNat % 2 ^ n = quot (a % 2 ^ n) d.toNat := by
  have hdpos : 0 < d.toNat := Nat.pos_of_ne_zero fun hzero => hd (BitVec.eq_of_toNat_eq hzero)
  have hdlt := d.isLt
  rcases hharmless with hzero | hharmless
  · exact absurd hzero hd
  cases h with
  | udiv =>
    rw [if_pos rfl] at hharmless
    have hone : d.toNat = 1 := by
      have hnat := congrArg BitVec.toNat hharmless
      have hn : 1 < 2 ^ n := by
        by_contra hle
        omega
      simpa [Nat.mod_eq_of_lt hn] using hnat
    simp only [hone, Nat.div_one]
  | urem =>
    rw [if_neg (by decide)] at hharmless
    have hlt : a % d.toNat < 2 ^ n := Nat.lt_trans (Nat.mod_lt a hdpos) hdlt
    simp only
    rw [Nat.mod_eq_of_lt hlt, Nat.mod_mod_of_dvd a hharmless]

/-- Any other divisor shows the lowest of the upper bits. -/
theorem harmful (h : Unsigned op opcode quot) {n : Nat} {d : BitVec n}
    (hharmful : ¬ HarmlessDivisor op d) : quot (2 ^ n) d.toNat % 2 ^ n ≠ 0 := by
  rw [HarmlessDivisor, not_or] at hharmful
  obtain ⟨hd, hharmful⟩ := hharmful
  have hdpos : 0 < d.toNat := Nat.pos_of_ne_zero fun hzero => hd (BitVec.eq_of_toNat_eq hzero)
  have hdlt := d.isLt
  cases h with
  | udiv =>
    rw [if_pos rfl] at hharmful
    have hone : d.toNat ≠ 1 := by
      intro hone
      have hn : 1 < 2 ^ n := by omega
      apply hharmful
      apply BitVec.eq_of_toNat_eq
      rw [hone, BitVec.ofNat_eq_ofNat, BitVec.toNat_ofNat, Nat.mod_eq_of_lt hn]
    have hquot : 0 < 2 ^ n / d.toNat := Nat.div_pos (by omega) hdpos
    have hlt : 2 ^ n / d.toNat < 2 ^ n := Nat.div_lt_self (by omega) (by omega)
    simp only
    rw [Nat.mod_eq_of_lt hlt]
    omega
  | urem =>
    rw [if_neg (by decide)] at hharmful
    have hrem : 2 ^ n % d.toNat ≠ 0 := fun hzero => hharmful (Nat.dvd_of_mod_eq_zero hzero)
    have hlt : 2 ^ n % d.toNat < 2 ^ n := Nat.lt_trans (Nat.mod_lt _ hdpos) hdlt
    simp only
    rw [Nat.mod_eq_of_lt hlt]
    exact hrem

/-- A register over a register that is zero but for an upper bit. -/
theorem differs_register (h : Unsigned op opcode quot) {n : Nat} (htwo : 2 ≤ n) (b : Nat)
    (hb : 0 < b) :
    quot b b % 2 ^ n ≠ 2 ^ n - 1 := by
  have hpow : 2 ^ 2 ≤ 2 ^ n := Nat.pow_le_pow_right (by omega) htwo
  cases h with
  | udiv =>
    simp only
    rw [Nat.div_self hb, Nat.mod_eq_of_lt (by omega)]
    omega
  | urem =>
    simp only
    rw [Nat.mod_self, Nat.zero_mod]
    omega

/-- A constant over a register that is zero or one but for an upper bit. -/
theorem differs_constant (h : Unsigned op opcode quot) {n : Nat} (htwo : 2 ≤ n) {b c : Nat}
    (hc : c < 2 ^ n) (hb : 2 ^ n ≤ b) :
    quot c b % 2 ^ n ≠ 2 ^ n - 1 ∨ quot c (b + 1) % 2 ^ n ≠ quot c 1 := by
  have hpow : 2 ^ 2 ≤ 2 ^ n := Nat.pow_le_pow_right (by omega) htwo
  by_cases hzero : c = 0
  · left
    have hquot : quot c b = 0 := by
      have hle := h.le c b
      omega
    rw [hquot, Nat.zero_mod]
    omega
  · right
    cases h with
    | udiv =>
      simp only
      rw [Nat.div_eq_of_lt (by omega), Nat.zero_mod, Nat.div_one]
      omega
    | urem =>
      simp only
      rw [Nat.mod_eq_of_lt (show c < b + 1 by omega), Nat.mod_eq_of_lt hc, Nat.mod_one]
      exact hzero

end Unsigned

/-- Right words give right low bits. -/
theorem Unsigned.low {quot : Nat → Nat → Nat} (h : Unsigned op opcode quot) {n w : Nat} (hw : n ≤ w)
    {f : BitVec w → BitVec w → BitVec w}
    (hf : ∀ a b, b ≠ 0 → (f a b).toNat = quot a.toNat b.toNat) {a b : BitVec w} {z : BitVec n}
    (hzero : b = 0 ↔ b.setWidth n = 0)
    (hlow : b ≠ 0 → quot a.toNat b.toNat % 2 ^ n = quot (a.setWidth n).toNat (b.setWidth n).toNat)
    (hz : op.result (a.setWidth n) (b.setWidth n) = some z) : (guarded f a b).setWidth n = z := by
  by_cases hb : b = 0
  · rw [guarded, if_pos hb, setWidth_allOnes hw]
    rw [hzero.mp hb, h.result_zero] at hz
    exact Option.some.inj hz
  · obtain ⟨z', hz', hnat⟩ := h.result (a.setWidth n) (b.setWidth n) fun heq => hb (hzero.mpr heq)
    rw [hz] at hz'
    cases hz'
    apply BitVec.eq_of_toNat_eq
    rw [guarded, if_neg hb, BitVec.toNat_setWidth, hf a b hb, hlow hb, hnat]

/-- The low bits of quotients of words whose upper bits are anything, as LLVM has them. -/
def ReadsAll (w : Nat) (I : BinaryInstruction) (quot : Nat → Nat → Nat) : Prop :=
  ∀ i < I.components, ∀ k, ∀ a b : BitVec w,
    startWord w I.operand0 k i = a → startWord w I.operand1 k i = b → b ≠ 0 →
    quot a.toNat b.toNat % 2 ^ I.width = if b.setWidth I.width = 0 then 2 ^ I.width - 1
      else quot (a.setWidth I.width).toNat (b.setWidth I.width).toNat

/-- An unsigned division that keeps its meaning reads such words. -/
theorem Unsigned.readsAll {quot : Nat → Nat → Nat} (h : Unsigned op opcode quot)
    (hI : Operands I.width I.result I.components I.operand0 I.operand1)
    (hda : instructionIsUndefinedValue I.operand0 = false)
    (hdb : instructionIsUndefinedValue I.operand1 = false)
    {f : (∀ w, Undefined w) → BitVec (physicalIntegerBitWidth I.width) →
      BitVec (physicalIntegerBitWidth I.width) → BitVec (physicalIntegerBitWidth I.width)}
    (hquot : ∀ u a b, b ≠ 0 → (f u a b).toNat = quot a.toNat b.toNat) {emit : Emit SpvId}
    (hcomputes : Computes emit I.result I.components I.operand0 I.operand1
      fun u ra rb => guarded (f u) ra rb)
    (hlowers : Lowers emit I.result I.components [I.operand0, I.operand1]
      fun x => op.result (x I.operand0) (x I.operand1)) :
    ReadsAll (physicalIntegerBitWidth I.width) I quot := by
  let u : ∀ w, Undefined w := fun w => ⟨fun a _ => a, fun a _ _ => a, id, id⟩
  intro i hi k a b ha hb hne
  have hread : ∀ z, op.result (a.setWidth I.width) (b.setWidth I.width) = some z →
      quot a.toNat b.toNat % 2 ^ I.width = z.toNat := by
    intro z hz
    rw [← ha, ← hb] at hz
    have hlow := hcomputes.of_lowers hI hlowers hda hdb u hi k hz
    rw [ha, hb, guarded, if_neg hne] at hlow
    rw [← hlow, BitVec.toNat_setWidth, hquot u a b hne]
  by_cases hzero : b.setWidth I.width = 0
  · have hz : op.result (a.setWidth I.width) (b.setWidth I.width) =
        some (BitVec.allOnes I.width) := by
      rw [hzero]
      exact h.result_zero _
    rw [if_pos hzero, hread _ hz, BitVec.toNat_allOnes]
  · obtain ⟨z, hz, hnat⟩ := h.result (a.setWidth I.width) (b.setWidth I.width) hzero
    rw [if_neg hzero, hread z hz, hnat]

/-- A number whose low bits are zero or one, and its register. -/
theorem ofNat_top {n w k : Nat} (htwo : 2 ≤ n) (h : n < w) (hk : k ≤ 1) :
    (BitVec.ofNat w (2 ^ (w - 1) + k)).toNat = 2 ^ (w - 1) + k ∧
      (BitVec.ofNat w (2 ^ (w - 1) + k)).setWidth n = BitVec.ofNat n k := by
  have hdouble := Nat.two_pow_pred_add_two_pow_pred (w := w) (by omega)
  have hfour : 2 ^ 2 ≤ 2 ^ (w - 1) := Nat.pow_le_pow_right (by omega) (by omega)
  have htop : BitVec.ofNat n (2 ^ (w - 1)) = 0 := by
    rw [← BitVec.setWidth_ofNat_of_le (show n ≤ w by omega)]
    exact setWidth_ofNat_top h
  constructor
  · rw [BitVec.toNat_ofNat, Nat.mod_eq_of_lt (by omega)]
  · rw [BitVec.setWidth_ofNat_of_le (by omega), BitVec.ofNat_add, htop]
    exact BitVec.zero_add _

/-- A divisor in a register may have upper bits. -/
theorem Unsigned.not_isRegister {quot : Nat → Nat → Nat} (h : Unsigned op opcode quot)
    {w : Nat} (hreads : ReadsAll w I quot) (htwo : 2 ≤ I.width) (hpos : 0 < I.components)
    (hlt : I.width < w) : ¬ I.operand1.IsRegister := by
  intro hregister
  have hpow : 2 ^ I.width ≤ 2 ^ (w - 1) := Nat.pow_le_pow_right (by omega) (by omega)
  have hfour : 2 ^ 2 ≤ 2 ^ I.width := Nat.pow_le_pow_right (by omega) htwo
  obtain ⟨hnat0, hlow0⟩ := ofNat_top (k := 0) htwo hlt (by omega)
  obtain ⟨hnat1, hlow1⟩ := ofNat_top (k := 1) htwo hlt (by omega)
  have hne : ∀ b : BitVec w, 0 < b.toNat → b ≠ 0 := by
    rintro _ hlt rfl
    simp at hlt
  have hzero := hreads 0 hpos (2 ^ (w - 1) + 0) _ _ rfl (startWord_register hregister _ _)
    (hne _ (by omega))
  have hone := hreads 0 hpos (2 ^ (w - 1) + 1) _ _ rfl (startWord_register hregister _ _)
    (hne _ (by omega))
  have hlow1' : ¬ BitVec.ofNat I.width 1 = 0 := by
    intro heq
    have hnat := congrArg BitVec.toNat heq
    simp only [BitVec.toNat_ofNat, BitVec.ofNat_eq_ofNat, Nat.zero_mod] at hnat
    rw [Nat.mod_eq_of_lt (by omega)] at hnat
    omega
  rw [hnat0, hlow0, if_pos (show BitVec.ofNat I.width 0 = 0 from rfl)] at hzero
  rw [hnat1, hlow1, if_neg hlow1', BitVec.toNat_ofNat,
    Nat.mod_eq_of_lt (show 1 < 2 ^ I.width by omega)] at hone
  by_cases hdividend : I.operand0.IsRegister
  · rw [startWord_register hdividend, hnat0] at hzero
    exact h.differs_register htwo _ (by omega) hzero
  · have hword : ∀ k, (startWord w I.operand0 k 0).toNat = (I.operand0.element 0).toNat :=
      fun k => wordOf_startWord (by omega) _ _ _ hdividend
    have hlow : ∀ k, ((startWord w I.operand0 k 0).setWidth I.width).toNat =
        (I.operand0.element 0).toNat := by
      intro k
      rw [BitVec.toNat_setWidth, hword, Nat.mod_eq_of_lt (I.operand0.element 0).isLt]
    rw [hword] at hzero hone
    rw [hlow] at hone
    rcases h.differs_constant htwo (I.operand0.element 0).isLt hpow with hdiffers | hdiffers
    · exact hdiffers hzero
    · exact hdiffers hone

/-- A dividend in a register may have upper bits. -/
theorem Unsigned.harmlessDivisor {quot : Nat → Nat → Nat} (h : Unsigned op opcode quot)
    {w : Nat} (hreads : ReadsAll w I quot) (hlt : I.width < w)
    (hdividend : I.operand0.IsRegister) (hdivisor : ¬ I.operand1.IsRegister) {i : Nat}
    (hi : i < I.components) : HarmlessDivisor op (I.operand1.element i) := by
  by_contra hharmful
  have hpow : 2 ^ I.width < 2 ^ w := Nat.pow_lt_pow_right (by omega) hlt
  have hclean := wordOf_startWord (w := w) (by omega) I.operand1 (2 ^ I.width) i
  obtain ⟨hlow, -⟩ := hclean.low hdivisor
  have hne : I.operand1.element i ≠ 0 := fun hzero => hharmful (Or.inl hzero)
  have hread := hreads i hi (2 ^ I.width) _ _ (startWord_register hdividend _ _) rfl
    (fun hzero => hne (by rw [← hlow]; exact hzero ▸ BitVec.setWidth_zero ..))
  rw [hlow, if_neg hne, hclean hdivisor, BitVec.toNat_ofNat, Nat.mod_eq_of_lt hpow,
    BitVec.setWidth_ofNat_of_le (by omega), BitVec.toNat_ofNat, Nat.mod_self] at hread
  have hle := h.le 0 (I.operand1.element i).toNat
  apply h.harmful hharmful
  omega

/-- Unsigned divisions read all bits of their operands. -/
theorem lowers_unsigned_iff {quot : Nat → Nat → Nat}
    (hI : Operands I.width I.result I.components I.operand0 I.operand1) (htwo : 2 ≤ I.width)
    (hop : I.opcode = op) (h : Unsigned op opcode quot) :
    Lowers (emitIntegerDivisionInstruction expectAssume I opcode) I.result I.components
      [I.operand0, I.operand1] (fun x => op.result (x I.operand0) (x I.operand1)) ↔
      I.DivisorEmitted ∧ (I.width ≠ 8 → I.UpperBitsHarmless) := by
  have hw := le_physicalIntegerBitWidth hI.one_le hI.le
  apply lowers_division_iff hI htwo
  intro hne hzero
  obtain ⟨f, hf, hquot⟩ := h.word (physicalIntegerBitWidth I.width)
  obtain ⟨hdivision, hunsigned⟩ := h.isDivision
  have hcomputes : Computes (emitIntegerDivisionInstruction expectAssume I opcode) I.result
      I.components I.operand0 I.operand1 fun u ra rb => guarded (f u) ra rb := by
    have hcomputes := @computes_division expectAssume _ _ hI htwo hne hzero hdivision _ hf
    rw [hunsigned] at hcomputes
    exact hcomputes
  have hshl : op ≠ .shl := by
    rintro rfl
    cases h
  constructor
  · intro hlowers
    by_contra hharmful
    rw [BinaryInstruction.UpperBitsHarmless, hop] at hharmful
    simp only [not_or, not_and_or, not_not, hshl, not_false_eq_true, true_and,
      not_forall] at hharmful
    obtain ⟨hodd, hda, hdb, hoperands⟩ := hharmful
    rw [Bool.not_eq_true] at hda hdb
    have hlt : I.width < physicalIntegerBitWidth I.width := by omega
    have hreads := h.readsAll hI hda hdb hquot hcomputes hlowers
    have hdivisor := h.not_isRegister hreads htwo hI.pos hlt
    rcases hoperands with hregister | ⟨hdividend, i, hi, hharmful⟩
    · exact hdivisor hregister
    · exact hharmful (h.harmlessDivisor hreads hlt hdividend hdivisor hi)
  · intro hharmless
    apply hcomputes.lowers hI
    intro hda hdb u i hi ra rb z hra hrb hz
    have hclean : ∀ {r : BitVec (physicalIntegerBitWidth I.width)},
        r.toNat = (r.setWidth I.width).toNat → (r = 0 ↔ r.setWidth I.width = 0) := by
      intro r hr
      rw [← BitVec.toNat_inj, ← BitVec.toNat_inj, hr]
      simp
    have hboth : ra.toNat = (ra.setWidth I.width).toNat → rb.toNat = (rb.setWidth I.width).toNat →
        (guarded (f u) ra rb).setWidth I.width = z := by
      intro ha hb
      have hlt := (ra.setWidth I.width).isLt
      have hle := h.le (ra.setWidth I.width).toNat (rb.setWidth I.width).toNat
      refine h.low hw (hquot u) (hclean hb) (fun _ => ?_) hz
      rw [ha, hb, Nat.mod_eq_of_lt (by omega)]
    rw [BinaryInstruction.UpperBitsHarmless, hop] at hharmless
    rcases hharmless with hnatural | hundef | hundef | ⟨hregb, hshl' | hrega | hdivisor⟩
    · have hpow : 2 ^ physicalIntegerBitWidth I.width = 2 ^ I.width := by rw [hnatural]
      have hla := ra.isLt
      have hlb := rb.isLt
      apply hboth
      · rw [BitVec.toNat_setWidth, Nat.mod_eq_of_lt (by omega)]
      · rw [BitVec.toNat_setWidth, Nat.mod_eq_of_lt (by omega)]
    · rw [hda] at hundef
      cases hundef
    · rw [hdb] at hundef
      cases hundef
    · exact absurd hshl' hshl
    · exact hboth (hra.low hrega).2 (hrb.low hregb).2
    · obtain ⟨helement, hb⟩ := hrb.low hregb
      refine h.low hw (hquot u) (hclean hb) (fun hrb => ?_) hz
      have hne : rb.setWidth I.width ≠ 0 := fun heq => hrb ((hclean hb).mpr heq)
      rw [BitVec.toNat_setWidth (x := ra), hb]
      apply h.harmless hne
      rw [helement]
      exact hdivisor i hi

/-- The operations that no undefined operand and no constant changes. -/
theorem lowers_plain_iff (hI : Operands I.width I.result I.components I.operand0 I.operand1)
    (htwo : 2 ≤ I.width) (hsub : I.opcode ≠ .sub) (hxor : I.opcode ≠ .xor) (hshl : I.opcode ≠ .shl)
    (hdivision : ¬ (I.opcode = .udiv ∨ I.opcode = .urem ∨ I.opcode = .sdiv ∨ I.opcode = .srem)) :
    Lowers (emitBinaryInstruction expectAssume I) I.result I.components [I.operand0, I.operand1]
      (fun x => I.opcode.result (x I.operand0) (x I.operand1)) ↔
      ∀ a ∈ [I.operand0, I.operand1], a.HasId := by
  have hw := le_physicalIntegerBitWidth hI.one_le hI.le
  have hone : I.width ≠ 1 := by omega
  rw [emitBinaryInstruction]
  cases hop : I.opcode with
  | add =>
    apply lowers_emitBinaryOperation_iff hI Opcode.noConfusion false false (f := fun _ a b => a + b)
      fun _ _ => rfl
    intro u ra rb z hz
    rw [← Option.some.inj hz]
    exact BitVec.setWidth_add ra rb hw
  | mul =>
    apply lowers_emitBinaryOperation_iff hI Opcode.noConfusion false false (f := fun _ a b => a * b)
      fun _ _ => rfl
    intro u ra rb z hz
    rw [← Option.some.inj hz]
    exact BitVec.setWidth_mul ra rb hw
  | and =>
    simp only [hone, if_false]
    apply lowers_emitBinaryOperation_iff hI Opcode.noConfusion false false
      (f := fun _ a b => a &&& b) fun _ _ => rfl
    intro u ra rb z hz
    rw [← Option.some.inj hz]
    exact BitVec.setWidth_and
  | or =>
    simp only [hone, if_false]
    apply lowers_emitBinaryOperation_iff hI Opcode.noConfusion false false
      (f := fun _ a b => a ||| b) fun _ _ => rfl
    intro u ra rb z hz
    rw [← Option.some.inj hz]
    exact BitVec.setWidth_or
  | lshr =>
    apply lowers_emitBinaryOperation_iff hI Opcode.noConfusion true false
      (f := fun u => shiftRightLogical (u _)) fun _ _ => rfl
    intro u ra rb z hz
    simp only [BinaryOps.result] at hz
    split at hz
    · rename_i hamount
      rw [← Option.some.inj hz]
      exact shiftRightLogical_low (u _) hw hamount
    · cases hz
  | ashr =>
    apply lowers_emitBinaryOperation_iff hI Opcode.noConfusion true true
      (f := fun u => shiftRightArithmetic (u _)) fun _ _ => rfl
    intro u ra rb z hz
    simp only [BinaryOps.result] at hz
    split at hz
    · rename_i hamount
      rw [← Option.some.inj hz]
      exact shiftRightArithmetic_low (u _) hw htwo hamount
    · cases hz
  | sub => exact absurd hop hsub
  | xor => exact absurd hop hxor
  | shl => exact absurd hop hshl
  | udiv => exact absurd (Or.inl hop) hdivision
  | urem => exact absurd (Or.inr (Or.inl hop)) hdivision
  | sdiv => exact absurd (Or.inr (Or.inr (Or.inl hop))) hdivision
  | srem => exact absurd (Or.inr (Or.inr (Or.inr hop))) hdivision

theorem BinaryInstruction.usedOperands_eq (hsub : I.opcode ≠ .sub) (hxor : I.opcode ≠ .xor) :
    I.usedOperands = [I.operand0, I.operand1] := by
  have hneg : canOptimizeToSnegate I = false := by
    unfold canOptimizeToSnegate
    split
    · rename_i heq _
      exact absurd heq hsub
    · rfl
  rw [BinaryInstruction.usedOperands, hneg, if_neg Bool.false_ne_true, if_neg hxor]

/-- Exactly these binary operations keep their meaning. -/
theorem binary_keepsMeaning_iff (h : (IntegerInstruction.binary I).WellFormed) :
    (IntegerInstruction.binary I).KeepsMeaning expectAssume ↔ I.Lowerable := by
  have hI := I.operands h
  have htwo : 2 ≤ I.width := h.1
  have hplain : I.opcode ≠ .sub → I.opcode ≠ .xor → I.opcode ≠ .shl →
      ¬ (I.opcode = .udiv ∨ I.opcode = .urem ∨ I.opcode = .sdiv ∨ I.opcode = .srem) →
      (Lowers (emitBinaryInstruction expectAssume I) I.result I.components [I.operand0, I.operand1]
        (fun x => I.opcode.result (x I.operand0) (x I.operand1)) ↔
            ∀ a ∈ I.usedOperands, a.HasId) := by
    intro hsub hxor hshl hdivision
    rw [I.usedOperands_eq hsub hxor]
    exact lowers_plain_iff hI htwo hsub hxor hshl hdivision
  unfold IntegerInstruction.KeepsMeaning BinaryInstruction.Lowerable
  simp only
  cases hop : I.opcode with
  | sub => exact lowers_sub_iff hI hop
  | xor => exact lowers_xor_iff hI htwo hop
  | shl => exact lowers_shl_iff hI htwo hop
  | udiv =>
    rw [emitBinaryInstruction, hop]
    exact lowers_unsigned_iff hI htwo hop .udiv
  | urem =>
    rw [emitBinaryInstruction, hop]
    exact lowers_unsigned_iff hI htwo hop .urem
  | sdiv =>
    rw [emitBinaryInstruction, hop]
    exact lowers_signed_iff hI htwo (Or.inl ⟨rfl, rfl⟩)
  | srem =>
    rw [emitBinaryInstruction, hop]
    exact lowers_signed_iff hI htwo (Or.inr ⟨rfl, rfl⟩)
  | add =>
    rw [hop] at hplain
    exact hplain (by simp) (by simp) (by simp) (by simp)
  | mul =>
    rw [hop] at hplain
    exact hplain (by simp) (by simp) (by simp) (by simp)
  | lshr =>
    rw [hop] at hplain
    exact hplain (by simp) (by simp) (by simp) (by simp)
  | ashr =>
    rw [hop] at hplain
    exact hplain (by simp) (by simp) (by simp) (by simp)
  | and =>
    rw [hop] at hplain
    exact hplain (by simp) (by simp) (by simp) (by simp)
  | or =>
    rw [hop] at hplain
    exact hplain (by simp) (by simp) (by simp) (by simp)

end DxilSpirv.LlvmBuiltins
