import DxilSpirv.Graph.Closure

/-!
# Propagation of precise

An instruction that must not be contracted makes the arithmetic that it depends on precise, through
any instructions between. Which values are instructions is decided by a list of value kinds, and
that list lacks the one that constructs composites.
-/

namespace DxilSpirv.Convert

open DxilSpirv.Graph

/-- The binary operators. -/
inductive BinaryOps
  | add | fAdd | sub | fSub | mul | fMul | uDiv | sDiv | fDiv | uRem | sRem | fRem | shl | lShr
  | aShr | and | or | xor
  deriving DecidableEq, Repr

/-- The DXIL operations that are singled out; `other` is every further one. -/
inductive DxilOp
  | fMad | dot2 | dot2AddHalf | dot3 | dot4 | other (code : Nat)
  deriving DecidableEq, Repr

/-- The kinds of the instructions that are not told apart otherwise. -/
inductive PlainKind
  | unaryOperator | cast | select | extractValue | alloca | getElementPtr | load | store | fCmp
  | iCmp | branch | switch | return | unreachable | atomicRMW | atomicCmpXchg | shuffleVector
  | extractElement | insertElement | compositeConstruct
  deriving DecidableEq, Repr

/-- An operand: the result of an instruction, or a constant, an argument or a global. -/
inductive Operand
  | instruction (index : Nat)
  | other
  deriving DecidableEq, Repr

/-- An instruction. -/
inductive Instruction
  | binaryOperator (opcode : BinaryOps) (fastMath : Bool) (operands : List Operand)
  /-- A call, with the operation it stands for if it is one of DXIL, and the names of its
  metadata. -/
  | call (op : Option DxilOp) (attachments : List String) (operands : List Operand)
  | phi (incoming : List Operand)
  | plain (kind : PlainKind) (operands : List Operand)
  deriving DecidableEq, Repr

namespace Instruction

/-- `Instruction::is_base_of_value_kind`, which `dyn_cast<Instruction>` asks. -/
def isBaseOfValueKind : Instruction → Bool
  | plain .compositeConstruct _ => false
  | _ => true

/-- The values that an instruction depends on: incoming values of a PHI, operands otherwise. -/
def dependencies : Instruction → List Operand
  | binaryOperator _ _ operands => operands
  | call _ _ operands => operands
  | phi incoming => incoming
  | plain _ operands => operands

/-- `instruction_is_precise_sensitive`. -/
def isPreciseSensitive : Instruction → Bool
  | binaryOperator opcode _ _ => opcode ∈ [.fAdd, .fSub, .fMul, .fDiv, .fRem]
  | call (some op) _ _ => op ∈ [.fMad, .dot2, .dot2AddHalf, .dot3, .dot4]
  | _ => false

/-- `setMetadata` without a node, which leaves the name behind. -/
def setMetadata (attachments : List String) (name : String) : List String :=
  if name ∈ attachments then attachments else name :: attachments

/-- An operator without fast math, or a call with metadata that says precise. -/
def isPrecise : Instruction → Bool
  | binaryOperator _ fastMath _ => !fastMath
  | call _ attachments _ => "dx.precise" ∈ attachments
  | _ => false

/-- `instruction_requires_no_contraction`. -/
def requiresNoContraction (inst : Instruction) : Bool :=
  inst.isPreciseSensitive && inst.isPrecise

/-- What `mark_precise` does to an instruction. -/
def mark (inst : Instruction) : Instruction :=
  if inst.isPreciseSensitive && !inst.requiresNoContraction then
    match inst with
    | call op attachments operands => call op (setMetadata attachments "dx.precise") operands
    | binaryOperator opcode _ operands => binaryOperator opcode false operands
    | phi incoming => phi incoming
    | plain kind operands => plain kind operands
  else inst

end Instruction

/-- The instructions of a function, block after block. -/
structure Function where
  size : Nat
  inst : Nat → Instruction
  /-- An operand is an instruction of the function. -/
  closed : ∀ u < size, ∀ v, Operand.instruction v ∈ (inst u).dependencies → v < size

/-- `mark_precise` and `propagate_precise` on one instruction: the cache and the instructions. -/
def propagatePreciseFrom :
    Nat → List Nat × (Nat → Instruction) → Nat → Option (List Nat × (Nat → Instruction))
  | 0, _, _ => none
  | fuel + 1, s, v =>
    if v ∈ s.1 then some s
    else (s.2 v).dependencies.foldlM (fun s value =>
      match value with
      | .instruction w =>
        if (s.2 w).isBaseOfValueKind then
          propagatePreciseFrom fuel (s.1, Function.update s.2 w (s.2 w).mark) w
        else some s
      | .other => some s) (v :: s.1, s.2)

/-- `propagate_precise`: the instructions that must not be contracted are collected, and one after
the other propagated with a shared cache. -/
def propagatePrecise (fuel : Nat) (f : Function) : Option (Nat → Instruction) := do
  let preciseInstructions := (List.range f.size).filter fun i => (f.inst i).requiresNoContraction
  let s ← preciseInstructions.foldlM (propagatePreciseFrom fuel) ([], f.inst)
  return s.2

variable {inst : Instruction}

/-- Marking leaves what an instruction is and what it depends on. -/
theorem mark_same : inst.mark.dependencies = inst.dependencies ∧
    inst.mark.isBaseOfValueKind = inst.isBaseOfValueKind ∧
    inst.mark.isPreciseSensitive = inst.isPreciseSensitive := by
  unfold Instruction.mark
  split
  · cases inst with
    | call op attachments operands => cases op <;> exact ⟨rfl, rfl, rfl⟩
    | binaryOperator opcode fastMath operands => exact ⟨rfl, rfl, rfl⟩
    | phi incoming => exact ⟨rfl, rfl, rfl⟩
    | plain kind operands => exact ⟨rfl, rfl, rfl⟩
  · exact ⟨rfl, rfl, rfl⟩

theorem mem_setMetadata {attachments : List String} {name : String} :
    name ∈ Instruction.setMetadata attachments name := by
  unfold Instruction.setMetadata
  split
  · assumption
  · exact List.mem_cons_self

/-- What is sensitive and marked must not be contracted. -/
theorem requiresNoContraction_mark :
    inst.mark.requiresNoContraction = inst.isPreciseSensitive := by
  unfold Instruction.requiresNoContraction
  rw [mark_same.2.2]
  cases hsensitive : inst.isPreciseSensitive with
  | false => rfl
  | true =>
    rw [Bool.true_and]
    unfold Instruction.mark Instruction.requiresNoContraction
    rw [hsensitive, Bool.true_and, Bool.true_and]
    cases hprecise : inst.isPrecise with
    | true => exact hprecise
    | false =>
      cases inst with
      | binaryOperator opcode fastMath operands => rfl
      | call op attachments operands => exact decide_eq_true mem_setMetadata
      | phi incoming => cases hsensitive
      | plain kind operands => cases hsensitive

theorem mark_mark : inst.mark.mark = inst.mark :=
  if_neg (by rw [requiresNoContraction_mark, mark_same.2.2]; simp)

/-- One instruction is marked. -/
def treat (w : Nat) (insts : Nat → Instruction) : Nat → Instruction :=
  Function.update insts w (insts w).mark

/-- What marking several instructions leaves. -/
theorem foldl_treat (l : List Nat) (insts : Nat → Instruction) (i : Nat) :
    l.foldl (fun d w => treat w d) insts i = if i ∈ l then (insts i).mark else insts i := by
  induction l generalizing insts with
  | nil => rfl
  | cons w l ih =>
    rw [List.foldl_cons, ih]
    by_cases hi : i = w
    · subst hi
      rw [if_pos List.mem_cons_self, treat, Function.update_self, mark_mark, ite_self]
    · rw [treat, Function.update_of_ne hi]
      by_cases hl : i ∈ l
      · rw [if_pos hl, if_pos (List.mem_cons_of_mem w hl)]
      · rw [if_neg hl, if_neg fun h => (List.mem_cons.mp h).elim hi hl]

variable (f : Function)

/-- An instruction depends on another. -/
def Function.Uses (u w : Nat) : Prop := Operand.instruction w ∈ (f.inst u).dependencies

/-- An instruction depends on another that does not construct a composite. -/
def Function.UsesPlainly (u w : Nat) : Prop :=
  f.Uses u w ∧ (f.inst w).isBaseOfValueKind = true

/-- An instruction that must not be contracted depends on an instruction, over any number of
steps. -/
def Function.Required (r : Nat → Nat → Prop) (i : Nat) : Prop :=
  ∃ root < f.size, (f.inst root).requiresNoContraction = true ∧ Relation.TransGen r root i

/-- The instructions that a search goes on with. -/
def Function.successors (u : Nat) : List Nat :=
  (f.inst u).dependencies.filterMap fun value =>
    match value with
    | .instruction w => if (f.inst w).isBaseOfValueKind then some w else none
    | .other => none

variable {f}

theorem mem_successors {u w : Nat} : w ∈ f.successors u ↔ f.UsesPlainly u w := by
  unfold Function.successors Function.UsesPlainly Function.Uses
  rw [List.mem_filterMap]
  constructor
  · rintro ⟨value, hvalue, hw⟩
    cases value with
    | other => cases hw
    | instruction x =>
      simp only at hw
      split at hw
      · rename_i hbase
        obtain rfl := Option.some.inj hw
        exact ⟨hvalue, hbase⟩
      · cases hw
  · rintro ⟨hvalue, hbase⟩
    exact ⟨_, hvalue, if_pos hbase⟩

/-- The instructions of a function, some of them marked. -/
def SameShape (f : Function) (insts : Nat → Instruction) : Prop :=
  ∀ i, (insts i).dependencies = (f.inst i).dependencies ∧
    (insts i).isBaseOfValueKind = (f.inst i).isBaseOfValueKind

theorem SameShape.treat {insts : Nat → Instruction} (w : Nat) (h : SameShape f insts) :
    SameShape f (treat w insts) := by
  intro i
  by_cases hi : i = w
  · rw [hi, Convert.treat, Function.update_self, mark_same.1, mark_same.2.1]
    exact h w
  · rw [Convert.treat, Function.update_of_ne hi]
    exact h i

/-- The propagation is a depth-first search. -/
theorem propagatePreciseFrom_eq (fuel : Nat) (s : List Nat × (Nat → Instruction)) (v : Nat)
    (hs : SameShape f s.2) :
    propagatePreciseFrom fuel s v = explore f.successors treat fuel s v := by
  induction fuel generalizing s v with
  | zero => rfl
  | succ fuel ih =>
    rw [propagatePreciseFrom, explore]
    by_cases hseen : v ∈ s.1
    · rw [if_pos hseen, if_pos hseen]
    rw [if_neg hseen, if_neg hseen, (hs v).1, Function.successors]
    generalize (f.inst v).dependencies = l
    have hs' : SameShape f (v :: s.1, s.2).2 := hs
    generalize ((v :: s.1, s.2) : List Nat × (Nat → Instruction)) = s at hs'
    induction l generalizing s with
    | nil => rfl
    | cons value l ihl =>
      cases value with
      | other =>
        rw [List.foldlM_cons, List.filterMap_cons]
        exact ihl s hs'
      | instruction w =>
        rw [List.foldlM_cons, List.filterMap_cons]
        simp only [(hs' w).2]
        by_cases hbase : (f.inst w).isBaseOfValueKind = true
        · simp only [if_pos hbase]
          rw [List.foldlM_cons, ih _ w (hs'.treat w)]
          show (explore f.successors treat fuel (s.1, treat w s.2) w >>= _) = _
          cases hrun : explore f.successors treat fuel (s.1, treat w s.2) w with
          | none => rfl
          | some s₁ =>
            exact ihl s₁ (explore_keeps (fun w d h => h.treat w) fuel hrun (hs'.treat w))
        · simp only [if_neg hbase]
          exact ihl s hs'

/-- The searches from several roots, one after the other. -/
theorem foldlM_propagatePreciseFrom_eq (fuel : Nat) (roots : List Nat)
    (s : List Nat × (Nat → Instruction)) (hs : SameShape f s.2) :
    roots.foldlM (propagatePreciseFrom fuel) s =
      roots.foldlM (explore f.successors treat fuel) s := by
  induction roots generalizing s with
  | nil => rfl
  | cons v roots ih =>
    rw [List.foldlM_cons, List.foldlM_cons, propagatePreciseFrom_eq fuel s v hs]
    cases hrun : explore f.successors treat fuel s v with
    | none => rfl
    | some s₁ => exact ih s₁ (explore_keeps (fun w d h => h.treat w) fuel hrun hs)

open Classical in
/-- With fuel for every instruction the propagation ends, and has marked what plainly depends on an
instruction that must not be contracted. -/
theorem propagatePrecise_eq (f : Function) {fuel : Nat} (hfuel : f.size < fuel) :
    propagatePrecise fuel f = some fun i =>
      if f.Required f.UsesPlainly i then (f.inst i).mark else f.inst i := by
  let roots := (List.range f.size).filter fun i => (f.inst i).requiresNoContraction
  have hroots : ∀ r, r ∈ roots ↔ r < f.size ∧ (f.inst r).requiresNoContraction = true := fun r => by
    rw [List.mem_filter, List.mem_range]
  have hclosed : ∀ x ∈ Finset.range f.size, ∀ w ∈ f.successors x, w ∈ Finset.range f.size := by
    intro x hx w hw
    rw [Finset.mem_range] at hx ⊢
    exact f.closed x hx w (mem_successors.mp hw).1
  have hremaining : ∀ l : List Nat, remaining (Finset.range f.size) l ≤ f.size := fun l =>
    (Finset.card_filter_le _ _).trans (Finset.card_range f.size).le
  obtain ⟨s', treated, hrun, h⟩ := foldlM_explored treat (explore f.successors treat fuel)
    (fun _ => []) (fun _ _ => rfl) rfl f.size
    (fun s w hw _ => explore_spec hclosed fuel s w hw ((hremaining s.1).trans_lt hfuel))
    roots (fun r hr => Finset.mem_range.mpr ((hroots r).mp hr).1) ([], f.inst) (hremaining [])
  have hmarked : ∀ i, i ∈ treated ↔ f.Required f.UsesPlainly i := by
    intro i
    have hrelation : Successor f.successors = f.UsesPlainly := by
      funext u w
      exact propext mem_successors
    rw [mem_treated_of_roots h rfl, hrelation]
    constructor
    · rintro ⟨r, hr, hreach⟩
      exact ⟨r, ((hroots r).mp hr).1, ((hroots r).mp hr).2, hreach⟩
    · rintro ⟨r, hlt, hrequires, hreach⟩
      exact ⟨r, (hroots r).mpr ⟨hlt, hrequires⟩, hreach⟩
  have hsearch : roots.foldlM (propagatePreciseFrom fuel) ([], f.inst) = some s' :=
    (foldlM_propagatePreciseFrom_eq fuel roots ([], f.inst) fun i => ⟨rfl, rfl⟩).trans hrun
  unfold propagatePrecise
  simp only
  rw [hsearch]
  show some s'.2 = _
  congr 1
  funext i
  rw [h.data, foldl_treat]
  simp only [hmarked]

/-- Afterwards a sensitive instruction must not be contracted just if it had not to be before or one
depends on it that had not to be. -/
def Function.PropagatesTo (f : Function) (after : Nat → Instruction) : Prop :=
  ∀ i < f.size, (f.inst i).isPreciseSensitive = true →
    ((after i).requiresNoContraction = true ↔
      (f.inst i).requiresNoContraction = true ∨ f.Required f.Uses i)

theorem Function.Required.of_plainly {f : Function} {i : Nat} (h : f.Required f.UsesPlainly i) :
    f.Required f.Uses i := by
  obtain ⟨root, hlt, hrequires, hreach⟩ := h
  have hle : Relation.TransGen f.UsesPlainly ≤ Relation.TransGen f.Uses :=
    Relation.TransGen.mono fun _ _ h => h.1
  exact ⟨root, hlt, hrequires, hle root i hreach⟩

/-- The propagation ends, and it is exact for the functions in which no sensitive instruction
depends on precise ones through composites only. -/
theorem propagatePrecise_exact_iff (f : Function) :
    ∃ after, (∀ fuel, f.size < fuel → propagatePrecise fuel f = some after) ∧
      (f.PropagatesTo after ↔ ∀ i < f.size, (f.inst i).isPreciseSensitive = true →
        (f.inst i).requiresNoContraction = false → f.Required f.Uses i →
        f.Required f.UsesPlainly i) := by
  classical
  refine ⟨fun i => if f.Required f.UsesPlainly i then (f.inst i).mark else f.inst i,
    fun fuel hfuel => propagatePrecise_eq f hfuel, ?_⟩
  have hafter : ∀ i, (f.inst i).isPreciseSensitive = true →
      (((if f.Required f.UsesPlainly i then (f.inst i).mark else f.inst i).requiresNoContraction =
        true) ↔ (f.inst i).requiresNoContraction = true ∨ f.Required f.UsesPlainly i) := by
    intro i hsensitive
    by_cases hplain : f.Required f.UsesPlainly i
    · rw [if_pos hplain, requiresNoContraction_mark, hsensitive]
      exact ⟨fun _ => Or.inr hplain, fun _ => rfl⟩
    · rw [if_neg hplain]
      exact ⟨Or.inl, fun h => h.resolve_right hplain⟩
  constructor
  · intro h i hi hsensitive hnot hrequired
    have hmarked := (hafter i hsensitive).mp ((h i hi hsensitive).mpr (Or.inr hrequired))
    exact hmarked.resolve_left (by rw [hnot]; exact Bool.false_ne_true)
  · intro h i hi hsensitive
    rw [hafter i hsensitive]
    constructor
    · exact Or.imp_right Function.Required.of_plainly
    · rintro (hbefore | hrequired)
      · exact Or.inl hbefore
      · cases hnot : (f.inst i).requiresNoContraction with
        | true => exact Or.inl rfl
        | false => exact Or.inr (h i hi hsensitive hnot hrequired)

/-- A precise sum of a component of a composite whose other constituent is a product. -/
def composite : Function where
  size := 4
  inst i := match i with
    | 0 => .binaryOperator .fMul true [.other, .other]
    | 1 => .plain .compositeConstruct [.instruction 0, .other]
    | 2 => .plain .extractElement [.instruction 1, .other]
    | _ => .binaryOperator .fAdd false [.instruction 2, .other]
  closed := by
    intro u hu v hv
    match u with
    | 0 => simp [Instruction.dependencies] at hv
    | 1 => simp [Instruction.dependencies] at hv; omega
    | 2 => simp [Instruction.dependencies] at hv; omega
    | 3 => simp [Instruction.dependencies] at hv; omega

/-- The product behind the composite may still be contracted. -/
theorem composite_not_propagated :
    ¬ ∀ f : Function, ∃ after, propagatePrecise (f.size + 1) f = some after ∧
      f.PropagatesTo after := by
  intro h
  obtain ⟨after, hrun, hafter⟩ := h composite
  have hrequired : composite.Required composite.Uses 0 := by
    refine ⟨3, by decide, rfl, ?_⟩
    refine .head (b := 2) (by simp [Function.Uses, composite, Instruction.dependencies])
      (.head (b := 1) (by simp [Function.Uses, composite, Instruction.dependencies])
        (.single (by simp [Function.Uses, composite, Instruction.dependencies])))
  have hmarked := (hafter 0 (by decide) rfl).mpr (Or.inr hrequired)
  have hunmarked : (propagatePrecise 5 composite).map (fun insts =>
      (insts 0).requiresNoContraction) = some false := by decide
  have hrun : propagatePrecise 5 composite = some after := hrun
  rw [hrun, Option.map_some, hmarked] at hunmarked
  cases hunmarked

end DxilSpirv.Convert
