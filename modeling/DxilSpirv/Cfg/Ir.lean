import Mathlib.Data.List.Forall2

/-!
# Blocks of the intermediate representation

The block contents that the control flow passes read and rewrite: PHIs, operations and
terminators. A block is named by its index in the node pool, a natural number,
and a value by its SPIR-V result id, where 0 stands for no id.
-/

namespace DxilSpirv

/-- The opcodes that the passes single out; `other` is every further opcode. -/
inductive SpvOp where
  | opNop | opLoad | opStore | opAccessChain | opVariable | opSampledImage | opCopyObject
  | opSelect | opUndef | opBeginInvocationInterlockEXT | opEndInvocationInterlockEXT | opDPdx
  | opDPdxCoarse | opDPdxFine | opDPdy | opDPdyCoarse | opDPdyFine | opFwidth | opFwidthCoarse
  | opFwidthFine | opImageSampleImplicitLod | opImageSampleDrefImplicitLod
  | opImageSampleProjImplicitLod | opImageSampleProjDrefImplicitLod
  | opImageSparseSampleImplicitLod | opImageSparseSampleDrefImplicitLod
  | opImageSparseSampleProjImplicitLod | opImageSparseSampleProjDrefImplicitLod | opImageQueryLod
  | opImageDrefGather | opImageGather | opImageSparseDrefGather | opImageSparseGather
  | opGroupNonUniformElect | opGroupNonUniformAll | opGroupNonUniformAny
  | opGroupNonUniformAllEqual | opGroupNonUniformBroadcast | opGroupNonUniformBroadcastFirst
  | opGroupNonUniformBallot | opGroupNonUniformInverseBallot | opGroupNonUniformBallotBitExtract
  | opGroupNonUniformBallotBitCount | opGroupNonUniformBallotFindLSB
  | opGroupNonUniformBallotFindMSB | opGroupNonUniformShuffle | opGroupNonUniformShuffleXor
  | opGroupNonUniformShuffleUp | opGroupNonUniformShuffleDown | opGroupNonUniformIAdd
  | opGroupNonUniformFAdd | opGroupNonUniformIMul | opGroupNonUniformFMul | opGroupNonUniformSMin
  | opGroupNonUniformUMin | opGroupNonUniformFMin | opGroupNonUniformSMax | opGroupNonUniformUMax
  | opGroupNonUniformFMax | opGroupNonUniformBitwiseAnd | opGroupNonUniformBitwiseOr
  | opGroupNonUniformBitwiseXor | opGroupNonUniformLogicalAnd | opGroupNonUniformLogicalOr
  | opGroupNonUniformLogicalXor | opGroupNonUniformQuadBroadcast | opGroupNonUniformQuadSwap
  | opControlBarrier | opMemoryBarrier | opFunctionCall | opCooperativeMatrixLoadKHR
  | opCooperativeMatrixStoreKHR | opCooperativeMatrixMulAddKHR | opAtomicIAdd
  | opAtomicIDecrement | opAtomicIIncrement | opAtomicISub | opAtomicAnd | opAtomicOr
  | opAtomicXor | opAtomicUMax | opAtomicUMin | opAtomicSMax | opAtomicSMin | opAtomicFAddEXT
  | opAtomicFMaxEXT | opAtomicFMinEXT | opAtomicCompareExchange | opAtomicCompareExchangeWeak
  | opAtomicExchange | opAtomicStore
  | other (code : Nat)
  deriving DecidableEq, Repr

/-- An opcode is control dependent if it is affected by other invocations in the subgroup. -/
def SpvOp.opcodeIsControlDependent : SpvOp → Bool
  | .opDPdx | .opDPdxCoarse | .opDPdxFine | .opDPdy | .opDPdyCoarse | .opDPdyFine | .opFwidth
  | .opFwidthCoarse | .opFwidthFine | .opImageSampleImplicitLod | .opImageSampleDrefImplicitLod
  | .opImageSampleProjImplicitLod | .opImageSampleProjDrefImplicitLod
  | .opImageSparseSampleImplicitLod | .opImageSparseSampleDrefImplicitLod
  | .opImageSparseSampleProjImplicitLod | .opImageSparseSampleProjDrefImplicitLod
  | .opImageQueryLod | .opImageDrefGather | .opImageGather | .opImageSparseDrefGather
  | .opImageSparseGather | .opGroupNonUniformElect | .opGroupNonUniformAll
  | .opGroupNonUniformAny | .opGroupNonUniformAllEqual | .opGroupNonUniformBroadcast
  | .opGroupNonUniformBroadcastFirst | .opGroupNonUniformBallot | .opGroupNonUniformInverseBallot
  | .opGroupNonUniformBallotBitExtract | .opGroupNonUniformBallotBitCount
  | .opGroupNonUniformBallotFindLSB | .opGroupNonUniformBallotFindMSB | .opGroupNonUniformShuffle
  | .opGroupNonUniformShuffleXor | .opGroupNonUniformShuffleUp | .opGroupNonUniformShuffleDown
  | .opGroupNonUniformIAdd | .opGroupNonUniformFAdd | .opGroupNonUniformIMul
  | .opGroupNonUniformFMul | .opGroupNonUniformSMin | .opGroupNonUniformUMin
  | .opGroupNonUniformFMin | .opGroupNonUniformSMax | .opGroupNonUniformUMax
  | .opGroupNonUniformFMax | .opGroupNonUniformBitwiseAnd | .opGroupNonUniformBitwiseOr
  | .opGroupNonUniformBitwiseXor | .opGroupNonUniformLogicalAnd | .opGroupNonUniformLogicalOr
  | .opGroupNonUniformLogicalXor | .opGroupNonUniformQuadBroadcast | .opGroupNonUniformQuadSwap
  | .opControlBarrier | .opMemoryBarrier | .opFunctionCall | .opCooperativeMatrixLoadKHR
  | .opCooperativeMatrixStoreKHR | .opCooperativeMatrixMulAddKHR => true
  | _ => false

/-- An operand: a result id or a literal word. -/
inductive Argument where
  | id (id : Nat)
  | literal (value : BitVec 32)
  deriving DecidableEq, Repr

/-- The ids among the operands. -/
def Argument.id? : Argument → Option Nat
  | .id i => some i
  | .literal _ => none

/-- An operation of a block; `id` is 0 for operations without a result. -/
structure Operation where
  op : SpvOp := .opNop
  id : Nat := 0
  typeId : Nat := 0
  arguments : List Argument := []
  sinkable : Bool := false
  dependencySinkable : Bool := false
  deriving DecidableEq, Repr

/-- One incoming value of a PHI and the block it arrives from. -/
structure IncomingValue where
  block : Nat
  id : Nat
  deriving DecidableEq, Repr

/-- A PHI of a block. -/
structure PHI where
  id : Nat := 0
  typeId : Nat := 0
  relaxed : Bool := false
  incoming : List IncomingValue := []
  deriving DecidableEq, Repr

/-- How a block ends. -/
inductive TerminatorType where
  | unreachable | branch | condition | switch | ret | kill
  deriving DecidableEq, Repr

/-- One label of a switch. -/
structure TerminatorCase where
  node : Nat
  globalOrder : Nat := 0
  value : BitVec 32 := 0
  isDefault : Bool := false
  deriving DecidableEq, Repr

/-- The terminator of a block. Only the fields its type names are meaningful. -/
structure Terminator where
  conditionalId : Nat := 0
  type : TerminatorType := .unreachable
  directBlock : Option Nat := none
  trueBlock : Option Nat := none
  falseBlock : Option Nat := none
  cases : List TerminatorCase := []
  returnValue : Nat := 0
  deriving DecidableEq, Repr

/-- The contents of a block. -/
structure IRBlock where
  phi : List PHI := []
  operations : List Operation := []
  terminator : Terminator := {}
  deriving DecidableEq, Repr

namespace Terminator

/-- The blocks control can be passed to. -/
def targets (t : Terminator) : List Nat :=
  match t.type with
  | .branch => t.directBlock.toList
  | .condition => t.trueBlock.toList ++ t.falseBlock.toList
  | .switch => t.cases.map (·.node)
  | _ => []

/-- Let one block stand in for another wherever the terminator names it. -/
def retarget (t : Terminator) (toPrev toNext : Nat) : Terminator :=
  { t with
    directBlock := if t.directBlock = some toPrev then some toNext else t.directBlock
    trueBlock := if t.trueBlock = some toPrev then some toNext else t.trueBlock
    falseBlock := if t.falseBlock = some toPrev then some toNext else t.falseBlock
    cases := t.cases.map fun c => if c.node = toPrev then { c with node := toNext } else c }

/-- Retargeting renames the targets. -/
theorem targets_retarget (t : Terminator) (toPrev toNext : Nat) :
    (t.retarget toPrev toNext).targets =
      t.targets.map fun n => if n = toPrev then toNext else n := by
  have ho : ∀ o : Option Nat, (if o = some toPrev then some toNext else o).toList =
      o.toList.map fun n => if n = toPrev then toNext else n := by
    intro o
    cases o with
    | none => rfl
    | some n => by_cases h : n = toPrev <;> simp [h]
  unfold targets
  cases ht : t.type with
  | branch => simp only [retarget, ht, ho]
  | condition => simp only [retarget, ht, ho, List.map_append]
  | switch =>
    simp only [retarget, ht, List.map_map]
    refine List.map_congr_left fun c _ => ?_
    by_cases h : c.node = toPrev <;> simp [h]
  | unreachable | ret | kill => simp only [retarget, ht, List.map_nil]

end Terminator

/-- What a pass can run into instead of finishing. -/
inductive Fault where
  /-- A failed `assert`. -/
  | assertion
  /-- A null block pointer was followed. -/
  | nullPointer
  /-- The recursion bound of the model was used up. -/
  | outOfFuel
  deriving DecidableEq, Repr

/-- The source's `assert`. -/
def check (p : Prop) [Decidable p] : Except Fault Unit :=
  if p then .ok () else .error .assertion

/-- The node behind a pointer that must not be null. -/
def deref : Option Nat → Except Fault Nat
  | some n => .ok n
  | none => .error .nullPointer

@[simp] theorem check_ok {p : Prop} [Decidable p] (h : p) : check p = .ok () := if_pos h

@[simp] theorem check_error {p : Prop} [Decidable p] (h : ¬ p) : check p = .error .assertion :=
  if_neg h

/-- An assert is passed when its condition holds. -/
theorem check_eq_ok {p : Prop} [Decidable p] {u : Unit} : check p = .ok u ↔ p := by
  by_cases h : p <;> simp [h]

@[simp] theorem deref_some (n : Nat) : deref (some n) = .ok n := rfl

/-- A sequence of two steps succeeds when both do. -/
theorem bind_eq_ok {β γ : Type} {x : Except Fault β} {f : β → Except Fault γ} {r : γ} :
    (x >>= f) = .ok r ↔ ∃ a, x = .ok a ∧ f a = .ok r := by
  cases x with
  | error e => simp [bind, Except.bind]
  | ok a => simp [bind, Except.bind]

@[simp] theorem ok_bind {β γ : Type} (a : β) (f : β → Except Fault γ) :
    ((.ok a : Except Fault β) >>= f) = f a := rfl

@[simp] theorem error_bind {β γ : Type} (e : Fault) (f : β → Except Fault γ) :
    ((.error e : Except Fault β) >>= f) = .error e := rfl

@[simp] theorem pure_eq_ok {β : Type} (a : β) : (pure a : Except Fault β) = .ok a := rfl

/-- What every iteration keeps, the whole loop keeps. -/
theorem foldlM_invariant {β γ : Type} {P : β → Prop} {f : β → γ → Except Fault β} {l : List γ}
    (hstep : ∀ x ∈ l, ∀ s s', P s → f s x = .ok s' → P s') {s s' : β} (hs : P s)
    (h : l.foldlM f s = .ok s') : P s' := by
  induction l generalizing s with
  | nil => exact (Except.ok.inj h : s = s') ▸ hs
  | cons x l ih =>
    rw [List.foldlM_cons, bind_eq_ok] at h
    obtain ⟨t, ht, h⟩ := h
    exact ih (fun y hy => hstep y (List.mem_cons_of_mem _ hy))
      (hstep x (List.mem_cons_self ..) s t hs ht) h

/-- A loop completes when each iteration does from a state that satisfies the invariant. -/
theorem foldlM_total {β γ : Type} {P : β → Prop} {f : β → γ → Except Fault β} {l : List γ}
    (hstep : ∀ x ∈ l, ∀ s, P s → ∃ s', f s x = .ok s' ∧ P s') {s : β} (hs : P s) :
    ∃ s', l.foldlM f s = .ok s' ∧ P s' := by
  induction l generalizing s with
  | nil => exact ⟨s, rfl, hs⟩
  | cons x l ih =>
    obtain ⟨t, ht, hPt⟩ := hstep x (List.mem_cons_self ..) s hs
    obtain ⟨s', hs', hPs'⟩ := ih (fun y hy => hstep y (List.mem_cons_of_mem _ hy)) hPt
    exact ⟨s', by rw [List.foldlM_cons, ht, ok_bind, hs'], hPs'⟩

/-- A loop that maps every element completes when it does for each of them. -/
theorem mapM_total {β γ : Type} {f : β → Except Fault γ} {l : List β}
    (h : ∀ x ∈ l, ∃ y, f x = .ok y) : ∃ l', l.mapM f = .ok l' := by
  induction l with
  | nil => exact ⟨[], by rw [List.mapM_nil, pure_eq_ok]⟩
  | cons x l ih =>
    obtain ⟨y, hy⟩ := h x (List.mem_cons_self ..)
    obtain ⟨l', hl'⟩ := ih fun z hz => h z (List.mem_cons_of_mem _ hz)
    exact ⟨y :: l', by rw [List.mapM_cons, hy, ok_bind, hl', ok_bind, pure_eq_ok]⟩

/-- A loop that maps every element succeeds when it does for each of them. -/
theorem forall₂_of_mapM {β γ : Type} {f : β → Except Fault γ} {l : List β} {l' : List γ}
    (h : l.mapM f = .ok l') : List.Forall₂ (fun x y => f x = .ok y) l l' := by
  induction l generalizing l' with
  | nil =>
    obtain rfl := Except.ok.inj h
    exact .nil
  | cons x l ih =>
    simp only [List.mapM_cons, bind_eq_ok, pure_eq_ok] at h
    obtain ⟨y, hy, ys, hys, h⟩ := h
    obtain rfl := Except.ok.inj h
    exact .cons hy (ih hys)

/-- Related lists relate each element of the second to one of the first. -/
theorem exists_left_of_forall₂ {β γ : Type} {R : β → γ → Prop} {l : List β} {l' : List γ}
    (h : List.Forall₂ R l l') {y : γ} (hy : y ∈ l') : ∃ x ∈ l, R x y := by
  induction h with
  | nil => exact absurd hy List.not_mem_nil
  | cons hxy _ ih =>
    rcases List.mem_cons.mp hy with rfl | hy
    · exact ⟨_, List.mem_cons_self .., hxy⟩
    · obtain ⟨x, hx, hR⟩ := ih hy
      exact ⟨x, List.mem_cons_of_mem _ hx, hR⟩

theorem exists_right_of_forall₂ {β γ : Type} {R : β → γ → Prop} {l : List β} {l' : List γ}
    (h : List.Forall₂ R l l') {x : β} (hx : x ∈ l) : ∃ y ∈ l', R x y :=
  exists_left_of_forall₂ h.flip hx

/-- Whether a computation succeeds with a result that passes a test. -/
def yields {β : Type} (x : Except Fault β) (p : β → Bool) : Bool :=
  match x with
  | .ok a => p a
  | .error _ => false

theorem exists_of_yields {β : Type} {x : Except Fault β} {p : β → Bool} (h : yields x p = true) :
    ∃ a, x = .ok a ∧ p a = true := by
  cases x with
  | ok a => exact ⟨a, rfl, h⟩
  | error e => cases h

end DxilSpirv
