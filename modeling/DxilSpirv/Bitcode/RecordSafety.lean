import DxilSpirv.Bitcode.Operands
import DxilSpirv.Bitcode.ShuffleMask

/-!
# Instructions that go wrong

For each record of a function body, when its parser does not go wrong.
-/

namespace DxilSpirv.Bitcode

open DxilSpirv.Program Stoppable

/-- The parser does not go wrong. -/
abbrev Sound {α : Type} (m : Parser α) (c : Context) : Prop :=
  Safe Stop.IsMisuse m c fun _ _ => True

variable {c : Context}

@[simp] theorem safe_addValue (value : ValuePtr) (type : Option TypePtr) :
    Sound (addValue value type) c ↔ type ≠ none := by
  cases type <;> simp [Sound, addValue]

/-- Only an instruction that gets an id needs a type. -/
@[simp] theorem safe_addInstruction (type : Option TypePtr) (kind : InstructionKind)
    (operands : List Value) :
    Sound (addInstruction type kind operands) c ↔
      (c.currentBb ≠ none → kind.isTerminator = false → type ≠ none) := by
  unfold addInstruction Sound
  cases hbb : c.currentBb with
  | none => simp [Context.construct, hbb]
  | some bb => cases hkind : kind.isTerminator <;> simp [Context.construct, hbb]

/-- A successor is added to the block at hand, once; there has to be one. -/
@[simp] theorem safe_addSuccessor (bb : BlockPtr) {post : Unit → Context → Prop} :
    Safe Stop.IsMisuse (addSuccessor bb) c post ↔ ∀ current, c.currentBb = some current →
      post () (c.mapBlock current fun b =>
        { b with succs := if bb ∈ b.succs then b.succs else b.succs ++ [bb] }) := by
  simp [addSuccessor]

/-! ## The first operand -/

/-- The type of the first operand is there when it is used. -/
def Context.FirstTyped (c : Context) (ops : List Nat) (used : Option TypePtr → Nat → Prop) : Prop :=
  ∀ t i, c.typedOperand ops 0 = some (t, i) → used t i → t ≠ none

/-- A unary operation uses the type of its operand, and reads the operand behind it. -/
theorem sound_parseUnop (ops : List Nat) :
    Sound (parseUnop ops) c ↔ c.FirstTyped ops fun _ i => i < ops.length := by
  unfold Sound parseUnop Context.FirstTyped
  obtain ⟨c₁, -, ⟨j, h, ht⟩ | ⟨v, t, j, h, hv, ht, -, hle⟩⟩ := c.getValueAndType_cases ops 0
  · simp [h, ht]
  · cases t <;> simp [h, ht, translateUop, hv] <;> omega

@[simp] theorem safe_cmpResultType (type : Option TypePtr) :
    Sound (cmpResultType type) c ↔ type ≠ none := by
  unfold Sound cmpResultType
  cases type with
  | none => simp
  | some p =>
    simp only [safe_bind, safe_typeAt, safe_modifyGet, Option.some.injEq, ne_eq, reduceCtorEq,
      not_false_eq_true, exists_eq_left', iff_true]
    cases c.heap.lookup p <;> simp

/-- A comparison uses the type of its first operand and looks for a second one of that type. -/
theorem sound_parseCmp (ops : List Nat) :
    Sound (parseCmp ops) c ↔ c.FirstTyped ops fun t i =>
      i + 1 < ops.length ∧ c.nextOperand ops i t ≠ none := by
  unfold Sound parseCmp Context.FirstTyped
  obtain ⟨c₁, hp, ⟨j, h, ht⟩ | ⟨v, t, j, h, hv, ht, -, hle⟩⟩ := c.getValueAndType_cases ops 0
  · simp [h, ht]
  · obtain ⟨c₂, -, ⟨k, hn, hnext, hk⟩ | ⟨v', p, hn, -, hnext, hlt⟩⟩ := c₁.getNextValue_cases ops j t
    · rw [hp.nextOperand] at hnext
      simp [h, ht, hn, hnext]
      omega
    · rw [hp.nextOperand] at hnext
      cases t <;> simp [h, ht, hn, hnext, hv] <;> omega

/-- A binary operation uses the types of its operands the same way, after it has looked for both. -/
theorem sound_parseBinop (ops : List Nat) :
    Sound (parseBinop ops) c ↔ c.FirstTyped ops fun t i =>
      i + 1 < ops.length ∧ c.nextOperand ops i t ≠ none := by
  unfold Sound parseBinop Context.FirstTyped
  obtain ⟨c₁, hp, ⟨j, h, ht⟩ | ⟨v, t, j, h, hv, ht, -, hle⟩⟩ := c.getValueAndType_cases ops 0
  · simp [h, ht]
  · obtain ⟨c₂, -, ⟨k, hn, hnext, -⟩ | ⟨v', p, hn, -, hnext, hlt⟩⟩ := c₁.getNextValue_cases ops j t
    · rw [hp.nextOperand] at hnext
      simp [h, ht, hn, hnext]
    · rw [hp.nextOperand] at hnext
      cases t <;> simp [h, ht, hn, hnext, hv, translateBinop] <;> omega

/-- An atomic operation uses the type of its first operand. -/
theorem sound_parseAtomicRMW (ops : List Nat) :
    Sound (parseAtomicRMW ops) c ↔ c.FirstTyped ops fun _ _ => True := by
  unfold Sound parseAtomicRMW Context.FirstTyped
  obtain ⟨c₁, hp, ⟨j, h, ht⟩ | ⟨v, t, j, h, hv, ht, -, hle⟩⟩ := c.getValueAndType_cases ops 0
  · simp [h, ht]
  · cases t with
    | none => simp [h, ht]
    | some p =>
      simp [h, ht]
      cases c₁.heap.lookup p with
      | pointer pointee _ =>
        obtain ⟨c₂, -, ⟨k, hn, hnext, -⟩ | ⟨v', q, hn, hv', hnext, hlt⟩⟩ :=
          c₁.getNextValue_cases ops j (some pointee)
        · simp [hn]
        · simp [hn, hv']
          omega
      | _ => simp

/-- The extraction of an element uses the type of the vector. -/
theorem sound_parseExtractElt (ops : List Nat) :
    Sound (parseExtractElt ops) c ↔ c.FirstTyped ops fun _ _ => True := by
  unfold Sound parseExtractElt Context.FirstTyped
  obtain ⟨c₁, -, ⟨j, h, ht⟩ | ⟨v, t, j, h, -, ht, -, -⟩⟩ := c.getValueAndType_cases ops 0
  · simp [h, ht]
  · cases t with
    | none => simp [h, ht]
    | some p =>
      simp [h, ht]
      cases c₁.heap.lookup p <;> simp

/-- The insertion of an element uses the type of the vector. -/
theorem sound_parseInsertElt (ops : List Nat) :
    Sound (parseInsertElt ops) c ↔ c.FirstTyped ops fun _ _ => True := by
  unfold Sound parseInsertElt Context.FirstTyped
  obtain ⟨c₁, -, ⟨j, h, ht⟩ | ⟨v, t, j, h, hv, ht, -, -⟩⟩ := c.getValueAndType_cases ops 0
  · simp [h, ht]
  · cases t with
    | none => simp [h, ht]
    | some p =>
      simp [h, ht, hv]
      cases c₁.heap.lookup p <;> simp

/-! ## Several operands -/

/-- A compare and exchange needs the type of the pointer, and a new value behind it. -/
def Context.CmpxchgOk (c : Context) (ops : List Nat) : Prop :=
  ∀ t i, c.typedOperand ops 0 = some (t, i) → ∀ t' j, c.typedOperand ops i = some (t', j) →
    ∃ p, t = some p ∧ ((c.heap.lookup p).isPointer = true → c.nextOperand ops j t' ≠ none)

/-- A compare exchange goes wrong only under its condition. -/
theorem sound_parseCmpxchg (ops : List Nat) :
    Sound (parseCmpxchg ops) c ↔ c.CmpxchgOk ops := by
  unfold Sound parseCmpxchg Context.CmpxchgOk
  obtain ⟨c₁, hp, ⟨j, h, ht⟩ | ⟨v, t, j, h, hv, ht, -, -⟩⟩ := c.getValueAndType_cases ops 0
  · simp [h, ht]
  obtain ⟨c₂, hp₂, ⟨j', h', ht'⟩ | ⟨v', t', j', h', hv', ht', -, -⟩⟩ :=
    c₁.getValueAndType_cases ops j
  · rw [hp.typedOperand] at ht'
    simp [h, ht, h', ht']
  rw [hp.typedOperand] at ht'
  cases t with
  | none => simp [h, ht, h', ht']
  | some p =>
    obtain ⟨c₃, -, ⟨k, hn, hnext, -⟩ | ⟨v'', q, hn, hv'', hnext, -⟩⟩ :=
      c₂.getNextValue_cases ops j' t'
    · rw [hp₂.nextOperand, hp.nextOperand] at hnext
      simp [h, ht, h', ht', hn, hnext, (hp.trans hp₂).heap]
    · rw [hp₂.nextOperand, hp.nextOperand] at hnext
      simp [h, ht, h', ht', hn, hnext, hv'']

/-- A cast never goes wrong. -/
theorem sound_parseCast (ops : List Nat) : Sound (parseCast ops) c := by
  unfold Sound parseCast
  obtain ⟨c₁, -, ⟨j, h, -⟩ | ⟨v, t, j, h, -, -, -, -⟩⟩ := c.getValueAndType_cases ops 0
  · simp [h]
  · simp [h]
    grind

/-- The element type of a vector, and any other type itself. -/
def Context.scalarType (c : Context) (p : TypePtr) : TypePtr :=
  match c.heap.lookup p with
  | .vector _ element => element
  | _ => p

/-- A select needs the type of its condition, and its own. -/
def Context.SelectOk (c : Context) (ops : List Nat) : Prop :=
  ∀ t i, c.typedOperand ops 0 = some (t, i) → i + 2 ≤ ops.length → c.nextOperand ops i t ≠ none →
    ∃ q j, c.typedOperand ops (i + 1) = some (some q, j) ∧
      (c.scalarType q = (c.heap.get (.integer 1)).2 → c.currentBb ≠ none → t ≠ none)

/-- A selection goes wrong only under its condition. -/
theorem sound_parseSelect (ops : List Nat) :
    Sound (parseSelect ops) c ↔ c.SelectOk ops := by
  unfold Sound parseSelect Context.SelectOk
  obtain ⟨c₁, hp, ⟨j, h, ht⟩ | ⟨v, t, j, h, hv, ht, -, hle⟩⟩ := c.getValueAndType_cases ops 0
  · simp [h, ht]
  by_cases hlen : j + 2 ≤ ops.length
  · have hj : j < ops.length := by omega
    have hnext : c.nextOperand ops j t = c.valueOperand ops[j] t := by
      rw [Context.nextOperand, List.getElem?_eq_getElem hj, Option.bind_some]
    obtain ⟨c₂, hp₂, ⟨hg, hval⟩ | ⟨v', q, hg, hv', hval⟩⟩ := c₁.getValue_cases ops[j] t false
    · rw [hp.valueOperand] at hval
      simp [h, ht, hlen, hg, hj, hnext, hval]
    · rw [hp.valueOperand] at hval
      obtain ⟨c₃, hp₃, ⟨k, h', ht'⟩ | ⟨v'', t'', k, h', hv'', ht'', -, -⟩⟩ :=
        c₂.getValueAndType_cases ops (j + 1)
      · rw [(hp.trans hp₂).typedOperand] at ht'
        simp [h, ht, hlen, hg, hj, hnext, hval, h', ht']
      · rw [(hp.trans hp₂).typedOperand] at ht''
        cases t'' with
        | none => simp [h, ht, hlen, hg, hj, hnext, hval, h', ht'']
        | some q' =>
          have hall := (hp.trans hp₂).trans hp₃
          simp [h, ht, hlen, hg, hj, hnext, hval, h', ht'', hv, Context.makeType, hall.heap,
            hall.currentBb]
          exact Iff.rfl
  · simp [h, ht, hlen]

/-- The type of a member of an aggregate; a member of a struct may have none. -/
def Context.memberType (c : Context) (p : TypePtr) (op : Nat) : Option (Option TypePtr) :=
  match c.heap.lookup p with
  | .struct members _ => members[op % 2 ^ 32]?
  | .array element _ | .vector _ element => some (some element)
  | _ => none

/-- Every type on the path to a member is there, and the one at its end when it is used. -/
def Context.PathOk (c : Context) (used : Prop) : Option TypePtr → List Nat → Prop
  | t, [] => used → t ≠ none
  | t, op :: ops => ∃ p, t = some p ∧ ∀ member, c.memberType p op = some member →
      c.PathOk used member ops

/-- The walk along the indices of an aggregate goes wrong only under the condition on the path. -/
theorem safe_extractType {post : Option TypePtr → Context → Prop} {used : Prop}
    (hpost : ∀ t, post t c ↔ (used → t ≠ none)) (t : Option TypePtr) (ops : List Nat) :
    Safe Stop.IsMisuse (extractType t ops) c post ↔ c.PathOk used t ops := by
  induction ops generalizing t with
  | nil => exact hpost t
  | cons op ops ih =>
    cases t with
    | none => simp [extractType, Context.PathOk]
    | some p =>
      unfold extractType Context.PathOk Context.memberType
      simp only [safe_bind, safe_typeAt, Option.some.injEq, exists_eq_left']
      cases c.heap.lookup p with
      | struct members name =>
        cases hm : members[op % 2 ^ 32]? with
        | none => simp only [hm, safe_returnFalse, reduceCtorEq, false_implies, implies_true]
        | some member => simp only [hm, ih, Option.some.injEq, forall_eq']
      | array element n => simp [ih]
      | vector n element => simp [ih]
      | _ => simp

/-- An element that is extracted is at the end of a path of types. -/
def Context.ExtractValOk (c : Context) (ops : List Nat) : Prop :=
  ∀ t i, c.typedOperand ops 0 = some (t, i) → i < ops.length →
    c.PathOk (c.currentBb ≠ none) t (ops.drop i)

/-- References to values that are not there yet do not change the types along a path. -/
theorem ProxiesOnly.pathOk {c c' : Context} (h : ProxiesOnly c c') (used : Prop)
    (t : Option TypePtr) (ops : List Nat) : c'.PathOk used t ops ↔ c.PathOk used t ops := by
  induction ops generalizing t with
  | nil => exact Iff.rfl
  | cons op ops ih =>
    unfold Context.PathOk Context.memberType
    simp only [h.heap, ih]

/-- The extraction of a member goes wrong only under its condition. -/
theorem sound_parseExtractVal (ops : List Nat) :
    Sound (parseExtractVal ops) c ↔ c.ExtractValOk ops := by
  unfold Sound parseExtractVal Context.ExtractValOk
  obtain ⟨c₁, hp, ⟨j, h, ht⟩ | ⟨v, t, j, h, hv, ht, -, hle⟩⟩ := c.getValueAndType_cases ops 0
  · simp [h, ht]
  · by_cases hj : j < ops.length
    · simp [h, ht, hj, hj.ne]
      refine (safe_extractType (fun t' => ?_) t _).trans (hp.pathOk _ t _)
      rw [hp.currentBb]
    · obtain rfl : j = ops.length := by omega
      simp [h, ht]

/-- The first operand of a load or a store is used, whatever its type is. -/
def Context.LoadOk (c : Context) (ops : List Nat) : Prop :=
  ∀ t i, c.typedOperand ops 0 = some (t, i) → i + 2 = ops.length ∨ i + 3 = ops.length →
    ∃ p, t = some p ∧ ((c.heap.lookup p).isPointer = true → i + 3 = ops.length →
      c.currentBb ≠ none → ops[i]?.bind c.getType ≠ none)

/-- A load goes wrong only under its condition. -/
theorem sound_parseLoad (ops : List Nat) : Sound (parseLoad ops) c ↔ c.LoadOk ops := by
  unfold Sound parseLoad Context.LoadOk
  obtain ⟨c₁, hp, ⟨j, h, ht⟩ | ⟨v, t, j, h, hv, ht, -, -⟩⟩ := c.getValueAndType_cases ops 0
  · simp [h, ht]
  · cases t with
    | none => simp [h, ht]
    | some p =>
      simp [h, ht, hp.heap]
      cases c.heap.lookup p with
      | pointer pointee _ =>
        by_cases hlast : j + 3 = ops.length
        · have hj : j < ops.length := by omega
          simp [IRType.isPointer, hlast, hj, hp.currentBb, hp.getType]
        · simp [hlast]
      | _ => simp [IRType.isPointer]

/-- A store needs the type of the pointer. -/
def Context.StoreOk (c : Context) (ops : List Nat) : Prop :=
  ∀ t i, c.typedOperand ops 0 = some (t, i) → ∀ t' j, c.typedOperand ops i = some (t', j) →
    j + 2 = ops.length → t ≠ none

/-- A store goes wrong only under its condition. -/
theorem sound_parseStore (ops : List Nat) : Sound (parseStore ops) c ↔ c.StoreOk ops := by
  unfold Sound parseStore Context.StoreOk
  obtain ⟨c₁, hp, ⟨j, h, ht⟩ | ⟨v, t, j, h, hv, ht, -, -⟩⟩ := c.getValueAndType_cases ops 0
  · simp [h, ht]
  obtain ⟨c₂, -, ⟨j', h', ht'⟩ | ⟨v', t', j', h', -, ht', -, -⟩⟩ := c₁.getValueAndType_cases ops j
  · rw [hp.typedOperand] at ht'
    simp [h, ht, h', ht']
  · rw [hp.typedOperand] at ht'
    cases t <;> simp [h, ht, h', ht', hv]

/-- Instructions without a type are not given an id. -/
theorem sound_parseRet (ops : List Nat) : Sound (parseRet ops) c := by
  unfold Sound parseRet
  cases ops <;> simp

/-- An unreachable record never goes wrong. -/
theorem sound_parseUnreachable : Sound parseUnreachable c := by
  unfold Sound parseUnreachable
  simp

/-- A branch never goes wrong. -/
theorem sound_parseBr (ops : List Nat) : Sound (parseBr ops) c := by
  unfold Sound parseBr
  simp
  grind

/-- An alloca never goes wrong. -/
theorem sound_parseAlloca (ops : List Nat) : Sound (parseAlloca ops) c := by
  unfold Sound parseAlloca
  simp
  omega

/-- A block that is declared is entered. -/
theorem sound_parseDeclareBlocks (ops : List Nat) :
    Sound (parseDeclareBlocks ops) c ↔ ops[0]? ≠ some 0 := by
  unfold Sound parseDeclareBlocks
  cases ops with
  | nil => simp
  | cons count rest =>
    cases count with
    | zero => simp
    | succ n => simp [List.range'_succ]

/-- The values and the blocks of a PHI whose type is missing are there. -/
def Context.IncomingFound (c : Context) : List Nat → Prop
  | v :: b :: rest =>
    (if c.useRelativeId then (c.getValueSigned v).1 else (c.getValue v).1) ≠ none ∧
      c.getBasicBlock b ≠ none ∧ c.IncomingFound rest
  | _ => True

/-- A PHI gets an id when all its values are found. -/
def Context.PhiOk (c : Context) (ops : List Nat) : Prop :=
  c.currentBb ≠ none → c.IncomingFound (ops.drop 1) → ∀ t, ops[0]? = some t → c.getType t ≠ none

/-- A look-up without a type makes no reference. -/
theorem getValue_none (op : Nat) (force : Bool) : (c.getValue op none force).2 = c := by
  unfold Context.getValue Context.getAbsolute
  grind

/-- Neither does a signed look-up. -/
theorem getValueSigned_none (op : Nat) : (c.getValueSigned op none).2 = c := by
  unfold Context.getValueSigned
  grind

/-- The entries of a PHI without a type have to be found. -/
theorem safe_phiIncoming_none {post : List (Value × BlockPtr) → Context → Prop} {p : Prop}
    (hpost : ∀ incoming, post incoming c ↔ p) (ops : List Nat) :
    Safe Stop.IsMisuse (phiIncoming none ops) c post ↔ (c.IncomingFound ops → p) := by
  induction ops using phiIncoming.induct generalizing post with
  | case1 v b rest ih =>
    unfold phiIncoming Context.IncomingFound
    cases hrel : c.useRelativeId with
    | false =>
      cases hv : (c.getValue v).1 with
      | none => simp [hrel, hv]
      | some value =>
        cases hb : c.getBasicBlock b with
        | none => simp [hrel, hv, getValue_none, hb]
        | some bb => simp [hrel, hv, getValue_none, hb, ih fun incoming => hpost _]
    | true =>
      cases hv : (c.getValueSigned v).1 with
      | none => simp [hrel, hv]
      | some value =>
        cases hb : c.getBasicBlock b with
        | none => simp [hrel, hv, getValueSigned_none, hb]
        | some bb => simp [hrel, hv, getValueSigned_none, hb, ih fun incoming => hpost _]
  | case2 ops h =>
    have hempty : phiIncoming none ops = pure [] := by
      unfold phiIncoming
      split
      · exact absurd rfl (h _ _ _)
      · rfl
    have hfound : c.IncomingFound ops := by
      unfold Context.IncomingFound
      split
      · exact absurd rfl (h _ _ _)
      · trivial
    rw [hempty, safe_pure, hpost]
    exact ⟨fun hp _ => hp, fun hp => hp hfound⟩

/-- Reading the entries of a PHI does not go wrong by itself. -/
theorem sound_phiIncoming (type : Option TypePtr) (ops : List Nat) (c : Context) :
    Sound (phiIncoming type ops) c := by
  unfold Sound
  induction ops using phiIncoming.induct generalizing c with
  | case1 v b rest ih =>
    unfold phiIncoming
    cases c.useRelativeId <;> simp [ih]
  | case2 ops h =>
    unfold phiIncoming
    split
    · exact absurd rfl (h _ _ _)
    · trivial

/-- A PHI goes wrong only under its condition. -/
theorem sound_parsePhi (ops : List Nat) : Sound (parsePhi ops) c ↔ c.PhiOk ops := by
  unfold Sound parsePhi Context.PhiOk
  cases ops with
  | nil => simp
  | cons t rest =>
    cases ht : c.getType t with
    | none =>
      simp [ht]
      rw [safe_phiIncoming_none (p := c.currentBb = none) fun _ => Iff.rfl]
      exact ⟨fun h hbb hfound => hbb (h hfound), fun h hfound => by_contra fun hbb => h hbb hfound⟩
    | some p =>
      simp [ht]
      exact sound_phiIncoming _ _ c

/-- The cases of a switch never go wrong. -/
theorem sound_switchCases (type : TypePtr) (ops : List Nat) (c : Context) :
    Sound (switchCases type ops) c := by
  unfold Sound
  induction ops using switchCases.induct generalizing c with
  | case1 v b rest ih =>
    unfold switchCases
    simp [ih]
  | case2 ops h =>
    unfold switchCases
    split
    · exact absurd rfl (h _ _ _)
    · trivial

/-- A condition that is looked up without a type has one. -/
theorem sound_parseSwitch (ops : List Nat) : Sound (parseSwitch ops) c := by
  unfold Sound parseSwitch
  by_cases hlen : 3 ≤ ops.length
  · have h0 : 0 < ops.length := by omega
    have h1 : 1 < ops.length := by omega
    obtain ⟨c₁, -, ⟨hg, -⟩ | ⟨v, p, hg, hv, -⟩⟩ := c.getValue_cases ops[1] none false
    · simp [h0, h1, hg]
      omega
    · simp [h0, h1, hg, hv]
      exact fun h => ⟨h, fun type _ _ _ _ _ => sound_switchCases type _ _⟩
  · simp [hlen]

/-! ## Address computations -/

/-- The type is a pointer. -/
def Context.IsPointer (c : Context) (t : Option TypePtr) : Prop :=
  ∃ p, t = some p ∧ (c.heap.lookup p).isPointer = true

/-- The index of a struct member, as far as it is a constant that is resolved. -/
def Context.memberIndex (c : Context) (arg : Option Value) : Option Nat :=
  (arg.bind c.resolveProxy).bind fun p =>
    match c.object p.1 with
    | .constantInt width value => some (value % 2 ^ width)
    | _ => none

/-- The type an argument of an address computation leads to. -/
def Context.argumentType (c : Context) (p : TypePtr) (arg : Option Value) :
    Option (Option TypePtr) :=
  match c.heap.lookup p with
  | .struct members _ => (c.memberIndex arg).bind fun index => members[index % 2 ^ 32]?
  | .array element _ | .vector _ element => some (some element)
  | _ => none

/-- Every type on the path is there, and the index of a struct member is no forward reference. -/
def Context.ArgumentsOk (c : Context) (last : Option TypePtr → Prop) :
    Option TypePtr → List (Option Value) → Prop
  | t, [] => last t
  | t, arg :: args => ∃ p, t = some p ∧
      (∀ members name, c.heap.lookup p = .struct members name →
        ∀ v, arg = some v → c.resolveProxy v ≠ none) ∧
      ∀ type, c.argumentType p arg = some type → c.ArgumentsOk last type args

/-- An index that is a reference has to be resolved. -/
theorem safe_constantIndex {post : Option Nat → Context → Prop} (arg : Option Value) :
    Safe Stop.IsMisuse (constantIndex arg) c post ↔
      (∀ v, arg = some v → c.resolveProxy v ≠ none) ∧ post (c.memberIndex arg) c := by
  cases arg with
  | none => simp [constantIndex, Context.memberIndex]
  | some v =>
    cases hv : c.resolveProxy v with
    | none => simp [constantIndex, hv]
    | some q =>
      obtain ⟨p, t⟩ := q
      unfold constantIndex Context.memberIndex
      simp only [safe_bind, safe_get, safe_deref, hv, Option.some.injEq,
        exists_eq_left', forall_eq',
        ne_eq, reduceCtorEq, not_false_eq_true, true_and, Option.bind_some]
      cases c.object p <;> simp

/-- The walk along the indices of an address goes wrong only under the condition on its
arguments. -/
theorem safe_resolveGepElementType {post : Option TypePtr → Context → Prop} (hnone : post none c)
    (t : Option TypePtr) (args : List (Option Value)) :
    Safe Stop.IsMisuse (resolveGepElementType t args) c post ↔
      c.ArgumentsOk (fun t => post t c) t args := by
  induction args generalizing t with
  | nil => exact Iff.rfl
  | cons arg args ih =>
    cases t with
    | none => simp [resolveGepElementType, Context.ArgumentsOk]
    | some p =>
      unfold resolveGepElementType Context.ArgumentsOk Context.argumentType
      simp only [safe_bind, safe_typeAt, Option.some.injEq, exists_eq_left']
      cases c.heap.lookup p with
      | struct members name =>
        simp only [safe_bind, safe_constantIndex, IRType.struct.injEq, and_imp,
          forall_apply_eq_imp_iff]
        cases hindex : c.memberIndex arg with
        | none => simp [hnone]
        | some index =>
          simp only [Option.bind_some]
          cases members[index % 2 ^ 32]? with
          | none => simp [hnone]
          | some member => simp [ih]
      | array element n => simp [ih]
      | vector n element => simp [ih]
      | _ => simp [hnone]

/-- Reading the arguments of an address never goes wrong. -/
theorem sound_gepArguments (ops : List Nat) (index fuel : Nat) (c : Context) :
    Sound (gepArguments ops index fuel) c := by
  unfold Sound
  induction fuel generalizing index c with
  | zero => trivial
  | succ fuel ih =>
    unfold gepArguments
    simp [ih]

/-- A cast to a pointer type needs a pointer type. -/
theorem safe_castPointer {post : TypePtr × Nat → Context → Prop} (t : Option TypePtr)
    (hpost : ∀ r, post r c) :
    Safe Stop.IsMisuse (castPointerType t) c post ↔ c.IsPointer t := by
  unfold Context.IsPointer
  cases t with
  | none => simp
  | some p => cases h : c.heap.lookup p <;> simp [h, hpost, IRType.isPointer]

/-- The base of an address computation is a pointer, and every type on the path to the result is
there. -/
def Context.AddressOk (c : Context) (base : Option Value) (t : Option TypePtr)
    (args : List (Option Value)) : Prop :=
  c.ArgumentsOk (fun resolved => resolved ≠ none → c.IsPointer (base.bind Value.getType)) t args

/-- An address goes wrong only where its walk does, or where its base has no pointer type. -/
theorem sound_address {k : TypePtr → TypePtr × Nat → Parser Unit}
    (hk : ∀ resolved pointer, Sound (k resolved pointer) c) (base : Option Value)
    (t : Option TypePtr) (args : List (Option Value)) :
    (Sound (do
      let resolved ← resolveGepElementType t args
      let resolved ← orFalse resolved
      let first ← deref base
      let pointer ← castPointerType first.getType
      k resolved pointer) c) ↔ c.AddressOk base t args := by
  unfold Sound Context.AddressOk
  rw [safe_bind, safe_resolveGepElementType (by simp)]
  refine iff_of_eq
    (congrArg (fun last => c.ArgumentsOk last t args) (funext fun resolved => propext ?_))
  cases resolved with
  | none => simp
  | some type =>
    cases base with
    | none => simp [Context.IsPointer]
    | some value =>
      simp only [safe_bind, safe_orFalse, safe_deref, Option.some.injEq, forall_eq',
        exists_eq_left',
        safe_castPointer value.getType fun r => hk type r, ne_eq, reduceCtorEq, not_false_eq_true,
        forall_const, Option.bind_some]

/-- The arguments of an address computation that are found. -/
def Context.GepOk (c : Context) (ops : List Nat) : Prop :=
  3 ≤ ops.length → ∀ args c₁, gepArguments ops 2 ops.length c = .ok (args, c₁) →
    c₁.AddressOk args.head? (ops[1]?.bind c.getType) ((args.drop 2).map some)

/-- A getelementptr goes wrong only under its condition. -/
theorem sound_parseGep (ops : List Nat) : Sound (parseGep ops) c ↔ c.GepOk ops := by
  unfold Sound parseGep Context.GepOk
  by_cases hlen : 3 ≤ ops.length
  · have h0 : 0 < ops.length := by omega
    have h1 : 1 < ops.length := by omega
    have htype : ops[1]?.bind c.getType = c.getType ops[1] := by
      rw [List.getElem?_eq_getElem h1, Option.bind_some]
    simp only [safe_bind _ (require _), safe_bind _ (opAt _ _), safe_bind _ get,
      safe_bind _ (gepArguments _ _ _), safe_require, safe_opAt, safe_get, hlen, htype,
        forall_const,
      exists_prop_of_true h0, exists_prop_of_true h1]
    rw [safe_iff]
    refine (and_iff_right (sound_gepArguments _ _ _ c)).trans ?_
    refine forall₂_congr fun args c₁ => forall_congr' fun hrun => ?_
    refine sound_address (fun resolved pointer => ?_) _ _ _
    simp
  · simp [hlen]

/-! ## Calls -/

/-- The type is a function type. -/
def Context.IsFunction (c : Context) (t : Option TypePtr) : Prop :=
  ∃ p r ps, t = some p ∧ c.heap.lookup p = .function r ps

/-- The function that a callee stands for, and its type. -/
def Context.callee (c : Context) (id : Nat) : Option (ValuePtr × TypePtr) :=
  ((c.getValue id).1.bind c.resolveProxy).bind fun p =>
    match c.object p.1 with
    | .function functionType .. => some (p.1, functionType)
    | _ => none

/-- The type of a call is a function type, be it explicit or the one of the callee. -/
def Context.CallOk (c : Context) (ops : List Nat) : Prop :=
  ∀ ccInfo, ops[1]? = some ccInfo →
    let index := if ccInfo.testBit 17 then 3 else 2
    if ccInfo.testBit 15 then index < ops.length → c.IsFunction (ops[index]?.bind c.getType)
    else ops.length = index + 1 → c.currentBb ≠ none →
      ∀ f t, ops[index]?.bind c.callee = some (f, t) → c.IsFunction (some t)

/-- Reading the arguments of a call never goes wrong. -/
theorem sound_callArguments (args : List (Nat × Option TypePtr)) (c : Context) :
    Sound (callArguments args) c := by
  unfold Sound
  induction args generalizing c with
  | nil => trivial
  | cons arg args ih =>
    unfold callArguments
    simp [ih]

/-- A value that is looked up without a type is no forward reference. -/
theorem getValue_none_object (op : Nat) (force : Bool) :
    (c.getValue op none force).1 = none ∨ ∃ p t,
      (c.getValue op none force).1 = some (.object p t) := by
  have habs : ∀ op, (c.getAbsolute op none).1 = none ∨
      ∃ p t, (c.getAbsolute op none).1 = some (.object p t) := by
    intro op
    unfold Context.getAbsolute
    split
    · exact .inl rfl
    · split
      · exact .inr ⟨_, _, rfl⟩
      · exact .inl rfl
  unfold Context.getValue
  split <;> exact habs _

/-- The callee is used only when it is a function. -/
theorem safe_functionOf_callee {post : ValuePtr × TypePtr → Context → Prop} (id : Nat) :
    Safe Stop.IsMisuse (functionOf (c.getValue id).1) c post ↔
      ∀ f, c.callee id = some f → post f c := by
  unfold functionOf Context.callee
  rcases getValue_none_object (c := c) id false with h | ⟨p, t, h⟩
  · simp [h]
  · simp only [h, safe_bind, safe_orFalse, Option.some.injEq, forall_eq', safe_get, safe_deref,
      Context.resolveProxy, exists_eq_left', Option.bind_some]
    cases c.object p <;> simp

/-- The flags of fast math take one more operand. -/
theorem safe_callIndex (ops : List Nat) (ccInfo : Nat) {post : Nat → Context → Prop} :
    Safe Stop.IsMisuse (callIndex ops ccInfo) c post ↔
      (ccInfo.testBit 17 = true → 2 < ops.length) →
        post (if ccInfo.testBit 17 then 3 else 2) c := by
  unfold callIndex
  cases ccInfo.testBit 17 <;> simp

/-- An explicit type of a call has to be a function type. -/
theorem safe_callExplicitType (ops : List Nat) (ccInfo index : Nat)
    {post : Option TypePtr → Context → Prop} :
    Safe Stop.IsMisuse (callExplicitType ops ccInfo index) c post ↔
      if ccInfo.testBit 15 then index < ops.length → c.IsFunction (ops[index]?.bind c.getType) ∧
        post (ops[index]?.bind c.getType) c
      else post none c := by
  unfold callExplicitType Context.IsFunction
  cases ccInfo.testBit 15 with
  | false => simp
  | true =>
    by_cases hindex : index < ops.length
    · simp [hindex]
      grind
    · simp [hindex]

/-- Only the type of the callee can be no function type. -/
theorem sound_callCallee (ops : List Nat) (explicitType : Option TypePtr) (index : Nat) :
    Sound (callCallee ops explicitType index) c ↔
      ∀ f t, ops[index]?.bind c.callee = some (f, t) → 
        ops.length = index + 1 → c.currentBb ≠ none →
          c.IsFunction (some (explicitType.getD t)) := by
  unfold Sound callCallee
  by_cases hindex : index < ops.length
  · simp [hindex, getValue_none, safe_functionOf_callee]
    refine forall₂_congr fun f t => forall_congr' fun _ => ?_
    cases ht : c.heap.lookup (explicitType.getD t) with
    | function r ps =>
      have hfunction : c.IsFunction (some (explicitType.getD t)) := ⟨_, r, ps, rfl, ht⟩
      simp only [hfunction, implies_true, iff_true, IRType.returnType, reduceCtorEq,
        not_false_eq_true]
      exact fun _ => sound_callArguments _ c
    | _ =>
      have hother : ¬ c.IsFunction (some (explicitType.getD t)) := by
        rintro ⟨p, r, ps, hp, hlookup⟩
        rw [← Option.some.inj hp, ht] at hlookup
        exact absurd hlookup (by simp)
      simp [IRType.params, IRType.returnType, callArguments, hother]
  · simp [hindex]

/-- A call goes wrong only under its condition. -/
theorem sound_parseCall (ops : List Nat) : Sound (parseCall ops) c ↔ c.CallOk ops := by
  unfold Sound parseCall Context.CallOk
  by_cases hlen : 1 < ops.length
  · have hop : ops[1]? = some ops[1] := List.getElem?_eq_getElem hlen
    have hcallee := fun explicitType index => sound_callCallee (c := c) ops explicitType index
    unfold Sound at hcallee
    simp only [safe_bind, safe_require, safe_opAt, hlen, forall_const, safe_callIndex,
      safe_callExplicitType, hcallee, hop, Option.some.injEq, forall_eq']
    refine exists_true_left.trans ?_
    have hexplicit : ∀ {t : Option TypePtr} (s : TypePtr), c.IsFunction t →
        c.IsFunction (some (t.getD s)) := by
      rintro t s ⟨p, r, ps, rfl, h⟩
      exact ⟨p, r, ps, rfl, h⟩
    have hfast : ∀ n, (if ops[1].testBit 17 then 3 else 2) < n →
        ops[1].testBit 17 = true → 2 < n := by
      intro n hn hbit
      rw [if_pos hbit] at hn
      omega
    generalize (if ops[1].testBit 17 then 3 else 2) = index at hfast ⊢
    cases hbit : ops[1].testBit 15 with
    | true =>
      simp only [↓reduceIte]
      refine ⟨fun h hindex => (h (hfast _ hindex) hindex).1, fun h _ hindex => ⟨h hindex, ?_⟩⟩
      exact fun f t _ _ _ => hexplicit t (h hindex)
    | false =>
      simp only [Bool.false_eq_true, ↓reduceIte, Option.getD_none]
      refine ⟨fun h hindex hbb f t hf => h (hfast _ (by omega)) f t hf hindex hbb, ?_⟩
      exact fun h _ f t hf hindex hbb => h hindex hbb f t hf
  · simp [hlen]

/-! ## Shuffles -/

/-- A mask is a vector that is no forward reference, and data has to be integers. -/
def Context.MaskOk (c : Context) (mask : Value) : Prop :=
  ∃ p t, mask = .object p t ∧ (c.heap.lookup t).isVector = true ∧
    ∀ elements, c.object p = .constantDataVector elements →
      ∀ element ∈ elements, c.constantValue element ≠ none

/-- A shuffle of vectors has a mask that can be read. -/
def Context.ShuffleOk (c : Context) (ops : List Nat) : Prop :=
  ∀ t i, c.typedOperand ops 0 = some (t, i) → c.nextOperand ops i t ≠ none →
    ∀ mask, c.maskOperand ops = some mask →
      ∃ p, t = some p ∧ ((c.heap.lookup p).isVector = true → c.MaskOk mask)

/-- A forward reference is not resolved when it is made. -/
theorem getValueAndType_proxy {ops : List Nat} {index q : Nat} {t : Option TypePtr}
    (h : (c.getValueAndType ops index).1.first = some (.proxy q t)) :
    (c.getValueAndType ops index).2.resolveProxy (.proxy q t) = none := by
  unfold Context.getValueAndType at h ⊢
  cases hop : ops[index]? with
  | none => simp [hop] at h
  | some op =>
    simp only [hop] at h ⊢
    split at h
    · exact absurd (Option.some.inj h) nofun
    · split at h
      · exact absurd h nofun
      · obtain ⟨rfl, -⟩ := Value.proxy.inj (Option.some.inj h)
        simp [Context.resolveProxy, Context.valueProxy, Context.constructProxy]

/-- Each element of an aggregate mask has to have a constant value. -/
theorem safe_maskElements (l : List ValuePtr) (c₀ : Context) {post : List Int → Context → Prop}
    (hpost : ∀ mask, post mask c₀) :
    Safe Stop.IsMisuse (maskElements c l) c₀ post ↔
      ∀ element ∈ l, c.constantValue element ≠ none := by
  induction l generalizing post with
  | nil => simp [maskElements, hpost]
  | cons element rest ih =>
    unfold maskElements maskElement
    have hvalue : ∀ e, c.constantValue e = match c.object e with
      | .constantInt width value => some (getSExtValue width value)
      | _ => none := fun _ => rfl
    rw [safe_bind, List.forall_mem_cons, hvalue element]
    cases c.object element with
    | constantInt width value => simp [ih fun mask => hpost (_ :: mask)]
    | _ => simp

/-- What is left of the record of a shuffle of vectors. -/
theorem safe_shuffleMask {k : TypePtr → List Int → Parser Unit}
    (hk : ∀ result mask c, Sound (k result mask) c) (mask : Value) (element : TypePtr)
    (hproxy : ∀ q t, mask = .proxy q t → c.resolveProxy mask = none) :
    Sound (do
      let vector ← castVectorType mask.getType
      let result ← modifyGet (·.makeType (.vector vector.1 element))
      let elements ← shuffleMask mask
      k result elements) c ↔ c.MaskOk mask := by
  unfold Sound Context.MaskOk
  cases mask with
  | proxy q t =>
    have hnone := hproxy q t rfl
    cases t with
    | none => simp [Value.getType]
    | some t =>
      have hnone' : ∀ new, (c.makeType new).2.resolveProxy (.proxy q (some t)) = none :=
        fun _ => hnone
      simp [Value.getType, shuffleMask, hnone']
  | object p t =>
    simp only [safe_bind, safe_castVectorType, safe_modifyGet, Value.getType, Option.some.injEq]
    cases hvector : c.heap.lookup t with
    | vector size e =>
      have hmade := makeType_lookup (.vector size element) hvector
      generalize hc₁ : c.makeType (.vector size element) = r at hmade
      have hobject : ∀ p, r.2.object p = c.object p := by
        rw [← hc₁]
        exact fun _ => rfl
      have hvalue : ∀ p, r.2.constantValue p = c.constantValue p := by
        rw [← hc₁]
        exact fun _ => rfl
      simp [hvector, shuffleMask, Value.getType, IRType.isVector, hc₁, hmade, Context.resolveProxy,
        hobject]
      generalize c.object p = contents
      cases contents with
      | constantDataVector elements =>
        simp [safe_maskElements elements r.2 fun mask => hk r.1 mask r.2, hvalue]
      | _ => simp [hk]
    | _ => simp [hvector, IRType.isVector]

/-- A shuffle goes wrong only under its condition. -/
theorem sound_parseShuffleVec (ops : List Nat) :
    Sound (parseShuffleVec ops) c ↔ c.ShuffleOk ops := by
  unfold Sound parseShuffleVec Context.ShuffleOk Context.maskOperand
  obtain ⟨c₁, hp, ⟨j, h, ht⟩ | ⟨v, t, j, h, hv, ht, -, -⟩⟩ := c.getValueAndType_cases ops 0
  · simp [h, ht]
  obtain ⟨c₂, hp₂, ⟨k, hn, hnext, -⟩ | ⟨v', p, hn, -, hnext, hlt⟩⟩ := c₁.getNextValue_cases ops j t
  · rw [hp.nextOperand] at hnext
    simp [h, ht, hn, hnext]
  rw [hp.nextOperand] at hnext
  obtain ⟨c₃, hp₃, ⟨k, hm, -⟩ | ⟨mask, t', k, hm, hv', -, -, -⟩⟩ :=
    c₂.getValueAndType_cases ops (j + 1)
  · simp [h, ht, hn, hm]
  cases t with
  | none => simp [h, ht, hn, hnext, hm]
  | some q =>
    have hall := (hp.trans hp₂).trans hp₃
    have hmask : c₃.MaskOk mask ↔ c.MaskOk mask := by
      have hvalue : c₃.constantValue = c.constantValue := by
        funext p
        rw [Context.constantValue, Context.constantValue, hall.object]
      unfold Context.MaskOk
      simp only [hall.heap, hall.object, hvalue]
    simp [h, ht, hn, hnext, hm, hall.heap, ← hmask]
    cases c.heap.lookup q with
    | vector size element =>
      simp only [IRType.isVector, forall_const]
      refine safe_shuffleMask (fun result mask c' => ?_) mask element fun r s hproxy => ?_
      · simp
      · have hfirst : (c₂.getValueAndType ops (j + 1)).1.first = some (.proxy r s) := by
          rw [hm, ← hproxy]
        have hfresh := getValueAndType_proxy hfirst
        rwa [hm, ← hproxy] at hfresh
    | _ => simp [IRType.isVector]

/-! ## Any record -/

/-- When the parser of a record does not go wrong. -/
def Context.RecordOk (c : Context) (entry : BlockOrRecord) : Prop :=
  match FunctionRecord.ofId entry.id with
  | some .declareBlocks => entry.ops[0]? ≠ some 0
  | some .instCall => c.CallOk entry.ops
  | some .instUnop => c.FirstTyped entry.ops fun _ i => i < entry.ops.length
  | some .instCmp | some .instBinop => c.FirstTyped entry.ops fun t i =>
      i + 1 < entry.ops.length ∧ c.nextOperand entry.ops i t ≠ none
  | some .instPhi => c.PhiOk entry.ops
  | some .instAtomicRMW | some .instExtractElt | some .instInsertElt =>
      c.FirstTyped entry.ops fun _ _ => True
  | some .instCmpxchg => c.CmpxchgOk entry.ops
  | some .instSelect => c.SelectOk entry.ops
  | some .instExtractVal => c.ExtractValOk entry.ops
  | some .instGep => c.GepOk entry.ops
  | some .instLoad => c.LoadOk entry.ops
  | some .instStore => c.StoreOk entry.ops
  | some .instShuffleVec => c.ShuffleOk entry.ops
  | some .instRet | some .instUnreachable | some .instCast | some .instBr | some .instSwitch
  | some .instAlloca | none => True

/-- A record of a function goes wrong only under the condition of its kind. -/
theorem sound_parseRecord (entry : BlockOrRecord) (c : Context) :
    Sound (parseRecord entry) c ↔ c.RecordOk entry := by
  unfold parseRecord Context.RecordOk
  cases FunctionRecord.ofId entry.id with
  | none => simp [Sound]
  | some record =>
    cases record with
    | declareBlocks => exact sound_parseDeclareBlocks _
    | instBinop => exact sound_parseBinop _
    | instCast => exact iff_true_intro (sound_parseCast _)
    | instSelect => exact sound_parseSelect _
    | instExtractElt => exact sound_parseExtractElt _
    | instInsertElt => exact sound_parseInsertElt _
    | instShuffleVec => exact sound_parseShuffleVec _
    | instCmp => exact sound_parseCmp _
    | instRet => exact iff_true_intro (sound_parseRet _)
    | instBr => exact iff_true_intro (sound_parseBr _)
    | instSwitch => exact iff_true_intro (sound_parseSwitch _)
    | instUnreachable => exact iff_true_intro sound_parseUnreachable
    | instPhi => exact sound_parsePhi _
    | instAlloca => exact iff_true_intro (sound_parseAlloca _)
    | instLoad => exact sound_parseLoad _
    | instExtractVal => exact sound_parseExtractVal _
    | instCall => exact sound_parseCall _
    | instAtomicRMW => exact sound_parseAtomicRMW _
    | instGep => exact sound_parseGep _
    | instStore => exact sound_parseStore _
    | instCmpxchg => exact sound_parseCmpxchg _
    | instUnop => exact sound_parseUnop _

end DxilSpirv.Bitcode
