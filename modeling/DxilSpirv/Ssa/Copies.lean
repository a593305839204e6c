import DxilSpirv.Ssa.Duplicate

/-!
# Copied operations

The copy of a list of operations runs like the list itself, under new names for the results.
The decorations of the results are passed on to the copies, but those that were passed on are
removed afterwards, and non-uniformity is not passed on at all.
-/

namespace DxilSpirv

/-- The decorations that a copy should have in common with the original. -/
def Decoration.shared : List Decoration := [.noContraction, .fpFastMathMode, .nonUniform]

variable {remap : IdRemap} {x y v : Nat}

/-- A mapped id is remapped. -/
theorem getRemapped_some (h : remap x = some v) :
    getRemappedIdForDuplicatedBlock x remap = v := by
  rw [getRemappedIdForDuplicatedBlock, h]
  rfl

/-- An id without an entry is kept. -/
theorem getRemapped_none (h : remap x = none) : getRemappedIdForDuplicatedBlock x remap = x := by
  rw [getRemappedIdForDuplicatedBlock, h]
  rfl

/-- The id that was just mapped is remapped to its copy. -/
theorem getRemapped_update_self :
    getRemappedIdForDuplicatedBlock x (Function.update remap x (some v)) = v :=
  getRemapped_some (Function.update_self ..)

/-- A new entry changes no other id. -/
theorem getRemapped_update_of_ne (h : x ≠ y) :
    getRemappedIdForDuplicatedBlock x (Function.update remap y (some v)) =
      getRemappedIdForDuplicatedBlock x remap := by
  rw [getRemappedIdForDuplicatedBlock, Function.update_of_ne h]
  rfl

/-- Names below a bound stay below it where the new names do. -/
theorem getRemapped_lt {bound : Nat} (h : ∀ x v, remap x = some v → v < bound) (hx : x < bound) :
    getRemappedIdForDuplicatedBlock x remap < bound := by
  cases hr : remap x with
  | none => rwa [getRemapped_none hr]
  | some v =>
    rw [getRemapped_some hr]
    exact h x v hr

/-- An operand under its new name. -/
def Argument.rename (remap : IdRemap) : Argument → Argument
  | .id i => .id (getRemappedIdForDuplicatedBlock i remap)
  | .literal w => .literal w

/-- An argument that is remapped is the argument under the map. -/
theorem remapArgument_ok {a a' : Argument} (h : remapArgument remap a = .ok a') :
    a' = a.rename remap := by
  cases a with
  | id i =>
    simp only [remapArgument, bind_eq_ok, pure_eq_ok] at h
    obtain ⟨_, -, h⟩ := h
    exact (Except.ok.inj h).symm
  | literal w => exact (Except.ok.inj h).symm

variable {V W : Type}

/-- Two executions of which the second one uses new names; ids from `bound` on are not compared. -/
structure Agrees (bound : Nat) (remap : IdRemap) (a a' : Config V W) : Prop where
  env : ∀ x < bound, a'.env (getRemappedIdForDuplicatedBlock x remap) = a.env x
  memory : a'.memory = a.memory
  trace : a'.trace = a.trace

/-- Operands under new names have the values of the operands. -/
theorem Agrees.values {bound : Nat} {remap : IdRemap} {a a' : Config V W}
    (h : Agrees bound remap a a') {l l' : List Argument}
    (hargs : List.Forall₂ (fun x y => remapArgument remap x = .ok y) l l')
    (hlt : ∀ i, .id i ∈ l → i < bound) :
    l'.map (Argument.value a'.env) = l.map (Argument.value a.env) := by
  induction hargs with
  | nil => rfl
  | cons hxy _ ih =>
    rename_i x y l l' _
    obtain rfl := remapArgument_ok hxy
    rw [List.map_cons, List.map_cons, ih fun i hi => hlt i (List.mem_cons_of_mem _ hi)]
    congr 1
    cases x with
    | id i => exact congrArg Sum.inl (h.env i (hlt i (List.mem_cons_self ..)))
    | literal w => rfl

/-- Operations write their results only. -/
theorem run_env_of_ne (machine : Machine V W) {ops : List Operation} {x : Nat}
    (h : ∀ op ∈ ops, op.id ≠ 0 → x ≠ op.id) (a : Config V W) :
    (machine.run ops a).env x = a.env x := by
  induction ops generalizing a with
  | nil => rfl
  | cons op ops ih =>
    rw [Machine.run, List.foldl_cons]
    refine (ih (fun o ho => h o (List.mem_cons_of_mem _ ho)) (machine.step a op)).trans ?_
    rw [Machine.step]
    split
    · rfl
    · rename_i hid
      exact Function.update_of_ne (h op (List.mem_cons_self ..) hid) _ _

/-- Running on after a prefix. -/
theorem run_append (machine : Machine V W) (ops ops' : List Operation) (a : Config V W) :
    machine.run (ops ++ ops') a = machine.run ops' (machine.run ops a) :=
  List.foldl_append

/-- One operation and its copy, whose result has the name `fresh`. -/
theorem Agrees.step {bound fresh : Nat} {remap : IdRemap} {a a' : Config V W}
    (h : Agrees bound remap a a') (machine : Machine V W) {op dup : Operation}
    (hop : dup.op = op.op) (htype : dup.typeId = op.typeId)
    (hargs : List.Forall₂ (fun x y => remapArgument remap x = .ok y) op.arguments dup.arguments)
    (hlt : ∀ i, .id i ∈ op.arguments → i < bound) (hid : dup.id = if op.id = 0 then 0 else fresh)
    (hfresh : bound ≤ fresh) (hpos : 0 < fresh) (hrange : ∀ x v, remap x = some v → v < fresh) :
    Agrees bound (if op.id = 0 then remap else Function.update remap op.id (some fresh))
      (machine.step a op) (machine.step a' dup) := by
  have hvalues := h.values hargs hlt
  have hresult : machine.exec dup.op dup.typeId (dup.arguments.map (Argument.value a'.env))
      a'.memory =
      machine.exec op.op op.typeId (op.arguments.map (Argument.value a.env)) a.memory := by
    rw [hop, htype, hvalues, h.memory]
  refine ⟨?_, congrArg Prod.snd hresult, ?_⟩
  · intro x hx
    simp only [Machine.step, hresult, hid]
    by_cases hop0 : op.id = 0
    · simp only [if_pos hop0, if_pos]
      exact h.env x hx
    · have hne : fresh ≠ 0 := Nat.ne_of_gt hpos
      simp only [if_neg hop0, if_neg hne]
      by_cases hxo : x = op.id
      · subst hxo
        rw [getRemapped_update_self, Function.update_self, Function.update_self]
      · have hlt' := getRemapped_lt hrange (Nat.lt_of_lt_of_le hx hfresh)
        rw [getRemapped_update_of_ne hxo, Function.update_of_ne (Nat.ne_of_lt hlt'),
          Function.update_of_ne hxo]
        exact h.env x hx
  · simp only [Machine.step, hop, htype, hvalues, h.trace]

variable (m : SpirvModule) (op dup : Operation) (d d' : Decoration) (operands : List (BitVec 32))
  (x)

/-- A decoration is copied without an id of its own. -/
theorem copyDecoration_nextId : (copyDecoration m op dup d operands).1.nextId = m.nextId := by
  unfold copyDecoration
  split <;> rfl

/-- The copy has the decoration exactly if the original has it. -/
theorem hasDecoration_copyDecoration :
    (copyDecoration m op dup d operands).1.hasDecoration x d' =
      (m.hasDecoration x d' || (m.hasDecoration op.id d && (dup.id = x && d.code = d'.code))) := by
  unfold copyDecoration
  split
  · rename_i h
    rw [SpirvModule.hasDecoration_addDecoration, h, Bool.true_and]
  · rename_i h
    rw [Bool.not_eq_true] at h
    rw [h, Bool.false_and, Bool.or_false]

/-- A decoration that is copied is to be removed from the original. -/
theorem copyDecoration_removed : (copyDecoration m op dup d operands).2 =
    if m.hasDecoration op.id d then [op.id] else [] := by
  unfold copyDecoration
  split <;> rfl

/-- A copied decoration is one of the new operation and no member's. -/
theorem mem_copyDecoration {i : DecorationInst}
    (h : i ∈ (copyDecoration m op dup d operands).1.decorations) :
    i ∈ m.decorations ∨ (i.member = none ∧ i.target = dup.id ∧ m.hasDecoration op.id d = true) := by
  unfold copyDecoration at h
  split at h
  · rename_i hd
    rcases List.mem_append.mp h with h | h
    · exact .inl h
    · obtain rfl := List.mem_singleton.mp h
      exact .inr ⟨rfl, rfl, hd⟩
  · exact .inl h

/-- To draw a result decorates nothing. -/
theorem hasDecoration_of_allocateResult :
    (allocateResult m op).1.hasDecoration x d = m.hasDecoration x d := by
  unfold allocateResult
  split <;> rfl

/-- What copying one operation does to the state. -/
structure CopiedOne (s : CopyState) (op dup : Operation) (s' : CopyState) : Prop where
  operations : s'.operations = s.operations ++ [dup]
  opcode : dup.op = op.op
  typeId : dup.typeId = if op.id = 0 then 0 else op.typeId
  id : dup.id = if op.id = 0 then 0 else s.m.nextId
  arguments : List.Forall₂ (fun x y => remapArgument s.remap x = .ok y) op.arguments dup.arguments
  remap : s'.remap =
    if op.id = 0 then s.remap else Function.update s.remap op.id (some s.m.nextId)
  nextId : s'.m.nextId = if op.id = 0 then s.m.nextId else s.m.nextId + 1
  decorated : ∀ x d, s'.m.hasDecoration x d = (s.m.hasDecoration x d ||
    (dup.id = x && ((s.m.hasDecoration op.id .noContraction && d.code = 42) ||
      (s.m.hasDecoration op.id .fpFastMathMode && d.code = 40))))
  plain : ∀ i ∈ s'.m.decorations, i ∈ s.m.decorations ∨ (i.member = none ∧ i.target = dup.id ∧
    (s.m.hasDecoration op.id .noContraction = true ∨
      s.m.hasDecoration op.id .fpFastMathMode = true))
  removed : ∀ x, x ∈ s'.removed ↔ x ∈ s.removed ∨ (x = op.id ∧
    (s.m.hasDecoration x .noContraction = true ∨ s.m.hasDecoration x .fpFastMathMode = true))

/-- A copy that succeeds has copied the operation. -/
theorem copyOperation_ok {s s' : CopyState} {op : Operation} (h : copyOperation s op = .ok s') :
    ∃ dup, CopiedOne s op dup s' := by
  simp only [copyOperation, duplicateOp, bind_eq_ok, pure_eq_ok] at h
  obtain ⟨⟨m₁, dup, remap₁⟩, ⟨args, hargs, hdup⟩, h⟩ := h
  obtain ⟨rfl, rfl, rfl⟩ : _ ∧ _ ∧ _ := by simpa only [Except.ok.injEq, Prod.mk.injEq] using hdup
  obtain rfl := Except.ok.inj h
  -- the second decoration is read after the first one was passed on
  have hsecond : ∀ dup : Operation, (copyDecoration (allocateResult s.m op).1 op dup .noContraction
      []).1.hasDecoration op.id .fpFastMathMode = s.m.hasDecoration op.id .fpFastMathMode := by
    intro dup
    rw [hasDecoration_copyDecoration, hasDecoration_of_allocateResult]
    simp [Decoration.code]
  refine ⟨_, rfl, rfl, rfl, ?_, forall₂_of_mapM hargs, ?_, ?_, ?_, ?_, ?_⟩
  · unfold allocateResult
    split <;> rfl
  · unfold allocateResult
    split <;> rfl
  · dsimp only
    rw [copyDecoration_nextId, copyDecoration_nextId]
    unfold allocateResult
    split <;> rfl
  · intro x d
    dsimp only
    rw [hasDecoration_copyDecoration, hsecond, hasDecoration_copyDecoration,
      hasDecoration_of_allocateResult, hasDecoration_of_allocateResult]
    simp only [Decoration.code]
    grind
  · intro i hi
    rcases mem_copyDecoration _ _ _ _ _ hi with hi | ⟨hm, ht, hd⟩
    · rcases mem_copyDecoration _ _ _ _ _ hi with hi | ⟨hm, ht, hd⟩
      · left
        unfold allocateResult at hi
        split at hi <;> exact hi
      · rw [hasDecoration_of_allocateResult] at hd
        exact .inr ⟨hm, ht, .inl hd⟩
    · rw [hsecond] at hd
      exact .inr ⟨hm, ht, .inr hd⟩
  · intro x
    dsimp only
    rw [copyDecoration_removed, copyDecoration_removed, hsecond, hasDecoration_of_allocateResult,
      List.mem_append, List.mem_append]
    by_cases hn : s.m.hasDecoration op.id .noContraction = true <;>
      by_cases hf : s.m.hasDecoration op.id .fpFastMathMode = true <;>
      by_cases hx : x = op.id <;> simp [hn, hf, hx]

/-- What the copy of an operation is, and which decorations it has in the module `m'`; ids below
`bound` were handed out before. -/
structure IsCopy (m m' : SpirvModule) (bound : Nat) (op dup : Operation) : Prop where
  opcode : dup.op = op.op
  typeId : dup.typeId = op.typeId
  id_zero : op.id = 0 → dup.id = 0
  id_fresh : op.id ≠ 0 → bound ≤ dup.id ∧ dup.id < m'.nextId
  decorations : ∀ d ∈ Decoration.shared,
    m'.hasDecoration dup.id d = (m.hasDecoration op.id d && d ≠ .nonUniform)

/-- Well-formed operations: their ids were handed out, and only results have a type. -/
structure Operation.WellFormed (m : SpirvModule) (op : Operation) : Prop where
  id_lt : op.id < m.nextId
  arguments_lt : ∀ i, .id i ∈ op.arguments → i < m.nextId
  arguments_ne : ∀ i, .id i ∈ op.arguments → i ≠ 0
  typeId : op.id = 0 → op.typeId = 0

/-- A well-formed operation stays so when ids are drawn. -/
theorem Operation.WellFormed.mono {op : Operation} {m m' : SpirvModule} (h : op.WellFormed m)
    (hle : m.nextId ≤ m'.nextId) : op.WellFormed m' where
  id_lt := Nat.lt_of_lt_of_le h.id_lt hle
  arguments_lt i hi := Nat.lt_of_lt_of_le (h.arguments_lt i hi) hle
  arguments_ne := h.arguments_ne
  typeId := h.typeId

/-- Well-formed decorations: of ids that were handed out, and members of types only. -/
structure SpirvModule.Decorates (m : SpirvModule) (ops : List Operation) :
    Prop extends m.Fresh where
  pos : 0 < m.nextId
  zero : ∀ d, m.hasDecoration 0 d = false
  member : ∀ i ∈ m.decorations, ∀ op ∈ ops, op.id = i.target → i.member = none

/-- The state after the operations in `done` were copied. -/
structure CopiedUpTo (m : SpirvModule) (remap : IdRemap) (done : List Operation) (s : CopyState) :
    Prop extends s.m.Fresh where
  le : m.nextId ≤ s.m.nextId
  remap_lt : ∀ x v, s.remap x = some v → v < s.m.nextId
  plain : ∀ i ∈ s.m.decorations, i ∈ m.decorations ∨ (i.member = none ∧ m.nextId ≤ i.target)
  old : ∀ x < m.nextId, ∀ d, s.m.hasDecoration x d = m.hasDecoration x d
  removed : ∀ x, x ∈ s.removed ↔ x ∈ done.map (·.id) ∧
    (m.hasDecoration x .noContraction = true ∨ m.hasDecoration x .fpFastMathMode = true)
  copies : List.Forall₂ (IsCopy m s.m m.nextId) done s.operations
  agrees : ∀ {V W : Type} (machine : Machine V W) {a a' : Config V W},
    Agrees m.nextId remap a a' →
      Agrees m.nextId s.remap (machine.run done a) (machine.run s.operations a')

/-- Before the first operation nothing is copied. -/
theorem CopiedUpTo.refl {m : SpirvModule} {remap : IdRemap} (h : m.Fresh)
    (hremap : ∀ x v, remap x = some v → v < m.nextId) :
    CopiedUpTo m remap [] { m, remap } where
  toFresh := h
  le := Nat.le_refl _
  remap_lt := hremap
  plain _ hi := .inl hi
  old _ _ _ := rfl
  removed x := by simp
  copies := .nil
  agrees _ _ _ h := h

/-- The ids that the copy of one operation is mapped to are below the next one. -/
theorem CopiedOne.remap_lt {s s' : CopyState} {op dup : Operation} (h : CopiedOne s op dup s')
    (hlt : ∀ x v, s.remap x = some v → v < s.m.nextId) :
    ∀ x v, s'.remap x = some v → v < s'.m.nextId := by
  intro x v hv
  rw [h.remap] at hv
  rw [h.nextId]
  split at hv
  · rename_i h0
    rw [if_pos h0]
    exact hlt x v hv
  · rename_i h0
    rw [if_neg h0]
    rw [Function.update_apply] at hv
    split at hv
    · cases hv
      exact Nat.lt_succ_self _
    · exact Nat.lt_succ_of_lt (hlt x v hv)

/-- The type of the copy is that of the operation. -/
theorem CopiedOne.typeId_eq {m : SpirvModule} {s s' : CopyState} {op dup : Operation}
    (h : CopiedOne s op dup s') (hop : op.WellFormed m) : dup.typeId = op.typeId := by
  rw [h.typeId]
  split
  · rename_i h0
    exact (hop.typeId h0).symm
  · rfl

/-- What the operation is decorated with when its turn comes, it was decorated with before. -/
theorem CopiedUpTo.reads {m : SpirvModule} {remap : IdRemap} {done : List Operation}
    {s : CopyState} {op : Operation} (h : CopiedUpTo m remap done s) (hop : op.WellFormed m)
    (d : Decoration) : s.m.hasDecoration op.id d = m.hasDecoration op.id d :=
  h.old op.id hop.id_lt d

/-- Ids that were handed out before have the decorations they had. -/
theorem CopiedUpTo.keeps {m : SpirvModule} {remap : IdRemap} {done : List Operation}
    {s s' : CopyState} {op dup : Operation} (h : CopiedUpTo m remap done s)
    (hone : CopiedOne s op dup s') (hop : op.WellFormed m)
    (hzero : ∀ d, m.hasDecoration 0 d = false) {x : Nat} (hx : x < s.m.nextId) (d : Decoration) :
    s'.m.hasDecoration x d = s.m.hasDecoration x d := by
  rw [hone.decorated, hone.id]
  by_cases h0 : op.id = 0
  · rw [h.reads hop, h.reads hop, h0, hzero, hzero]
    simp
  · have hne : s.m.nextId ≠ x := Nat.ne_of_gt hx
    simp [h0, hne]

/-- A decoration of a copy targets the id that was drawn for it. -/
theorem CopiedUpTo.target {m : SpirvModule} {remap : IdRemap} {done : List Operation}
    {s s' : CopyState} {op dup : Operation} (h : CopiedUpTo m remap done s)
    (hone : CopiedOne s op dup s') (hop : op.WellFormed m)
    (hzero : ∀ d, m.hasDecoration 0 d = false)
    (hd : s.m.hasDecoration op.id .noContraction = true ∨
      s.m.hasDecoration op.id .fpFastMathMode = true) :
    dup.id = s.m.nextId ∧ s'.m.nextId = s.m.nextId + 1 := by
  have h0 : op.id ≠ 0 := by
    intro h0
    rw [h.reads hop, h.reads hop, h0, hzero, hzero] at hd
    simp at hd
  rw [hone.id, hone.nextId, if_neg h0, if_neg h0]
  exact ⟨rfl, rfl⟩

/-- The copy of one operation is a copy. -/
theorem CopiedUpTo.isCopy {m : SpirvModule} {remap : IdRemap} {done : List Operation}
    {s s' : CopyState} {op dup : Operation} (h : CopiedUpTo m remap done s)
    (hone : CopiedOne s op dup s') (hop : op.WellFormed m) (hpos : 0 < m.nextId)
    (hzero : ∀ d, m.hasDecoration 0 d = false) : IsCopy m s'.m m.nextId op dup := by
  refine ⟨hone.opcode, hone.typeId_eq hop, ?_, ?_, ?_⟩
  · intro h0
    rw [hone.id, if_pos h0]
  · intro h0
    rw [hone.id, hone.nextId, if_neg h0, if_neg h0]
    exact ⟨h.le, Nat.lt_succ_self _⟩
  · intro d hd
    rw [hone.decorated, h.reads hop, h.reads hop]
    by_cases h0 : op.id = 0
    · rw [hone.id, if_pos h0, h.old 0 hpos, h0, hzero, hzero, hzero]
      simp
    · rw [h.toFresh.hasDecoration (by rw [hone.id, if_neg h0])]
      simp only [Decoration.shared, List.mem_cons, List.not_mem_nil, or_false] at hd
      rcases hd with rfl | rfl | rfl <;> simp [Decoration.code]

/-- One more operation. -/
theorem CopiedUpTo.step {m : SpirvModule} {remap : IdRemap} {done : List Operation}
    {s s' : CopyState} {op : Operation} (h : CopiedUpTo m remap done s) (hop : op.WellFormed m)
    (hpos : 0 < m.nextId) (hzero : ∀ d, m.hasDecoration 0 d = false)
    (hok : copyOperation s op = .ok s') : CopiedUpTo m remap (done ++ [op]) s' := by
  obtain ⟨dup, hone⟩ := copyOperation_ok hok
  have hnext : s.m.nextId ≤ s'.m.nextId := by
    rw [hone.nextId]
    split <;> omega
  refine ⟨⟨?_⟩, Nat.le_trans h.le hnext, hone.remap_lt h.remap_lt, ?_, ?_, ?_, ?_, ?_⟩
  · intro i hi
    rcases hone.plain i hi with hi | ⟨-, ht, hd⟩
    · exact Nat.lt_of_lt_of_le (h.lt i hi) hnext
    · obtain ⟨hid, hsucc⟩ := h.target hone hop hzero hd
      rw [ht, hid, hsucc]
      exact Nat.lt_succ_self _
  · intro i hi
    rcases hone.plain i hi with hi | ⟨hm, ht, hd⟩
    · exact h.plain i hi
    · refine .inr ⟨hm, ?_⟩
      rw [ht, (h.target hone hop hzero hd).1]
      exact h.le
  · intro x hx d
    rw [h.keeps hone hop hzero (Nat.lt_of_lt_of_le hx h.le), h.old x hx]
  · intro x
    rw [hone.removed, h.removed, List.map_append, List.mem_append]
    simp only [List.map_cons, List.map_nil, List.mem_singleton]
    by_cases hx : x = op.id
    · subst hx
      simp only [h.reads hop, true_and]
      grind
    · simp [hx]
  · rw [hone.operations]
    refine List.rel_append ?_ (.cons (h.isCopy hone hop hpos hzero) .nil)
    refine h.copies.imp fun o o' ho => ?_
    refine ⟨ho.opcode, ho.typeId, ho.id_zero, fun h0 => ?_, fun d hd => ?_⟩
    · exact ⟨(ho.id_fresh h0).1, Nat.lt_of_lt_of_le (ho.id_fresh h0).2 hnext⟩
    · rw [h.keeps hone hop hzero, ho.decorations d hd]
      by_cases h0 : o.id = 0
      · rw [ho.id_zero h0]
        exact Nat.lt_of_lt_of_le hpos h.le
      · exact (ho.id_fresh h0).2
  · intro V W machine a a' hagree
    rw [hone.operations, run_append, run_append, hone.remap]
    exact (h.agrees machine hagree).step machine hone.opcode (hone.typeId_eq hop) hone.arguments
      hop.arguments_lt hone.id h.le (Nat.lt_of_lt_of_le hpos h.le) h.remap_lt

/-- All operations of a block are copied. -/
theorem copyOperations_ok {m : SpirvModule} {remap : IdRemap} {ops : List Operation}
    {s : CopyState} (hm : m.Decorates ops) (hops : ∀ op ∈ ops, op.WellFormed m)
    (hremap : ∀ x v, remap x = some v → v < m.nextId)
    (h : ops.foldlM copyOperation { m, remap } = .ok s) : CopiedUpTo m remap ops s := by
  suffices hgen : ∀ (rest done : List Operation) (s₁ : CopyState), ops = done ++ rest →
      CopiedUpTo m remap done s₁ → rest.foldlM copyOperation s₁ = .ok s →
      CopiedUpTo m remap ops s from
    hgen ops [] _ rfl (.refl hm.toFresh hremap) h
  intro rest
  induction rest with
  | nil =>
    intro done s₁ hdone hcopied h
    obtain rfl := Except.ok.inj h
    rw [List.append_nil] at hdone
    exact hdone ▸ hcopied
  | cons op rest ih =>
    intro done s₁ hdone hcopied h
    rw [List.foldlM_cons, bind_eq_ok] at h
    obtain ⟨s₂, hstep, h⟩ := h
    have hop := hops op (by simp [hdone])
    exact ih (done ++ [op]) s₂ (by rw [hdone, List.append_assoc]; rfl)
      (hcopied.step hop hm.pos hm.zero hstep) h

/-- Removing decorations from ids that are no types. -/
theorem hasDecoration_removeDecorations {m : SpirvModule} {ids : List Nat} {x : Nat}
    (h : x ∈ ids → ∀ i ∈ m.decorations, i.target = x → i.member = none) (d : Decoration) :
    (m.removeDecorations ids).hasDecoration x d = (m.hasDecoration x d && x ∉ ids) := by
  rw [Bool.eq_iff_iff]
  simp only [SpirvModule.hasDecoration, SpirvModule.removeDecorations, List.any_eq_true,
    List.mem_filter, Bool.and_eq_true, decide_eq_true_eq, not_and]
  constructor
  · rintro ⟨i, ⟨hi, hkeep⟩, rfl, hd⟩
    exact ⟨⟨i, hi, rfl, hd⟩, fun hmem => hkeep (h hmem i hi rfl) hmem⟩
  · rintro ⟨⟨i, hi, rfl, hd⟩, hnot⟩
    exact ⟨i, ⟨hi, fun _ => hnot⟩, rfl, hd⟩

/-- The module after the decorations that were passed on are removed. -/
structure PassedOn (m : SpirvModule) (ops dups : List Operation) (m' : SpirvModule) : Prop
    extends m'.Decorates ops where
  le : m.nextId ≤ m'.nextId
  old : ∀ x < m.nextId, x ∉ ops.map (·.id) → ∀ d, m'.hasDecoration x d = m.hasDecoration x d
  dropped : ∀ op ∈ ops, m'.hasDecoration op.id .noContraction = false ∧
    m'.hasDecoration op.id .fpFastMathMode = false
  zero_old : ∀ x < m.nextId, ∀ d, m.hasDecoration x d = false → m'.hasDecoration x d = false
  copies : List.Forall₂ (IsCopy m m' m.nextId) ops dups

/-- When all is copied and the originals lose them, the decorations are passed on. -/
theorem CopiedUpTo.passedOn {m : SpirvModule} {remap : IdRemap} {ops : List Operation}
    {s : CopyState} (h : CopiedUpTo m remap ops s) (hm : m.Decorates ops)
    (hops : ∀ op ∈ ops, op.WellFormed m) :
    PassedOn m ops s.operations (s.m.removeDecorations s.removed) := by
  have hmember : ∀ i ∈ s.m.decorations, ∀ op ∈ ops, op.id = i.target → i.member = none := by
    intro i hi op hop ht
    rcases h.plain i hi with hi | ⟨hnone, -⟩
    · exact hm.member i hi op hop ht
    · exact hnone
  have hremoved : ∀ x ∈ s.removed, ∃ op ∈ ops, op.id = x := by
    intro x hx
    obtain ⟨op, hop, hid⟩ := List.mem_map.mp ((h.removed x).mp hx).1
    exact ⟨op, hop, hid⟩
  have hrem : ∀ x d, (s.m.removeDecorations s.removed).hasDecoration x d =
      (s.m.hasDecoration x d && x ∉ s.removed) := by
    intro x d
    refine hasDecoration_removeDecorations (fun hx i hi ht => ?_) d
    obtain ⟨op, hop, rfl⟩ := hremoved x hx
    exact hmember i hi op hop ht.symm
  have hnotMem : ∀ x, m.nextId ≤ x → x ∉ s.removed := by
    intro x hx hmem
    obtain ⟨op, hop, rfl⟩ := hremoved x hmem
    have := (hops op hop).id_lt
    omega
  have hzero : 0 ∉ s.removed := by
    intro hmem
    have := ((h.removed 0).mp hmem).2
    simp [hm.zero] at this
  have hdrop : ∀ x < m.nextId, ∀ d, m.hasDecoration x d = false →
      (s.m.removeDecorations s.removed).hasDecoration x d = false := by
    intro x hx d hd
    rw [hrem, h.old x hx, hd, Bool.false_and]
  refine
    { lt := fun i hi => h.lt i (List.mem_of_mem_filter hi)
      pos := Nat.lt_of_lt_of_le hm.pos h.le
      zero := fun d => hdrop 0 hm.pos d (hm.zero d)
      member := fun i hi => hmember i (List.mem_of_mem_filter hi)
      le := h.le
      old := ?_
      dropped := ?_
      zero_old := hdrop
      copies := ?_ }
  · intro x hx hnot d
    have hkeep : x ∉ s.removed := fun hmem => hnot ((h.removed x).mp hmem).1
    rw [hrem, h.old x hx]
    simp [hkeep]
  · intro op hop
    have hmem : (m.hasDecoration op.id .noContraction = true ∨
        m.hasDecoration op.id .fpFastMathMode = true) → op.id ∈ s.removed :=
      fun hd => (h.removed op.id).mpr ⟨List.mem_map_of_mem hop, hd⟩
    have hold := h.old op.id (hops op hop).id_lt
    rw [hrem, hrem, hold, hold]
    by_cases hin : op.id ∈ s.removed
    · simp [hin]
    · obtain ⟨hnc, hfp⟩ := not_or.mp fun hd => hin (hmem hd)
      rw [Bool.not_eq_true] at hnc hfp
      rw [hnc, hfp]
      exact ⟨rfl, rfl⟩
  · refine h.copies.imp fun op dup hcopy => ?_
    refine ⟨hcopy.opcode, hcopy.typeId, hcopy.id_zero, hcopy.id_fresh, fun d hd => ?_⟩
    have hkeep : dup.id ∉ s.removed := by
      by_cases h0 : op.id = 0
      · rw [hcopy.id_zero h0]
        exact hzero
      · exact hnotMem _ (hcopy.id_fresh h0).1
    rw [hrem, hcopy.decorations d hd]
    simp [hkeep]

end DxilSpirv
