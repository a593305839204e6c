import DxilSpirv.Convert.SameFlow
import DxilSpirv.Graph.Parented
import Mathlib.Data.Finset.Card

/-!
# The order in which instructions are analysed and emitted

Blocks are analysed in reverse post order and emitted breadth first, both without the edges that are
known not to be taken. Handles can be sunk: they are left out where they are created and emitted in
front of every block that uses them.
-/

namespace DxilSpirv.VisitOrder

open DxilSpirv.Graph DxilSpirv.Converter

/-- What an instruction is, as far as the order of emission depends on it. -/
inductive Kind
  /-- A call that creates or annotates a handle. -/
  | handle
  /-- A call of another DXIL operation. -/
  | dxOp
  | other
  deriving DecidableEq

/-- An instruction that is neither a PHI nor a terminator. -/
structure Instruction where
  value : Nat
  operands : List Nat
  kind : Kind
  deriving DecidableEq

/-- A function with the instructions of its blocks. -/
structure Function extends LlvmFunction where
  body : Nat → List Instruction
  returnValue : Nat → Option Nat

section Form

variable (F : Function)

/-- A branch of the function. -/
def Branches (a b : Nat) : Prop := b ∈ (F.terminator a).succs

/-- The values that a block defines. -/
def definedIn (b : Nat) : List Nat := (F.phis b).map (·.value) ++ (F.body b).map (·.value)

/-- The values that a terminator reads. -/
def terminatorOperands (b : Nat) : List Nat :=
  match F.terminator b with
  | .condBr c _ _ => [c]
  | .switch _ c _ _ => [c]
  | .ret => (F.returnValue b).toList
  | _ => []

/-- A value may be used after some instructions of a block: it is no value of a block, or a PHI of
the block, or one of these instructions defines it, or a dominator does. -/
def Available (b : Nat) (before : List Instruction) (v : Nat) : Prop :=
  (∀ a < F.size, v ∉ definedIn F a) ∨ v ∈ (F.phis b).map (·.value) ∨ v ∈ before.map (·.value) ∨
    ∃ a < F.size, a ≠ b ∧ v ∈ definedIn F a ∧ Dominates (Branches F) F.entry a b

/-- Static single assignment form. -/
structure SsaForm : Prop where
  wellFormed : F.WellFormed
  nodup : ∀ b < F.size, (definedIn F b).Nodup
  unique : ∀ a < F.size, ∀ b < F.size, ∀ v ∈ definedIn F a, v ∈ definedIn F b → a = b
  available : ∀ b < F.size, ∀ before op after, F.body b = before ++ op :: after →
    ∀ v ∈ op.operands, Available F b before v
  available_terminator : ∀ b < F.size, ∀ v ∈ terminatorOperands F b, Available F b (F.body b) v

end Form

/-- What the analysis knows about handles. -/
structure Sinks where
  /-- `resource_handle_to_block`. -/
  handleToBlock : List (Instruction × Nat) := []
  /-- `resource_handles_needing_sink`. -/
  needingSink : Finset Nat := ∅
  /-- `resource_handle_is_conservative`. -/
  conservative : Finset Nat := ∅
  /-- `bb_to_sinks`. -/
  bbToSinks : Nat → List Instruction := fun _ => []

/-- What is looked at in a block: the use of a value by a DXIL operation, or a handle. -/
inductive Item
  | use (v : Nat)
  | define (h : Instruction)

/-- A turn of the loop in `analyze_descriptor_handle_sink`. -/
def useHandle (bb : Nat) (s : Sinks) (v : Nat) : Sinks :=
  match s.handleToBlock.find? (·.1.value == v) with
  | none => s
  | some (call, origBb) =>
    if v ∉ s.conservative ∧ origBb ≠ bb then
      { s with
        needingSink := insert v s.needingSink
        bbToSinks := Function.update s.bbToSinks bb
          (if call ∈ s.bbToSinks bb then s.bbToSinks bb else s.bbToSinks bb ++ [call]) }
    else { s with conservative := insert v s.conservative }

/-- One thing of a block. -/
def analyzeItem (s : Sinks) (item : Nat × Item) : Sinks :=
  match item.2 with
  | .use v => useHandle item.1 s v
  | .define h => { s with handleToBlock := (h, item.1) :: s.handleToBlock }

/-- `analyze_dxil_instruction_primary_pass`: the operands, then the handle itself. -/
def instructionItems (op : Instruction) : List Item :=
  match op.kind with
  | .handle => op.operands.map .use ++ [.define op]
  | .dxOp => op.operands.map .use
  | .other => []

/-- Everything that is looked at, in order. -/
def items (F : Function) (order : List Nat) : List (Nat × Item) :=
  order.flatMap fun b => ((F.body b).flatMap instructionItems).map (b, ·)

/-- The sinks that are found; none without the option `descriptor_qa_sink_handles`. -/
def analyzeSinks (sinkHandles : Bool) (F : Function) (order : List Nat) : Sinks :=
  if sinkHandles then (items F order).foldl analyzeItem {} else {}

/-- A thing that is emitted. -/
inductive Event
  | phi (value : Nat)
  | instruction (op : Instruction)
  | terminator (b : Nat)

/-- The value that is defined. -/
def Event.value : Event → Option Nat
  | phi value => some value
  | instruction op => some op.value
  | terminator _ => none

/-- The operands, other than those of PHIs. -/
def Event.operands (F : Function) : Event → List Nat
  | phi _ => []
  | instruction op => op.operands
  | terminator b => terminatorOperands F b

/-- The PHIs and the instructions of a block. -/
def analysedEvents (F : Function) (b : Nat) : List Event :=
  (F.phis b).map (fun phi => .phi phi.value) ++ (F.body b).map .instruction

/-- A turn of the loop in `convert_function`: sinks, instructions, terminator. -/
def blockEvents (F : Function) (sinks : Nat → List Instruction) (b : Nat) : List Event :=
  (sinks b).map .instruction ++ (analysedEvents F b ++ [.terminator b])

/-- Handles that need a sink are left out when they come first. -/
def emitEvents : Finset Nat → List Event → List Event
  | _, [] => []
  | needing, .instruction op :: events =>
    if op.kind = .handle ∧ op.value ∈ needing then emitEvents (needing.erase op.value) events
    else .instruction op :: emitEvents needing events
  | needing, event :: events => event :: emitEvents needing events

variable (sinkHandles : Bool) (static : Nat → Option Bool) (F : Function)

/-- `convert_function`. -/
def emission (order : List Nat) : List Event :=
  let s := analyzeSinks sinkHandles F (buildFunctionBbVisitOrderAnalysis static F.toLlvmFunction)
  emitEvents s.needingSink (order.flatMap (blockEvents F s.bbToSinks))

/-- The loop over the blocks in `analyze_instructions`. -/
def analysis (order : List Nat) : List Event := order.flatMap (analysedEvents F)

/-- Every block that control can get to, once and after its dominators. -/
structure IsVisitOrder (order : List Nat) : Prop where
  nodup : order.Nodup
  mem : ∀ b, b ∈ order ↔ Reached static F.toLlvmFunction b
  dominators : ∀ before b after, order = before ++ b :: after → ∀ a, a ≠ b →
    Dominates (fun x y => y ∈ followed static F.toLlvmFunction x) F.entry a b → a ∈ before

variable {static F} {order : List Nat}

/-- Both orders of the conversion list dominators first. -/
theorem isVisitOrder_conversionOrder (hF : F.WellFormed) (role : FunctionRole) :
    IsVisitOrder static F (conversionOrder static F.toLlvmFunction role) := by
  obtain ⟨hnodup, hmem⟩ := @conversionOrder_spec static F.toLlvmFunction hF role
  have hparented : Parented (followed static F.toLlvmFunction) F.entry
      (conversionOrder static F.toLlvmFunction role) := by
    cases role with
    | primary => exact parented_breadthFirst _ _ _
    | callee => exact parented_reverse_postOrder _ _ _
  exact ⟨hnodup, hmem, fun before b after horder a hne hdom =>
    hparented.dominator_first hdom hne horder⟩

/-- A dominator in the function comes first. -/
theorem IsVisitOrder.branches_first (h : IsVisitOrder static F order) {before after : List Nat}
    {a b : Nat} (horder : order = before ++ b :: after) (hne : a ≠ b)
    (hdom : Dominates (Branches F) F.entry a b) : a ∈ before :=
  h.dominators before b after horder a hne fun p hp =>
    hdom p (hp.mono fun _ _ _ _ hxy => followed_subset hxy)

/-- A visited block is one of the blocks. -/
theorem IsVisitOrder.lt (h : IsVisitOrder static F order) (hF : F.WellFormed) {b : Nat}
    (hb : b ∈ order) : b < F.size :=
  ((h.mem b).mp hb).lt hF

/-- An element of what a list of parts holds lies in one of the parts. -/
theorem flatMap_split {α β : Type} {f : α → List β} {l : List α} {x y : List β} {e : β}
    (h : l.flatMap f = x ++ e :: y) : ∃ l₁ a l₂ x' y', l = l₁ ++ a :: l₂ ∧ f a = x' ++ e :: y' ∧
      x = l₁.flatMap f ++ x' := by
  induction l generalizing x with
  | nil => simp at h
  | cons a l ih =>
    rw [List.flatMap_cons] at h
    rcases List.append_eq_append_iff.mp h with ⟨middle, rfl, hright⟩ | ⟨middle, hleft, hright⟩
    · obtain ⟨l₁, b, l₂, x', y', rfl, hb, rfl⟩ := ih hright
      exact ⟨a :: l₁, b, l₂, x', y', rfl, hb, by simp⟩
    · cases middle with
      | nil =>
        obtain ⟨l₁, b, l₂, x', y', rfl, hb, hx⟩ := ih (x := []) (by simpa using hright.symm)
        rw [List.append_nil] at hleft
        refine ⟨a :: l₁, b, l₂, x', y', rfl, hb, ?_⟩
        rw [List.flatMap_cons, List.append_assoc, ← hx, List.append_nil, hleft]
      | cons z middle =>
        obtain ⟨rfl, -⟩ := List.cons.inj hright
        exact ⟨[], a, l, x, middle, rfl, hleft, rfl⟩

section Values

variable (hF : SsaForm F) {a b v : Nat} {op h : Instruction}

/-- An instruction of a block is defined in it. -/
theorem mem_definedIn_of_body (h : op ∈ F.body b) : op.value ∈ definedIn F b :=
  List.mem_append_right _ (List.mem_map_of_mem h)

include hF

/-- Two instructions that define one value are the same. -/
theorem SsaForm.eq_of_value (ha : a < F.size) (hb : b < F.size) (hop : op ∈ F.body a)
    (hh : h ∈ F.body b) (hvalue : op.value = h.value) : a = b ∧ op = h := by
  obtain rfl : a = b := hF.unique a ha b hb op.value (mem_definedIn_of_body hop)
    (hvalue ▸ mem_definedIn_of_body hh)
  have hnodup := (List.nodup_append.mp (hF.nodup a ha)).2.1
  exact ⟨rfl, List.inj_on_of_nodup_map hnodup hop hh hvalue⟩

/-- A handle that is used was created before in the block, or in a dominator. -/
theorem SsaForm.handle_before (ha : a < F.size) (hb : b < F.size) (hh : h ∈ F.body a)
    {before : List Instruction} (hbefore : ∀ op ∈ before, op ∈ F.body b)
    (hv : Available F b before h.value) :
    (a = b ∧ h ∈ before) ∨ (a ≠ b ∧ Dominates (Branches F) F.entry a b) := by
  rcases hv with hnone | hphi | hbody | ⟨c, hc, hne, hdefined, hdom⟩
  · exact absurd (mem_definedIn_of_body hh) (hnone a ha)
  · have hdefined : h.value ∈ definedIn F b := List.mem_append_left _ hphi
    obtain rfl : a = b := hF.unique a ha b hb h.value (mem_definedIn_of_body hh) hdefined
    have hdisjoint := (List.nodup_append.mp (hF.nodup a ha)).2.2
    exact absurd rfl (hdisjoint _ hphi _ (List.mem_map_of_mem hh))
  · obtain ⟨op, hop, hvalue⟩ := List.mem_map.mp hbody
    obtain ⟨rfl, rfl⟩ := hF.eq_of_value hb ha (hbefore op hop) hh hvalue
    exact Or.inl ⟨rfl, hop⟩
  · obtain rfl : a = c := hF.unique a ha c hc h.value (mem_definedIn_of_body hh) hdefined
    exact Or.inr ⟨hne, hdom⟩

end Values

section Items

variable {a b v : Nat} {h : Instruction} {before after : List (Nat × Item)}

/-- The items are those of the instructions in the visited blocks. -/
theorem mem_items {item : Item} : (b, item) ∈ items F order ↔
    b ∈ order ∧ ∃ op ∈ F.body b, item ∈ instructionItems op := by
  simp [items]

/-- A value is used where an instruction that counts has it as an operand. -/
theorem mem_items_use : (b, .use v) ∈ items F order ↔
    b ∈ order ∧ ∃ op ∈ F.body b, op.kind ≠ .other ∧ v ∈ op.operands := by
  rw [mem_items]
  refine and_congr_right fun _ => exists_congr fun op => and_congr_right fun _ => ?_
  unfold instructionItems
  cases op.kind <;> simp

/-- A handle is defined where it stands. -/
theorem mem_items_define : (b, .define h) ∈ items F order ↔
    b ∈ order ∧ h ∈ F.body b ∧ h.kind = .handle := by
  rw [mem_items]
  refine and_congr_right fun _ => ⟨?_, ?_⟩
  · rintro ⟨op, hop, hitem⟩
    unfold instructionItems at hitem
    cases hkind : op.kind with
    | handle =>
      rw [hkind] at hitem
      obtain rfl : h = op := by simpa using hitem
      exact ⟨hop, hkind⟩
    | dxOp => simp [hkind] at hitem
    | other => simp [hkind] at hitem
  · rintro ⟨hh, hkind⟩
    exact ⟨h, hh, by simp [instructionItems, hkind]⟩

/-- An item comes from an instruction of a block, after those of the instructions before it. -/
theorem items_split {item : Item} (hsplit : items F order = before ++ (b, item) :: after) :
    ∃ o₁ o₂ first op last, order = o₁ ++ b :: o₂ ∧ F.body b = first ++ op :: last ∧
      item ∈ instructionItems op ∧ (∀ x ∈ items F o₁, x ∈ before) ∧
      (∀ g ∈ first, ∀ x ∈ instructionItems g, (b, x) ∈ before) ∧
      ∀ x ∈ before, x.1 ∈ o₁ ∨ x.1 = b := by
  obtain ⟨o₁, c, o₂, x', y', rfl, hblock, rfl⟩ := flatMap_split hsplit
  rw [List.map_eq_append_iff] at hblock
  obtain ⟨p, q, hbody, rfl, hq⟩ := hblock
  rw [List.map_eq_cons_iff] at hq
  obtain ⟨item', q', rfl, hitem, rfl⟩ := hq
  obtain ⟨rfl, rfl⟩ := Prod.mk.inj hitem
  obtain ⟨first, op, last, z, w, hfirst, hop, rfl⟩ := flatMap_split hbody
  refine ⟨o₁, o₂, first, op, last, rfl, hfirst, by rw [hop]; simp,
    fun x hx => List.mem_append_left _ hx, fun g hg x hx => ?_, fun x hx => ?_⟩
  · exact List.mem_append_right _ (List.mem_map_of_mem (List.mem_append_left _
      (List.mem_flatMap.mpr ⟨g, hg, hx⟩)))
  · rcases List.mem_append.mp hx with hx | hx
    · exact Or.inl (mem_items.mp (show (x.1, x.2) ∈ items F o₁ from hx)).1
    · obtain ⟨y, -, rfl⟩ := List.mem_map.mp hx
      exact Or.inr rfl

variable (hF : SsaForm F) (horder : IsVisitOrder static F order)

include hF horder

/-- A handle is known when it is used. -/
theorem define_before_use (hsplit : items F order = before ++ (b, .use h.value) :: after)
    (ha : a < F.size) (hh : h ∈ F.body a) (hkind : h.kind = .handle) :
    (a, .define h) ∈ before ∧ (a ≠ b → Dominates (Branches F) F.entry a b) := by
  obtain ⟨o₁, o₂, first, op, last, rfl, hbody, hitem, hblocks, hfirst, -⟩ := items_split hsplit
  have hb : b < F.size := horder.lt hF.wellFormed (by simp)
  have hoperand : h.value ∈ op.operands := by
    unfold instructionItems at hitem
    cases hkind : op.kind <;> simp_all
  have havailable := hF.available b hb first op last hbody h.value hoperand
  rcases hF.handle_before ha hb hh (fun g hg => by rw [hbody]; simp [hg]) havailable with
    ⟨rfl, hmem⟩ | ⟨hne, hdom⟩
  · exact ⟨hfirst h hmem _ (by simp [instructionItems, hkind]), fun hne => absurd rfl hne⟩
  · have hin := horder.branches_first rfl hne hdom
    exact ⟨hblocks _ (mem_items_define.mpr ⟨hin, hh, hkind⟩), fun _ => hdom⟩

/-- While the block of a handle is analysed no other block has used the handle. -/
theorem use_in_home (hsplit : items F order = before ++ (a, .use h.value) :: after)
    (ha : a < F.size) (hh : h ∈ F.body a) (hkind : h.kind = .handle)
    (hb : (b, .use h.value) ∈ before) : b = a := by
  by_contra hne
  obtain ⟨o₁, o₂, -, -, -, rfl, -, -, -, -, hblocks⟩ := items_split hsplit
  have hb₁ : b ∈ o₁ := (hblocks _ hb).resolve_right hne
  obtain ⟨first, rest, rfl⟩ := List.append_of_mem hb
  rw [List.append_assoc, List.cons_append] at hsplit
  have hdom := (define_before_use hF horder hsplit ha hh hkind).2 fun h => hne h.symm
  obtain ⟨p, q, rfl⟩ := List.append_of_mem hb₁
  rw [List.append_assoc, List.cons_append] at horder
  have hin : a ∈ p := horder.branches_first rfl (fun h => hne h.symm) hdom
  have hnodup := List.nodup_append.mp horder.nodup
  exact absurd rfl (hnodup.2.2 a hin a (by simp))

end Items

variable {a b v : Nat} {h : Instruction}

/-- A block uses a handle of another block. -/
def UsedElsewhere (before : List (Nat × Item)) (h : Instruction) (b : Nat) : Prop :=
  ∃ a, a ≠ b ∧ (a, .define h) ∈ before ∧ (b, .use h.value) ∈ before

/-- A handle that is used elsewhere stays so when more items follow. -/
theorem UsedElsewhere.append {before : List (Nat × Item)} (hused : UsedElsewhere before h b)
    (last : List (Nat × Item)) : UsedElsewhere (before ++ last) h b := by
  obtain ⟨a, hne, hdefine, huse⟩ := hused
  exact ⟨a, hne, List.mem_append_left _ hdefine, List.mem_append_left _ huse⟩

/-- What the analysis knows after some items. -/
structure Knows (before : List (Nat × Item)) (s : Sinks) : Prop where
  handle : ∀ h a, (h, a) ∈ s.handleToBlock ↔ (a, .define h) ∈ before
  /-- A block has sinks for handles of other blocks that it uses. -/
  sunk : ∀ b, ∀ h ∈ s.bbToSinks b, UsedElsewhere before h b
  /-- A handle that needs a sink is used in another block. -/
  needing : ∀ v ∈ s.needingSink, v ∉ s.conservative ∧ ∃ h b, h.value = v ∧ UsedElsewhere before h b
  /-- A use either makes the handle conservative or has a sink. -/
  used : ∀ b v, (b, .use v) ∈ before → ∀ a h, (a, .define h) ∈ before → h.value = v →
    v ∈ s.conservative ∨ (b ≠ a ∧ v ∈ s.needingSink ∧ h ∈ s.bbToSinks b)

/-- Before the first item the analysis knows nothing. -/
theorem Knows.start : Knows [] {} where
  handle _ _ := by simp
  sunk _ _ h := by cases h
  needing _ h := by simp at h
  used _ _ h := by cases h

/-- A handle is registered after its operands. -/
theorem Knows.define {before after : List (Nat × Item)} {s : Sinks} (hs : Knows before s)
    (hF : SsaForm F) (horder : IsVisitOrder static F order)
    (hsplit : items F order = before ++ (a, .define h) :: after) :
    Knows (before ++ [(a, .define h)]) (analyzeItem s (a, .define h)) := by
  have hdefine : (a, .define h) ∈ items F order := by rw [hsplit]; simp
  obtain ⟨ha, hh, hkind⟩ := mem_items_define.mp hdefine
  constructor
  · intro g c
    simp only [analyzeItem, List.mem_cons, Prod.mk.injEq, List.mem_append,
      List.not_mem_nil, or_false, Item.define.injEq, hs.handle]
    constructor
    · rintro (⟨rfl, rfl⟩ | hg)
      · exact Or.inr ⟨rfl, rfl⟩
      · exact Or.inl hg
    · rintro (hg | ⟨rfl, rfl⟩)
      · exact Or.inr hg
      · exact Or.inl ⟨rfl, rfl⟩
  · exact fun b g hg => (hs.sunk b g hg).append _
  · intro v hv
    obtain ⟨hnot, g, b, hvalue, hused⟩ := hs.needing v hv
    exact ⟨hnot, g, b, hvalue, hused.append _⟩
  · intro b v huse c g hg hvalue
    have huse : (b, Item.use v) ∈ before := by simpa using huse
    -- A handle that is used before was registered before that.
    have hbefore : (c, Item.define g) ∈ before := by
      have hgmem : (c, Item.define g) ∈ items F order := by
        rw [hsplit]
        rcases List.mem_append.mp hg with hg | hg
        · exact List.mem_append_left _ hg
        · exact List.mem_append_right _ (List.mem_singleton.mp hg ▸ List.mem_cons_self ..)
      obtain ⟨hc, hgbody, hgkind⟩ := mem_items_define.mp hgmem
      obtain ⟨first, rest, rfl⟩ := List.append_of_mem huse
      subst hvalue
      rw [List.append_assoc, List.cons_append] at hsplit
      exact List.mem_append_left _
        (define_before_use hF horder hsplit (horder.lt hF.wellFormed hc) hgbody hgkind).1
    exact hs.used b v huse c g hbefore hvalue

/-- A use of something that is no handle. -/
theorem Knows.use_other {before : List (Nat × Item)} {s : Sinks} (hs : Knows before s)
    (hnone : ∀ c g, (c, .define g) ∈ before → g.value ≠ v) :
    Knows (before ++ [(b, .use v)]) s := by
  constructor
  · intro g c
    rw [hs.handle]
    simp
  · exact fun c g hg => (hs.sunk c g hg).append _
  · intro w hw
    obtain ⟨hnot, g, c, hvalue, hused⟩ := hs.needing w hw
    exact ⟨hnot, g, c, hvalue, hused.append _⟩
  · intro c w huse d g hg hvalue
    have hdefine : (d, Item.define g) ∈ before := by simpa using hg
    rcases List.mem_append.mp huse with huse | huse
    · exact hs.used c w huse d g hdefine hvalue
    · obtain ⟨rfl, hw⟩ := Prod.mk.inj (List.mem_singleton.mp huse)
      obtain rfl : w = v := Item.use.inj hw
      exact absurd hvalue (hnone d g hdefine)

/-- The sinks of a block only grow. -/
theorem mem_update_sinks {sinks : Nat → List Instruction} {call g : Instruction} {c : Nat} :
    g ∈ Function.update sinks b (if call ∈ sinks b then sinks b else sinks b ++ [call]) c ↔
      g ∈ sinks c ∨ c = b ∧ g = call := by
  by_cases hc : c = b
  · subst hc
    rw [Function.update_self]
    split
    · rename_i hcall
      exact ⟨.inl, fun hg => hg.elim id fun hg => hg.2 ▸ hcall⟩
    · simp
  · rw [Function.update_of_ne hc]
    exact ⟨.inl, fun hg => hg.resolve_right fun hg => hc hg.1⟩

/-- A use in another block, when the handle was not used in its own one: the block gets a sink. -/
theorem Knows.use_sunk {before : List (Nat × Item)} {s : Sinks} (hs : Knows before s)
    {call : Instruction} (hcall : (a, .define call) ∈ before) (hne : a ≠ b)
    (hsame : ∀ {c g}, (c, .define g) ∈ before → g.value = call.value → c = a ∧ g = call)
    (hnot : call.value ∉ s.conservative) :
    Knows (before ++ [(b, .use call.value)])
      { s with
        needingSink := insert call.value s.needingSink
        bbToSinks := Function.update s.bbToSinks b
          (if call ∈ s.bbToSinks b then s.bbToSinks b else s.bbToSinks b ++ [call]) } := by
  have hnew : UsedElsewhere (before ++ [(b, Item.use call.value)]) call b :=
    ⟨a, hne, List.mem_append_left _ hcall, by simp⟩
  constructor
  · intro g c
    rw [hs.handle]
    simp
  · intro c g hg
    rcases mem_update_sinks.mp hg with hg | ⟨rfl, rfl⟩
    · exact (hs.sunk c g hg).append _
    · exact hnew
  · intro w hw
    rcases Finset.mem_insert.mp hw with rfl | hw
    · exact ⟨hnot, call, b, rfl, hnew⟩
    · obtain ⟨hw, g, c, hvalue, hused⟩ := hs.needing w hw
      exact ⟨hw, g, c, hvalue, hused.append _⟩
  · intro c w huse d g hg hvalue
    have hdefine : (d, Item.define g) ∈ before := by simpa using hg
    rcases List.mem_append.mp huse with huse | huse
    · rcases hs.used c w huse d g hdefine hvalue with hcons | ⟨hcd, hneed, hin⟩
      · exact Or.inl hcons
      · exact Or.inr ⟨hcd, Finset.mem_insert_of_mem hneed, mem_update_sinks.mpr (.inl hin)⟩
    · obtain ⟨rfl, hw⟩ := Prod.mk.inj (List.mem_singleton.mp huse)
      obtain rfl : w = call.value := Item.use.inj hw
      obtain ⟨rfl, rfl⟩ := hsame hdefine hvalue
      exact Or.inr ⟨hne.symm, Finset.mem_insert_self _ _, mem_update_sinks.mpr (.inr ⟨rfl, rfl⟩)⟩

/-- A use in the block of the handle, or of a handle that was used there: it is not sunk. -/
theorem Knows.use_conservative {before : List (Nat × Item)} {s : Sinks} (hs : Knows before s)
    (hsunk : v ∈ s.needingSink → v ∈ s.conservative ∨
      ∀ h c, h.value = v → ¬ UsedElsewhere before h c) :
    Knows (before ++ [(b, .use v)]) { s with conservative := insert v s.conservative } := by
  constructor
  · intro g c
    rw [hs.handle]
    simp
  · exact fun c g hg => (hs.sunk c g hg).append _
  · intro w hw
    obtain ⟨hnot, g, c, hvalue, hused⟩ := hs.needing w hw
    refine ⟨fun hin => ?_, g, c, hvalue, hused.append _⟩
    rcases Finset.mem_insert.mp hin with rfl | hin
    · exact (hsunk hw).elim hnot fun hno => hno g c hvalue hused
    · exact hnot hin
  · intro c w huse d g hg hvalue
    have hdefine : (d, Item.define g) ∈ before := by simpa using hg
    rcases List.mem_append.mp huse with huse | huse
    · exact (hs.used c w huse d g hdefine hvalue).imp_left Finset.mem_insert_of_mem
    · obtain ⟨rfl, hw⟩ := Prod.mk.inj (List.mem_singleton.mp huse)
      obtain rfl : w = v := Item.use.inj hw
      exact Or.inl (Finset.mem_insert_self _ _)

/-- A use. -/
theorem Knows.use {before after : List (Nat × Item)} {s : Sinks} (hs : Knows before s)
    (hF : SsaForm F) (horder : IsVisitOrder static F order)
    (hsplit : items F order = before ++ (b, .use v) :: after) :
    Knows (before ++ [(b, .use v)]) (analyzeItem s (b, .use v)) := by
  have hmem : ∀ {c : Nat} {g : Instruction}, (c, .define g) ∈ before →
      c < F.size ∧ g ∈ F.body c ∧ g.kind = .handle := by
    intro c g hg
    have hitem : (c, Item.define g) ∈ items F order := by
      rw [hsplit]
      exact List.mem_append_left _ hg
    obtain ⟨hc, hbody, hkind⟩ := mem_items_define.mp hitem
    exact ⟨horder.lt hF.wellFormed hc, hbody, hkind⟩
  show Knows _ (useHandle b s v)
  unfold useHandle
  cases hfind : s.handleToBlock.find? (·.1.value == v) with
  | none =>
    refine hs.use_other fun c g hg hvalue => ?_
    have := List.find?_eq_none.mp hfind (g, c) ((hs.handle g c).mpr hg)
    simp [hvalue] at this
  | some found =>
    obtain ⟨call, origBb⟩ := found
    have hcall := (hs.handle call origBb).mp (List.mem_of_find?_eq_some hfind)
    obtain rfl : call.value = v := by simpa using List.find?_some hfind
    obtain ⟨horig, hbody, hkind⟩ := hmem hcall
    have hsame : ∀ {c : Nat} {g : Instruction}, (c, .define g) ∈ before → g.value = call.value →
        c = origBb ∧ g = call := by
      intro c g hg hvalue
      obtain ⟨hc, hgbody, -⟩ := hmem hg
      exact hF.eq_of_value hc horig hgbody hbody hvalue
    simp only
    split
    · rename_i hsink
      exact hs.use_sunk hcall hsink.2 hsame hsink.1
    · rename_i hconservative
      refine hs.use_conservative fun _ => ?_
      by_cases hcons : call.value ∈ s.conservative
      · exact .inl hcons
      · -- The handle is used in its own block, and no other block used it before.
        obtain rfl : origBb = b := by
          by_contra hne
          exact hconservative ⟨hcons, hne⟩
        refine .inr ?_
        rintro g c hvalue ⟨d, hne, hd, huse⟩
        obtain ⟨rfl, rfl⟩ := hsame hd hvalue
        exact hne (use_in_home hF horder hsplit horig hbody hkind huse).symm

/-- What the analysis knows in the end. -/
theorem knows_foldl (hF : SsaForm F) (horder : IsVisitOrder static F order)
    (before after : List (Nat × Item)) (hsplit : items F order = before ++ after) :
    Knows before (before.foldl analyzeItem {}) := by
  induction before using List.reverseRecOn generalizing after with
  | nil => exact .start
  | append_singleton before item ih =>
    rw [List.append_assoc, List.cons_append, List.nil_append] at hsplit
    have hs := ih _ hsplit
    rw [List.foldl_append, List.foldl_cons, List.foldl_nil]
    obtain ⟨b, item⟩ := item
    cases item with
    | use v => exact hs.use hF horder hsplit
    | define h => exact hs.define hF horder hsplit

/-- The sinks: those of a block are handles of dominators, and a handle that is left out where it is
created has a sink wherever it is used. -/
structure SinksFit (F : Function) (order : List Nat) (s : Sinks) : Prop where
  sunk : ∀ b, ∀ h ∈ s.bbToSinks b, b ∈ order ∧ h.kind = .handle ∧ ∃ a ∈ order, a ≠ b ∧
    h ∈ F.body a ∧ Dominates (Branches F) F.entry a b
  needing : ∀ a ∈ order, ∀ h ∈ F.body a, h.kind = .handle → h.value ∈ s.needingSink →
    ∀ b ∈ order, ∀ op ∈ F.body b, op.kind ≠ .other → h.value ∈ op.operands → b ≠ a ∧
      h ∈ s.bbToSinks b
  handle : ∀ v ∈ s.needingSink, ∃ a ∈ order, ∃ h ∈ F.body a, h.kind = .handle ∧ h.value = v

/-- The analysis finds such sinks. -/
theorem sinksFit_analyzeSinks (hF : SsaForm F) (horder : IsVisitOrder static F order)
    (sinkHandles : Bool) : SinksFit F order (analyzeSinks sinkHandles F order) := by
  cases sinkHandles with
  | false =>
    constructor
    · intro b h hh
      cases hh
    · intro a _ h _ _ hneed
      simp [analyzeSinks] at hneed
    · intro v hv
      simp [analyzeSinks] at hv
  | true =>
    have hs := knows_foldl hF horder (items F order) [] (List.append_nil _).symm
    constructor
    · intro b h hh
      obtain ⟨a, hne, hdefine, huse⟩ := hs.sunk b h hh
      obtain ⟨ha, hbody, hkind⟩ := mem_items_define.mp hdefine
      obtain ⟨hb, -⟩ := mem_items_use.mp huse
      obtain ⟨first, rest, hsplit⟩ := List.append_of_mem huse
      have hdom :=
        (define_before_use hF horder hsplit (horder.lt hF.wellFormed ha) hbody hkind).2 hne
      exact ⟨hb, hkind, a, ha, hne, hbody, hdom⟩
    · intro a ha h hh hkind hneed b hb op hop hdx hoperand
      have huse : (b, .use h.value) ∈ items F order :=
        mem_items_use.mpr ⟨hb, op, hop, hdx, hoperand⟩
      have hdefine : (a, .define h) ∈ items F order := mem_items_define.mpr ⟨ha, hh, hkind⟩
      rcases hs.used b h.value huse a h hdefine rfl with hcons | ⟨hne, -, hsunk⟩
      · exact absurd hcons (hs.needing h.value hneed).1
      · exact ⟨hne, hsunk⟩
    · intro v hv
      obtain ⟨-, h, -, hvalue, a, -, hdefine, -⟩ := hs.needing v hv
      obtain ⟨ha, hbody, hkind⟩ := mem_items_define.mp hdefine
      exact ⟨a, ha, h, hbody, hkind, hvalue⟩

/-- The sinks fit every order of the same blocks. -/
theorem SinksFit.of_same_blocks {order' : List Nat} {s : Sinks} (hs : SinksFit F order s)
    (hsame : ∀ b, b ∈ order ↔ b ∈ order') : SinksFit F order' s := by
  constructor
  · intro b h hh
    obtain ⟨hb, hkind, a, ha, hrest⟩ := hs.sunk b h hh
    exact ⟨(hsame b).mp hb, hkind, a, (hsame a).mp ha, hrest⟩
  · intro a ha h hh hkind hneed b hb
    exact hs.needing a ((hsame a).mpr ha) h hh hkind hneed b ((hsame b).mpr hb)
  · intro v hv
    obtain ⟨a, ha, hrest⟩ := hs.handle v hv
    exact ⟨a, (hsame a).mp ha, hrest⟩

/-- A handle that needs a sink has one. -/
theorem exists_sink (hF : SsaForm F) (horder : IsVisitOrder static F order) {sinkHandles : Bool}
    (hv : v ∈ (analyzeSinks sinkHandles F order).needingSink) :
    ∃ b, ∃ h ∈ (analyzeSinks sinkHandles F order).bbToSinks b, h.value = v := by
  cases sinkHandles with
  | false => simp [analyzeSinks] at hv
  | true =>
    have hs := knows_foldl hF horder (items F order) [] (List.append_nil _).symm
    obtain ⟨hnot, h, b, rfl, a, -, hdefine, huse⟩ := hs.needing v hv
    obtain ⟨-, -, hsunk⟩ := (hs.used b h.value huse a h hdefine rfl).resolve_left hnot
    exact ⟨b, h, hsunk, rfl⟩

variable {needing : Finset Nat} {events : List Event} {event : Event}

/-- The handles that are still left out after some events. -/
def remaining : Finset Nat → List Event → Finset Nat
  | needing, [] => needing
  | needing, .instruction op :: events =>
    if op.kind = .handle ∧ op.value ∈ needing then remaining (needing.erase op.value) events
    else remaining needing events
  | needing, _ :: events => remaining needing events

/-- Two lists of events are emitted one after the other. -/
theorem emitEvents_append (first rest : List Event) : emitEvents needing (first ++ rest) =
    emitEvents needing first ++ emitEvents (remaining needing first) rest := by
  induction first generalizing needing with
  | nil => rfl
  | cons event first ih =>
    cases event with
    | instruction op =>
      simp only [List.cons_append, emitEvents, remaining]
      split
      · exact ih
      · rw [ih, List.cons_append]
    | phi value => simp only [List.cons_append, emitEvents, remaining, ih]
    | terminator b => simp only [List.cons_append, emitEvents, remaining, ih]

/-- A handle that came is not left out any more. -/
theorem mem_remaining (h : v ∈ remaining needing events) :
    v ∈ needing ∧ ∀ op, Event.instruction op ∈ events → op.kind = .handle → op.value ≠ v := by
  induction events generalizing needing with
  | nil => exact ⟨h, fun op hop => by cases hop⟩
  | cons event events ih =>
    cases event with
    | instruction op =>
      rw [remaining] at h
      split at h
      · obtain ⟨hv, hall⟩ := ih h
        obtain ⟨hne, hv⟩ := Finset.mem_erase.mp hv
        refine ⟨hv, fun g hg hkind => ?_⟩
        rcases List.mem_cons.mp hg with hg | hg
        · cases hg
          exact hne.symm
        · exact hall g hg hkind
      · rename_i hkeep
        obtain ⟨hv, hall⟩ := ih h
        refine ⟨hv, fun g hg hkind hvalue => ?_⟩
        rcases List.mem_cons.mp hg with hg | hg
        · cases hg
          exact hkeep ⟨hkind, hvalue ▸ hv⟩
        · exact hall g hg hkind hvalue
    | phi value =>
      obtain ⟨hv, hall⟩ := ih h
      exact ⟨hv, fun g hg => hall g ((List.mem_cons.mp hg).resolve_left (by simp))⟩
    | terminator b =>
      obtain ⟨hv, hall⟩ := ih h
      exact ⟨hv, fun g hg => hall g ((List.mem_cons.mp hg).resolve_left (by simp))⟩

/-- Whatever is no handle to leave out is emitted. -/
theorem mem_emitEvents (h : event ∈ events)
    (hkeep : ∀ op, event = .instruction op → op.kind = .handle → op.value ∉ needing) :
    event ∈ emitEvents needing events := by
  induction events generalizing needing with
  | nil => cases h
  | cons first events ih =>
    rcases List.mem_cons.mp h with rfl | hrest
    · cases event with
      | instruction op =>
        rw [emitEvents, if_neg fun hout => hkeep op rfl hout.1 hout.2]
        exact List.mem_cons_self ..
      | phi value => exact List.mem_cons_self ..
      | terminator b => exact List.mem_cons_self ..
    · cases first with
      | instruction op =>
        rw [emitEvents]
        split
        · exact ih hrest fun g hg hkind hin => hkeep g hg hkind (Finset.mem_of_mem_erase hin)
        · exact List.mem_cons_of_mem _ (ih hrest hkeep)
      | phi value => exact List.mem_cons_of_mem _ (ih hrest hkeep)
      | terminator b => exact List.mem_cons_of_mem _ (ih hrest hkeep)

/-- What is emitted before an event comes from what is before it. -/
theorem emitEvents_split {before after : List Event}
    (h : emitEvents needing events = before ++ event :: after) :
    ∃ first rest, events = first ++ event :: rest ∧ before = emitEvents needing first := by
  induction events generalizing needing before with
  | nil => simp [emitEvents] at h
  | cons head events ih =>
    have hcons : ∀ {needing' : Finset Nat},
        emitEvents needing (head :: events) = head :: emitEvents needing' events →
        (∀ first, emitEvents needing (head :: first) = head :: emitEvents needing' first) →
        ∃ first rest, head :: events = first ++ event :: rest ∧
            before = emitEvents needing first := by
      intro needing' hhead hfirst
      rw [hhead] at h
      cases before with
      | nil =>
        obtain ⟨rfl, -⟩ := List.cons.inj h
        exact ⟨[], events, rfl, rfl⟩
      | cons x before =>
        obtain ⟨rfl, htail⟩ := List.cons.inj h
        obtain ⟨first, rest, rfl, rfl⟩ := ih htail
        exact ⟨head :: first, rest, rfl, (hfirst first).symm⟩
    cases head with
    | instruction op =>
      by_cases hout : op.kind = .handle ∧ op.value ∈ needing
      · rw [emitEvents, if_pos hout] at h
        obtain ⟨first, rest, rfl, rfl⟩ := ih h
        exact ⟨.instruction op :: first, rest, rfl, by rw [emitEvents, if_pos hout]⟩
      · exact hcons (by rw [emitEvents, if_neg hout]) fun first => by rw [emitEvents, if_neg hout]
    | phi value => exact hcons rfl fun first => rfl
    | terminator b => exact hcons rfl fun first => rfl

variable {s : Sinks}

/-- A value that a block defines is the value of one of its events. -/
theorem exists_event_of_definedIn {a v : Nat} (h : v ∈ definedIn F a) :
    ∃ d ∈ analysedEvents F a, d.value = some v := by
  rcases List.mem_append.mp h with h | h
  · obtain ⟨phi, hphi, rfl⟩ := List.mem_map.mp h
    exact ⟨.phi phi.value, List.mem_append_left _ (List.mem_map_of_mem hphi), rfl⟩
  · obtain ⟨op, hop, rfl⟩ := List.mem_map.mp h
    exact ⟨.instruction op, List.mem_append_right _ (List.mem_map_of_mem hop), rfl⟩

/-- Sinking takes no event out of a block. -/
theorem mem_blockEvents {sinks : Nat → List Instruction} {a : Nat} {d : Event}
    (h : d ∈ analysedEvents F a) : d ∈ blockEvents F sinks a :=
  List.mem_append_right _ (List.mem_append_left _ h)

/-- A handle that is left out where it is created is emitted as a sink. -/
theorem mem_emitEvents_sink (horder : IsVisitOrder static F order) (hs : SinksFit F order s)
    {first last : List Nat} {c : Nat} (hsplit : order = first ++ c :: last) {h : Instruction}
    (hh : h ∈ s.bbToSinks c) {events : List Event} (hmem : .instruction h ∈ events) :
    .instruction h ∈ emitEvents s.needingSink
      (first.flatMap (blockEvents F s.bbToSinks) ++ events) := by
  obtain ⟨-, hkind, a, -, hne, hbody, hdom⟩ := hs.sunk c h hh
  have ha : a ∈ first := horder.branches_first hsplit hne hdom
  have hcame : Event.instruction h ∈ first.flatMap (blockEvents F s.bbToSinks) :=
    List.mem_flatMap.mpr ⟨a, ha,
      mem_blockEvents (List.mem_append_right _ (List.mem_map_of_mem hbody))⟩
  rw [emitEvents_append]
  refine List.mem_append_right _ (mem_emitEvents hmem fun op hop _ hin => ?_)
  cases hop
  exact (mem_remaining hin).2 h hcame hkind rfl

/-- A handle of the entry, used in a loop and after it; the branch around the loop is known. -/
def sampleFunction : Function where
  size := 4
  entry := 0
  terminator
    | 0 => .condBr 10 1 2
    | 1 => .condBr 11 1 3
    | 2 => .br 3
    | _ => .ret
  phis
    | 1 => [⟨1, [(0, 12), (1, 2)]⟩]
    | _ => []
  body
    | 0 => [⟨0, [], .handle⟩]
    | 1 => [⟨2, [0, 1], .dxOp⟩]
    | 3 => [⟨3, [0], .dxOp⟩]
    | _ => []
  returnValue _ := none

end DxilSpirv.VisitOrder
