import DxilSpirv.Graph.Delaying
import DxilSpirv.Spirv.Instruction

/-!
# The order of blocks

The blocks of a function are written in pre-order, but what a merge instruction names is delayed:
the continue block comes after all successors of the block, and the merge block after that.
-/

namespace DxilSpirv.Spv

open Graph

/-- The address of a block. -/
abbrev BlockPtr := Nat

/-- `Block`: its label comes first. -/
structure Block where
  instructions : List Instruction
  successors : List BlockPtr := []
  localVariables : List Instruction := []
  deriving DecidableEq, Repr

/-- `Function`. -/
structure Function where
  blocks : List BlockPtr
  functionInstruction : Instruction := { opCode := .function }
  parameterInstructions : List Instruction := []
  deriving DecidableEq, Repr

/-- `Module`: its blocks, the instructions with a result and the blocks that they are in, and its
functions. -/
structure Module where
  block : BlockPtr → Block
  blockOf : Id → Option BlockPtr
  idToInstruction : Id → Option Instruction := fun _ => none
  functions : List Function

/-- `getMergeInstruction`: the instruction next to the last one, if it is a merge. -/
def Block.getMergeInstruction (b : Block) : Option Instruction :=
  if b.instructions.length < 2 then none
  else b.instructions[b.instructions.length - 2]?.filter fun i => i.opCode = .selectionMerge ∨
    i.opCode = .loopMerge

/-- The merge block and the continue block of a block. There must be blocks with the ids that are
named. -/
def Module.mergeBlocks (m : Module) (b : BlockPtr) : Option (Option BlockPtr × Option BlockPtr) :=
  match (m.block b).getMergeInstruction with
  | none => some (none, none)
  | some mergeInst => do
    let mergeBlock ← mergeInst.operands[0]? >>= m.blockOf
    if mergeInst.opCode = .loopMerge then
      let continueBlock ← mergeInst.operands[1]? >>= m.blockOf
      some (some mergeBlock, some continueBlock)
    else some (some mergeBlock, none)

/-- `ReadableOrderTraverser`: the blocks in the order of the callback, and those that are
delayed. -/
abbrev ReadableOrderTraverser := Delaying BlockPtr

/-- `visit`. -/
def visit (m : Module) : Nat → ReadableOrderTraverser → BlockPtr → Option ReadableOrderTraverser
  | 0, _, _ => none
  | fuel + 1, s, block =>
    if block ∈ s.visited ∨ block ∈ s.delayed then some s
    else do
      let s := { s with visited := s.visited ++ [block] }
      let (mergeBlock, continueBlock) ← m.mergeBlocks block
      let s :=
        { s with delayed := s.delayed ∪ (continueBlock.toList ++ mergeBlock.toList).toFinset }
      let s ← (m.block block).successors.foldlM (visit m fuel) s
      let s ← continueBlock.toList.foldlM
        (fun s c => visit m fuel { s with delayed := s.delayed.erase c } c) s
      mergeBlock.toList.foldlM (fun s c => visit m fuel { s with delayed := s.delayed.erase c } c) s

/-- `inReadableOrder`, with as many calls as there are blocks. -/
def inReadableOrder (m : Module) (f : Function) (root : BlockPtr) : Option (List BlockPtr) :=
  (visit m (f.blocks.length + 1) {} root).map Delaying.visited

variable {m : Module} {f : Function} {root : BlockPtr}

/-- The blocks that a block delays, in the order in which they are visited. -/
def Module.later (m : Module) (b : BlockPtr) : List BlockPtr :=
  match m.mergeBlocks b with
  | none => []
  | some (mergeBlock, continueBlock) => continueBlock.toList ++ mergeBlock.toList

/-- The successors of a block. -/
def Module.successors (m : Module) (b : BlockPtr) : List BlockPtr := (m.block b).successors

/-- Control goes from one block to another, or the first one names the second one in its merge
instruction. -/
def Module.Edge (m : Module) (a b : BlockPtr) : Prop := b ∈ Delaying.edges m.successors m.later a

/-- The blocks of a function lead to blocks of it, and their merge instructions name such. -/
structure Function.WellFormed (f : Function) (m : Module) : Prop where
  named : ∀ b ∈ f.blocks, (m.mergeBlocks b).isSome
  closed : ∀ a ∈ f.blocks, ∀ b, m.Edge a b → b ∈ f.blocks

/-- A traversal is a search that delays what the merge instructions name. -/
theorem visit_eq (h : f.WellFormed m) (fuel : Nat) (s : ReadableOrderTraverser) (b : BlockPtr)
    (hb : b ∈ f.blocks) :
    visit m fuel s b = Delaying.visit m.successors m.later fuel s b := by
  induction fuel generalizing s b with
  | zero => rfl
  | succ fuel ih =>
    -- The same steps for every list of blocks of the function.
    have hsteps {step : ReadableOrderTraverser → BlockPtr → ReadableOrderTraverser}
      {l : List BlockPtr} (hl : ∀ c ∈ l, c ∈ f.blocks) (s : ReadableOrderTraverser) :
        l.foldlM (fun s c => visit m fuel (step s c) c) s =
          l.foldlM (fun s c => Delaying.visit m.successors m.later fuel (step s c) c) s := by
      induction l generalizing s with
      | nil => rfl
      | cons c l ihl =>
        obtain ⟨hc, hl⟩ := List.forall_mem_cons.mp hl
        rw [List.foldlM_cons, List.foldlM_cons, ih _ c hc]
        exact congrArg _ (funext fun t => ihl hl t)
    obtain ⟨⟨mergeBlock, continueBlock⟩, hnamed⟩ := Option.isSome_iff_exists.mp (h.named b hb)
    have hlater : m.later b = continueBlock.toList ++ mergeBlock.toList := by
      unfold Module.later
      rw [hnamed]
    have hsucc (c : BlockPtr) (hc : c ∈ m.successors b) : c ∈ f.blocks :=
      h.closed b hb c (List.mem_append_left _ hc)
    have hcont (c : BlockPtr) (hc : c ∈ m.later b) : c ∈ f.blocks :=
      h.closed b hb c (List.mem_append_right _ hc)
    rw [hlater] at hcont
    rw [visit, Delaying.visit]
    split_ifs
    · rfl
    · have hfirst := @hsteps (fun s _ => s) _ hsucc
        { visited := s.visited ++ [b],
          delayed := s.delayed ∪ (continueBlock.toList ++ mergeBlock.toList).toFinset }
      rw [hnamed, hlater]
      change (List.foldlM (visit m fuel) _ (m.successors b) >>= _) = _
      rw [hfirst]
      refine bind_congr fun t => ?_
      rw [List.foldlM_append, ← hsteps fun c hc => hcont c (List.mem_append_left _ hc)]
      refine bind_congr fun t => ?_
      exact hsteps (fun c hc => hcont c (List.mem_append_right _ hc)) t

/-- What the blocks of a function lead to are blocks of it. -/
theorem Function.WellFormed.mem_of_reaches (h : f.WellFormed m) (hroot : root ∈ f.blocks)
    {b : BlockPtr} (hreach : Reaches m.Edge root b) : b ∈ f.blocks := by
  induction hreach with
  | refl => exact hroot
  | tail _ hedge ih => exact h.closed _ ih _ hedge

/-- The order of the blocks is that of a search. -/
theorem exists_readableOrder (h : f.WellFormed m) (hroot : root ∈ f.blocks) :
    ∃ order, inReadableOrder m f root = some order ∧
      Delaying.SearchOrder m.successors m.later root order := by
  have hclosed (a : BlockPtr) (ha : a ∈ f.blocks.toFinset) (b : BlockPtr)
      (hab : b ∈ Delaying.edges m.successors m.later a) : b ∈ f.blocks.toFinset :=
    List.mem_toFinset.mpr (h.closed a (List.mem_toFinset.mp ha) b hab)
  obtain ⟨order, hrun, horder⟩ := Delaying.exists_searchOrder hclosed (List.mem_toFinset.mpr hroot)
    (Nat.lt_succ_of_le (List.toFinset_card_le f.blocks))
  refine ⟨order, ?_, horder⟩
  unfold inReadableOrder
  rw [visit_eq h _ _ _ hroot, hrun]
  rfl

/-- The blocks that can be reached are written once each, nothing else is, and dominators come
first. What a merge instruction names counts as reached from its block. -/
theorem inReadableOrder_dominators (h : f.WellFormed m) (hroot : root ∈ f.blocks) :
    ∃ order, inReadableOrder m f root = some order ∧ order.Nodup ∧
      (∀ v, v ∈ order ↔ Reaches m.Edge root v) ∧
      ∀ a v, Reaches m.Edge root v → Dominates m.Edge root a v → a ≠ v → Precedes order a v := by
  obtain ⟨order, hrun, horder⟩ := exists_readableOrder h hroot
  refine ⟨order, hrun, horder.nodup, horder.mem_iff, fun a v hv hdom hne => ?_⟩
  obtain ⟨before, after, rfl⟩ := List.append_of_mem ((horder.mem_iff v).mpr hv)
  exact ⟨before, after, rfl, horder.parented.dominator_first hdom hne rfl⟩

/-- A function of six blocks. -/
def sampleFunction : Function where
  blocks := [0, 1, 2, 3, 4, 5]
  functionInstruction := ⟨.function, 16, 5, [0, 6]⟩

/-- A loop, and a block out of reach. -/
def sampleModule : Module where
  block
    | 0 => { instructions := [⟨.label, 10, 0, []⟩, ⟨.other 249, 0, 0, [11]⟩], successors := [1] }
    | 1 => { instructions := [⟨.label, 11, 0, []⟩, ⟨.loopMerge, 0, 0, [14, 13, 0]⟩, ⟨.other 250, 0,
        0, [9, 14, 12]⟩], successors := [4, 2] }
    | 2 => { instructions := [⟨.label, 12, 0, []⟩, ⟨.other 249, 0, 0, [13]⟩], successors := [3] }
    | 3 => { instructions := [⟨.label, 13, 0, []⟩, ⟨.other 249, 0, 0, [11]⟩], successors := [1] }
    | 4 => { instructions := [⟨.label, 14, 0, []⟩, ⟨.other 253, 0, 0, []⟩] }
    | _ =>
      { instructions := [⟨.label, 15, 0, []⟩, ⟨.other 128, 20, 7, [8, 8]⟩, ⟨.other 253, 0, 0, []⟩] }
  blockOf id := if 10 ≤ id ∧ id ≤ 15 then some (id - 10) else none
  functions := [sampleFunction]

theorem sampleFunction_wellFormed : sampleFunction.WellFormed sampleModule := by
  have hclosed : ∀ a ∈ [0, 1, 2, 3, 4, 5],
    ∀ b ∈ Delaying.edges sampleModule.successors sampleModule.later a,
      b ∈ [0, 1, 2, 3, 4, 5] := by decide
  exact ⟨by decide, hclosed⟩

theorem inReadableOrder_dominators_sample :
    ∃ order, inReadableOrder sampleModule sampleFunction 0 = some order ∧ order.Nodup ∧
      (∀ v, v ∈ order ↔ Reaches sampleModule.Edge 0 v) ∧
      ∀ a v, Reaches sampleModule.Edge 0 v → Dominates sampleModule.Edge 0 a v → a ≠ v →
        Precedes order a v :=
  inReadableOrder_dominators sampleFunction_wellFormed (by decide)

/-- An edge to a block that was neither written nor delayed before `u`, and is not among some
others. -/
def Module.Branches (m : Module) (order : List BlockPtr) (u : BlockPtr) (others : List BlockPtr)
    (a b : BlockPtr) : Prop :=
  m.Edge a b ∧ ¬ Precedes order b u ∧ (∀ w, Precedes order w u → b ∉ m.later w) ∧ b ∉ others

/-- A block that only one merge instruction names is written after all that the branches lead to.
For a continue block these are the branches that avoid the merge block too. -/
theorem inReadableOrder_delayed (h : f.WellFormed m) (hroot : root ∈ f.blocks) :
    ∃ order, inReadableOrder m f root = some order ∧
      ∀ u ∈ order, ∀ pre x post, m.later u = pre ++ x :: post → x ∉ pre → x ≠ u →
        ¬ Precedes order x u → (∀ w ∈ order, w ≠ u → x ∉ m.later w) →
        ∀ v, Reaches (m.Branches order u (x :: post)) u v → Precedes order v x := by
  obtain ⟨order, hrun, horder⟩ := exists_readableOrder h hroot
  refine ⟨order, hrun, fun u hu pre x post hlater hpre hne hfirst honly v hreach => ?_⟩
  obtain ⟨before, after, rfl⟩ := List.append_of_mem hu
  have hbefore {w : BlockPtr} (hw : w ∈ before) : Precedes (before ++ u :: after) w u :=
    ⟨before, after, rfl, hw⟩
  refine horder.ordered u hu before after rfl pre x post hlater hpre
    (fun hx => hfirst (hbefore hx)) hne honly v (hreach.mono fun a b hab => ?_)
  obtain ⟨hedge, hwritten, hdelayed, hothers⟩ := hab
  exact ⟨hedge, fun hb => hwritten (hbefore hb), fun w hw => hdelayed w (hbefore hw), hothers⟩

theorem inReadableOrder_delayed_sample :
    ∃ order, inReadableOrder sampleModule sampleFunction 0 = some order ∧
      ∀ u ∈ order, ∀ pre x post, sampleModule.later u = pre ++ x :: post → x ∉ pre → x ≠ u →
        ¬ Precedes order x u → (∀ w ∈ order, w ≠ u → x ∉ sampleModule.later w) →
        ∀ v, Reaches (sampleModule.Branches order u (x :: post)) u v → Precedes order v x :=
  inReadableOrder_delayed sampleFunction_wellFormed (by decide)

/-- The blocks that are reached, and the ids that the other blocks define, function by function. -/
def deadDefinitions (m : Module) :
    List Function → List BlockPtr × List Nat → Option (List BlockPtr × List Nat)
  | [], s => some s
  | f :: fs, (reachableBlocks, unreachableDefinitions) => do
    let entry ← f.blocks.head?
    let order ← inReadableOrder m f entry
    let reachableBlocks := reachableBlocks ++ order
    let dead := f.blocks.filter (· ∉ reachableBlocks)
    deadDefinitions m fs
      (reachableBlocks, unreachableDefinitions ++ dead.flatMap fun b =>
        (m.block b).instructions.map (·.resultId))

/-- `eliminateDeadDecorations`. -/
def eliminateDeadDecorations (m : Module) (decorations : List Instruction) :
    Option (List Instruction) := do
  let (_, unreachableDefinitions) ← deadDefinitions m m.functions ([], [])
  some (decorations.filter (·.getIdOperand 0 ∉ unreachableDefinitions))

/-- An instruction of a block of the function that its entry does not lead to defines the id. -/
def Function.DefinesDead (f : Function) (m : Module) (id : Nat) : Prop :=
  ∃ entry b, f.blocks.head? = some entry ∧ b ∈ f.blocks ∧ ¬ Reaches m.Edge entry b ∧
    ∃ i ∈ (m.block b).instructions, i.resultId = id

/-- What the blocks define that no function reaches. -/
theorem exists_deadDefinitions {fs : List Function} (hfs : ∀ f ∈ fs, f.WellFormed m ∧ f.blocks ≠ [])
    (hapart : fs.Pairwise fun f g => f.blocks.Disjoint g.blocks) {reachable : List BlockPtr}
    {dead : List Nat} (hreachable : ∀ f ∈ fs, f.blocks.Disjoint reachable) :
    ∃ reachable' dead', deadDefinitions m fs (reachable, dead) = some (reachable', dead') ∧
      ∀ id, id ∈ dead' ↔ id ∈ dead ∨ ∃ f ∈ fs, f.DefinesDead m id := by
  induction fs generalizing reachable dead with
  | nil => exact ⟨reachable, dead, rfl, fun id => by simp⟩
  | cons f fs ih =>
    obtain ⟨⟨hwell, hne⟩, hfs⟩ := List.forall_mem_cons.mp hfs
    obtain ⟨hf, hapart⟩ := List.pairwise_cons.mp hapart
    obtain ⟨hnew, hreachable⟩ := List.forall_mem_cons.mp hreachable
    obtain ⟨entry, blocks, hblocks⟩ := List.exists_cons_of_ne_nil hne
    have hentry : f.blocks.head? = some entry := by rw [hblocks]; rfl
    have hmem : entry ∈ f.blocks := by rw [hblocks]; exact List.mem_cons_self
    obtain ⟨order, hrun, horder⟩ := exists_readableOrder hwell hmem
    have hdead (id : Nat) : id ∈ ((f.blocks.filter (· ∉ reachable ++ order)).flatMap fun b =>
        (m.block b).instructions.map (·.resultId)) ↔ f.DefinesDead m id := by
      rw [List.mem_flatMap]
      constructor
      · rintro ⟨b, hb, hid⟩
        obtain ⟨hb, hout⟩ := List.mem_filter.mp hb
        obtain ⟨i, hi, hid⟩ := List.mem_map.mp hid
        refine ⟨entry, b, hentry, hb, fun hreach => of_decide_eq_true hout ?_, i, hi, hid⟩
        exact List.mem_append_right _ ((horder.mem_iff b).mpr hreach)
      · rintro ⟨entry', b, hentry', hb, hout, i, hi, hid⟩
        obtain rfl : entry = entry' := Option.some.inj (hentry.symm.trans hentry')
        refine ⟨b, List.mem_filter.mpr ⟨hb, decide_eq_true fun hin => ?_⟩,
          List.mem_map.mpr ⟨i, hi, hid⟩⟩
        exact (List.mem_append.mp hin).elim (hnew hb) fun hb => hout ((horder.mem_iff b).mp hb)
    have hrest (g : Function) (hg : g ∈ fs) : g.blocks.Disjoint (reachable ++ order) := by
      intro b hb hin
      rcases List.mem_append.mp hin with hin | hin
      · exact hreachable g hg hb hin
      · exact hf g hg (hwell.mem_of_reaches hmem ((horder.mem_iff b).mp hin)) hb
    obtain ⟨reachable', dead', hrun', hids⟩ := @ih hfs hapart (reachable ++ order)
      (dead ++ (f.blocks.filter (· ∉ reachable ++ order)).flatMap fun b =>
        (m.block b).instructions.map (·.resultId)) hrest
    refine ⟨reachable', dead', ?_, fun id => ?_⟩
    · rw [deadDefinitions, hentry]
      change (inReadableOrder m f entry >>= _) = _
      rw [hrun]
      exact hrun'
    · rw [hids, List.mem_append, hdead, or_assoc, List.exists_mem_cons_iff]

/-- The decorations that stay are those of ids that no block out of reach defines. -/
theorem eliminateDeadDecorations_eq (hfs : ∀ f ∈ m.functions, f.WellFormed m ∧ f.blocks ≠ [])
    (hapart : m.functions.Pairwise fun f g => f.blocks.Disjoint g.blocks)
    (decorations : List Instruction) :
    ∃ dead : List Nat, eliminateDeadDecorations m decorations =
      some (decorations.filter (·.getIdOperand 0 ∉ dead)) ∧
      ∀ id, id ∈ dead ↔ ∃ f ∈ m.functions, f.DefinesDead m id := by
  obtain ⟨reachable, dead, hrun, hids⟩ := @exists_deadDefinitions m m.functions hfs hapart [] []
    fun f _ => List.disjoint_nil_right _
  refine ⟨dead, ?_, fun id => ?_⟩
  · unfold eliminateDeadDecorations
    rw [hrun]
    rfl
  · rw [hids]
    exact or_iff_right List.not_mem_nil

theorem eliminateDeadDecorations_sample : ∃ dead : List Nat,
    eliminateDeadDecorations sampleModule
      [⟨.decorate, 0, 0, [20, 0]⟩, ⟨.decorate, 0, 0, [13, 42]⟩] =
      some ([⟨.decorate, 0, 0, [20, 0]⟩, ⟨.decorate, 0, 0, [13, 42]⟩].filter fun d : Instruction =>
        d.getIdOperand 0 ∉ dead) ∧
      ∀ id, id ∈ dead ↔ ∃ f ∈ sampleModule.functions, f.DefinesDead sampleModule id :=
  eliminateDeadDecorations_eq
    (List.forall_mem_singleton.mpr ⟨sampleFunction_wellFormed, List.cons_ne_nil _ _⟩)
    (List.pairwise_singleton ..) _

end DxilSpirv.Spv
