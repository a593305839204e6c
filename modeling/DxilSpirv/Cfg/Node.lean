import Mathlib.Logic.Function.Basic
import Mathlib.Data.List.Nodup
import DxilSpirv.Cfg.Ir

/-!
# Nodes of the control flow graph

`CFGStructurizer` is a structurizer together with its node pool: the pool is a function of
the node index, with `size` indices handed out so far. A traversal moves back edges out of
the `succ`/`pred` lists into `succBackEdge`/`predBackEdge`, so the edges of a block are both.
-/

namespace DxilSpirv

inductive MergeType where
  | none | loop | selection
  deriving DecidableEq, Repr

/-- A block with its place in the graph and the results of the analyses. -/
@[ext]
structure CFGNode where
  ir : IRBlock := {}
  forwardPostVisitOrder : Nat := 0
  backwardPostVisitOrder : Nat := 0
  visited : Bool := false
  backwardVisited : Bool := false
  traversing : Bool := false
  freezeStructuredAnalysis : Bool := false
  merge : MergeType := .none
  loopMergeBlock : Option Nat := none
  loopLadderBlock : Option Nat := none
  selectionMergeBlock : Option Nat := none
  headers : List Nat := []
  immediateDominator : Option Nat := none
  immediatePostDominator : Option Nat := none
  succ : List Nat := []
  pred : List Nat := []
  fakeSucc : List Nat := []
  fakePred : List Nat := []
  predBackEdge : Option Nat := none
  succBackEdge : Option Nat := none
  dominanceFrontier : List Nat := []
  postDominanceFrontier : List Nat := []
  deriving DecidableEq, Repr

/-- A replacement adds no other member than the one it puts in. -/
theorem mem_of_mem_replace {l : List Nat} {a b x : Nat} (h : x ∈ l.replace a b) :
    x ∈ l ∨ x = b := by
  induction l with
  | nil => exact absurd h List.not_mem_nil
  | cons y l ih =>
    rw [List.replace_cons] at h
    split at h
    · rcases List.mem_cons.mp h with h | h
      · exact .inr h
      · exact .inl (List.mem_cons_of_mem _ h)
    · rcases List.mem_cons.mp h with h | h
      · exact .inl (h ▸ List.mem_cons_self ..)
      · exact (ih h).imp_left (List.mem_cons_of_mem _)

/-- Where only one element maps to `b`, replacing `b` is a change of the map. -/
theorem replace_map {l : List Nat} (h : l.Nodup) {f : Nat → Nat} {a b : Nat}
    (hfa : f a = b) (hinj : ∀ x ∈ l, f x = b → x = a) (q : Nat) :
    (l.map f).replace b q = l.map fun x => if x = a then q else f x := by
  induction l with
  | nil => rfl
  | cons y l ih =>
    obtain ⟨hy, hl⟩ := List.nodup_cons.mp h
    rw [List.map_cons, List.replace_cons, List.map_cons]
    by_cases hya : y = a
    · subst hya
      have hrest : l.map (fun x => if x = y then q else f x) = l.map f :=
        List.map_congr_left fun x hx => if_neg fun h : x = y => hy (h ▸ hx)
      rw [hrest, if_pos rfl, hfa]
      simp
    · have hby : (b == f y) = false :=
        beq_eq_false_iff_ne.mpr fun hb => hya (hinj y (List.mem_cons_self ..) hb.symm)
      rw [hby, if_neg hya]
      exact congrArg _ (ih hl fun x hx => hinj x (List.mem_cons_of_mem _ hx))

namespace CFGNode

/-- Edit the successors of a node. -/
def mapSucc (f : List Nat → List Nat) (x : CFGNode) : CFGNode :=
  { x with succ := f x.succ }

/-- Edit the predecessors of a node. -/
def mapPred (f : List Nat → List Nat) (x : CFGNode) : CFGNode :=
  { x with pred := f x.pred }

/-- Edit the terminator of a node. -/
def mapTerminator (f : Terminator → Terminator) (x : CFGNode) : CFGNode :=
  { x with ir := { x.ir with terminator := f x.ir.terminator } }

@[simp] theorem mapPred_pred (f : List Nat → List Nat) (x : CFGNode) :
    (x.mapPred f).pred = f x.pred := rfl

end CFGNode

/-- A structurizer: its node pool, entry and exit block and the results of its traversals.
`reachabilityBitset` holds `reachabilityStride` words for each block of the forward order. -/
@[ext]
structure CFGStructurizer where
  node : Nat → CFGNode
  size : Nat
  entryBlock : Nat
  exitBlock : Nat
  forwardPostVisitOrder : List Nat := []
  backwardPostVisitOrder : List Nat := []
  reachableNodes : List Nat := []
  reachabilityBitset : Nat → BitVec 32 := fun _ => 0
  reachabilityStride : Nat := 0

/-- `push_back` unless the element is already there. -/
def addUnique (l : List Nat) (n : Nat) : List Nat :=
  if n ∈ l then l else l ++ [n]

/-- The members of a list with one more, which is not taken twice. -/
@[simp] theorem mem_addUnique {l : List Nat} {n m : Nat} :
    m ∈ addUnique l n ↔ m ∈ l ∨ m = n := by
  unfold addUnique
  split
  · rename_i h
    constructor
    · exact .inl
    · rintro (h' | rfl)
      · exact h'
      · exact h
  · simp

/-- `add_unique_succ` and `add_unique_pred` keep a list without duplicates. -/
theorem nodup_addUnique {l : List Nat} (h : l.Nodup) (n : Nat) : (addUnique l n).Nodup := by
  unfold addUnique
  split
  · exact h
  · rename_i hn
    refine List.nodup_append.mpr ⟨h, List.nodup_singleton n, ?_⟩
    rintro a ha b hb rfl
    exact hn (List.mem_singleton.mp hb ▸ ha)

namespace CFGStructurizer

/-- Write one node of the pool. -/
def modify (c : CFGStructurizer) (n : Nat) (f : CFGNode → CFGNode) : CFGStructurizer :=
  { c with node := Function.update c.node n (f (c.node n)) }

variable (c : CFGStructurizer) (n m : Nat) (f : CFGNode → CFGNode)

/-- What each block is after an update of one. -/
theorem modify_node : (c.modify n f).node m = if m = n then f (c.node n) else c.node m := by
  simp [modify, Function.update_apply]

@[simp] theorem modify_node_self : (c.modify n f).node n = f (c.node n) := by
  simp [modify_node]

/-- An update of one block leaves every other as it was. -/
theorem modify_node_ne {n m : Nat} (h : m ≠ n) : (c.modify n f).node m = c.node m := by
  simp [modify_node, h]

@[simp] theorem modify_size : (c.modify n f).size = c.size := rfl
@[simp] theorem modify_entryBlock : (c.modify n f).entryBlock = c.entryBlock := rfl
@[simp] theorem modify_exitBlock : (c.modify n f).exitBlock = c.exitBlock := rfl
@[simp] theorem modify_forwardPostVisitOrder :
    (c.modify n f).forwardPostVisitOrder = c.forwardPostVisitOrder := rfl
@[simp] theorem modify_backwardPostVisitOrder :
    (c.modify n f).backwardPostVisitOrder = c.backwardPostVisitOrder := rfl
@[simp] theorem modify_reachableNodes : (c.modify n f).reachableNodes = c.reachableNodes := rfl

variable (g : List Nat → List Nat) (t : Terminator → Terminator)

/-- The branches after an update of the branches of one block. -/
@[simp] theorem modify_mapSucc_succ : ((c.modify n (.mapSucc g)).node m).succ =
    if m = n then g (c.node m).succ else (c.node m).succ := by
  rw [modify_node]
  split <;> simp_all [CFGNode.mapSucc]

/-- The predecessors after an update of the predecessors of one block. -/
@[simp] theorem modify_mapPred_pred : ((c.modify n (.mapPred g)).node m).pred =
    if m = n then g (c.node m).pred else (c.node m).pred := by
  rw [modify_node]
  split <;> simp_all [CFGNode.mapPred]

/-- A write that keeps a field of the node keeps it in the whole pool. -/
theorem modify_field {β : Type} (field : CFGNode → β)
    (hf : ∀ x, field (f x) = field x) : field ((c.modify n f).node m) = field (c.node m) := by
  rw [modify_node]
  split
  · rename_i h
    rw [hf, h]
  · rfl

@[simp] theorem modify_mapSucc_pred :
    ((c.modify n (.mapSucc g)).node m).pred = (c.node m).pred :=
  modify_field c n m _ _ fun _ => rfl

@[simp] theorem modify_mapPred_succ :
    ((c.modify n (.mapPred g)).node m).succ = (c.node m).succ :=
  modify_field c n m _ _ fun _ => rfl

@[simp] theorem modify_mapSucc_predBackEdge :
    ((c.modify n (.mapSucc g)).node m).predBackEdge = (c.node m).predBackEdge :=
  modify_field c n m _ _ fun _ => rfl

@[simp] theorem modify_mapPred_predBackEdge :
    ((c.modify n (.mapPred g)).node m).predBackEdge = (c.node m).predBackEdge :=
  modify_field c n m _ _ fun _ => rfl

@[simp] theorem modify_mapSucc_ir : ((c.modify n (.mapSucc g)).node m).ir = (c.node m).ir :=
  modify_field c n m _ _ fun _ => rfl

@[simp] theorem modify_mapPred_ir : ((c.modify n (.mapPred g)).node m).ir = (c.node m).ir :=
  modify_field c n m _ _ fun _ => rfl

@[simp] theorem modify_mapTerminator_succ :
    ((c.modify n (.mapTerminator t)).node m).succ = (c.node m).succ :=
  modify_field c n m _ _ fun _ => rfl

@[simp] theorem modify_mapTerminator_pred :
    ((c.modify n (.mapTerminator t)).node m).pred = (c.node m).pred :=
  modify_field c n m _ _ fun _ => rfl

/-- An update of a terminator changes the terminator of one block and nothing else of its
operations. -/
@[simp] theorem modify_mapTerminator_ir : ((c.modify n (.mapTerminator t)).node m).ir =
    if m = n then { (c.node m).ir with terminator := t (c.node m).ir.terminator }
    else (c.node m).ir := by
  rw [modify_node]
  split <;> simp_all [CFGNode.mapTerminator]

/-- Write every node of a list. -/
def modifyAll (c : CFGStructurizer) (l : List Nat) (f : CFGNode → CFGNode) : CFGStructurizer :=
  l.foldl (fun c n => c.modify n f) c

/-- An update of several blocks changes the blocks and nothing else of the pool. -/
theorem modifyAll_pool (c : CFGStructurizer) (l : List Nat) (f : CFGNode → CFGNode) :
    c.modifyAll l f = { c with node := (c.modifyAll l f).node } := by
  induction l generalizing c with
  | nil => rfl
  | cons m l ih => exact ih (c.modify m f)

/-- Writes that keep a field of a node keep it in the whole pool. -/
theorem modifyAll_field {β : Type} (field : CFGNode → β) {f : CFGNode → CFGNode}
    (hf : ∀ x, field (f x) = field x) (c : CFGStructurizer) (l : List Nat) (m : Nat) :
    field ((c.modifyAll l f).node m) = field (c.node m) := by
  induction l generalizing c with
  | nil => rfl
  | cons n l ih => exact (ih (c.modify n f)).trans (modify_field c n m f field hf)

/-- Where writing twice is writing once, repetitions in the list do not matter. -/
theorem modifyAll_node (c : CFGStructurizer) (l : List Nat) {f : CFGNode → CFGNode} {n : Nat}
    (hf : f (f (c.node n)) = f (c.node n)) :
    (c.modifyAll l f).node n = if n ∈ l then f (c.node n) else c.node n := by
  induction l generalizing c with
  | nil => rfl
  | cons m l ih =>
    by_cases hm : n = m
    · subst hm
      refine (ih (c.modify n f) ?_).trans ?_
      · rw [modify_node_self, hf, hf]
      · rw [modify_node_self, hf]
        simp
    · have hkeep : (c.modify m f).node n = c.node n := modify_node_ne c f hm
      refine (ih (c.modify m f) ?_).trans ?_
      · rw [hkeep, hf]
      · rw [hkeep]
        simp [hm]

/-- `CFGNodePool::create_node`: the next index, with a node in its initial state. -/
def createNode (c : CFGStructurizer) : CFGStructurizer × Nat :=
  ({ c with node := Function.update c.node c.size {}, size := c.size + 1 }, c.size)

/-- A new block is empty, and the others are as they were. -/
@[simp] theorem createNode_node (c : CFGStructurizer) (n : Nat) :
    c.createNode.1.node n = if n = c.size then {} else c.node n := by
  simp [createNode, Function.update_apply]

@[simp] theorem createNode_snd (c : CFGStructurizer) : c.createNode.2 = c.size := rfl

@[simp] theorem createNode_size (c : CFGStructurizer) : c.createNode.1.size = c.size + 1 := rfl

/-- The edges out of a block, the separated back edge included. -/
def edges (c : CFGStructurizer) (n : Nat) : List Nat :=
  (c.node n).succ ++ (c.node n).succBackEdge.toList

/-- The edges into a block, the separated back edge included. -/
def predEdges (c : CFGStructurizer) (n : Nat) : List Nat :=
  (c.node n).pred ++ (c.node n).predBackEdge.toList

/-- Control can pass from `a` to `b`. -/
def Edge (c : CFGStructurizer) (a b : Nat) : Prop := b ∈ c.edges a

instance (c : CFGStructurizer) (a b : Nat) : Decidable (c.Edge a b) :=
  inferInstanceAs (Decidable (b ∈ c.edges a))

/-- A pool that a traversal can walk: edges stay inside the pool and are not repeated. -/
structure Closed (c : CFGStructurizer) : Prop where
  entry_lt : c.entryBlock < c.size
  inside : ∀ a b, c.Edge a b → b < c.size
  nodup_edges : ∀ n, (c.edges n).Nodup

/-- What every caller hands to a pass: a closed pool that records its edges at both ends,
where only the exit block that the constructor makes is cut off. -/
structure WellFormed (c : CFGStructurizer) : Prop extends Closed c where
  exit_lt : c.exitBlock < c.size
  exit_ne_entry : c.exitBlock ≠ c.entryBlock
  exit_edges : c.edges c.exitBlock = []
  exit_predEdges : c.predEdges c.exitBlock = []
  outside : ∀ n, c.size ≤ n → c.node n = {}
  mem_predEdges : ∀ a b, a ∈ c.predEdges b ↔ c.Edge a b
  nodup_predEdges : ∀ n, (c.predEdges n).Nodup

/-- Only blocks of the pool have edges. -/
theorem WellFormed.edge_lt {c : CFGStructurizer} (h : c.WellFormed) {a b : Nat}
    (hab : c.Edge a b) : a < c.size := by
  by_contra ha
  simp [Edge, edges, h.outside a (Nat.le_of_not_lt ha)] at hab

/-- A pool that holds the listed nodes. -/
def ofNodes (nodes : List CFGNode) (entryBlock exitBlock : Nat) : CFGStructurizer where
  node n := nodes.getD n {}
  size := nodes.length
  entryBlock := entryBlock
  exitBlock := exitBlock

variable {nodes : List CFGNode} {entryBlock exitBlock : Nat}

/-- Behind the listed blocks the pool has empty ones. -/
theorem ofNodes_outside {n : Nat} (h : nodes.length ≤ n) :
    (ofNodes nodes entryBlock exitBlock).node n = {} := by
  simp [ofNodes, h]

/-- A property of all edges is checked block by block. -/
theorem ofNodes_forall_edge {P : Nat → Nat → Prop}
    (h : ∀ a < nodes.length, ∀ b ∈ (ofNodes nodes entryBlock exitBlock).edges a, P a b)
    {a b : Nat} (hab : (ofNodes nodes entryBlock exitBlock).Edge a b) : P a b := by
  refine h a ?_ b hab
  by_contra ha
  simp [Edge, edges, ofNodes_outside (Nat.le_of_not_lt ha)] at hab

/-- Being well formed is checked block by block. -/
theorem ofNodes_wellFormed {c : CFGStructurizer} (hc : c = ofNodes nodes entryBlock exitBlock)
    (hentry : c.entryBlock < c.size) (hexit : c.exitBlock < c.size)
    (hne : c.exitBlock ≠ c.entryBlock) (hexits : c.edges c.exitBlock = [])
    (hexitPreds : c.predEdges c.exitBlock = [])
    (hedges : ∀ a < c.size, ∀ b ∈ c.edges a, b < c.size ∧ a ∈ c.predEdges b)
    (hpreds : ∀ b < c.size, ∀ a ∈ c.predEdges b, b ∈ c.edges a)
    (hnodup : ∀ a < c.size, (c.edges a).Nodup ∧ (c.predEdges a).Nodup) : c.WellFormed := by
  have hout : ∀ n, c.size ≤ n → c.node n = {} := by
    subst hc
    exact fun n hn => ofNodes_outside hn
  have hlt : ∀ a b, b ∈ c.edges a → a < c.size := by
    intro a b hab
    by_contra ha
    simp [edges, hout a (Nat.le_of_not_lt ha)] at hab
  have hlt' : ∀ a b, a ∈ c.predEdges b → b < c.size := by
    intro a b hab
    by_contra hb
    simp [predEdges, hout b (Nat.le_of_not_lt hb)] at hab
  have hnd : ∀ n, (c.edges n).Nodup ∧ (c.predEdges n).Nodup := by
    intro n
    by_cases hn : n < c.size
    · exact hnodup n hn
    · simp [edges, predEdges, hout n (Nat.le_of_not_lt hn)]
  exact
    { entry_lt := hentry
      inside := fun a b hab => (hedges a (hlt a b hab) b hab).1
      nodup_edges := fun n => (hnd n).1
      exit_lt := hexit
      exit_ne_entry := hne
      exit_edges := hexits
      exit_predEdges := hexitPreds
      outside := hout
      mem_predEdges := fun a b =>
        ⟨fun h => hpreds b (hlt' a b h) a h, fun h => (hedges a (hlt a b h) b h).2⟩
      nodup_predEdges := fun n => (hnd n).2 }

/-- `CFGNode::add_branch`. -/
def addBranch (c : CFGStructurizer) (n dst : Nat) : Except Fault CFGStructurizer := do
  check (dst ∉ (c.node n).fakeSucc)
  let c := c.modify n (.mapSucc (addUnique · dst))
  return c.modify dst (.mapPred (addUnique · n))

/-- Adding a branch succeeds when it is not a fake one already. -/
theorem addBranch_ok {c : CFGStructurizer} {n dst : Nat} (h : dst ∉ (c.node n).fakeSucc) :
    c.addBranch n dst = .ok ((c.modify n (.mapSucc (addUnique · dst))).modify dst
      (.mapPred (addUnique · n))) := by
  simp [addBranch, h]

/-- `CFGNode::add_fake_branch`. -/
def addFakeBranch (c : CFGStructurizer) (n dst : Nat) : CFGStructurizer :=
  if dst ∈ (c.node n).succ then c
  else
    let c := c.modify n fun x => { x with fakeSucc := addUnique x.fakeSucc dst }
    c.modify dst fun x => { x with fakePred := addUnique x.fakePred n }

/-- The writes of `retarget_branch_pre_traversal`. -/
def retargeted (c : CFGStructurizer) (n toPrev toNext : Nat) : CFGStructurizer :=
  let c := c.modify toPrev (.mapPred (·.erase n))
  let c := c.modify n (.mapSucc (·.replace toPrev toNext))
  -- a predecessor that just became unreachable is replaced in place
  let c := c.modify toNext (.mapPred fun l =>
    if (c.node toPrev).pred = [] ∧ (c.node toPrev).predBackEdge = none ∧ toPrev ∈ l then
      l.replace toPrev n
    else addUnique l n)
  c.modify n (.mapTerminator (·.retarget toPrev toNext))

/-- `CFGNode::retarget_branch_pre_traversal`. -/
def retargetBranchPreTraversal (c : CFGStructurizer) (n toPrev toNext : Nat) :
    Except Fault CFGStructurizer := do
  check (toPrev ∈ (c.node n).succ)
  check (n ∈ (c.node toPrev).pred)
  check (toNext ∉ (c.node n).succ)
  check (n ∉ (c.node toNext).pred)
  return c.retargeted n toPrev toNext

/-- Nothing but the contents and the edges of blocks differs. -/
structure EdgesOnly (c c' : CFGStructurizer) : Prop where
  pool : c' = { c with node := c'.node }
  node : ∀ n, c'.node n =
    { c.node n with ir := (c'.node n).ir, succ := (c'.node n).succ, pred := (c'.node n).pred }

/-- A pool differs from itself in nothing. -/
theorem EdgesOnly.refl (c : CFGStructurizer) : EdgesOnly c c := ⟨rfl, fun _ => rfl⟩

/-- Two changes of edges make a change of edges. -/
theorem EdgesOnly.trans {c c' c'' : CFGStructurizer} (h : EdgesOnly c c')
    (h' : EdgesOnly c' c'') : EdgesOnly c c'' := by
  refine ⟨?_, fun n => ?_⟩
  · rw [h'.pool, h.pool]
  · rw [h'.node n, h.node n]

/-- A write to the contents and the edges of one block. -/
theorem EdgesOnly.modify (c : CFGStructurizer) (n : Nat) (f : CFGNode → CFGNode)
    (hf : ∀ x, f x = { x with ir := (f x).ir, succ := (f x).succ, pred := (f x).pred }) :
    EdgesOnly c (c.modify n f) := by
  refine ⟨rfl, fun m => ?_⟩
  rw [modify_node]
  split
  · rename_i h
    rw [h]
    exact hf _
  · rfl

variable {n} {p q : Nat}

/-- A retargeted branch changes edges and terminators only. -/
theorem retargeted_edgesOnly (n p q : Nat) : EdgesOnly c (c.retargeted n p q) := by
  dsimp only [retargeted]
  exact .trans (.trans (.trans (.modify _ _ _ fun _ => rfl) (.modify _ _ _ fun _ => rfl))
    (.modify _ _ _ fun _ => rfl)) (.modify _ _ _ fun _ => rfl)

/-- Only the retargeted block changes its successors. -/
theorem retargeted_succ (x : Nat) : ((c.retargeted n p q).node x).succ =
    if x = n then (c.node x).succ.replace p q else (c.node x).succ := by
  simp [retargeted]

/-- The old target loses the block as a predecessor and the new one gains it. -/
theorem retargeted_pred (hpq : p ≠ q) (x : Nat) : ((c.retargeted n p q).node x).pred =
    if x = p then (c.node x).pred.erase n
    else if x = q then
      if (c.node p).pred.erase n = [] ∧ (c.node p).predBackEdge = none ∧ p ∈ (c.node x).pred then
        (c.node x).pred.replace p n
      else addUnique (c.node x).pred n
    else (c.node x).pred := by
  simp only [retargeted, modify_mapTerminator_pred, modify_mapPred_pred, modify_mapSucc_pred,
    modify_mapSucc_predBackEdge, modify_mapPred_predBackEdge, if_true]
  by_cases hp : x = p
  · have hq : x ≠ q := fun h => hpq (hp.symm.trans h)
    rw [if_neg hq, if_pos hp, if_pos hp]
  · rw [if_neg hp, if_neg hp]

/-- Retargeting succeeds when both ends record the old edge and neither the new one. -/
theorem retargetBranchPreTraversal_ok (h1 : p ∈ (c.node n).succ) (h2 : n ∈ (c.node p).pred)
    (h3 : q ∉ (c.node n).succ) (h4 : n ∉ (c.node q).pred) :
    c.retargetBranchPreTraversal n p q = .ok (c.retargeted n p q) := by
  simp [retargetBranchPreTraversal, h1, h2, h3, h4]

end CFGStructurizer

end DxilSpirv
