import DxilSpirv.Memory.AllocatorSafety

/-!
# Blocks are used again

After a reset, requests that were served before are served from the same blocks: they get the same
addresses, and `malloc` is not called. A block that came back null is also used again. If it is not
the first one, the allocator goes wrong: it adds an offset to null.
-/

namespace DxilSpirv.Memory

open DxilSpirv.Program Stoppable

section Growth

variable {malloc : Malloc} {α β : Type} {m : Allocating α} {f : α → Allocating β} {size : Nat}

/-- The memory of the chain. -/
def ChainAllocator.chain (s : ChainAllocator) : List Region := s.blocks.map Block.region

/-- A program that only adds to the chain. -/
def Grows (m : Allocating α) : Prop := ∀ s a s', m s = .ok (a, s') → s.chain <+: s'.chain

/-- To return a value takes no block. -/
theorem grows_pure (a : α) : Grows (pure a : Allocating α) := by
  intro s b s' h
  obtain ⟨-, rfl⟩ := pure_runs.mp h
  exact List.prefix_rfl

/-- Two programs in a row keep the chain if each does. -/
theorem Grows.bind (hm : Grows m) (hf : ∀ a, Grows (f a)) : Grows (m >>= f) := by
  intro s b s' h
  obtain ⟨a, t, hrun, hrest⟩ := bind_runs.mp h
  exact (hm s a t hrun).trans (hf a t b s' hrest)

/-- To ensure an index only adds blocks. -/
theorem grows_ensureIndex (malloc : Malloc) : Grows (ensureIndex malloc) := by
  intro s ok s' h
  unfold ensureIndex at h
  rw [bind_of_ok (rfl : (get : Allocating ChainAllocator) s = .ok (s, s))] at h
  split_ifs at h
  · obtain ⟨rfl, rfl⟩ := Prod.mk.inj (Except.ok.inj h)
    refine ⟨[⟨malloc.answer s.mallocs s.live BLOCK_SIZE, BLOCK_SIZE⟩], ?_⟩
    simp only [ChainAllocator.chain, List.map_append]
    rfl
  · obtain ⟨-, rfl⟩ := pure_runs.mp h
    exact List.prefix_rfl

/-- To allocate in a block keeps the chain. -/
theorem grows_allocateAtIndex (size : Nat) : Grows (allocateAtIndex size) := by
  intro s p s' h
  obtain ⟨b, b', hb, hrun, rfl⟩ := allocateAtIndex_runs h
  exact ⟨[], (List.append_nil _).trans (map_region_set hb (Block.allocate_region hrun)).symm⟩

/-- To allocate in the next block only adds blocks. -/
theorem grows_allocateNext (malloc : Malloc) (size : Nat) : Grows (allocateNext malloc size) := by
  unfold allocateNext
  have hmodify :
      Grows (modify fun s : ChainAllocator => { s with blockIndex := s.blockIndex + 1 }) := by
    intro s a s' h
    obtain rfl := modify_runs.mp h
    exact List.prefix_rfl
  refine hmodify.bind fun _ => (grows_ensureIndex malloc).bind fun ok => ?_
  split_ifs
  · exact grows_allocateAtIndex size
  · exact grows_pure 0

/-- An allocation of block size only adds blocks. -/
theorem grows_allocate (malloc : Malloc) (hsize : size ≤ BLOCK_SIZE) :
    Grows (allocate malloc size) := by
  intro s p s' h
  obtain ⟨ok, s₁, hensure, ⟨-, -, rfl⟩ | ⟨-, q, s₂, hat, ⟨-, -, rfl⟩ | ⟨-, hnext⟩⟩⟩ :=
    (allocate_runs hsize).mp h
  · exact grows_ensureIndex malloc s ok s₁ hensure
  · exact (grows_ensureIndex malloc s ok s₁ hensure).trans (grows_allocateAtIndex size s₁ q s₂ hat)
  · exact ((grows_ensureIndex malloc s ok s₁ hensure).trans
      (grows_allocateAtIndex size s₁ q s₂ hat)).trans
      (grows_allocateNext malloc size s₂ p s' hnext)

/-- Allocations, one after the other. -/
def allocateAll (malloc : Malloc) : List Nat → Allocating (List Nat)
  | [] => pure []
  | size :: sizes => do
    let p ← allocate malloc size
    let ps ← allocateAll malloc sizes
    pure (p :: ps)

/-- Allocations of block size only add blocks. -/
theorem grows_allocateAll (malloc : Malloc) {sizes : List Nat}
    (hsizes : ∀ size ∈ sizes, size ≤ BLOCK_SIZE) :
    Grows (allocateAll malloc sizes) := by
  induction sizes with
  | nil => exact grows_pure []
  | cons size sizes ih =>
    obtain ⟨hsize, hsizes⟩ := List.forall_mem_cons.mp hsizes
    exact (grows_allocate malloc hsize).bind fun _ => (ih hsizes).bind fun _ => grows_pure _

end Growth

section Replay

variable {malloc : Malloc} {size calls : Nat} {chain : List Region} {a a' c : ChainAllocator}

/-- An allocator that has the whole chain from the beginning, and otherwise does what another one
does. -/
structure ReplayOf (chain : List Region) (calls : Nat) (a c : ChainAllocator) : Prop where
  index_le : a.blockIndex ≤ a.blocks.length
  chain_eq : c.chain = chain
  ahead : ∃ extra, c = { a with blocks := a.blocks ++ extra, mallocs := calls } ∧ ∀ b ∈ extra,
    b.offset = 0

/-- A new block is the next one of the chain. -/
theorem ReplayOf.ensureIndex (malloc' : Malloc) (h : ReplayOf chain calls a c)
    (hchain : ∀ r ∈ chain, r.base ≠ 0) {ok : Bool} (hrun : ensureIndex malloc a = .ok (ok, a'))
    (hfront : a'.chain <+: chain) :
    ok = true ∧ ∃ c', Memory.ensureIndex malloc' c =
      .ok (true, c') ∧ ReplayOf chain calls a' c' := by
  obtain ⟨extra, hc, hextra⟩ := h.ahead
  have hindex := h.index_le
  have hlater (hlt : a.blockIndex < c.blocks.length) :
      Memory.ensureIndex malloc' c = .ok (true, c) := by
    unfold Memory.ensureIndex
    rw [bind_of_ok (rfl : (get : Allocating ChainAllocator) c = .ok (c, c)), if_neg]
    · rfl
    · rw [hc] at hlt ⊢
      exact Nat.not_le.mpr hlt
  unfold Memory.ensureIndex at hrun
  rw [bind_of_ok (rfl : (get : Allocating ChainAllocator) a = .ok (a, a))] at hrun
  by_cases hlen : a.blocks.length ≤ a.blockIndex
  · rw [if_pos hlen] at hrun
    obtain ⟨rfl, rfl⟩ := Prod.mk.inj (Except.ok.inj hrun)
    have heq : chain = a.chain ++ extra.map Block.region := by
      rw [← h.chain_eq, hc, ChainAllocator.chain, List.map_append]
      rfl
    have hnext : [(⟨malloc.answer a.mallocs a.live BLOCK_SIZE, BLOCK_SIZE⟩ : Region)] <+:
        extra.map Block.region := by
      rw [heq] at hfront
      unfold ChainAllocator.chain at hfront
      simp only [List.map_append] at hfront
      exact (List.prefix_append_right_inj _).mp hfront
    cases extra with
    | nil => exact absurd (List.prefix_nil.mp hnext) (List.cons_ne_nil _ _)
    | cons e extra =>
      obtain ⟨hoffset, hextra⟩ := List.forall_mem_cons.mp hextra
      obtain ⟨hregion, -⟩ := List.cons_prefix_cons.mp hnext
      have he :
          e = { block := malloc.answer a.mallocs a.live BLOCK_SIZE, blockSize := BLOCK_SIZE } := by
        obtain ⟨block, offset, blockSize⟩ := e
        obtain ⟨rfl, rfl⟩ := Region.mk.inj hregion
        rw [show offset = 0 from hoffset]
      have hnull : malloc.answer a.mallocs a.live BLOCK_SIZE ≠ 0 := by
        refine hchain ⟨_, BLOCK_SIZE⟩ ?_
        rw [heq, List.map_cons, ← hregion]
        exact List.mem_append_right _ List.mem_cons_self
      refine ⟨decide_eq_true hnull, c, hlater ?_, ⟨?_, h.chain_eq, extra, ?_, hextra⟩⟩
      · rw [hc, List.length_append, List.length_cons]
        omega
      · simp only [List.length_append, List.length_singleton]
        omega
      · rw [hc, he]
        simp only [List.append_assoc, List.singleton_append]
  · rw [if_neg hlen] at hrun
    obtain ⟨rfl, rfl⟩ := pure_runs.mp hrun
    refine ⟨rfl, c, hlater ?_, h⟩
    rw [hc, List.length_append]
    omega

/-- The current block is the same one. -/
theorem ReplayOf.allocateAtIndex (h : ReplayOf chain calls a c) {p : Nat}
    (hrun : allocateAtIndex size a = .ok (p, a')) :
    ∃ c', Memory.allocateAtIndex size c = .ok (p, c') ∧ ReplayOf chain calls a' c' ∧
      a'.blockIndex < a'.blocks.length := by
  obtain ⟨extra, hc, hextra⟩ := h.ahead
  obtain ⟨b, b', hb, hblock, rfl⟩ := allocateAtIndex_runs hrun
  have hlt : a.blockIndex < a.blocks.length := (List.getElem?_eq_some_iff.mp hb).1
  have hbc : c.blocks[c.blockIndex]? = some b := by
    rw [hc]
    exact (List.getElem?_append_left hlt).trans hb
  refine ⟨{ c with blocks := c.blocks.set c.blockIndex b' }, ?_, ⟨?_, ?_, extra, ?_, hextra⟩, ?_⟩
  · unfold Memory.allocateAtIndex
    rw [hbc]
    simp only [hblock]
    rfl
  · simpa only [List.length_set] using h.index_le
  · rw [← h.chain_eq, ChainAllocator.chain, ChainAllocator.chain,
      map_region_set hbc (Block.allocate_region hblock)]
  · rw [hc]
    simp only [List.set_append_left _ _ hlt]
  · simpa only [List.length_set] using hlt

/-- The next block is the same one. -/
theorem ReplayOf.allocateNext (malloc' : Malloc) (h : ReplayOf chain calls a c)
    (hlt : a.blockIndex < a.blocks.length) (hchain : ∀ r ∈ chain, r.base ≠ 0) {p : Nat}
    (hrun : allocateNext malloc size a = .ok (p, a')) (hfront : a'.chain <+: chain) :
    ∃ c', Memory.allocateNext malloc' size c = .ok (p, c') ∧ ReplayOf chain calls a' c' := by
  obtain ⟨extra, hc, hextra⟩ := h.ahead
  have hnext : ReplayOf chain calls { a with blockIndex := a.blockIndex + 1 }
      { c with blockIndex := c.blockIndex + 1 } :=
    ⟨hlt, h.chain_eq, extra, by rw [hc], hextra⟩
  unfold Memory.allocateNext at hrun ⊢
  obtain ⟨u, a₁, hmodify, hrun⟩ := bind_runs.mp hrun
  obtain rfl := modify_runs.mp hmodify
  obtain ⟨ok, a₂, hensure, hrun⟩ := bind_runs.mp hrun
  rw [bind_of_ok (rfl : (modify _ : Allocating PUnit) c =
    .ok (⟨⟩, { c with blockIndex := c.blockIndex + 1 }))]
  have hgrows : a₂.chain <+: a'.chain := by
    split_ifs at hrun
    · exact grows_allocateAtIndex size a₂ p a' hrun
    · exact grows_pure 0 a₂ p a' hrun
  obtain ⟨rfl, c₂, hensure', h₂⟩ := hnext.ensureIndex malloc' hchain hensure (hgrows.trans hfront)
  rw [if_neg (not_not.mpr rfl)] at hrun
  obtain ⟨c', hat, h', -⟩ := h₂.allocateAtIndex hrun
  refine ⟨c', (bind_of_ok hensure').trans ?_, h'⟩
  rw [if_neg (not_not.mpr rfl)]
  exact hat

/-- An allocation is the same one. -/
theorem ReplayOf.allocate (malloc' : Malloc) (h : ReplayOf chain calls a c)
    (hsize : size ≤ BLOCK_SIZE) (hchain : ∀ r ∈ chain, r.base ≠ 0) {p : Nat}
    (hrun : allocate malloc size a = .ok (p, a')) (hfront : a'.chain <+: chain) :
    ∃ c', Memory.allocate malloc' size c = .ok (p, c') ∧ ReplayOf chain calls a' c' := by
  obtain ⟨ok, a₁, hensure, hrest⟩ := (allocate_runs hsize).mp hrun
  have hgrows : a₁.chain <+: a'.chain := by
    rcases hrest with ⟨-, -, rfl⟩ | ⟨-, q, a₂, hat, ⟨-, -, rfl⟩ | ⟨-, hnext⟩⟩
    · exact List.prefix_rfl
    · exact grows_allocateAtIndex size a₁ q a₂ hat
    · exact (grows_allocateAtIndex size a₁ q a₂ hat).trans
        (grows_allocateNext malloc size a₂ p a' hnext)
  obtain ⟨rfl, c₁, hensure', h₁⟩ := h.ensureIndex malloc' hchain hensure (hgrows.trans hfront)
  rcases hrest with ⟨hok, -, -⟩ | ⟨-, q, a₂, hat, hrest⟩
  · cases hok
  obtain ⟨c₂, hat', h₂, hlt⟩ := h₁.allocateAtIndex hat
  rcases hrest with ⟨hq, rfl, rfl⟩ | ⟨rfl, hnext⟩
  · exact ⟨c₂, (allocate_runs hsize).mpr ⟨true, c₁, hensure',
      Or.inr ⟨rfl, q, c₂, hat', Or.inl ⟨hq, rfl, rfl⟩⟩⟩, h₂⟩
  · obtain ⟨c', hnext', h'⟩ := h₂.allocateNext malloc' hlt hchain hnext hfront
    exact ⟨c', (allocate_runs hsize).mpr ⟨true, c₁, hensure',
      Or.inr ⟨rfl, 0, c₂, hat', Or.inr ⟨rfl, hnext'⟩⟩⟩, h'⟩

/-- A run is the same one. -/
theorem ReplayOf.allocateAll (malloc' : Malloc) (h : ReplayOf chain calls a c) {sizes : List Nat}
    (hsizes : ∀ size ∈ sizes, size ≤ BLOCK_SIZE) (hchain : ∀ r ∈ chain, r.base ≠ 0) {ps : List Nat}
    (hrun : allocateAll malloc sizes a = .ok (ps, a')) (hfront : a'.chain <+: chain) :
    ∃ c', Memory.allocateAll malloc' sizes c = .ok (ps, c') ∧ ReplayOf chain calls a' c' := by
  induction sizes generalizing a c ps with
  | nil =>
    obtain ⟨rfl, rfl⟩ := pure_runs.mp hrun
    exact ⟨c, rfl, h⟩
  | cons size sizes ih =>
    obtain ⟨hsize, hsizes⟩ := List.forall_mem_cons.mp hsizes
    obtain ⟨p, a₁, hallocate, hrun⟩ := bind_runs.mp hrun
    obtain ⟨ps', a₂, hrest, hlast⟩ := bind_runs.mp hrun
    obtain ⟨rfl, rfl⟩ := pure_runs.mp hlast
    have hgrows := grows_allocateAll malloc hsizes a₁ ps' a₂ hrest
    obtain ⟨c₁, hallocate', h₁⟩ := h.allocate malloc' hsize hchain hallocate (hgrows.trans hfront)
    obtain ⟨c', hrest', h'⟩ := ih h₁ hsizes hrest
    exact ⟨c', (bind_of_ok hallocate').trans (bind_of_ok hrest'), h'⟩

end Replay

variable {a a' : ChainAllocator}

/-- The blocks after a reset are those of the chain, unused. -/
theorem reset_blocks (a : ChainAllocator) :
    a.reset.blocks = a.chain.map fun r => { block := r.base, blockSize := r.size } := by
  rw [ChainAllocator.chain, List.map_map]
  rfl

/-- A reset keeps the blocks. -/
theorem reset_chain (a : ChainAllocator) : a.reset.chain = a.chain := by
  rw [ChainAllocator.chain, reset_blocks, List.map_map]
  exact List.map_id _

/-- What was served from unused blocks is served in the same way after a reset, with the same
addresses and without `malloc`, unless that gave null before. -/
theorem allocateAll_reset (malloc malloc' : Malloc) {sizes ps : List Nat}
    (hsizes : ∀ size ∈ sizes, size ≤ BLOCK_SIZE) (hreset : a.reset = a)
    (hrun : allocateAll malloc sizes a = .ok (ps, a')) (hwhole : ∀ b ∈ a'.blocks, b.block ≠ 0) :
    allocateAll malloc' sizes a'.reset = .ok (ps, a') := by
  have hindex : a.blockIndex = 0 := (congrArg ChainAllocator.blockIndex hreset).symm
  have hhuge : a.hugeBlocks = [] := (congrArg ChainAllocator.hugeBlocks hreset).symm
  have hchain : ∀ r ∈ a'.chain, r.base ≠ 0 := by
    intro r hr
    obtain ⟨b, hb, rfl⟩ := List.mem_map.mp hr
    exact hwhole b hb
  have hstart : ReplayOf a'.chain a'.mallocs a a'.reset := by
    have hfront : a.blocks <+: a'.reset.blocks := by
      rw [← congrArg ChainAllocator.blocks hreset, reset_blocks, reset_blocks]
      exact (grows_allocateAll malloc hsizes a ps a' hrun).map _
    obtain ⟨extra, hextra⟩ := hfront
    refine ⟨hindex ▸ Nat.zero_le _, reset_chain a', extra, ?_, fun b hb => ?_⟩
    · rw [hextra, hindex, hhuge]
      rfl
    · have hmem : b ∈ a'.reset.blocks := hextra ▸ List.mem_append_right _ hb
      obtain ⟨b', -, rfl⟩ := List.mem_map.mp hmem
      rfl
  obtain ⟨c', hrun', hend⟩ := hstart.allocateAll malloc' hsizes hchain hrun List.prefix_rfl
  obtain ⟨extra, hc, -⟩ := hend.ahead
  have hnil : extra = [] := by
    have hlength := congrArg List.length hend.chain_eq
    rw [hc] at hlength
    simp only [ChainAllocator.chain, List.length_map, List.length_append] at hlength
    exact List.eq_nil_of_length_eq_zero (by omega)
  rw [hnil, List.append_nil] at hc
  rw [hrun', hc]

/-- Two blocks, the first of them used up. -/
def sampleChain : ChainAllocator where
  blocks := [⟨16, 65536, 65536⟩, ⟨65568, 65128, 65536⟩]
  blockIndex := 1
  mallocs := 2

theorem allocateAll_reset_sample :
    allocateAll (.above fun _ => true) [65536, 100, 7, 65000] sampleChain.reset =
    .ok ([16, 65568, 65680, 65696], sampleChain) :=
  @allocateAll_reset {} sampleChain (.above fun _ => false)
    (.above fun _ => true) _ _ (by decide) rfl rfl (by decide)

variable {malloc : Malloc} {size : Nat} {done rest : List Block} {b c : Block}

/-- A block that has no room, or that is null and unused. -/
structure Block.Spent (b : Block) : Prop where
  size_eq : b.blockSize = BLOCK_SIZE
  spent : b.block ≠ 0 ∧ b.offset = BLOCK_SIZE ∨ b.block = 0 ∧ b.offset = 0

/-- A block at the index is used. -/
theorem ensureIndex_of_lt (malloc : Malloc) (hlt : a.blockIndex < a.blocks.length) :
    ensureIndex malloc a = .ok (true, a) := by
  unfold ensureIndex
  rw [bind_of_ok (rfl : (get : Allocating ChainAllocator) a = .ok (a, a)),
    if_neg (Nat.not_le.mpr hlt)]
  rfl

/-- An allocation from the block at the index. -/
theorem allocateAtIndex_eq {p : Nat} {b' : Block} (hblocks : a.blocks = done ++ b :: rest)
    (hindex : a.blockIndex = done.length) (hb : b.allocate size = .ok (p, b')) :
    allocateAtIndex size a = .ok (p, { a with blocks := done ++ b' :: rest }) := by
  have hget : a.blocks[a.blockIndex]? = some b := by
    rw [hblocks, hindex, List.getElem?_append_right le_rfl, Nat.sub_self]
    rfl
  unfold allocateAtIndex
  rw [hget]
  simp only [hb, hblocks, hindex, List.set_append_right _ _ le_rfl, Nat.sub_self,
    List.set_cons_zero]
  rfl

/-- All of an unused block is allocated at once. -/
theorem Block.allocate_unused (hsize : c.blockSize = BLOCK_SIZE) (hoffset : c.offset = 0)
    (hle : size ≤ BLOCK_SIZE) :
    c.allocate size = .ok (c.block, { c with offset := size }) := by
  unfold Block.allocate
  simp only [hsize, hoffset]
  rw [if_pos (by omega), if_neg (by simp)]
  simp

/-- An allocation from the block after a spent one, which is unused. -/
theorem allocate_spent (malloc : Malloc) (hblocks : a.blocks = done ++ b :: c :: rest)
    (hindex : a.blockIndex = done.length) (hb : b.Spent) (hsize : c.blockSize = BLOCK_SIZE)
    (hoffset : c.offset = 0) (hpos : 0 < size) (hle : size ≤ BLOCK_SIZE) :
    ∃ b', allocate malloc size a = .ok (c.block,
      { a with
        blocks := (done ++ [b']) ++ { c with offset := size } :: rest
        blockIndex := (done ++ [b']).length }) := by
  have hlength : a.blocks.length = done.length + (rest.length + 2) := by
    rw [hblocks, List.length_append, List.length_cons, List.length_cons]
  obtain ⟨b', hb'⟩ : ∃ b', b.allocate size = .ok (0, b') := by
    unfold Block.allocate
    simp only [hb.size_eq]
    rcases hb.spent with ⟨hnull, hfull⟩ | ⟨hnull, hzero⟩
    · rw [hfull, if_neg (by unfold BLOCK_SIZE; omega)]
      exact ⟨_, rfl⟩
    · rw [hzero, hnull, if_pos (by omega), if_neg (by simp)]
      exact ⟨_, rfl⟩
  have hat := allocateAtIndex_eq hblocks hindex hb'
  have hnext : allocateNext malloc size { a with blocks := done ++ b' :: c :: rest } = .ok (c.block,
      { a with
        blocks := (done ++ [b']) ++ { c with offset := size } :: rest
        blockIndex := (done ++ [b']).length }) := by
    have hindex' : a.blockIndex + 1 = (done ++ [b']).length := by
      rw [hindex, List.length_append, List.length_singleton]
    have hat' := allocateAtIndex_eq (a := { a with
      blocks := done ++ b' :: c :: rest
      blockIndex := a.blockIndex + 1 }) (List.append_cons ..) hindex'
        (Block.allocate_unused hsize hoffset hle)
    have hensure := ensureIndex_of_lt (a := { a with
      blocks := done ++ b' :: c :: rest
      blockIndex := a.blockIndex + 1 }) malloc
        (by simp only [List.length_append, List.length_cons]; omega)
    refine (bind_of_ok (rfl : (modify _ : Allocating PUnit) _ = .ok _)).trans
      ((bind_of_ok hensure).trans ?_)
    rw [if_neg (not_not.mpr rfl), hat']
    simp only [hindex']
  exact ⟨b', (allocate_runs hle).mpr ⟨true, a, ensureIndex_of_lt malloc (by omega),
    Or.inr ⟨rfl, 0, _, hat, Or.inr ⟨rfl, hnext⟩⟩⟩⟩

/-- A program stops where its first step does. -/
theorem bind_of_error {α β : Type} {m : Allocating α} {f : α → Allocating β} {e : Stop}
    (h : m a = .error e) :
    (m >>= f) a = .error e := by
  change (m a >>= fun r => f r.1 r.2) = _
  rw [h]
  rfl

/-- An allocation stops where the current block does. -/
theorem allocate_of_error (malloc : Malloc) {e : Stop} (hblocks : a.blocks = done ++ b :: rest)
    (hindex : a.blockIndex = done.length) (hle : size ≤ BLOCK_SIZE)
    (hb : b.allocate size = .error e) :
    allocate malloc size a = .error e := by
  have hlength : a.blocks.length = done.length + (rest.length + 1) := by
    rw [hblocks, List.length_append, List.length_cons]
  have hat : allocateAtIndex size a = .error e := by
    unfold allocateAtIndex
    rw [hblocks, hindex, List.getElem?_append_right le_rfl, Nat.sub_self]
    simp only [List.getElem?_cons_zero, hb]
    rfl
  unfold allocate
  rw [if_neg (Nat.not_lt.mpr hle), bind_of_ok (ensureIndex_of_lt malloc (by omega)),
    if_neg (not_not.mpr rfl)]
  exact bind_of_error hat

/-- After a spent block, a null block leads to an offset from null. -/
theorem exists_nullOffset (malloc : Malloc) (hblocks : a.blocks = done ++ b :: rest)
    (hindex : a.blockIndex = done.length) (hb : b.Spent)
    (hrest : ∀ c ∈ rest, c.blockSize = BLOCK_SIZE ∧ c.offset = 0)
    (hnull : ∃ c ∈ rest, c.block = 0) :
    ∃ sizes, allocateAll malloc sizes a = .error .nullOffset := by
  induction rest generalizing a done b with
  | nil =>
    obtain ⟨c, hc, -⟩ := hnull
    cases hc
  | cons c rest ih =>
    obtain ⟨⟨hsize, hoffset⟩, hrest⟩ := List.forall_mem_cons.mp hrest
    by_cases hc : c.block = 0
    · -- The null block gives null once, and after that an offset from null.
      obtain ⟨b', hrun⟩ := @allocate_spent a 16 done rest b c malloc hblocks hindex hb hsize hoffset
        (by decide) (by decide)
      have herror : ({ c with offset := 16 } : Block).allocate 16 = .error .nullOffset := by
        unfold Block.allocate
        simp only [hsize, hc]
        rfl
      have hstop := allocate_of_error (a := { a with
        blocks := (done ++ [b']) ++ { c with offset := 16 } :: rest
        blockIndex := (done ++ [b']).length }) malloc rfl rfl (by decide) herror
      exact ⟨[16, 16], (bind_of_ok hrun).trans (bind_of_error (bind_of_error hstop))⟩
    · obtain ⟨b', hrun⟩ := @allocate_spent a BLOCK_SIZE done rest b c malloc hblocks hindex hb hsize
        hoffset (by decide) le_rfl
      have hspent : ({ c with offset := BLOCK_SIZE } : Block).Spent := ⟨hsize, Or.inl ⟨hc, rfl⟩⟩
      obtain ⟨d, hd, hnull⟩ := hnull
      have hnull' : ∃ d ∈ rest, d.block = 0 :=
        ⟨d, (List.mem_cons.mp hd).resolve_left fun h => hc (h ▸ hnull), hnull⟩
      obtain ⟨sizes, herror⟩ := @ih { a with
        blocks := (done ++ [b']) ++ { c with offset := BLOCK_SIZE } :: rest
        blockIndex := (done ++ [b']).length } _ _ rfl rfl hspent hrest hnull'
      exact ⟨BLOCK_SIZE :: sizes, (bind_of_ok hrun).trans (bind_of_error herror)⟩

/-- Requests to allocate stop where the allocations do. -/
theorem serveAll_allocate_error {s : Session} {sizes : List Nat} {e : Stop}
    (h : allocateAll malloc sizes s.allocator = .error e) :
    serveAll malloc (sizes.map .allocate) s = .error e := by
  induction sizes generalizing s with
  | nil => cases h
  | cons size sizes ih =>
    unfold serveAll at ih ⊢
    rw [List.map_cons, List.foldlM_cons]
    change (Except.map _ (allocate malloc size s.allocator) >>= _) = _
    cases hallocate : allocate malloc size s.allocator with
    | error e' =>
      obtain rfl : e' = e := Except.error.inj ((bind_of_error hallocate).symm.trans h)
      rfl
    | ok r =>
      refine @ih { allocator := r.2, given := if r.1 = 0 then s.given else ⟨r.1, size⟩ :: s.given }
        ?_
      have hrest := (bind_of_ok hallocate).symm.trans h
      cases hall : allocateAll malloc sizes r.2 with
      | error e' => rw [Except.error.inj ((bind_of_error hall).symm.trans hrest)]
      | ok r' => cases (bind_of_ok hall).symm.trans hrest

/-- After a run and a reset, all allocations go on exactly when no block but the first one came back
null. -/
theorem reset_allocate_iff (malloc : Malloc) {requests : List Request} {s : Session}
    (hrun : serveAll malloc requests {} = .ok s) :
    (∀ sizes : List Nat, ∃ s', serveAll malloc (.reset :: sizes.map .allocate) s = .ok s') ↔
      ∀ b ∈ s.allocator.blocks.tail, b.block ≠ 0 := by
  have hown : s.allocator.Owns s.given := serveAll_owns (s := {}) inv_empty.toOwns hrun
  have hreset (sizes : List Nat) : serveAll malloc (.reset :: sizes.map .allocate) s =
      serveAll malloc (sizes.map .allocate) { allocator := s.allocator.reset } := rfl
  constructor
  · intro hall b hb hnull
    have hunused {c : Block} (hc : c ∈ s.allocator.reset.blocks) : c.blockSize = BLOCK_SIZE ∧
        c.offset = 0 := by
      obtain ⟨d, hd, rfl⟩ := List.mem_map.mp hc
      exact ⟨hown.size_eq d hd, rfl⟩
    obtain ⟨first, rest, hblocks⟩ : ∃ first rest, s.allocator.blocks = first :: rest := by
      cases h : s.allocator.blocks with
      | nil =>
        rw [h] at hb
        cases hb
      | cons first rest => exact ⟨first, rest, rfl⟩
    have hreset' : s.allocator.reset.blocks =
        { first with offset := 0 } :: rest.map fun b => { b with offset := 0 } := by
      change s.allocator.blocks.map (fun b : Block => ({ b with offset := 0 } : Block)) = _
      rw [hblocks]
      rfl
    obtain ⟨hfirst, hrest⟩ := List.forall_mem_cons.mp fun c hc => hunused (hreset' ▸ hc)
    have hnull' : ∃ c ∈ rest.map fun b : Block => ({ b with offset := 0 } : Block),
        c.block = 0 := by
      rw [hblocks] at hb
      exact ⟨_, List.mem_map_of_mem hb, hnull⟩
    obtain ⟨sizes, herror⟩ : ∃ sizes,
        allocateAll malloc sizes s.allocator.reset = .error .nullOffset := by
      by_cases hzero : first.block = 0
      · exact @exists_nullOffset _ [] _ _ malloc hreset' rfl
          ⟨hfirst.1, Or.inr ⟨hzero, rfl⟩⟩ hrest hnull'
      · -- The first block is used up at once.
        have hat := @allocateAtIndex_eq _ BLOCK_SIZE [] _ _ _ _ hreset' rfl
          (Block.allocate_unused hfirst.1 rfl le_rfl)
        have hindex : s.allocator.reset.blockIndex < s.allocator.reset.blocks.length := by
          rw [hreset']
          exact Nat.zero_lt_succ _
        have hfill := (allocate_runs le_rfl).mpr ⟨true, _, ensureIndex_of_lt malloc hindex,
          Or.inr ⟨rfl, _, _, hat, Or.inl ⟨hzero, rfl, rfl⟩⟩⟩
        have hspent : ({ first with offset := BLOCK_SIZE } : Block).Spent :=
          ⟨hfirst.1, Or.inl ⟨hzero, rfl⟩⟩
        obtain ⟨sizes, herror⟩ := @exists_nullOffset { s.allocator.reset with blocks := _ }
          [] _ _ malloc rfl rfl hspent hrest hnull'
        exact ⟨BLOCK_SIZE :: sizes, (bind_of_ok hfill).trans (bind_of_error herror)⟩
    obtain ⟨s', hs'⟩ := hall sizes
    rw [hreset, serveAll_allocate_error herror] at hs'
    cases hs'
  · intro htail sizes
    obtain ⟨s', hs', -⟩ := serveAll_inv (s := { allocator := s.allocator.reset })
      (hown.reset_inv htail) (resetsWhole_allocate malloc sizes _)
    exact ⟨s', (hreset sizes).trans hs'⟩

/-- A block is used up, and the next one came back null. -/
def sampleNull : Session where
  allocator := { blocks := [⟨16, 0, 65536⟩, ⟨0, 0, 65536⟩], mallocs := 2 }

/-- The run before may end with a reset. -/
theorem reset_allocate_iff_sample :
    (∀ sizes : List Nat, ∃ s',
      serveAll (.above (· = 1)) (.reset :: sizes.map .allocate) sampleNull = .ok s') ↔
      ∀ b ∈ sampleNull.allocator.blocks.tail, b.block ≠ 0 :=
  reset_allocate_iff (.above (· = 1))
    (show serveAll _ [.allocate 65536, .allocate 8, .reset] {} = .ok sampleNull from rfl)

end DxilSpirv.Memory
