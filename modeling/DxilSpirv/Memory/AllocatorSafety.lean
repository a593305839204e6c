import DxilSpirv.Memory.ChainAllocator

/-!
# What is allocated is apart

What an allocator gave out since the last reset is aligned, lies in its memory and does not overlap.
Every program of the allocator that goes on keeps that. It does go on as long as blocks after the
current one are unused and not null and a current block that is null is unused, and allocations keep
that too.
-/

namespace DxilSpirv.Memory

open DxilSpirv.Program Stoppable

variable {b b' : Block} {size p : Nat}

/-- A block goes on if it is unused where it is null. -/
theorem Block.exists_allocate (size : Nat) (hnull : b.block = 0 → b.offset = 0) :
    ∃ p b', b.allocate size = .ok (p, b') := by
  unfold Block.allocate
  simp only
  split_ifs with hfits hstop
  · exact absurd (by rw [hnull hstop.1]) hstop.2
  · exact ⟨_, _, rfl⟩
  · exact ⟨_, _, rfl⟩

theorem Block.allocate_region (h : b.allocate size = .ok (p, b')) : b'.region = b.region := by
  unfold Block.allocate at h
  simp only at h
  split_ifs at h
  all_goals
    obtain ⟨rfl, rfl⟩ := Prod.mk.inj (Except.ok.inj h)
    rfl

/-- What one allocation from a block did. -/
theorem Block.allocate_cases (h : b.allocate size = .ok (p, b')) (hoffset : b.offset ≤ b.blockSize)
    (hsize : 16 ∣ b.blockSize) :
    b.offset ≤ b'.offset ∧ b'.offset ≤ b.blockSize ∧
      ((p ≠ 0 ∧ b.block ≠ 0 ∧ ∃ offset, b.offset ≤ offset ∧ 16 ∣ offset ∧ p = b.block + offset ∧
          b'.offset = offset + size) ∨
        (p = 0 ∧ (b.block ≠ 0 → b.blockSize < (b.offset + 15) / 16 * 16 + size))) := by
  obtain ⟨k, hk⟩ := hsize
  have hle : b.offset ≤ (b.offset + 15) / 16 * 16 := by omega
  have hge : (b.offset + 15) / 16 * 16 ≤ b.blockSize := by omega
  unfold Block.allocate at h
  simp only at h
  split_ifs at h with hfits hstop
  · obtain ⟨rfl, rfl⟩ := Prod.mk.inj (Except.ok.inj h)
    refine ⟨by simp only; omega, hfits, ?_⟩
    by_cases hblock : b.block = 0
    · have hzero : (b.offset + 15) / 16 * 16 = 0 := by
        by_contra hne
        exact hstop ⟨hblock, hne⟩
      exact Or.inr ⟨by rw [hblock, hzero], fun h => absurd hblock h⟩
    · exact Or.inl ⟨by omega, hblock, _, hle, Nat.dvd_mul_left .., rfl, rfl⟩
  · obtain ⟨rfl, rfl⟩ := Prod.mk.inj (Except.ok.inj h)
    exact ⟨hle, hge, Or.inr ⟨rfl, fun _ => by omega⟩⟩

section Invariant

/-- What holds of an allocator and of the memory that it gave out. -/
structure ChainAllocator.Owns (s : ChainAllocator) (given : List Region) : Prop where
  index_le : s.blockIndex ≤ s.blocks.length
  size_eq : ∀ b ∈ s.blocks, b.blockSize = BLOCK_SIZE
  offset_le : ∀ b ∈ s.blocks, b.offset ≤ BLOCK_SIZE
  separate : ((s.blocks ++ s.hugeBlocks).map Block.region).Pairwise Region.Separate
  aligned : ∀ b ∈ s.blocks ++ s.hugeBlocks, 16 ∣ b.block
  given_aligned : ∀ r ∈ given, 16 ∣ r.base
  given_apart : given.Pairwise Region.Apart
  given_in : ∀ r ∈ given,
    (∃ (i : Nat) (b : Block), s.blocks[i]? = some b ∧ b.block ≠ 0 ∧ r.Within ⟨b.block, b.offset⟩) ∨
      ∃ b ∈ s.hugeBlocks, b.block ≠ 0 ∧ r = b.region

/-- An allocator whose next allocation goes on. -/
structure ChainAllocator.Inv (s : ChainAllocator) (given : List Region) :
    Prop extends s.Owns given where
  unused : ∀ i b, s.blockIndex < i → s.blocks[i]? = some b → b.offset = 0 ∧ b.block ≠ 0
  current : ∀ b, s.blocks[s.blockIndex]? = some b → b.block = 0 → b.offset = 0

variable {malloc : Malloc} {s : ChainAllocator} {given : List Region}

theorem inv_empty : ChainAllocator.Inv {} [] where
  index_le := le_rfl
  size_eq := nofun
  offset_le := nofun
  separate := List.Pairwise.nil
  aligned := nofun
  given_aligned := nofun
  given_apart := List.Pairwise.nil
  given_in := nofun
  unused := nofun
  current := nofun

/-- A new block is aligned, and apart from what there is. -/
theorem separate_answer (s : ChainAllocator) (calls size : Nat) :
    ∀ r ∈ (s.blocks ++ s.hugeBlocks).map Block.region,
      Region.Separate ⟨malloc.answer calls s.live size, size⟩ r := by
  intro r hr hanswer hbase
  exact malloc.apart _ _ _ hanswer r (List.mem_filter.mpr ⟨hr, decide_eq_true hbase⟩)

/-- The memory that was given out lies in memory of the allocator. -/
theorem ChainAllocator.Owns.given_live (h : s.Owns given) :
    ∀ r ∈ given, ∃ t ∈ s.live, r.Within t := by
  intro r hr
  rcases h.given_in r hr with ⟨i, b, hb, hnull, hin⟩ | ⟨b, hb, hnull, rfl⟩
  · have hmem := List.mem_of_getElem? hb
    refine ⟨b.region, List.mem_filter.mpr ⟨List.mem_map_of_mem (List.mem_append_left _ hmem),
      decide_eq_true hnull⟩, hin.trans ⟨le_rfl, ?_⟩⟩
    have hoffset := h.offset_le b hmem
    have hsize := h.size_eq b hmem
    unfold Block.region
    simp only
    omega
  · exact ⟨b.region, List.mem_filter.mpr ⟨List.mem_map_of_mem (List.mem_append_right _ hb),
      decide_eq_true hnull⟩, le_rfl, le_rfl⟩

/-- Regions at the end of the chain or of the huge blocks are separate when they are separate in
front. -/
theorem pairwise_push {blocks huge : List Block} {b : Block}
    (h : ((b :: (blocks ++ huge)).map Block.region).Pairwise Region.Separate) :
    (((blocks ++ [b]) ++ huge).map Block.region).Pairwise Region.Separate ∧
      ((blocks ++ (huge ++ [b])).map Block.region).Pairwise Region.Separate := by
  have hsymm {r t : Region} : r.Separate t → t.Separate r := Region.Separate.symm
  have hchain : ((blocks ++ [b]) ++ huge).Perm (b :: (blocks ++ huge)) := by
    rw [List.append_assoc]
    exact List.perm_middle
  have hhuge : (blocks ++ (huge ++ [b])).Perm (b :: (blocks ++ huge)) := by
    rw [← List.append_assoc]
    exact List.perm_append_singleton b _
  exact ⟨((hchain.map _).pairwise_iff hsymm).mpr h, ((hhuge.map _).pairwise_iff hsymm).mpr h⟩

/-- A block at the end of the chain. -/
theorem ChainAllocator.Owns.push (malloc : Malloc) (h : s.Owns given) :
    ({ s with
      blocks :=
  s.blocks ++ [{ block := malloc.answer s.mallocs s.live BLOCK_SIZE, blockSize := BLOCK_SIZE }]
      mallocs := s.mallocs + 1 } : ChainAllocator).Owns given := by
  have hindex := h.index_le
  have hsep := @separate_answer malloc s s.mallocs BLOCK_SIZE
  generalize hb :
    ({ block := malloc.answer s.mallocs s.live BLOCK_SIZE, blockSize := BLOCK_SIZE } : Block) = b
  have hmem {c : Block} (hc : c ∈ s.blocks ++ [b]) : c ∈ s.blocks ∨ c = b := by
    simpa only [List.mem_append, List.mem_singleton] using hc
  refine ⟨?_, ?_, ?_, ?_, ?_, h.given_aligned, h.given_apart, ?_⟩
  · simp only [List.length_append, List.length_singleton]
    omega
  · intro c hc
    rcases hmem hc with hc | rfl
    · exact h.size_eq c hc
    · rw [← hb]
  · intro c hc
    rcases hmem hc with hc | rfl
    · exact h.offset_le c hc
    · rw [← hb]
      exact Nat.zero_le _
  · refine (pairwise_push (List.pairwise_cons.mpr ⟨?_, h.separate⟩)).1
    rw [← hb]
    exact hsep
  · intro c hc
    rcases List.mem_append.mp hc with hc | hc
    · rcases hmem hc with hc | rfl
      · exact h.aligned c (List.mem_append_left _ hc)
      · rw [← hb]
        exact malloc.aligned _ _ _
    · exact h.aligned c (List.mem_append_right _ hc)
  · intro r hr
    rcases h.given_in r hr with ⟨i, c, hc, hin⟩ | hhuge
    · refine Or.inl ⟨i, c, ?_, hin⟩
      rw [List.getElem?_append_left (List.getElem?_eq_some_iff.mp hc).1]
      exact hc
    · exact Or.inr hhuge

/-- After that the new block is the current one, and unused. -/
theorem ChainAllocator.Inv.push (malloc : Malloc) (h : s.Inv given)
    (hlen : s.blocks.length ≤ s.blockIndex) :
    ({ s with
      blocks :=
  s.blocks ++ [{ block := malloc.answer s.mallocs s.live BLOCK_SIZE, blockSize := BLOCK_SIZE }]
      mallocs := s.mallocs + 1 } : ChainAllocator).Inv given := by
  have hindex : s.blockIndex = s.blocks.length := Nat.le_antisymm h.index_le hlen
  refine ⟨h.toOwns.push malloc, fun i c hi hc => ?_, fun c hc _ => ?_⟩
  · have hlt := (List.getElem?_eq_some_iff.mp hc).1
    simp only [List.length_append, List.length_singleton] at hlt hi
    omega
  · simp only [hindex, List.getElem?_concat_length, Option.some.injEq] at hc
    rw [← hc]

/-- A huge block, which is given out at once if it is not null. -/
theorem ChainAllocator.Owns.pushHuge (h : s.Owns given) (malloc : Malloc) {p : Nat}
    (hp : p = malloc.answer s.mallocs s.live size) :
    ({ s with
      hugeBlocks := s.hugeBlocks ++ [{ block := p, blockSize := size }]
      mallocs := s.mallocs + 1 } : ChainAllocator).Owns (if p = 0 then given
          else ⟨p, size⟩ :: given) := by
  have hsep := @separate_answer malloc s s.mallocs size
  have haligned : 16 ∣ p := hp ▸ malloc.aligned _ _ _
  rw [← hp] at hsep
  refine ⟨h.index_le, h.size_eq, h.offset_le, ?_, ?_, ?_, ?_, ?_⟩
  · exact (pairwise_push (b := ⟨p, 0, size⟩) (List.pairwise_cons.mpr ⟨hsep, h.separate⟩)).2
  · intro c hc
    rcases List.mem_append.mp hc with hc | hc
    · exact h.aligned c (List.mem_append_left _ hc)
    · rcases List.mem_append.mp hc with hc | hc
      · exact h.aligned c (List.mem_append_right _ hc)
      · rw [List.mem_singleton.mp hc]
        exact haligned
  · split_ifs
    · exact h.given_aligned
    · exact List.forall_mem_cons.mpr ⟨haligned, h.given_aligned⟩
  · split_ifs with hzero
    · exact h.given_apart
    · refine List.pairwise_cons.mpr ⟨fun r hr => ?_, h.given_apart⟩
      obtain ⟨t, ht, hin⟩ := h.given_live r hr
      have hapart := malloc.apart s.mallocs s.live size (hp ▸ hzero) t ht
      rw [← hp] at hapart
      exact (hapart.symm.within_left hin).symm
  · intro r hr
    have hold {r : Region} (hr : r ∈ given) := h.given_in r hr
    have hnew : ⟨p, 0, size⟩ ∈ s.hugeBlocks ++ [⟨p, 0, size⟩] :=
      List.mem_append_right _ (List.mem_singleton_self _)
    split_ifs at hr with hzero
    · exact (hold hr).imp_right fun ⟨b, hb, hin⟩ => ⟨b, List.mem_append_left _ hb, hin⟩
    · rcases List.mem_cons.mp hr with rfl | hr
      · exact Or.inr ⟨_, hnew, hzero, rfl⟩
      · exact (hold hr).imp_right fun ⟨b, hb, hin⟩ => ⟨b, List.mem_append_left _ hb, hin⟩

/-- A replaced block keeps its memory. -/
theorem map_region_set {blocks : List Block} {i : Nat} {b b' : Block} (hb : blocks[i]? = some b)
    (hregion : b'.region = b.region) :
    (blocks.set i b').map Block.region = blocks.map Block.region := by
  obtain ⟨hi, rfl⟩ := List.getElem?_eq_some_iff.mp hb
  rw [List.map_set, hregion, ← List.getElem_map Block.region (h := by rwa [List.length_map]),
    List.set_getElem_self]

/-- The current block is used further, and then it stays the current one or not. -/
theorem ChainAllocator.Owns.replace (h : s.Owns given) {b b' : Block} {j : Nat}
    {given' : List Region} (hb : s.blocks[s.blockIndex]? = some b) (hregion : b'.region = b.region)
    (hge : b.offset ≤ b'.offset) (hle : b'.offset ≤ BLOCK_SIZE) (hj : j ≤ s.blocks.length)
    (haligned : ∀ r ∈ given', 16 ∣ r.base) (hapart : given'.Pairwise Region.Apart)
    (hgiven : ∀ r ∈ given', r ∈ given ∨ b.block ≠ 0 ∧ r.Within ⟨b.block, b'.offset⟩) :
    ({ s with
      blocks := s.blocks.set s.blockIndex b'
      blockIndex := j } : ChainAllocator).Owns given' := by
  have hlt : s.blockIndex < s.blocks.length := (List.getElem?_eq_some_iff.mp hb).1
  have hmem := List.mem_of_getElem? hb
  have hblock : b'.block = b.block := congrArg Region.base hregion
  have hsize : b'.blockSize = b.blockSize := congrArg Region.size hregion
  have hset {c : Block} (hc : c ∈ s.blocks.set s.blockIndex b') : c ∈ s.blocks ∨ c = b' :=
    List.mem_or_eq_of_mem_set hc
  refine ⟨?_, ?_, ?_, ?_, ?_, haligned, hapart, ?_⟩
  · simpa only [List.length_set] using hj
  · intro c hc
    rcases hset hc with hc | rfl
    · exact h.size_eq c hc
    · exact hsize.trans (h.size_eq b hmem)
  · intro c hc
    rcases hset hc with hc | rfl
    · exact h.offset_le c hc
    · exact hle
  · have hsep := h.separate
    rw [List.map_append] at hsep ⊢
    rwa [map_region_set hb hregion]
  · intro c hc
    rcases List.mem_append.mp hc with hc | hc
    · rcases hset hc with hc | rfl
      · exact h.aligned c (List.mem_append_left _ hc)
      · rw [hblock]
        exact h.aligned b (List.mem_append_left _ hmem)
    · exact h.aligned c (List.mem_append_right _ hc)
  · intro r hr
    rcases hgiven r hr with hold | ⟨hnull, hin⟩
    · rcases h.given_in r hold with ⟨i, c, hc, hnull, hin⟩ | hhuge
      · by_cases hi : i = s.blockIndex
        · subst hi
          obtain rfl : b = c := Option.some.inj (hb.symm.trans hc)
          refine Or.inl ⟨s.blockIndex, b', List.getElem?_set_self hlt, hblock ▸ hnull, ?_⟩
          rw [hblock]
          exact hin.trans ⟨le_rfl, Nat.add_le_add_left hge _⟩
        · exact Or.inl ⟨i, c, by rw [List.getElem?_set_ne (Ne.symm hi)]; exact hc, hnull, hin⟩
      · exact Or.inr hhuge
    · exact Or.inl ⟨s.blockIndex, b', List.getElem?_set_self hlt, hblock ▸ hnull, hblock ▸ hin⟩

/-- The block may stay the current one if it is not null. -/
theorem ChainAllocator.Inv.replace (h : s.Inv given) {b b' : Block} {j : Nat} {given' : List Region}
    (hb : s.blocks[s.blockIndex]? = some b) (hregion : b'.region = b.region) (hj : s.blockIndex ≤ j)
    (hcur : j = s.blockIndex → b.block ≠ 0)
    (hown : ({ s with
      blocks := s.blocks.set s.blockIndex b'
      blockIndex := j } : ChainAllocator).Owns given') :
    ({ s with
      blocks := s.blocks.set s.blockIndex b'
      blockIndex := j } : ChainAllocator).Inv given' := by
  have hlt : s.blockIndex < s.blocks.length := (List.getElem?_eq_some_iff.mp hb).1
  have hblock : b'.block = b.block := congrArg Region.base hregion
  refine ⟨hown, fun i c hi hc => ?_, fun c hc hnull => ?_⟩
  · simp only at hi
    rw [List.getElem?_set_ne (by omega)] at hc
    exact h.unused i c (by omega) hc
  · by_cases heq : j = s.blockIndex
    · simp only [heq, List.getElem?_set_self hlt, Option.some.injEq] at hc
      rw [← hc, hblock] at hnull
      exact absurd hnull (hcur heq)
    · simp only [List.getElem?_set_ne (Ne.symm heq)] at hc
      exact (h.unused j c (by omega) hc).1

/-- The unused part of a block is apart from what was given out. -/
theorem ChainAllocator.Owns.fresh_apart (h : s.Owns given) {i : Nat} {b : Block} {r : Region}
    (hb : s.blocks[i]? = some b) (hnull : b.block ≠ 0) (hr : r.Within b.region)
    (hge : b.block + b.offset ≤ r.base) :
    ∀ t ∈ given, r.Apart t := by
  intro t ht
  have hsep := h.separate
  rw [List.map_append] at hsep
  obtain ⟨hchain, -, hcross⟩ := List.pairwise_append.mp hsep
  have hregion {j : Nat} {c : Block} (hc : s.blocks[j]? = some c) :
      (s.blocks.map Block.region)[j]? = some c.region := by
    rw [List.getElem?_map, hc]
    rfl
  rcases h.given_in t ht with ⟨j, c, hc, hc', hin⟩ | ⟨c, hc, hc', rfl⟩
  · by_cases hj : j = i
    · subst hj
      obtain rfl : b = c := Option.some.inj (hb.symm.trans hc)
      exact Or.inr (Nat.le_trans hin.2 hge)
    · have hmem := List.mem_of_getElem? hc
      have hapart := rel_of_pairwise hchain (fun _ _ => Region.Separate.symm) (hregion hb)
        (hregion hc) (Ne.symm hj) hnull hc'
      have hwithin : t.Within c.region := hin.trans ⟨le_rfl, by
        have hoffset := h.offset_le c hmem
        have hsize := h.size_eq c hmem
        unfold Block.region
        simp only
        omega⟩
      exact ((hapart.within_left hr).symm.within_left hwithin).symm
  · exact (hcross _ (List.mem_map_of_mem (List.mem_of_getElem? hb)) _ (List.mem_map_of_mem hc) hnull
      hc').within_left hr

/-- An allocation from a block. -/
theorem allocateAtIndex_runs {s s' : ChainAllocator} {p : Nat}
    (h : allocateAtIndex size s = .ok (p, s')) :
    ∃ b b', s.blocks[s.blockIndex]? = some b ∧ b.allocate size = .ok (p, b') ∧
      s' = { s with blocks := s.blocks.set s.blockIndex b' } := by
  unfold allocateAtIndex at h
  split at h
  · cases h
  · next b hb =>
    cases hrun : b.allocate size with
    | error e =>
      rw [hrun] at h
      cases h
    | ok r =>
      rw [hrun] at h
      obtain ⟨rfl, rfl⟩ := Prod.mk.inj (Except.ok.inj h)
      exact ⟨b, r.2, hb, hrun, rfl⟩

/-- What an allocation from the current block did. Where it gave nothing, the block is used up or
null. -/
theorem ChainAllocator.Owns.allocateAtIndex (h : s.Owns given) (hsize : size ≤ BLOCK_SIZE)
    {s' : ChainAllocator} {p : Nat} (hrun : allocateAtIndex size s = .ok (p, s')) :
    ∃ b b', s.blocks[s.blockIndex]? = some b ∧ b'.region = b.region ∧
      s' = { s with blocks := s.blocks.set s.blockIndex b' } ∧
      ((p ≠ 0 ∧ b.block ≠ 0 ∧ s'.Owns (⟨p, size⟩ :: given)) ∨
        (p = 0 ∧ (b.block ≠ 0 → b.offset ≠ 0) ∧ s'.Owns given ∧
          ({ s' with blockIndex := s'.blockIndex + 1 } : ChainAllocator).Owns given)) := by
  obtain ⟨b, b', hb, hallocate, rfl⟩ := allocateAtIndex_runs hrun
  have hlt : s.blockIndex < s.blocks.length := (List.getElem?_eq_some_iff.mp hb).1
  have hmem := List.mem_of_getElem? hb
  have hblock := h.size_eq b hmem
  have hregion := Block.allocate_region hallocate
  obtain ⟨hge, hle, hcases⟩ := Block.allocate_cases hallocate (hblock ▸ h.offset_le b hmem)
    (hblock ▸ (by decide : 16 ∣ BLOCK_SIZE))
  rw [hblock] at hle
  refine ⟨b, b', hb, hregion, rfl, ?_⟩
  rcases hcases with ⟨hp, hnull, offset, hoffset, hdvd, rfl, hnext⟩ | ⟨hp, hfull⟩
  · refine Or.inl ⟨hp, hnull, ?_⟩
    have haligned : 16 ∣ b.block + offset :=
      Nat.dvd_add (h.aligned b (List.mem_append_left _ hmem)) hdvd
    have hin : (⟨b.block + offset, size⟩ : Region).Within ⟨b.block, b'.offset⟩ :=
      ⟨Nat.le_add_right .., by simp only [hnext, Nat.add_assoc, le_refl]⟩
    have hin' : (⟨b.block + offset, size⟩ : Region).Within b.region :=
      hin.trans ⟨le_rfl, by
        change b.block + b'.offset ≤ b.block + b.blockSize
        omega⟩
    exact h.replace hb hregion hge hle (Nat.le_of_lt hlt)
      (List.forall_mem_cons.mpr ⟨haligned, h.given_aligned⟩)
      (List.pairwise_cons.mpr ⟨h.fresh_apart hb hnull hin' (Nat.add_le_add_left hoffset _),
        h.given_apart⟩)
      (List.forall_mem_cons.mpr ⟨Or.inr ⟨hnull, hin⟩, fun r hr => Or.inl hr⟩)
  · refine Or.inr ⟨hp, fun hnull hzero => ?_, ?_, ?_⟩
    · have := hfull hnull
      rw [hblock, hzero] at this
      omega
    · exact h.replace hb hregion hge hle (Nat.le_of_lt hlt) h.given_aligned h.given_apart
        fun r hr => Or.inl hr
    · exact h.replace hb hregion hge hle hlt h.given_aligned h.given_apart fun r hr => Or.inl hr

/-- The index is that of a block, or a block is put at the end of the chain. -/
theorem ensureIndex_eq (malloc : Malloc) (s : ChainAllocator) : ensureIndex malloc s = .ok
    (if s.blocks.length ≤ s.blockIndex then
      (decide (malloc.answer s.mallocs s.live BLOCK_SIZE ≠ 0), { s with
        blocks :=
  s.blocks ++ [{ block := malloc.answer s.mallocs s.live BLOCK_SIZE, blockSize := BLOCK_SIZE }]
        mallocs := s.mallocs + 1 })
    else (true, s)) := by
  unfold ensureIndex
  rw [bind_of_ok (rfl : (get : Allocating ChainAllocator) s = .ok (s, s))]
  split_ifs <;> rfl

theorem ChainAllocator.Owns.ensureIndex (h : s.Owns given) {s' : ChainAllocator} {ok : Bool}
    (hrun : ensureIndex malloc s = .ok (ok, s')) : s'.Owns given := by
  rw [ensureIndex_eq] at hrun
  split_ifs at hrun
  · obtain ⟨-, rfl⟩ := Prod.mk.inj (Except.ok.inj hrun)
    exact h.push malloc
  · obtain ⟨-, rfl⟩ := Prod.mk.inj (Except.ok.inj hrun)
    exact h

/-- What an allocation from the block after the current one gave is kept. -/
theorem ChainAllocator.Owns.allocateNext (hsize : size ≤ BLOCK_SIZE)
    (h : ({ s with blockIndex := s.blockIndex + 1 } : ChainAllocator).Owns given)
    {s' : ChainAllocator} {p : Nat} (hrun : allocateNext malloc size s = .ok (p, s')) :
    s'.Owns (if p = 0 then given else ⟨p, size⟩ :: given) := by
  unfold Memory.allocateNext at hrun
  rw [bind_of_ok (rfl : (modify _ : Allocating PUnit) s =
    .ok (⟨⟩, { s with blockIndex := s.blockIndex + 1 })),
    bind_runs] at hrun
  obtain ⟨ok, s₁, hensure, hrun⟩ := hrun
  have h₁ := h.ensureIndex hensure
  cases ok with
  | false =>
    obtain ⟨rfl, rfl⟩ := pure_runs.mp hrun
    rwa [if_pos rfl]
  | true =>
    obtain ⟨b, b', -, -, -, ⟨hp, -, hown⟩ | ⟨rfl, -, hown, -⟩⟩ := h₁.allocateAtIndex hsize hrun
    · rwa [if_neg hp]
    · rwa [if_pos rfl]

/-- What a small allocation that goes on did. -/
theorem allocate_runs {s s' : ChainAllocator} {p : Nat} (hsize : size ≤ BLOCK_SIZE) :
    allocate malloc size s = .ok (p, s') ↔
      ∃ ok s₁, ensureIndex malloc s = .ok (ok, s₁) ∧ (ok = false ∧ p = 0 ∧ s₁ = s' ∨ ok = true ∧
        ∃ q s₂, allocateAtIndex size s₁ = .ok (q, s₂) ∧
          (q ≠ 0 ∧ q = p ∧ s₂ = s' ∨ q = 0 ∧ allocateNext malloc size s₂ = .ok (p, s'))) := by
  unfold allocate
  rw [if_neg (Nat.not_lt.mpr hsize), bind_runs]
  refine exists_congr fun ok => exists_congr fun s₁ => and_congr_right fun _ => ?_
  cases ok with
  | false =>
    rw [if_pos Bool.false_ne_true, pure_runs]
    simp [eq_comm]
  | true =>
    rw [if_neg (not_not.mpr rfl), bind_runs]
    simp only [Bool.true_eq_false, false_and, false_or, true_and]
    refine exists_congr fun q => exists_congr fun s₂ => and_congr_right fun _ => ?_
    by_cases hq : q = 0
    · simp [hq]
    · rw [if_pos hq, pure_runs]
      simp [hq]

/-- What an allocation gave is kept. -/
theorem ChainAllocator.Owns.allocate (h : s.Owns given) {s' : ChainAllocator} {p : Nat}
    (hrun : allocate malloc size s = .ok (p, s')) :
    s'.Owns (if p = 0 then given else ⟨p, size⟩ :: given) := by
  by_cases hhuge : BLOCK_SIZE < size
  · unfold Memory.allocate at hrun
    rw [if_pos hhuge] at hrun
    obtain ⟨rfl, rfl⟩ := Prod.mk.inj (Except.ok.inj hrun)
    exact h.pushHuge malloc rfl
  · have hsize : size ≤ BLOCK_SIZE := Nat.le_of_not_lt hhuge
    obtain ⟨ok, s₁, hensure, ⟨-, rfl, rfl⟩ | ⟨-, q, s₂, hat, hcases⟩⟩ :=
      (allocate_runs hsize).mp hrun
    · rw [if_pos rfl]
      exact h.ensureIndex hensure
    · obtain ⟨b, b', -, -, rfl, hown⟩ := (h.ensureIndex hensure).allocateAtIndex hsize hat
      rcases hcases with ⟨hq, rfl, rfl⟩ | ⟨rfl, hnext⟩
      · obtain ⟨-, -, hown⟩ := hown.resolve_right fun hno => hq hno.1
        rwa [if_neg hq]
      · obtain ⟨-, -, -, hown⟩ := hown.resolve_left fun hno => hno.1 rfl
        exact hown.allocateNext hsize hnext

/-- An allocation from the current block goes on. Where there is none, the next one is the current
one. -/
theorem allocateAtIndex_cases (h : s.Inv given) {b : Block} (hb : s.blocks[s.blockIndex]? = some b)
    (hsize : size ≤ BLOCK_SIZE) :
    ∃ p b', allocateAtIndex size s = .ok (p, { s with blocks := s.blocks.set s.blockIndex b' }) ∧
      b'.region = b.region ∧
      ((p ≠ 0 ∧ ({ s with blocks := s.blocks.set s.blockIndex b' } : ChainAllocator).Inv
        (⟨p, size⟩ :: given)) ∨ (p = 0 ∧ (b.block ≠ 0 → b.offset ≠ 0) ∧
          ({ s with
            blocks := s.blocks.set s.blockIndex b'
            blockIndex := s.blockIndex + 1 } : ChainAllocator).Inv given)) := by
  obtain ⟨p, b', hallocate⟩ := Block.exists_allocate size (h.current b hb)
  have hrun : allocateAtIndex size s =
      .ok (p, { s with blocks := s.blocks.set s.blockIndex b' }) := by
    unfold allocateAtIndex
    rw [hb]
    simp only [hallocate]
    rfl
  have hregion := Block.allocate_region hallocate
  refine ⟨p, b', hrun, hregion, ?_⟩
  obtain ⟨c, c', hc, -, heq, hcases⟩ := h.toOwns.allocateAtIndex hsize hrun
  obtain rfl : b = c := Option.some.inj (hb.symm.trans hc)
  rcases hcases with ⟨hp, hnull, hown⟩ | ⟨hp, hused, -, hown⟩
  · exact Or.inl ⟨hp, h.replace hb hregion le_rfl (fun _ => hnull) hown⟩
  · exact Or.inr ⟨hp, hused, h.replace hb hregion (Nat.le_succ _) (fun hj => by omega) hown⟩

/-- There is a block at the index afterwards, a new one if there was none, or else `malloc` gave
null. -/
theorem ensureIndex_cases (malloc : Malloc) (h : s.Inv given) :
    (∃ s', ensureIndex malloc s = .ok (false, s') ∧ s'.Inv given ∧ s'.mallocs = s.mallocs + 1 ∧
      malloc.answer s.mallocs s.live BLOCK_SIZE = 0) ∨
      ∃ s' b, ensureIndex malloc s = .ok (true, s') ∧ s'.Inv given ∧
        s'.blocks[s'.blockIndex]? = some b ∧ (s' = s ∨ b.block ≠ 0 ∧ b.offset = 0) := by
  rw [ensureIndex_eq]
  by_cases hlen : s.blocks.length ≤ s.blockIndex
  · rw [if_pos hlen]
    have hpush := h.push malloc hlen
    by_cases hnull : malloc.answer s.mallocs s.live BLOCK_SIZE = 0
    · exact Or.inl ⟨_, by rw [decide_eq_false (not_not.mpr hnull)], hpush, rfl, hnull⟩
    · refine Or.inr ⟨_, ⟨malloc.answer s.mallocs s.live BLOCK_SIZE, 0, BLOCK_SIZE⟩,
        by rw [decide_eq_true hnull], hpush, ?_, Or.inr ⟨hnull, rfl⟩⟩
      simp only [Nat.le_antisymm h.index_le hlen, List.getElem?_concat_length]
  · rw [if_neg hlen]
    have hlt : s.blockIndex < s.blocks.length := Nat.lt_of_not_le hlen
    exact Or.inr ⟨s, s.blocks[s.blockIndex], rfl, h, List.getElem?_eq_getElem hlt, Or.inl rfl⟩

/-- The memory of an allocator does not depend on how much of a block is used. -/
theorem live_set {b b' : Block} {i j : Nat} (hb : s.blocks[i]? = some b)
    (hregion : b'.region = b.region) :
    ({ s with
      blocks := s.blocks.set i b'
      blockIndex := j } : ChainAllocator).live = s.live := by
  unfold ChainAllocator.live
  rw [List.map_append, List.map_append, map_region_set hb hregion]

/-- An allocation from the block after one that is used up. -/
theorem allocateNext_cases (malloc : Malloc) (hsize : size ≤ BLOCK_SIZE)
    (h : ({ s with blockIndex := s.blockIndex + 1 } : ChainAllocator).Inv given)
    (hunused : ∀ b, s.blocks[s.blockIndex + 1]? = some b → b.block ≠ 0 ∧ b.offset = 0) :
    ∃ p s', allocateNext malloc size s = .ok (p, s') ∧
      s'.Inv (if p = 0 then given else ⟨p, size⟩ :: given) ∧
      (p = 0 → s'.mallocs = s.mallocs + 1 ∧ malloc.answer s.mallocs s.live BLOCK_SIZE = 0) := by
  unfold allocateNext
  rw [bind_of_ok (rfl : (modify _ : Allocating PUnit) s =
    .ok (⟨⟩, { s with blockIndex := s.blockIndex + 1 }))]
  rcases ensureIndex_cases malloc h
    with ⟨s₁, hrun, hinv, hcalls, hnull⟩ | ⟨s₁, b, hrun, hinv, hb, hnew⟩
  · refine ⟨0, s₁, (bind_of_ok hrun).trans rfl, ?_, fun _ => ⟨hcalls, hnull⟩⟩
    rw [if_pos rfl]
    exact hinv
  have hfresh : b.block ≠ 0 ∧ b.offset = 0 := by
    rcases hnew with rfl | hfresh
    · exact hunused b hb
    · exact hfresh
  obtain ⟨p, b', hat, -, ⟨hp, hinv'⟩ | ⟨-, hused, -⟩⟩ := allocateAtIndex_cases hinv hb hsize
  · refine ⟨p, { s₁ with blocks := s₁.blocks.set s₁.blockIndex b' },
      (bind_of_ok hrun).trans hat, ?_, fun h => absurd h hp⟩
    rw [if_neg hp]
    exact hinv'
  · exact absurd hfresh.2 (hused hfresh.1)

/-- What one allocation does: it goes on, what it gives is kept, and it gives null only where
`malloc` did. -/
theorem allocate_cases (malloc : Malloc) (h : s.Inv given) (size : Nat) :
    ∃ p s', allocate malloc size s = .ok (p, s') ∧
      s'.Inv (if p = 0 then given else ⟨p, size⟩ :: given) ∧
      (p = 0 → s'.mallocs = s.mallocs + 1 ∧
        malloc.answer s.mallocs s.live (max BLOCK_SIZE size) = 0) := by
  unfold allocate
  by_cases hhuge : BLOCK_SIZE < size
  · rw [if_pos hhuge]
    refine ⟨_, _, rfl, ⟨h.toOwns.pushHuge malloc rfl, h.unused, h.current⟩, fun hp => ⟨rfl, ?_⟩⟩
    rw [Nat.max_eq_right (Nat.le_of_lt hhuge)]
    exact hp
  rw [if_neg hhuge]
  have hsize : size ≤ BLOCK_SIZE := Nat.le_of_not_lt hhuge
  rw [Nat.max_eq_left hsize]
  rcases ensureIndex_cases malloc h
    with ⟨s₁, hrun, hinv, hcalls, hnull⟩ | ⟨s₁, b, hrun, hinv, hb, hnew⟩
  · refine ⟨0, s₁, (bind_of_ok hrun).trans rfl, ?_, fun _ => ⟨hcalls, hnull⟩⟩
    rw [if_pos rfl]
    exact hinv
  obtain ⟨p, b', hat, hregion, ⟨hp, hinv'⟩ | ⟨rfl, hused, hinv'⟩⟩ :=
    allocateAtIndex_cases hinv hb hsize
  · refine ⟨p, { s₁ with blocks := s₁.blocks.set s₁.blockIndex b' },
      (bind_of_ok hrun).trans ((bind_of_ok hat).trans ?_), ?_, fun h => absurd h hp⟩
    · rw [if_pos hp]
      rfl
    · rw [if_neg hp]
      exact hinv'
  · -- The block was there before, and it is used up. The one after it is unused.
    obtain rfl : s₁ = s := hnew.resolve_right fun h => hused h.1 h.2
    have hunused (c : Block) (hc : (s₁.blocks.set s₁.blockIndex b')[s₁.blockIndex + 1]? = some c) :
        c.block ≠ 0 ∧ c.offset = 0 := by
      rw [List.getElem?_set_ne (Nat.ne_of_lt (Nat.lt_succ_self _))] at hc
      exact (h.unused _ c (Nat.lt_succ_self _) hc).symm
    obtain ⟨p, s₂, hnext, hinv₂, hnull⟩ := allocateNext_cases
      (s := { s₁ with blocks := s₁.blocks.set s₁.blockIndex b' }) malloc
      hsize hinv' hunused
    refine ⟨p, s₂, (bind_of_ok hrun).trans ((bind_of_ok hat).trans ?_), hinv₂, ?_⟩
    · rw [if_neg (not_not.mpr rfl)]
      exact hnext
    · rwa [live_set hb hregion] at hnull

/-- After a reset, the same blocks are unused. -/
theorem ChainAllocator.Owns.reset (h : s.Owns given) : s.reset.Owns [] := by
  have hmem {c : Block} (hc : c ∈ s.reset.blocks) : ∃ b ∈ s.blocks, c = { b with offset := 0 } := by
    obtain ⟨b, hb, rfl⟩ := List.mem_map.mp hc
    exact ⟨b, hb, rfl⟩
  refine ⟨Nat.zero_le _, ?_, ?_, ?_, ?_, nofun, List.Pairwise.nil, nofun⟩
  · intro c hc
    obtain ⟨b, hb, rfl⟩ := hmem hc
    exact h.size_eq b hb
  · intro c hc
    obtain ⟨b, hb, rfl⟩ := hmem hc
    exact Nat.zero_le _
  · have hsep := h.separate
    rw [List.map_append] at hsep
    have hregions : (s.reset.blocks ++ s.reset.hugeBlocks).map Block.region =
        s.blocks.map Block.region := by
      change ((s.blocks.map fun b : Block => ({ b with offset := 0 } : Block)) ++ []).map
        Block.region = _
      rw [List.append_nil, List.map_map]
      rfl
    rw [hregions]
    exact (List.pairwise_append.mp hsep).1
  · intro c hc
    rcases List.mem_append.mp hc with hc | hc
    · obtain ⟨b, hb, rfl⟩ := hmem hc
      exact h.aligned b (List.mem_append_left _ hb)
    · cases hc

/-- The next allocation goes on if no block but the first one is null. -/
theorem ChainAllocator.Owns.reset_inv (h : s.Owns given)
    (htail : ∀ b ∈ s.blocks.tail, b.block ≠ 0) : s.reset.Inv [] := by
  refine ⟨h.reset, fun i c hi hc => ?_, fun c hc _ => ?_⟩
  · obtain ⟨b, hb, rfl⟩ : ∃ b, s.blocks[i]? = some b ∧ ({ b with offset := 0 } : Block) = c := by
      simpa only [ChainAllocator.reset, List.getElem?_map, Option.map_eq_some_iff] using hc
    obtain ⟨n, rfl⟩ : ∃ n, i = n + 1 := ⟨i - 1, by simp only [ChainAllocator.reset] at hi; omega⟩
    rw [← List.getElem?_tail] at hb
    exact ⟨rfl, htail b (List.mem_of_getElem? hb)⟩
  · obtain ⟨b, -, rfl⟩ := List.mem_map.mp (List.mem_of_getElem? hc)
    rfl

end Invariant

variable {malloc : Malloc} {s s' : Session} {requests : List Request}

/-- One request that goes on keeps what was given out apart. -/
theorem serve_owns (h : s.allocator.Owns s.given) {request : Request}
    (hrun : serve malloc s request = .ok s') :
    s'.allocator.Owns s'.given := by
  cases request with
  | allocate size =>
    change Except.map _ (allocate malloc size s.allocator) = _ at hrun
    cases hallocate : allocate malloc size s.allocator with
    | error e =>
      rw [hallocate] at hrun
      cases hrun
    | ok r =>
      rw [hallocate] at hrun
      obtain rfl := Except.ok.inj hrun
      exact h.allocate hallocate
  | reset =>
    obtain rfl := Except.ok.inj hrun
    exact h.reset

/-- A run that goes on keeps what was given out apart. -/
theorem serveAll_owns (h : s.allocator.Owns s.given) (hrun : serveAll malloc requests s = .ok s') :
    s'.allocator.Owns s'.given := by
  induction requests generalizing s with
  | nil =>
    obtain rfl := Except.ok.inj hrun
    exact h
  | cons request requests ih =>
    unfold serveAll at hrun
    rw [List.foldlM_cons] at hrun
    cases hserve : serve malloc s request with
    | error e =>
      rw [hserve] at hrun
      cases hrun
    | ok s₁ =>
      rw [hserve] at hrun
      exact ih (serve_owns h hserve) hrun

/-- No reset happens after a block other than the first one came back null. -/
def ResetsWhole (malloc : Malloc) : List Request → Session → Prop
  | [], _ => True
  | request :: requests, s =>
    (request = .reset → ∀ b ∈ s.allocator.blocks.tail, b.block ≠ 0) ∧
      ∀ s', serve malloc s request = .ok s' → ResetsWhole malloc requests s'

/-- One request keeps the invariant. -/
theorem serve_inv (malloc : Malloc) (h : s.allocator.Inv s.given) {request : Request}
    (hreset : request = .reset → ∀ b ∈ s.allocator.blocks.tail, b.block ≠ 0) :
    ∃ s', serve malloc s request = .ok s' ∧ s'.allocator.Inv s'.given := by
  cases request with
  | allocate size =>
    obtain ⟨p, a, hrun, hinv, -⟩ := allocate_cases malloc h size
    refine ⟨{ allocator := a, given := if p = 0 then s.given else ⟨p, size⟩ :: s.given }, ?_, hinv⟩
    change Except.map _ (allocate malloc size s.allocator) = _
    rw [hrun]
    rfl
  | reset => exact ⟨_, rfl, h.toOwns.reset_inv (hreset rfl)⟩

/-- All requests keep the invariant. -/
theorem serveAll_inv (h : s.allocator.Inv s.given) (hwhole : ResetsWhole malloc requests s) :
    ∃ s', serveAll malloc requests s = .ok s' ∧ s'.allocator.Inv s'.given := by
  induction requests generalizing s with
  | nil => exact ⟨s, rfl, h⟩
  | cons request requests ih =>
    obtain ⟨hreset, hrest⟩ := hwhole
    obtain ⟨s₁, hserve, hinv⟩ := serve_inv malloc h hreset
    obtain ⟨s', hrun, hinv'⟩ := ih hinv (hrest s₁ hserve)
    refine ⟨s', ?_, hinv'⟩
    unfold serveAll at hrun ⊢
    rw [List.foldlM_cons, hserve]
    exact hrun

/-- Requests without a reset are whole. -/
theorem resetsWhole_allocate (malloc : Malloc) (sizes : List Nat) (s : Session) :
    ResetsWhole malloc (sizes.map .allocate) s := by
  induction sizes generalizing s with
  | nil => trivial
  | cons size sizes ih => exact ⟨nofun, fun s' _ => ih s'⟩

/-- As long as a run does not offset null, what was given out since the last reset is aligned, lies
in memory that the allocator has, and does not overlap, and neither does that memory. A run goes on
to its end if no reset happens after a block other than the first one came back null. -/
theorem serveAll_apart (malloc : Malloc) (requests : List Request) :
    (∀ s, serveAll malloc requests {} = .ok s → s.given.Pairwise Region.Apart ∧
      (∀ r ∈ s.given, 16 ∣ r.base ∧ ∃ t ∈ s.allocator.live, r.Within t) ∧
      s.allocator.live.Pairwise Region.Apart) ∧
    (ResetsWhole malloc requests {} → ∃ s, serveAll malloc requests {} = .ok s) := by
  refine ⟨fun s hrun => ?_, fun hwhole => ?_⟩
  · have hown : s.allocator.Owns s.given := serveAll_owns (s := {}) inv_empty.toOwns hrun
    refine ⟨hown.given_apart, fun r hr => ⟨hown.given_aligned r hr, hown.given_live r hr⟩, ?_⟩
    refine List.Pairwise.imp_of_mem ?_ (hown.separate.filter _)
    intro r t hr ht hsep
    exact hsep (of_decide_eq_true (List.mem_filter.mp hr).2)
      (of_decide_eq_true (List.mem_filter.mp ht).2)
  · obtain ⟨s, hrun, -⟩ := serveAll_inv inv_empty hwhole
    exact ⟨s, hrun⟩

/-- In a run whose resets leave no null block behind the first one, an allocation gives null only
where `malloc` gives null for it. -/
theorem allocate_null (malloc : Malloc) (requests : List Request)
    (hwhole : ResetsWhole malloc requests {}) (hrun : serveAll malloc requests {} = .ok s)
    (size : Nat) :
    ∃ p a, allocate malloc size s.allocator = .ok (p, a) ∧
      (p = 0 → a.mallocs = s.allocator.mallocs + 1 ∧
        malloc.answer s.allocator.mallocs s.allocator.live (max BLOCK_SIZE size) = 0) := by
  obtain ⟨s', hrun', hinv⟩ := serveAll_inv inv_empty hwhole
  obtain rfl : s' = s := Except.ok.inj (hrun'.symm.trans hrun)
  obtain ⟨p, a, hallocate, -, hnull⟩ := allocate_cases malloc hinv size
  exact ⟨p, a, hallocate, hnull⟩

/-- A huge allocation, a reset, and a block that is used up. The third call of `malloc` gives
null. -/
def sampleRun : List Request := [.allocate 100, .allocate 70000, .reset, .allocate 65536]

theorem resetsWhole_sampleRun : ResetsWhole (.above (· = 2)) sampleRun {} := by
  refine ⟨nofun, fun s hs => ?_⟩
  obtain rfl := Except.ok.inj hs
  refine ⟨nofun, fun s hs => ?_⟩
  obtain rfl := Except.ok.inj hs
  exact ⟨fun _ => by decide, fun s _ => resetsWhole_allocate _ [65536] s⟩

/-- After the run the chain is at its end, and the next block comes back null. -/
theorem allocate_null_sample : ∃ s p a, serveAll (.above (· = 2)) sampleRun {} = .ok s ∧
    allocate (.above (· = 2)) 8 s.allocator = .ok (p, a) ∧ (p = 0 → a.mallocs = 3 ∧
      (Malloc.above (· = 2)).answer 2 s.allocator.live (max BLOCK_SIZE 8) = 0) := by
  obtain ⟨p, a, hallocate, hnull⟩ := allocate_null (.above (· = 2)) sampleRun resetsWhole_sampleRun
    (s := { allocator := { blocks := [⟨16, 65536, 65536⟩], mallocs := 2 }, given := [⟨16, 65536⟩] })
      rfl 8
  exact ⟨_, p, a, rfl, hallocate, hnull⟩

end DxilSpirv.Memory
