import Mathlib.Data.BitVec

/-!
# Blocks of words

A block of memory as the list of its 32-bit words. An access that leaves its block has no result.
Bits are packed 32 to a word from some word of the block on, and read and written one at a time.
-/

namespace DxilSpirv.WordBlock

variable {block dest source : List (BitVec 32)} {base start n i : Nat}

/-- A store to one word. -/
def store (block : List (BitVec 32)) (i : Nat) (value : BitVec 32) : Option (List (BitVec 32)) :=
  if i < block.length then some (block.set i value) else none

/-- `memcpy` of `n` words from one block into another. -/
def memcpy (dest : List (BitVec 32)) (base : Nat) (source : List (BitVec 32)) (start n : Nat) :
    Option (List (BitVec 32)) :=
  if base + n ≤ dest.length ∧ start + n ≤ source.length then
    some (dest.take base ++ (source.drop start).take n ++ dest.drop (base + n))
  else none

/-- `memset` of `n` words to zero. -/
def memset (dest : List (BitVec 32)) (base n : Nat) : Option (List (BitVec 32)) :=
  memcpy dest base (List.replicate n 0) 0 n

/-- The bit at a position, packed from the word `base` on. -/
def readBit (block : List (BitVec 32)) (base i : Nat) : Option Bool :=
  (block[base + i / 32]?).map (·.getLsbD (i % 32))

/-- The bit at a position is set or cleared. -/
def writeBit (block : List (BitVec 32)) (base i : Nat) (bit : Bool) :
    Option (List (BitVec 32)) := do
  let word ← block[base + i / 32]?
  let mask := 1#32 <<< (i % 32)
  store block (base + i / 32) (if bit then word ||| mask else word &&& ~~~mask)

/-- What a store inside the block leaves. -/
theorem store_spec (value : BitVec 32) (h : i < block.length) :
    ∃ block', store block i value = some block' ∧ block'.length = block.length ∧
      ∀ j, block'[j]? = if j = i then some value else block[j]? := by
  refine ⟨block.set i value, if_pos h, List.length_set, fun j => ?_⟩
  by_cases hj : j = i
  · rw [hj, List.getElem?_set_self h, if_pos rfl]
  · rw [List.getElem?_set_ne (Ne.symm hj), if_neg hj]

/-- What a copy between two blocks leaves: the words copied, and the others as they were. -/
theorem memcpy_spec (dest : List (BitVec 32)) (base : Nat) (source : List (BitVec 32))
    (start n : Nat) (hdest : base + n ≤ dest.length) (hsource : start + n ≤ source.length) :
    ∃ dest', memcpy dest base source start n = some dest' ∧ dest'.length = dest.length ∧
      ∀ j, dest'[j]? =
        if base ≤ j ∧ j < base + n then source[start + (j - base)]? else dest[j]? := by
  refine ⟨_, if_pos ⟨hdest, hsource⟩, ?_, fun j => ?_⟩
  · simp only [List.length_append, List.length_take, List.length_drop]
    omega
  have htake : (dest.take base).length = base := by rw [List.length_take]; omega
  have hmiddle : ((source.drop start).take n).length = n := by
    rw [List.length_take, List.length_drop]
    omega
  by_cases hbefore : j < base
  · rw [if_neg (by omega), List.append_assoc, List.getElem?_append_left (by omega),
      List.getElem?_take_of_lt hbefore]
  by_cases hinside : j < base + n
  · rw [if_pos (by omega), List.append_assoc, List.getElem?_append_right (by omega), htake,
      List.getElem?_append_left (by omega), List.getElem?_take_of_lt (by omega),
      List.getElem?_drop]
  · rw [if_neg (by omega), List.append_assoc, List.getElem?_append_right (by omega), htake,
      List.getElem?_append_right (by omega), hmiddle, List.getElem?_drop]
    congr 1
    omega

/-- A copy keeps the length of the block. -/
theorem length_of_memcpy {dest' : List (BitVec 32)}
    (h : memcpy dest base source start n = some dest') : dest'.length = dest.length := by
  have hinside : base + n ≤ dest.length ∧ start + n ≤ source.length := by
    by_contra hnot
    rw [memcpy, if_neg hnot] at h
    cases h
  obtain ⟨dest'', hrun, hlength, _⟩ := memcpy_spec _ _ _ _ _ hinside.1 hinside.2
  obtain rfl := Option.some.inj (h.symm.trans hrun)
  exact hlength

/-- What clearing words leaves. -/
theorem memset_spec (dest : List (BitVec 32)) (base n : Nat) (hdest : base + n ≤ dest.length) :
    ∃ dest', memset dest base n = some dest' ∧ dest'.length = dest.length ∧
      ∀ j, dest'[j]? = if base ≤ j ∧ j < base + n then some 0 else dest[j]? := by
  obtain ⟨dest', hrun, hlength, hget⟩ := memcpy_spec dest base (List.replicate n 0) 0 n
    hdest (by simp)
  refine ⟨dest', hrun, hlength, fun j => ?_⟩
  rw [hget j]
  by_cases hj : base ≤ j ∧ j < base + n
  · rw [if_pos hj, if_pos hj, List.getElem?_replicate, if_pos (by omega)]
  · rw [if_neg hj, if_neg hj]

/-- The bits of a word after one of them is set or cleared. -/
theorem getLsbD_write {word : BitVec 32} {bit : Bool} {j k : Nat} (hj : j < 32) (hk : k < 32) :
    (if bit then word ||| 1#32 <<< k else word &&& ~~~(1#32 <<< k)).getLsbD j =
      if j = k then bit else word.getLsbD j := by
  have hmask : (1#32 <<< k).getLsbD j = decide (j = k) := by
    rw [← BitVec.twoPow_eq, BitVec.getLsbD_twoPow]
    simp [hk, eq_comm]
  cases bit with
  | true =>
    rw [if_pos rfl, BitVec.getLsbD_or, hmask]
    by_cases h : j = k <;> simp [h]
  | false =>
    rw [if_neg Bool.false_ne_true, BitVec.getLsbD_and, BitVec.getLsbD_not, hmask]
    by_cases h : j = k <;> simp [h, hj]

/-- What writing one bit leaves: the other bits and the other words as they were. -/
theorem writeBit_spec (bit : Bool) (h : base + i / 32 < block.length) :
    ∃ block', writeBit block base i bit = some block' ∧ block'.length = block.length ∧
      (∀ j, j ≠ base + i / 32 → block'[j]? = block[j]?) ∧
      ∀ k, readBit block' base k = if k = i then some bit else readBit block base k := by
  obtain ⟨word, hword⟩ : ∃ word, block[base + i / 32]? = some word :=
    ⟨_, List.getElem?_eq_getElem h⟩
  obtain ⟨block', hrun, hlength, hget⟩ := store_spec
    (if bit then word ||| 1#32 <<< (i % 32) else word &&& ~~~(1#32 <<< (i % 32))) h
  refine ⟨block', by simp only [writeBit, hword, Option.bind_eq_bind, Option.bind_some, hrun],
    hlength, fun j hj => by rw [hget j, if_neg hj], fun k => ?_⟩
  have hlt : k % 32 < 32 := Nat.mod_lt _ (by omega)
  unfold readBit
  rw [hget]
  by_cases hk : k / 32 = i / 32
  · rw [if_pos (by rw [hk]), Option.map_some, getLsbD_write hlt (Nat.mod_lt _ (by omega)), hk,
      hword, Option.map_some]
    by_cases hbit : k = i
    · rw [if_pos hbit, if_pos (by rw [hbit])]
    · rw [if_neg hbit, if_neg (by omega)]
  · rw [if_neg (by omega), if_neg fun h => hk (by rw [h])]

/-- Bits are read from the words that hold them alone. -/
theorem readBit_congr {base' : Nat} (h : dest[base + i / 32]? = source[base' + i / 32]?) :
    readBit dest base i = readBit source base' i := by
  unfold readBit
  rw [h]

end DxilSpirv.WordBlock
