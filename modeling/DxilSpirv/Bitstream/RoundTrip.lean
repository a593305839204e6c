import DxilSpirv.Bitstream.Records

/-!
# Blocks are read back

What a writer puts into a block, at any depth, the decoder takes out again, with the abbreviations
in scope that were in scope for the writer.
-/

namespace DxilSpirv.Bitstream

open DxilSpirv.Program DxilSpirv.Bitcode Stoppable

section Steps

variable {α β : Type} {m : Reader α} {f : α → Decoder β} {p width : Nat} {x y : List Bool} {a : α}
  {b : BitReader}

/-- The decoder within a block. -/
def Scope.reader (s : Scope) (b : BitReader) (width : Nat) (tail : List BlockContext) :
    BitcodeReader :=
  { b := b
    blockStack := { abbrevSize := width, abbrevs := s.abbrevs } :: tail
    blockInfo := s.blockInfo }

/-- The reader stands before these bits. -/
structure BitReader.Before (b : BitReader) (p : Nat) (x : List Bool) : Prop where
  offset_lt : b.offset < 8
  position : b.bitOffset = p
  holds : b.Holds x

/-- Past the first of two codes, the reader stands before the second. -/
theorem BitReader.Before.skip (h : b.Before p (x ++ y)) :
    (b.skip x.length).Before (p + x.length) y :=
  ⟨skip_offset_lt, by rw [skip_bitOffset, h.position], (holds_append.mp h.holds).2⟩

/-- A cursor before two texts is before the first. -/
theorem BitReader.Before.left (h : b.Before p (x ++ y)) : b.Before p x :=
  ⟨h.offset_lt, h.position, (holds_append.mp h.holds).1⟩

/-- The decoder reads a code and goes on. -/
theorem reading_bind {r : BitcodeReader} (hm : Reads m p x a) (h : r.b.Before p x) :
    (reading m >>= f) r = f a { r with b := r.b.skip x.length } := by
  apply bind_of_ok
  unfold reading
  rw [hm r.b h.offset_lt h.position h.holds]

/-- An id of an entry. -/
theorem reads_id {abbrevID : Nat} (hwidth : width ≤ 64) (h : idBits width abbrevID = some x)
    (p : Nat) :
    Reads (fixed 4 width) p x abbrevID := by
  obtain ⟨⟨hfits, hlt⟩, hx⟩ := Option.ite_none_right_eq_some.mp h
  obtain rfl := Option.some.inj hx
  exact reads_fixed hwidth hfits hlt

/-- An id other than zero takes bits. -/
theorem idBits_length {abbrevID : Nat} (h : idBits width abbrevID = some x) (hpos : 0 < abbrevID) :
    0 < x.length := by
  obtain ⟨⟨hfits, -⟩, hx⟩ := Option.ite_none_right_eq_some.mp h
  obtain rfl := Option.some.inj hx
  rw [length_lowBits]
  by_contra hzero
  rw [Nat.eq_zero_of_not_pos hzero] at hfits
  omega

end Steps

variable {p id width words fuel : Nat} {r : BitcodeReader} {b : BitReader} {x : List Bool}
  {s s' : Scope} {tail : List BlockContext}

@[simp] theorem length_headBits (p id width words : Nat) :
    (headBits p id width words).length = (headBits p id width 0).length := by
  simp only [headBits, List.length_append, length_lowBits]

/-- The length of a block stands at the end of a word. -/
theorem headBits_aligned (p id width words : Nat) :
    (p + (headBits p id width words).length) % 32 = 0 := by
  simp only [headBits, List.length_append, length_lowBits, length_alignBits]
  omega

/-- The end of a block is aligned to a word. -/
theorem endBits_aligned (p width : Nat) : (p + (endBits p width).length) % 32 = 0 := by
  rw [endBits, List.length_append, length_lowBits, length_alignBits]
  omega

/-- The end of a block has room for its abbreviation id. -/
theorem length_endBits_ge (p width : Nat) : width ≤ (endBits p width).length := by
  rw [endBits, List.length_append, length_lowBits]
  exact Nat.le_add_right ..

/-- The start of a block. -/
theorem enterBlock_eq (hid : id < 2 ^ 32) (hwidth : width ≤ 64) (hwords : words < 2 ^ 32)
    (h : r.b.Before p (headBits p id width words)) :
    enterBlock r = .ok ((id, words),
      { r with
        b := r.b.skip (headBits p id width words).length
        blockStack := { abbrevSize := width } :: r.blockStack }) := by
  unfold headBits at h ⊢
  rw [List.append_assoc, List.length_append, ← Nat.add_assoc] at h
  unfold enterBlock
  rw [reading_bind (reads_vbr (by decide) (by decide) (by decide) hid) h.left,
    reading_bind (reads_vbr (by decide) (by decide) (by decide) (by omega)) h.skip.left,
    bind_of_ok (rfl : (modify _ : Decoder PUnit) _ = .ok _),
      reading_bind reads_align32bits h.skip.skip.left,
    reading_bind (reads_read (by omega)) h.skip.skip.skip]
  simp only [BitReader.skip_skip, List.length_append, length_lowBits, Nat.add_assoc]
  rfl

/-- The id of an entry is read first. -/
theorem readEntries_id {abbrevID : Nat} {cur : Option Nat}
    (hid : Reads (fixed 4 width) p x abbrevID) (h : b.Before p x) :
    readEntries (fuel + 1) id cur (s.reader b width tail) =
      readEntry (readEntries fuel) id cur abbrevID (s.reader (b.skip x.length) width tail) := by
  rw [readEntries, bind_of_ok (rfl : (get : Decoder BitcodeReader) _ = .ok _)]
  exact reading_bind hid h

/-- The end of a block. -/
theorem readEntries_end (hwidth : width ≤ 64) (h : b.Before p (endBits p width))
    (cur : Option Nat) : readEntries (fuel + 1) id cur (s.reader b width tail) =
      .ok ([], s.reader (b.skip (endBits p width).length) width tail) := by
  have hzero : Reads (fixed 4 width) p (lowBits width 0) 0 :=
    reads_fixed hwidth (Nat.two_pow_pos _) (Nat.two_pow_pos _)
  unfold endBits at h ⊢
  have hskip := h.skip
  rw [length_lowBits] at hskip
  rw [readEntries_id hzero h.left, readEntry, length_lowBits]
  rw [reading_bind reads_align32bits hskip, List.length_append, length_lowBits,
    ← BitReader.skip_skip]
  rfl

variable {blockId : Nat} {a : AbbrevDesc}

/-- An abbreviation in scope is found. -/
theorem getAbbrev_eq {abbrevID : Nat} (h : s.abbrev blockId abbrevID = some a) :
    getAbbrev blockId abbrevID (s.reader b width tail) = .ok (a, s.reader b width tail) := by
  obtain ⟨hid, hget⟩ := Option.ite_none_right_eq_some.mp h
  rw [List.getElem?_append] at hget
  unfold getAbbrev Scope.reader
  rw [if_neg (Nat.not_lt.mpr hid)]
  by_cases hinfo : abbrevID - 4 < ((s.blockInfo blockId).getD []).length
  · rw [if_pos hinfo] at hget
    simp only [hget]
  · rw [if_neg hinfo] at hget
    simp only [List.getElem?_eq_none (Nat.le_of_not_lt hinfo), hget]

/-- A definition goes into scope. -/
theorem addAbbrev_eq (a : AbbrevDesc) :
    addAbbrev s.curBlockInfo a (s.reader b width tail) =
      .ok ((), (s.define a).reader b width tail) := by
  unfold addAbbrev Scope.define
  cases s.curBlockInfo with
  | some bid => rfl
  | none => rfl

/-- A definition is about the block that it was about before. -/
@[simp] theorem define_curBlockInfo (a : AbbrevDesc) :
    (s.define a).curBlockInfo = s.curBlockInfo := by
  unfold Scope.define
  split
  · rfl
  · rfl

/-- A record changes the scope as the decoder sees it. -/
theorem record_bind {α : Type} {f : Option Nat → Decoder α} {id : Nat} {ops : List Nat}
    (h : s.record blockId id ops = some s') :
    (if blockId = 0 then blockInfoRecord s.curBlockInfo id ops >>= f else pure s.curBlockInfo >>= f)
      (s.reader b width tail) = f s'.curBlockInfo (s'.reader b width tail) := by
  unfold Scope.record at h
  by_cases hblock : blockId = 0
  · rw [if_pos hblock]
    apply bind_of_ok
    unfold blockInfoRecord
    by_cases hid : id = 1
    · rw [if_pos ⟨hblock, hid⟩] at h
      rw [if_pos hid]
      cases ops with
      | nil => cases h
      | cons op ops =>
        obtain rfl := Option.some.inj h
        rfl
    · rw [if_neg fun hand => hid hand.2] at h
      obtain rfl := Option.some.inj h
      rw [if_neg hid]
  · rw [if_neg fun hand => hblock hand.1] at h
    obtain rfl := Option.some.inj h
    rw [if_neg hblock]
    rfl

/-- An item is read back, and what follows it is read in the scope after it. -/
def Item.ReadsBack (item : Item) : Prop :=
  ∀ {blockId width fuel p : Nat} {s s' : Scope} {x : List Bool} {b : BitReader} {tail :
    List BlockContext},
    width ≤ 64 → item.write blockId width s p = some (x, s') → b.Before p x → x.length ≤ fuel →
    readEntries (fuel + 1) blockId s.curBlockInfo (s.reader b width tail) =
      (readEntries fuel blockId s'.curBlockInfo >>= fun rest => pure (item.entries ++ rest))
        (s'.reader (b.skip x.length) width tail)

/-- The items of a block are read back, up to its end. -/
def ReadBack (items : List Item) : Prop :=
  ∀ {blockId width fuel p : Nat} {s s' : Scope} {x : List Bool} {b : BitReader} {tail :
    List BlockContext},
    width ≤ 64 → writeItems blockId width s p items = some (x, s') →
      b.Before p (x ++ endBits (p + x.length) width) →
    x.length < fuel →
    readEntries fuel blockId s.curBlockInfo (s.reader b width tail) =
      .ok
        (entriesOf items, s'.reader (b.skip (x ++ endBits (p + x.length) width).length) width tail)

/-- A definition that is written is read back. -/
theorem readsBack_define (a : AbbrevDesc) : (Item.define a).ReadsBack := by
  intro blockId width fuel p s s' x b tail hwidth h hb _
  obtain ⟨entry, hentry, h⟩ := Option.bind_eq_some_iff.mp h
  obtain ⟨y, hy, h⟩ := Option.bind_eq_some_iff.mp h
  obtain ⟨rfl, rfl⟩ := Prod.mk.inj (Option.some.inj h)
  rw [readEntries_id (reads_id hwidth hentry p) hb.left, readEntry,
    reading_bind (reads_abbrevDesc hy _) hb.skip, List.length_append, ← BitReader.skip_skip,
      define_curBlockInfo]
  exact (bind_of_ok (addAbbrev_eq a)).trans (congrFun (bind_pure _).symm _)

/-- A record that is written is read back. -/
theorem readsBack_record (id : Nat) (ops : List Nat) : (Item.record id ops).ReadsBack := by
  intro blockId width fuel p s s' x b tail hwidth h hb _
  obtain ⟨entry, hentry, h⟩ := Option.bind_eq_some_iff.mp h
  obtain ⟨y, hy, h⟩ := Option.bind_eq_some_iff.mp h
  obtain ⟨s₁, hs₁, h⟩ := Option.bind_eq_some_iff.mp h
  obtain ⟨rfl, rfl⟩ := Prod.mk.inj (Option.some.inj h)
  rw [readEntries_id (reads_id hwidth hentry p) hb.left, readEntry,
    reading_bind (reads_unabbreviated hy _) hb.skip, List.length_append, ← BitReader.skip_skip]
  exact record_bind hs₁

/-- A record of an abbreviation is read back, with its blob. -/
theorem readsBack_abbreviated (abbrevID id : Nat) (ops : List Nat) (blob : Option (List UInt8)) :
    (Item.abbreviated abbrevID id ops blob).ReadsBack := by
  intro blockId width fuel p s s' x b tail hwidth h hb _
  obtain ⟨entry, hentry, h⟩ := Option.bind_eq_some_iff.mp h
  obtain ⟨a, ha, h⟩ := Option.bind_eq_some_iff.mp h
  obtain ⟨y, hy, h⟩ := Option.bind_eq_some_iff.mp h
  obtain ⟨rfl, rfl⟩ := Prod.mk.inj (Option.some.inj h)
  obtain ⟨n, rfl⟩ : ∃ n, abbrevID = n + 4 := by
    obtain ⟨hid, -⟩ := Option.ite_none_right_eq_some.mp ha
    exact ⟨abbrevID - 4, by omega⟩
  rw [readEntries_id (reads_id hwidth hentry p) hb.left, readEntry]
  · refine (bind_of_ok (getAbbrev_eq ha)).trans
      ((reading_bind (reads_abbreviated hy) hb.skip).trans ?_)
    rw [List.length_append, ← BitReader.skip_skip]
    rfl
  all_goals omega

/-- What a writer makes of a block: its id in the block around it, its start, its items and its
end. -/
structure BlockBits (items : List Item) (id abbrevSize width p : Nat) (s inner : Scope)
    (words : Nat) (entry y x : List Bool) : Prop where
  id_lt : id < 2 ^ 32
  abbrevSize_le : abbrevSize ≤ 64
  words_pos : 0 < words
  words_lt : words < 2 ^ 32
  entry_eq : idBits width 1 = some entry
  items_eq : writeItems id abbrevSize { blockInfo := s.blockInfo }
    (p + entry.length + (headBits (p + entry.length) id abbrevSize words).length) items =
      some (y, inner)
  eq : x = entry ++ (headBits (p + entry.length) id abbrevSize words ++ (y ++ endBits
    (p + entry.length + (headBits (p + entry.length) id abbrevSize words).length + y.length)
      abbrevSize))

/-- A block that is written has an entry, a body and an end. -/
theorem blockBits_of_write {items : List Item} {id abbrevSize blockId width p : Nat} {s s' : Scope}
    {x : List Bool} (h : (Item.block id abbrevSize items).write blockId width s p = some (x, s')) :
    ∃ (inner : Scope) (words : Nat) (entry y : List Bool),
      BlockBits items id abbrevSize width p s inner words entry y x ∧
        s' = { s with blockInfo := inner.blockInfo } := by
  obtain ⟨entry, hentry, h⟩ := Option.bind_eq_some_iff.mp h
  obtain ⟨⟨y, inner⟩, hy, h⟩ := Option.bind_eq_some_iff.mp h
  obtain ⟨⟨hid, hpos, hsize, hwords⟩, h⟩ := Option.ite_none_right_eq_some.mp h
  obtain ⟨rfl, rfl⟩ := Prod.mk.inj (Option.some.inj h)
  refine ⟨inner, _, entry, y, ⟨hid, hsize, ?_, hwords, hentry, ?_, ?_⟩, rfl⟩
  · -- The items begin and end at a word, and the end of the block takes bits.
    have hstart := headBits_aligned (p + entry.length) id abbrevSize 0
    have hend := endBits_aligned
      (p + entry.length + (headBits (p + entry.length) id abbrevSize 0).length +
        y.length) abbrevSize
    have hge := length_endBits_ge
      (p + entry.length + (headBits (p + entry.length) id abbrevSize 0).length +
        y.length) abbrevSize
    rw [List.length_append]
    omega
  · rw [length_headBits]
    exact hy
  · rw [length_headBits _ _ _ (_ / 32)]

/-- A block is entered, and its entries are those of its items. -/
theorem BlockBits.read {items : List Item} {id abbrevSize width p words fuel : Nat}
    {s inner : Scope} {entry y x : List Bool}
    (h : BlockBits items id abbrevSize width p s inner words entry y x) (hitems : ReadBack items)
    {r : BitcodeReader} (hb : r.b.Before p x) (hinfo : r.blockInfo = s.blockInfo)
    (hfuel : x.length ≤ fuel) :
    ∃ r₁, enterBlock { r with b := r.b.skip entry.length } = .ok ((id, words), r₁) ∧
      readEntries fuel id none r₁ = .ok (entriesOf items,
        inner.reader (r.b.skip x.length) abbrevSize r.blockStack) := by
  rw [h.eq] at hb hfuel ⊢
  refine ⟨_, enterBlock_eq h.id_lt h.abbrevSize_le h.words_lt hb.skip.left, ?_⟩
  have hlen := idBits_length h.entry_eq (by decide)
  rw [List.length_append, List.length_append, List.length_append] at hfuel
  have hread := @hitems id abbrevSize fuel _ _ _ _ _ r.blockStack h.abbrevSize_le h.items_eq
    hb.skip.skip (by omega)
  rw [@List.length_append _ entry, @List.length_append _ (headBits ..), ← BitReader.skip_skip,
    ← BitReader.skip_skip, hinfo]
  exact hread

/-- A block is read back when its items are. -/
theorem readsBack_block (id abbrevSize : Nat) {items : List Item} (hitems : ReadBack items) :
    (Item.block id abbrevSize items).ReadsBack := by
  intro blockId width fuel p s s' x b tail hwidth h hb hfuel
  obtain ⟨inner, words, entry, y, hbits, rfl⟩ := blockBits_of_write h
  obtain ⟨r₁, henter, hread⟩ :=
    @BlockBits.read _ _ _ _ _ _ _ _ _ _ _ _ hbits hitems (s.reader b width tail) hb rfl hfuel
  have hentry : b.Before p entry := (hbits.eq ▸ hb).left
  rw [readEntries_id (reads_id hwidth hbits.entry_eq p) hentry, readEntry]
  refine (bind_of_ok henter).trans ((bind_of_ok hread).trans ?_)
  rw [decide_eq_true hbits.words_pos]
  rfl

/-- No items are read back as none. -/
theorem readBack_nil : ReadBack [] := by
  intro blockId width fuel p s s' x b tail hwidth h hb hfuel
  obtain ⟨rfl, rfl⟩ := Prod.mk.inj (Option.some.inj h)
  obtain ⟨fuel, rfl⟩ : ∃ n, fuel = n + 1 := ⟨fuel - 1, by omega⟩
  exact readEntries_end hwidth hb s.curBlockInfo

/-- Every item takes bits. -/
theorem Item.write_length {item : Item} {blockId width p : Nat} {s s' : Scope} {x : List Bool}
    (h : item.write blockId width s p = some (x, s')) : 0 < x.length := by
  have hentry {abbrevID : Nat} {entry rest : List Bool} (hid : idBits width abbrevID = some entry)
      (hpos : 0 < abbrevID) : 0 < (entry ++ rest).length := by
    rw [List.length_append]
    exact Nat.add_pos_left (idBits_length hid hpos) _
  cases item with
  | block id abbrevSize items =>
    obtain ⟨entry, hid, h⟩ := Option.bind_eq_some_iff.mp h
    obtain ⟨⟨y, inner⟩, hy, h⟩ := Option.bind_eq_some_iff.mp h
    obtain ⟨-, h⟩ := Option.ite_none_right_eq_some.mp h
    obtain ⟨rfl, rfl⟩ := Prod.mk.inj (Option.some.inj h)
    exact hentry hid (by decide)
  | define a =>
    obtain ⟨entry, hid, h⟩ := Option.bind_eq_some_iff.mp h
    obtain ⟨y, hy, h⟩ := Option.bind_eq_some_iff.mp h
    obtain ⟨rfl, rfl⟩ := Prod.mk.inj (Option.some.inj h)
    exact hentry hid (by decide)
  | record id ops =>
    obtain ⟨entry, hid, h⟩ := Option.bind_eq_some_iff.mp h
    obtain ⟨y, hy, h⟩ := Option.bind_eq_some_iff.mp h
    obtain ⟨s₁, hs₁, h⟩ := Option.bind_eq_some_iff.mp h
    obtain ⟨rfl, rfl⟩ := Prod.mk.inj (Option.some.inj h)
    exact hentry hid (by decide)
  | abbreviated abbrevID id ops blob =>
    obtain ⟨entry, hid, h⟩ := Option.bind_eq_some_iff.mp h
    obtain ⟨a, ha, h⟩ := Option.bind_eq_some_iff.mp h
    obtain ⟨y, hy, h⟩ := Option.bind_eq_some_iff.mp h
    obtain ⟨rfl, rfl⟩ := Prod.mk.inj (Option.some.inj h)
    obtain ⟨hfour, -⟩ := Option.ite_none_right_eq_some.mp ha
    exact hentry hid (by omega)

/-- A first item and the rest are read back. -/
theorem readBack_cons {item : Item} {items : List Item} (hitem : item.ReadsBack)
    (hitems : ReadBack items) :
    ReadBack (item :: items) := by
  intro blockId width fuel p s s' x b tail hwidth h hb hfuel
  obtain ⟨⟨y, s₁⟩, hy, h⟩ := Option.bind_eq_some_iff.mp h
  obtain ⟨⟨z, s₂⟩, hz, h⟩ := Option.bind_eq_some_iff.mp h
  obtain ⟨rfl, rfl⟩ := Prod.mk.inj (Option.some.inj h)
  have hlen := Item.write_length hy
  obtain ⟨fuel, rfl⟩ : ∃ n, fuel = n + 1 := ⟨fuel - 1, by omega⟩
  have hlength : p + (y ++ z).length = p + y.length + z.length := by
    rw [List.length_append, Nat.add_assoc]
  rw [List.length_append] at hfuel
  rw [List.append_assoc, hlength] at hb ⊢
  rw [hitem hwidth hy hb.left (by omega)]
  refine (bind_of_ok (hitems hwidth hz hb.skip (by omega))).trans ?_
  rw [@List.length_append _ y, ← BitReader.skip_skip]
  rfl

mutual

/-- Every item is read back. -/
theorem Item.readsBack : ∀ item : Item, item.ReadsBack
  | .block id abbrevSize items => readsBack_block id abbrevSize (readBack items)
  | .define a => readsBack_define a
  | .record id ops => readsBack_record id ops
  | .abbreviated abbrevID id ops blob => readsBack_abbreviated abbrevID id ops blob

/-- The items of every block are read back. -/
theorem readBack : ∀ items : List Item, ReadBack items
  | [] => readBack_nil
  | item :: items => readBack_cons item.readsBack (readBack items)

end

end DxilSpirv.Bitstream
