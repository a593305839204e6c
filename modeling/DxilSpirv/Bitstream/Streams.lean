import DxilSpirv.Bitstream.RoundTrip

/-!
# Streams are read back

The bytes of a stream that a writer lays out hold its bits, so the decoder gives back the block at
the top level. Bytes after it leave the block as it is, and the stream does not end there.
-/

namespace DxilSpirv.Bitstream

open DxilSpirv.Program DxilSpirv.Bitcode Stoppable

theorem ofBytes_append (data more : List UInt8) :
    ofBytes (data ++ more) = ofBytes data + 2 ^ (8 * data.length) * ofBytes more := by
  rw [ofBytes, List.map_append, Nat.ofDigits_append, List.length_map, ← pow_mul]
  rfl

/-- Whole bytes hold the bits that they were packed from. -/
theorem ofBytes_packBytes {bits : List Bool} (h : bits.length % 8 = 0) :
    (packBytes bits).length * 8 = bits.length ∧ ofBytes (packBytes bits) = ofBits bits := by
  fun_induction packBytes bits with
  | case1 b₀ b₁ b₂ b₃ b₄ b₅ b₆ b₇ bits ih =>
    obtain ⟨hlen, hvalue⟩ := ih (by simp only [List.length_cons] at h; omega)
    have hsplit : b₀ :: b₁ :: b₂ :: b₃ :: b₄ :: b₅ :: b₆ :: b₇ :: bits =
        [b₀, b₁, b₂, b₃, b₄, b₅, b₆, b₇] ++ bits := rfl
    have hbyte : ofBits [b₀, b₁, b₂, b₃, b₄, b₅, b₆, b₇] < 2 ^ 8 := ofBits_lt _
    refine ⟨by simp only [List.length_cons]; omega, ?_⟩
    rw [hsplit, ofBits_append, ofBytes_cons, hvalue, UInt8.toNat_ofNat_of_lt' hbyte]
    rfl
  | case2 bits hshort =>
    obtain rfl : bits = [] := by
      rcases bits with _ | ⟨b₀,
        _ | ⟨b₁, _ | ⟨b₂, _ | ⟨b₃, _ | ⟨b₄, _ | ⟨b₅, _ | ⟨b₆, _ | ⟨b₇, bits⟩⟩⟩⟩⟩⟩⟩⟩
      · rfl
      on_goal 8 => exact absurd rfl (hshort b₀ b₁ b₂ b₃ b₄ b₅ b₆ b₇ bits)
      all_goals simp at h
    exact ⟨rfl, rfl⟩

/-- A reader at the start of a stream stands before the bits of the stream. -/
theorem before_start {bits : List Bool} (h : bits.length % 8 = 0) (more : List UInt8) :
    ({ data := packBytes bits ++ more } : BitReader).Before 0 bits := by
  obtain ⟨hlen, hvalue⟩ := ofBytes_packBytes h
  refine ⟨Nat.zero_lt_succ 7, rfl, ?_, ?_⟩
  · change 0 + bits.length ≤ (packBytes bits ++ more).length * 8
    rw [List.length_append]
    omega
  · change window (ofBytes (packBytes bits ++ more)) 0 bits.length = _
    rw [ofBytes_append, Nat.mul_comm 8, hlen, hvalue, window, pow_zero, Nat.div_one,
      Nat.add_mul_mod_self_left, Nat.mod_eq_of_lt (ofBits_lt bits)]

variable {id abbrevSize : Nat} {items : List Item} {data : List UInt8}

/-- The magic number is read. -/
theorem readMagic_eq {b : BitReader} {p : Nat} (h : b.Before p (lowBits 32 0xDEC04342)) :
    readMagic { b := b } = .ok ((), { b := b.skip 32 }) := by
  unfold readMagic
  rw [reading_bind (reads_read (by decide)) h, length_lowBits, assertThat, if_pos rfl]
  rfl

/-- The block at the top level is read. -/
theorem readToplevelBlock_eq {b : BitReader} {p words fuel : Nat} {inner : Scope}
    {entry y x : List Bool} (h : BlockBits items id abbrevSize 2 p {} inner words entry y x)
    (hb : b.Before p x) (hfuel : x.length ≤ fuel) :
    readToplevelBlock fuel { b := b } =
      .ok (.block id (entriesOf items),
          { b := b.skip x.length, blockInfo := inner.blockInfo }) := by
  have hread := @BlockBits.read _ _ _ _ _ _ _ _ _ _ _ _ h (readBack items) { b := b } hb rfl hfuel
  obtain ⟨r₁, henter, hentries⟩ := hread
  have hentry : b.Before p entry := (h.eq ▸ hb).left
  unfold readToplevelBlock
  rw [bind_of_ok (rfl : (get : Decoder BitcodeReader) _ = .ok _)]
  refine (reading_bind (reads_id (by decide) h.entry_eq p) hentry).trans ?_
  refine (bind_of_ok (rfl : reading (assertThat (1 = 1)) _ = .ok _)).trans ?_
  unfold readBlockContents
  refine (bind_of_ok henter).trans ((bind_of_ok hentries).trans ?_)
  rw [decide_eq_true h.words_pos]
  rfl

/-- A reader past the bytes of a stream is at its end unless more bytes follow. -/
theorem atEndOfStream_skip {b : BitReader} {n : Nat} {more : List UInt8}
    (hdata : b.data = data ++ more) (hstart : b.bitOffset = 0) (hn : data.length * 8 = n) :
    (b.skip n).atEndOfStream = more.isEmpty := by
  have hoffset : (b.skip n).byteOffset = data.length := by
    rw [BitReader.skip, hstart]
    simp only
    omega
  rw [BitReader.atEndOfStream, BitReader.skip_data, hoffset, hdata, List.length_append]
  cases more with
  | nil => exact decide_eq_true le_rfl
  | cons byte more =>
    rw [List.length_cons]
    exact decide_eq_false (by omega)

/-- The decoder reads the block that was written, and it is at the end of the stream unless more
follows. -/
theorem readStream_runs (h : writeStream (.block id abbrevSize items) = some data)
    (more : List UInt8) :
    readStream (data ++ more) = .ok (.block id (entriesOf items), more.isEmpty) := by
  obtain ⟨⟨x, s'⟩, hx, h⟩ := Option.bind_eq_some_iff.mp h
  obtain rfl := Option.some.inj h
  obtain ⟨inner, words, entry, y, hbits, -⟩ := blockBits_of_write hx
  have hlen : (lowBits 32 0xDEC04342 ++ x).length % 8 = 0 := by
    have hend := endBits_aligned
      (32 + entry.length + (headBits (32 + entry.length) id abbrevSize words).length +
        y.length) abbrevSize
    rw [hbits.eq]
    simp only [List.length_append, length_lowBits]
    omega
  obtain ⟨hbytes, -⟩ := ofBytes_packBytes hlen
  have hb := before_start hlen more
  rw [List.length_append, length_lowBits] at hbytes
  have hmagic := readMagic_eq hb.left
  have hafter := hb.skip
  rw [length_lowBits] at hafter
  have htop := @readToplevelBlock_eq
    _ _ _ _ _ _ (8 * (packBytes (lowBits 32 0xDEC04342 ++ x) ++ more).length + 1)
    _ _ _ _ hbits hafter (by rw [List.length_append]; omega)
  unfold readStream
  rw [bind_of_ok hmagic, htop]
  have hend := @atEndOfStream_skip _ { data := packBytes (lowBits 32 0xDEC04342 ++ x) ++ more }
    _ more rfl rfl hbytes
  rw [← BitReader.skip_skip] at hend
  exact congrArg (fun e => Except.ok (BlockOrRecord.block id (entriesOf items), e)) hend

/-- What is written is read back, whatever abbreviations it is written under, blobs and their
lengths included. -/
theorem readStream_writeStream (h : writeStream (.block id abbrevSize items) = some data) :
    readStream data = .ok (.block id (entriesOf items), true) := by
  have hruns := readStream_runs h []
  rwa [List.append_nil] at hruns

/-- A module with a block info, arrays of characters, blobs and records in full. -/
def sampleItems : List Item :=
  [.block 0 2 [.record 1 [9], .define [.fixed 4, .array, .char6]],
    .block 9 5 [.abbreviated 4 3 [97, 95, 48] none, .define [.literal 7, .vbr 6, .blob],
      .abbreviated 5 7 [100] (some [1, 2, 3])],
    .record 1 [1000000]]

theorem readStream_writeStream_sample : ∃ data, writeStream (.block 8 3 sampleItems) = some data ∧
    readStream data = .ok (.block 8 [.block 0 [.record 1 [9]],
      .block 9 [.record 3 [97, 95, 48], .mk false 7 [] [100] (some [1, 2, 3]) 3],
        .record 1 [1000000]], true) := by
  have hsome : (writeStream (.block 8 3 sampleItems)).isSome := by decide +kernel
  obtain ⟨data, hdata⟩ := Option.isSome_iff_exists.mp hsome
  exact ⟨data, hdata, readStream_writeStream hdata⟩

end DxilSpirv.Bitstream
