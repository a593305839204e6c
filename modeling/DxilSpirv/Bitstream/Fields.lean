import DxilSpirv.Bitstream.Reader

/-!
# Fields are windows

Whatever the position and the width, a read within the stream gives the window of the stream at that
position, and a read off its end gives zero and goes to the end.
-/

namespace DxilSpirv.Bitstream

open DxilSpirv.Program

namespace BitReader

variable {b : BitReader} {m n : Nat}

/-- The stream as a number. -/
def number (b : BitReader) : Nat := ofBytes b.data

/-- The reader some bits further. -/
def skip (b : BitReader) (n : Nat) : BitReader :=
  { b with
    byteOffset := (b.bitOffset + n) / 8
    offset := (b.bitOffset + n) % 8 }

/-- The bits from the position on are in the stream. -/
def Has (b : BitReader) (n : Nat) : Prop := b.bitOffset + n ≤ b.bitLength

instance : Decidable (b.Has n) := inferInstanceAs (Decidable (_ ≤ _))

/-- A field of the stream, and the reader after it. -/
def take (b : BitReader) (n : Nat) : Nat × BitReader :=
  if b.Has n then (window b.number b.bitOffset n, b.skip n) else (0, b.seekEnd)

@[simp] theorem skip_data : (b.skip n).data = b.data := rfl

@[simp] theorem skip_number : (b.skip n).number = b.number := rfl

@[simp] theorem skip_bitLength : (b.skip n).bitLength = b.bitLength := rfl

@[simp] theorem skip_bitOffset : (b.skip n).bitOffset = b.bitOffset + n := Nat.div_add_mod' _ _

@[simp] theorem seekEnd_bitOffset : b.seekEnd.bitOffset = b.bitLength := rfl

@[simp] theorem seekEnd_bitLength : b.seekEnd.bitLength = b.bitLength := rfl

/-- Two skips are one. -/
@[simp] theorem skip_skip : (b.skip m).skip n = b.skip (m + n) := by
  have h : (b.skip m).bitOffset = b.bitOffset + m := skip_bitOffset
  rw [skip, h, Nat.add_assoc]
  rfl

/-- A skip of no bits moves nothing. -/
theorem skip_zero (h : b.offset < 8) : b.skip 0 = b := by
  unfold skip bitOffset
  obtain ⟨data, byteOffset, offset⟩ := b
  simp only [BitReader.mk.injEq, true_and] at h ⊢
  omega

/-- The offset after a skip is within the byte. -/
theorem skip_offset_lt : (b.skip n).offset < 8 := Nat.mod_lt _ (by decide)

/-- The offset after a field is within the byte. -/
theorem take_offset_lt : (b.take n).2.offset < 8 := by
  unfold take
  split_ifs
  · exact skip_offset_lt
  · exact (by decide : 0 < 8)

@[simp] theorem take_data : (b.take n).2.data = b.data := by
  unfold take
  split_ifs <;> rfl

/-- A field of `n` bits is below `2 ^ n`. -/
theorem take_lt : (b.take n).1 < 2 ^ n := by
  unfold take
  split_ifs
  · exact window_lt ..
  · exact Nat.two_pow_pos n

/-- A byte that is in the stream. -/
theorem currentByte_eq (h : b.byteOffset < b.data.length) :
    currentByte b = .ok (window b.number (8 * b.byteOffset) 8, b) := by
  have hbyte : b.data[b.byteOffset]? = some b.data[b.byteOffset] := List.getElem?_eq_getElem h
  unfold currentByte
  rw [hbyte, number, window_ofBytes hbyte]

/-- `Advance` within the byte is a skip. -/
theorem advance_eq (h : b.offset < 8) (hn : b.offset + n ≤ 8) :
    advance n b = .ok ((), b.skip n) := by
  have hskip : b.skip n = if b.offset + n = 8
    then { b with byteOffset := b.byteOffset + 1, offset := 0 }
      else { b with offset := b.offset + n } := by
    unfold skip bitOffset
    split_ifs with heq
    · rw [show (b.byteOffset * 8 + b.offset + n) / 8 = b.byteOffset + 1 by omega,
        show (b.byteOffset * 8 + b.offset + n) % 8 = 0 by omega]
    · rw [show (b.byteOffset * 8 + b.offset + n) / 8 = b.byteOffset by omega,
        show (b.byteOffset * 8 + b.offset + n) % 8 = b.offset + n by omega]
  have hassert : assertThat (b.offset + n ≤ 8) b = .ok ((), b) := by
    rw [assertThat, if_pos hn]
    rfl
  unfold advance
  rw [Stoppable.bind_of_ok (rfl : (get : Reader BitReader) b = .ok (b, b)),
    Stoppable.bind_of_ok hassert, hskip]
  split_ifs <;> rfl

end BitReader

section Stored

variable {N p n d e w k : Nat} {s : Scratch}

/-- The bytes of a destination are the window, byte by byte. -/
def Stored (N p n : Nat) (s : Scratch) : Prop := ∀ i, s i = window N (p + 8 * i) (min 8 (n - 8 * i))

/-- The bytes of a destination are those of the window. -/
theorem Stored.bytes (h : Stored N p n s) (i : Nat) : s i = window (window N p n) (8 * i) 8 := by
  rw [h i, window_window, Nat.min_comm]

/-- A whole byte is stored. -/
theorem Stored.copy (h : Stored N p (8 * d) s) :
    Stored N p (8 * (d + 1)) (Function.update s d (window N (p + 8 * d) 8)) := by
  intro i
  by_cases hi : i = d
  · subst hi
    rw [Function.update_self, show min 8 (8 * (i + 1) - 8 * i) = 8 by omega]
  · rw [Function.update_of_ne hi, h i]
    congr 1
    omega

/-- Bits are stored above those of a byte, and what does not fit goes to the next byte. -/
theorem Stored.append (h : Stored N p (8 * d + e) s) (he : e ≤ 8) (hw : w ≤ 8) :
    Stored N p (8 * d + e + w) (Function.update
      (Function.update s d ((s d ||| window N (p + 8 * d + e) w <<< e) % 2 ^ 8)) (d + 1)
      (window N (p + 8 * d + e) w >>> (8 - e))) := by
  intro i
  by_cases hnext : i = d + 1
  · subst hnext
    rw [Function.update_self, window_shiftRight]
    congr 1 <;> omega
  rw [Function.update_of_ne hnext]
  by_cases hi : i = d
  · subst hi
    rw [Function.update_self, h i, show min 8 (8 * i + e - 8 * i) = e by omega,
      window_or_shiftLeft, window_mod]
    congr 1
    omega
  · rw [Function.update_of_ne hi, h i]
    congr 1
    omega

/-- Bits that fit do not change the next byte. -/
theorem Stored.append_within (h : Stored N p (8 * d + e) s) (hw : e + w ≤ 8) :
    Stored N p (8 * d + e + w)
      (Function.update s d ((s d ||| window N (p + 8 * d + e) w <<< e) % 2 ^ 8)) := by
  have happend := h.append (w := w) (by omega) (by omega)
  have hzero : window N (p + 8 * d + e) w >>> (8 - e) = 0 := by
    rw [window_shiftRight, show w - (8 - e) = 0 by omega, window_zero]
  have hnext : s (d + 1) = 0 := by
    rw [h (d + 1), show min 8 (8 * d + e - 8 * (d + 1)) = 0 by omega, window_zero]
  rw [hzero, Function.update_eq_self_iff.mpr] at happend
  · exact happend
  · rw [Function.update_of_ne (by omega), hnext]

end Stored

section Reads

open Stoppable

variable {b : BitReader} {p n d e : Nat} {s : Scratch}

/-- The cursor is read without a move. -/
theorem get_eq : (get : Reader BitReader) b = .ok (b, b) := rfl

/-- Bytes are skipped without a look at them. -/
theorem skipBytes_eq : skipBytes n b = .ok ((), { b with byteOffset := b.byteOffset + n }) := rfl

/-- An assertion that holds does nothing. -/
theorem assertThat_eq {q : Prop} [Decidable q] (h : q) : assertThat q b = .ok ((), b) := by
  rw [assertThat, if_pos h]
  rfl

/-- Whole bytes into whole bytes. -/
theorem copyBytes_eq (hlen : b.byteOffset + n ≤ b.data.length) (hpos : 8 * b.byteOffset = p + 8 * d)
    (hs : Stored b.number p (8 * d) s) :
    ∃ s', copyBytes n d s b = .ok (s', { b with byteOffset := b.byteOffset + n }) ∧
      Stored b.number p (8 * (d + n)) s' := by
  induction n generalizing b d s with
  | zero => exact ⟨s, rfl, hs⟩
  | succ n ih =>
    rw [copyBytes, bind_of_ok (BitReader.currentByte_eq (by omega)), bind_of_ok skipBytes_eq, hpos]
    obtain ⟨s', hrun, hs'⟩ := @ih { b with byteOffset := b.byteOffset + 1 } (d + 1) _
      (show b.byteOffset + 1 + n ≤ b.data.length by omega)
      (show 8 * (b.byteOffset + 1) = p + 8 * (d + 1) by omega) hs.copy
    refine ⟨s', ?_, ?_⟩
    · rw [hrun, show b.byteOffset + 1 + n = b.byteOffset + (n + 1) by omega]
    · rw [show d + (n + 1) = d + 1 + n by omega]
      exact hs'

/-- Whole bytes, each over two bytes. -/
theorem shuffleBytes_eq (hlen : b.byteOffset + n ≤ b.data.length)
    (hpos : 8 * b.byteOffset = p + 8 * d + e) (he : e ≤ 8) (hs : Stored b.number p (8 * d + e) s) :
    ∃ s', shuffleBytes e n d s b = .ok (s', { b with byteOffset := b.byteOffset + n }) ∧
      Stored b.number p (8 * (d + n) + e) s' := by
  induction n generalizing b d s with
  | zero => exact ⟨s, rfl, hs⟩
  | succ n ih =>
    rw [shuffleBytes, bind_of_ok (BitReader.currentByte_eq (by omega)),
      bind_of_ok skipBytes_eq, hpos]
    have hnext := hs.append he (le_refl 8)
    rw [show 8 * d + e + 8 = 8 * (d + 1) + e by omega] at hnext
    obtain ⟨s', hrun, hs'⟩ := @ih { b with byteOffset := b.byteOffset + 1 } (d + 1) _
      (show b.byteOffset + 1 + n ≤ b.data.length by omega)
      (show 8 * (b.byteOffset + 1) = p + 8 * (d + 1) + e by omega) hnext
    refine ⟨s', ?_, ?_⟩
    · simp only at hrun ⊢
      rw [hrun, show b.byteOffset + 1 + n = b.byteOffset + (n + 1) by omega]
    · rw [show d + (n + 1) = d + 1 + n by omega]
      exact hs'

/-- The bits after the whole bytes. -/
theorem readTail_eq (hn : n < 8) (hoffset : b.offset = 0) (hlen : b.Has n)
    (hpos : 8 * b.byteOffset = p + 8 * d + e) (he : e ≤ 8) (hs : Stored b.number p (8 * d + e) s) :
    ∃ s', readTail e n d s b = .ok (s', b.skip n) ∧ Stored b.number p (8 * d + e + n) s' := by
  have hlt : b.offset < 8 := by omega
  unfold readTail
  by_cases hzero : n = 0
  · subst hzero
    rw [if_pos rfl]
    exact ⟨s, by rw [BitReader.skip_zero hlt]; rfl, hs⟩
  · unfold BitReader.Has BitReader.bitOffset BitReader.bitLength at hlen
    rw [if_neg hzero, bind_of_ok (BitReader.currentByte_eq (by omega)), hpos, window_and,
      Nat.min_eq_right hn.le, bind_of_ok (BitReader.advance_eq hlt (by omega))]
    split_ifs with hfits
    · exact ⟨_, rfl, hs.append_within hfits⟩
    · exact ⟨_, rfl, hs.append he hn.le⟩

/-- A read from the start of a byte on, after `e` bits that are stored already. -/
theorem readAligned_eq (hoffset : b.offset = 0) (hlen : b.Has n) (hpos : 8 * b.byteOffset = p + e)
    (he : e ≤ 8) (hs : Stored b.number p e s) :
    ∃ s', readAligned e n s b = .ok (s', b.skip n) ∧ Stored b.number p (e + n) s' := by
  have hlen' : b.byteOffset * 8 + b.offset + n ≤ b.data.length * 8 := hlen
  obtain ⟨s₁, hwhole, hs₁⟩ : ∃ s₁, readWhole e (n / 8) s b =
      .ok (s₁, { b with byteOffset := b.byteOffset + n / 8 }) ∧
          Stored b.number p (8 * (n / 8) + e) s₁ := by
    have hin : b.byteOffset + n / 8 ≤ b.data.length := by omega
    unfold readWhole
    split_ifs with hzero
    · subst hzero
      obtain ⟨s₁, hrun, hs₁⟩ := copyBytes_eq (d := 0) hin (by omega) hs
      exact ⟨s₁, hrun, by simpa using hs₁⟩
    · obtain ⟨s₁, hrun, hs₁⟩ := shuffleBytes_eq (d := 0) hin (by omega) he (by simpa using hs)
      exact ⟨s₁, hrun, by simpa using hs₁⟩
  obtain ⟨s₂, htail, hs₂⟩ := @readTail_eq { b with byteOffset := b.byteOffset + n / 8 } p (n % 8)
    (n / 8) e s₁ (Nat.mod_lt _ (by decide)) hoffset
    (show (b.byteOffset + n / 8) * 8 + b.offset + n % 8 ≤ b.data.length * 8 by omega)
    (show 8 * (b.byteOffset + n / 8) = p + 8 * (n / 8) + e by omega) he hs₁
  refine ⟨s₂, ?_, ?_⟩
  · unfold readAligned
    rw [bind_of_ok get_eq, bind_of_ok (assertThat_eq hoffset), bind_of_ok hwhole, htail]
    unfold BitReader.skip BitReader.bitOffset
    congr 3 <;> simp only <;> omega
  · rw [show e + n = 8 * (n / 8) + e + n % 8 by omega]
    exact hs₂

/-- A read within the stream. -/
theorem readBits_of_has (hlt : b.offset < 8) (hlen : b.Has n) (hs : ∀ i, 0 < i → s i = 0) :
    ∃ s', readBits n s b = .ok (s', b.skip n) ∧ Stored b.number b.bitOffset n s' := by
  have hlen' : b.byteOffset * 8 + b.offset + n ≤ b.data.length * 8 := hlen
  -- Whatever was in the first byte is replaced.
  have hfirst (k : Nat) (hk : k ≤ 8) :
      Stored b.number b.bitOffset k (Function.update s 0 (window b.number b.bitOffset k)) := by
    intro i
    cases i with
    | zero =>
      rw [Function.update_self, Nat.mul_zero, Nat.sub_zero, Nat.min_eq_right hk, Nat.add_zero]
    | succ i =>
      rw [Function.update_of_ne (by omega), hs _ (by omega),
        show min 8 (k - 8 * (i + 1)) = 0 by omega, window_zero]
  unfold readBits
  rw [bind_of_ok get_eq, if_neg (Nat.not_lt.mpr hlen)]
  by_cases hoffset : b.offset = 0
  · rw [if_neg (not_not.mpr hoffset)]
    have hzero : Stored b.number b.bitOffset 0 (Function.update s 0 0) := by
      have := hfirst 0 (by omega)
      rwa [window_zero] at this
    obtain ⟨s', hrun, hs'⟩ := readAligned_eq hoffset hlen
      (show 8 * b.byteOffset = b.bitOffset + 0 by unfold BitReader.bitOffset; omega)
        (by omega) hzero
    exact ⟨s', hrun, by simpa using hs'⟩
  rw [if_pos hoffset]
  rw [bind_of_ok (BitReader.currentByte_eq (by omega)),
    show window b.number (8 * b.byteOffset) 8 >>> b.offset =
        window b.number b.bitOffset (8 - b.offset) by
      rw [window_shiftRight, BitReader.bitOffset, Nat.mul_comm]]
  split_ifs with hexact hless
  · rw [bind_of_ok (BitReader.advance_eq hlt (by omega))]
    exact ⟨_, rfl, hexact ▸ hfirst n (by omega)⟩
  · rw [bind_of_ok (BitReader.advance_eq hlt (by omega)), window_and, Nat.min_eq_right hless.le]
    exact ⟨_, rfl, hfirst n (by omega)⟩
  · rw [bind_of_ok (BitReader.advance_eq hlt (by omega))]
    obtain ⟨s', hrun, hs'⟩ := @readAligned_eq (b.skip (8 - b.offset)) b.bitOffset
      (n - (8 - b.offset)) (8 - b.offset)
      _ (show (b.byteOffset * 8 + b.offset + (8 - b.offset)) % 8 = 0 by omega)
      (show _ ≤ b.data.length *
        8 by rw [BitReader.skip_bitOffset]; unfold BitReader.bitOffset; omega)
      (show 8 * ((b.byteOffset * 8 + b.offset + (8 - b.offset)) / 8) =
        b.byteOffset * 8 + b.offset + _ by omega)
      (by omega) (hfirst (8 - b.offset) (by omega))
    refine ⟨s', ?_, ?_⟩
    · rw [hrun, BitReader.skip_skip, show 8 - b.offset + (n - (8 - b.offset)) = n by omega]
    · rwa [show 8 - b.offset + (n - (8 - b.offset)) = n by omega] at hs'

/-- Which bytes a read off the end clears. -/
theorem clearBytes_apply (i : Nat) :
    clearBytes n d s i = if d ≤ i ∧ i < d + n then 0 else s i := by
  induction n generalizing d s with
  | zero => rw [clearBytes, if_neg (by omega)]
  | succ n ih =>
    rw [clearBytes, ih]
    by_cases hi : i = d
    · subst hi
      rw [if_neg (by omega), if_pos (by omega), Function.update_self]
    · simp only [Function.update_of_ne hi,
        show d + 1 ≤ i ∧ i < d + 1 + n ↔ d ≤ i ∧ i < d + (n + 1) by omega]

/-- The mask that clears the low bits of a byte. -/
theorem and_clear {x : Nat} (hx : x < 2 ^ n) (hn : n ≤ 8) : x &&& (255 ^^^ (2 ^ n - 1)) = 0 := by
  refine Nat.eq_of_testBit_eq fun j => ?_
  rw [Nat.testBit_and, Nat.testBit_xor, show 255 = 2 ^ 8 - 1 from rfl, Nat.testBit_two_pow_sub_one,
    Nat.testBit_two_pow_sub_one, Nat.zero_testBit]
  by_cases hj : j < n
  · simp [hj, show j < 8 by omega]
  · rw [Nat.testBit_lt_two_pow (hx.trans_le (Nat.pow_le_pow_right (by decide) (by omega))),
      Bool.false_and]

/-- A read off the end of the stream. -/
theorem readBits_of_not_has (hlen : ¬ b.Has n) (hs : ∀ i, 0 < i → s i = 0) (hfirst : s 0 < 2 ^ n) :
    ∃ s', readBits n s b = .ok (s', b.seekEnd) ∧ ∀ i, s' i = 0 := by
  have hclear (i : Nat) (hi : i < n / 8 ∨ 0 < i) : clearBytes (n / 8) 0 s i = 0 := by
    rw [clearBytes_apply]
    split_ifs with h
    · rfl
    · exact hs i (by omega)
  unfold readBits
  rw [bind_of_ok get_eq, if_pos (Nat.not_le.mp hlen)]
  unfold readPastEnd
  rw [bind_of_ok (rfl : (modify BitReader.seekEnd : Reader PUnit) b = .ok (⟨⟩, b.seekEnd))]
  by_cases hrest : n % 8 = 0
  · rw [if_neg (not_not.mpr hrest)]
    refine ⟨_, rfl, fun i => ?_⟩
    by_cases hi : i < n / 8 ∨ 0 < i
    · exact hclear i hi
    · obtain ⟨rfl, rfl⟩ : i = 0 ∧ n = 0 := by omega
      simpa [clearBytes_apply] using hfirst
  · rw [if_pos hrest]
    refine ⟨_, rfl, fun i => ?_⟩
    by_cases hi : i = n / 8
    · subst hi
      rw [Function.update_self]
      by_cases hzero : n / 8 = 0
      · rw [hzero, clearBytes, show n % 8 = n by omega]
        exact and_clear hfirst (by omega)
      · rw [hclear _ (by omega), Nat.zero_and]
    · rw [Function.update_of_ne hi, clearBytes_apply]
      split_ifs with h
      · rfl
      · exact hs i (by omega)

/-- Every read stores the bytes of the field that it takes. -/
theorem readBits_eq (hlt : b.offset < 8) (hs : ∀ i, 0 < i → s i = 0) (hfirst : s 0 < 2 ^ n) :
    ∃ s', readBits n s b = .ok (s', (b.take n).2) ∧ ∀ i, s' i = window (b.take n).1 (8 * i) 8 := by
  unfold BitReader.take
  split_ifs with hlen
  · obtain ⟨s', hrun, hstored⟩ := readBits_of_has hlt hlen hs
    exact ⟨s', hrun, hstored.bytes⟩
  · obtain ⟨s', hrun, hzero⟩ := readBits_of_not_has hlen hs hfirst
    refine ⟨s', hrun, fun i => ?_⟩
    rw [hzero, window, Nat.zero_div, Nat.zero_mod]

/-- The bytes of a number, read as a number. -/
theorem littleEndian_eq {v k : Nat} (h : ∀ i, s i = window v (8 * i) 8) :
    littleEndian s k = v % 2 ^ (8 * k) := by
  have hwindow : littleEndian s k = window v 0 (8 * k) := by
    induction k with
    | zero => rw [Nat.mul_zero, window_zero]; rfl
    | succ k ih => rw [littleEndian, ih, h k, Nat.mul_succ, window_add, Nat.zero_add]
  rw [hwindow, window, pow_zero, Nat.div_one]

/-- A field of fixed width is the window at the position of the reader. -/
theorem fixed_eq {size : Nat} (hlt : b.offset < 8) (hn : n ≤ 64) :
    fixed size n b = .ok ((b.take n).1 % 2 ^ (8 * size), (b.take n).2) := by
  obtain ⟨s', hrun, hbytes⟩ := readBits_eq hlt (fun _ _ => rfl) (Nat.two_pow_pos n)
  rw [fixed, bind_of_ok (assertThat_eq hn), bind_of_ok hrun, littleEndian_eq hbytes]
  rfl

/-- `Read` takes a field of whole bytes. -/
theorem read_eq {size : Nat} (hlt : b.offset < 8) : read size b = .ok (b.take (size * 8)) := by
  obtain ⟨s', hrun, hbytes⟩ := readBits_eq hlt (fun _ _ => rfl) (Nat.two_pow_pos (size * 8))
  rw [read, bind_of_ok hrun, littleEndian_eq hbytes, Nat.mul_comm 8,
    Nat.mod_eq_of_lt BitReader.take_lt]
  rfl

/-- A six bit character is a field of six bits. -/
theorem c6_eq (hlt : b.offset < 8) : c6 b = .ok (char6 (b.take 6).1, (b.take 6).2) := by
  obtain ⟨s', hrun, hbytes⟩ := readBits_eq hlt (fun _ _ => rfl) (Nat.two_pow_pos 6)
  have hvalue : s' 0 = (b.take 6).1 := by
    have := BitReader.take_lt (b := b) (n := 6)
    rw [hbytes 0, window, Nat.mul_zero, pow_zero, Nat.div_one, Nat.mod_eq_of_lt (by omega)]
  rw [c6, bind_of_ok hrun, hvalue]
  rfl

end Reads

section Runs

open Stoppable

variable {b : BitReader} {k w : Nat} {ws : List Nat}

namespace BitReader

/-- The reader after fields of `k` bits together: a field off the end takes it to the end. -/
def after (b : BitReader) (k : Nat) : BitReader := if b.Has k then b.skip k else b.seekEnd

/-- The fields of some widths, `k` bits from the reader on. -/
def fields (b : BitReader) : Nat → List Nat → List Nat
  | _, [] => []
  | k, w :: ws => (if b.Has (k + w) then window b.number (b.bitOffset + k) w else 0) ::
      b.fields (k + w) ws

/-- Fields as one number, each above the ones before it. -/
def joinFields : List Nat → List Nat → Nat
  | w :: ws, v :: vs => v + 2 ^ w * joinFields ws vs
  | _, _ => 0

/-- A field after others. -/
theorem take_after : (b.after k).take w =
    (if b.Has (k + w) then window b.number (b.bitOffset + k) w else 0, b.after (k + w)) := by
  have hend : b.seekEnd.take w = (0, b.seekEnd) := by
    unfold take
    split_ifs with h
    · have hle : b.bitLength + w ≤ b.bitLength := h
      obtain rfl : w = 0 := by omega
      rw [window_zero, skip_zero (Nat.zero_lt_succ 7)]
    · rfl
  have hskip : (b.skip k).Has w ↔ b.Has (k + w) := by
    unfold Has
    rw [skip_bitOffset, skip_bitLength, Nat.add_assoc]
  unfold after
  by_cases hk : b.Has k
  · rw [if_pos hk, take]
    by_cases hkw : b.Has (k + w)
    · rw [if_pos hkw, if_pos hkw, if_pos (hskip.mpr hkw), skip_skip, skip_number, skip_bitOffset]
    · rw [if_neg hkw, if_neg hkw, if_neg fun h => hkw (hskip.mp h)]
      rfl
  · have hkw : ¬ b.Has (k + w) := fun h =>
      hk ((Nat.add_le_add_left (Nat.le_add_right k w) _).trans h)
    rw [if_neg hk, if_neg hkw, if_neg hkw, hend]

/-- After any number of bits the offset is within the byte. -/
theorem after_offset_lt : (b.after k).offset < 8 := by
  unfold after
  split_ifs
  · exact skip_offset_lt
  · exact Nat.zero_lt_succ 7

/-- Fields that follow one another are one field. -/
theorem joinFields_fields (h : b.Has (k + ws.sum)) :
    joinFields ws (b.fields k ws) = window b.number (b.bitOffset + k) ws.sum := by
  induction ws generalizing k with
  | nil =>
    rw [List.sum_nil, window_zero]
    rfl
  | cons w ws ih =>
    rw [List.sum_cons, ← Nat.add_assoc] at h
    have hw : b.Has (k + w) := (Nat.add_le_add_left (Nat.le_add_right (k + w) ws.sum) _).trans h
    rw [fields, joinFields, ih h, if_pos hw, List.sum_cons, window_add, Nat.add_assoc]

/-- Reads of any widths, from after `k` bits. -/
theorem fixed_fields (hws : ∀ w ∈ ws, w ≤ 64) :
    ws.mapM (fixed 8) (b.after k) = .ok (b.fields k ws, b.after (k + ws.sum)) := by
  induction ws generalizing k with
  | nil => rfl
  | cons w ws ih =>
    have hw : w ≤ 64 := hws w List.mem_cons_self
    have hfield : fixed 8 w (b.after k) =
        .ok (if b.Has (k + w) then window b.number (b.bitOffset + k) w else 0,
            b.after (k + w)) := by
      have hlt : (if b.Has (k + w) then window b.number (b.bitOffset + k) w else 0) <
          2 ^ (8 * 8) := by
        split_ifs
        · exact (window_lt ..).trans_le (Nat.pow_le_pow_right (by decide) hw)
        · exact Nat.two_pow_pos _
      rw [fixed_eq after_offset_lt hw, take_after, Nat.mod_eq_of_lt hlt]
    have hrest := @ih (k + w) fun w' hw' => hws w' (List.mem_cons_of_mem w hw')
    rw [List.mapM_cons, bind_of_ok hfield, bind_of_ok hrest, List.sum_cons, ← Nat.add_assoc]
    rfl

end BitReader

/-- Reads of any widths give the fields of the stream in order, and together the bits that one read
would give. Off the end of the stream every read gives zero. -/
theorem fixed_run (hlt : b.offset < 8) (hb : b.Has 0) (hws : ∀ w ∈ ws, w ≤ 64) :
    ws.mapM (fixed 8) b = .ok (b.fields 0 ws, b.after ws.sum) ∧
      (b.Has ws.sum → BitReader.joinFields ws (b.fields 0 ws) =
        window b.number b.bitOffset ws.sum) := by
  have hstart : b.after 0 = b := by rw [BitReader.after, if_pos hb, BitReader.skip_zero hlt]
  have hrun := @BitReader.fixed_fields b 0 ws hws
  rw [hstart, Nat.zero_add] at hrun
  refine ⟨hrun, fun h => ?_⟩
  rw [← Nat.zero_add ws.sum] at h
  exact BitReader.joinFields_fields h

/-- Five fields over three bytes, one of them empty. -/
theorem fixed_run_sample :
    [3, 13, 0, 8, 5].mapM (fixed 8) { data := [0xB5, 0x21, 0xFF], offset := 0 } =
    .ok ([5, 1078, 0, 255, 0], { data := [0xB5, 0x21, 0xFF], byteOffset := 3 }) :=
  (fixed_run (by decide) (by decide) (by decide)).1

end Runs

end DxilSpirv.Bitstream
