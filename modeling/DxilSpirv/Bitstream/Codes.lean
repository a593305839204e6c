import DxilSpirv.Bitstream.Fields
import Mathlib.Tactic.Ring

/-!
# Codes

A program reads a code when, wherever the stream holds the bits of a value, it gives the value and
goes just past them. Codes that follow one another are read by programs that follow one another.
-/

namespace DxilSpirv.Bitstream

open DxilSpirv.Program Stoppable

variable {b : BitReader} {x y : List Bool}

/-- The stream goes on with these bits. -/
def BitReader.Holds (b : BitReader) (x : List Bool) : Prop :=
  b.Has x.length ∧ window b.number b.bitOffset x.length = ofBits x

/-- The stream goes on with some bits and then others. -/
theorem BitReader.holds_append : b.Holds (x ++ y) ↔ b.Holds x ∧ (b.skip x.length).Holds y := by
  unfold BitReader.Holds BitReader.Has
  rw [List.length_append, window_add, ofBits_append, BitReader.skip_number,
    BitReader.skip_bitOffset, BitReader.skip_bitLength]
  constructor
  · rintro ⟨hlen, heq⟩
    have hlow : window b.number b.bitOffset x.length = ofBits x := by
      have := congrArg (· % 2 ^ x.length) heq
      simpa only [Nat.add_mul_mod_self_left, Nat.mod_eq_of_lt (window_lt ..),
        Nat.mod_eq_of_lt (ofBits_lt _)] using this
    rw [hlow] at heq
    exact ⟨⟨by omega, hlow⟩, by omega,
      Nat.eq_of_mul_eq_mul_left (Nat.two_pow_pos _) (Nat.add_left_cancel heq)⟩
  · rintro ⟨⟨-, hx⟩, hlen, hy⟩
    exact ⟨by omega, by rw [hx, hy]⟩

/-- A field that the stream holds. -/
theorem BitReader.Holds.take (h : b.Holds x) : b.take x.length = (ofBits x, b.skip x.length) := by
  rw [BitReader.take, if_pos h.1, h.2]

variable {α β : Type} {m : Reader α} {f : α → Reader β} {p : Nat} {a : α} {c : β}

/-- At a position, the program reads the code of a value. -/
def Reads (m : Reader α) (p : Nat) (x : List Bool) (a : α) : Prop :=
  ∀ b : BitReader, b.offset < 8 → b.bitOffset = p → b.Holds x → m b = .ok (a, b.skip x.length)

theorem reads_pure (a : α) (p : Nat) : Reads (pure a) p [] a := fun b hlt _ _ => by
  rw [List.length_nil, BitReader.skip_zero hlt]
  rfl

/-- A code after another. -/
theorem Reads.bind (hm : Reads m p x a) (hf : Reads (f a) (p + x.length) y c) :
    Reads (m >>= f) p (x ++ y) c := by
  intro b hlt hp hholds
  obtain ⟨hx, hy⟩ := BitReader.holds_append.mp hholds
  rw [bind_of_ok (hm b hlt hp hx),
    hf _ BitReader.skip_offset_lt (by rw [BitReader.skip_bitOffset, hp]) hy,
    BitReader.skip_skip, List.length_append]

/-- A last step that reads nothing. -/
theorem Reads.bind_nil (hm : Reads m p x a) (hf : Reads (f a) (p + x.length) [] c) :
    Reads (m >>= f) p x c := by
  simpa using hm.bind hf

theorem reads_assertThat {q : Prop} [Decidable q] (h : q) (p : Nat) :
    Reads (assertThat q) p [] () := by
  rw [assertThat, if_pos h]
  exact reads_pure () p

variable {w v size : Nat}

/-- A field of fixed width. -/
theorem reads_fixed (hw : w ≤ 64) (hv : v < 2 ^ w) (hsize : v < 2 ^ (8 * size)) :
    Reads (fixed size w) p (lowBits w v) v := by
  intro b hlt _ hholds
  have htake := hholds.take
  rw [length_lowBits, ofBits_lowBits, Nat.mod_eq_of_lt hv] at htake
  rw [fixed_eq hlt hw, htake, Nat.mod_eq_of_lt hsize, length_lowBits]

theorem reads_read (hv : v < 2 ^ (size * 8)) : Reads (read size) p (lowBits (size * 8) v) v := by
  intro b hlt _ hholds
  have htake := hholds.take
  rw [length_lowBits, ofBits_lowBits, Nat.mod_eq_of_lt hv] at htake
  rw [read_eq hlt, htake, length_lowBits]

/-- A character of six bits. -/
theorem reads_c6 (hv : v < 2 ^ 6) : Reads c6 p (lowBits 6 v) (char6 v) := by
  intro b hlt _ hholds
  have htake := hholds.take
  rw [length_lowBits, ofBits_lowBits, Nat.mod_eq_of_lt hv] at htake
  rw [c6_eq hlt, htake, length_lowBits]

variable {g : Nat}

/-- A number in groups of `g` bits, the high bit of all groups but the last one set. -/
def vbrBits (g v : Nat) : List Bool :=
  if _ : 2 ≤ g ∧ 2 ^ (g - 1) ≤ v then
    lowBits g (v % 2 ^ (g - 1) + 2 ^ (g - 1)) ++ vbrBits g (v / 2 ^ (g - 1))
  else lowBits g v
termination_by v
decreasing_by
  have hone : 1 < 2 ^ (g - 1) := Nat.one_lt_two_pow (by omega)
  exact Nat.div_lt_self (by omega) hone

/-- The high bit of a group. -/
theorem and_hibit {k x : Nat} (hx : x < 2 ^ (k + 1)) : x &&& 2 ^ k ≠ 0 ↔ 2 ^ k ≤ x := by
  rw [Nat.and_two_pow]
  constructor
  · intro h
    by_contra hlt
    rw [Nat.testBit_lt_two_pow (Nat.not_le.mp hlt)] at h
    simp at h
  · intro h
    obtain ⟨y, rfl⟩ := Nat.exists_eq_add_of_le h
    rw [Nat.testBit_two_pow_add_eq, Nat.testBit_lt_two_pow (by rw [pow_succ] at hx; omega)]
    simp

/-- One group: the value so far, and whether another group follows. -/
theorem vbrGroups_succ {b : BitReader} {k fuel shift ret : Nat} {scratch : Scratch} (hk : k + 1 ≤ 8)
    (hlt : b.offset < 8) (hscratch : ∀ i, 0 < i → scratch i = 0)
    (hfirst : scratch 0 < 2 ^ (k + 1)) :
    ∃ scratch' : Scratch, (∀ i, 0 < i → scratch' i = 0) ∧ scratch' 0 < 2 ^ (k + 1) ∧
      vbrGroups (k + 1) (fuel + 1) shift ret scratch b =
        if 63 < shift then .error .assertion
        else if 2 ^ k ≤ (b.take (k + 1)).1 then
          vbrGroups (k + 1) fuel (shift + k)
            ((ret + ((b.take (k + 1)).1 % 2 ^ k) <<< shift % 2 ^ 64) % 2 ^ 64)
            scratch' (b.take (k + 1)).2
        else .ok ((ret + ((b.take (k + 1)).1 % 2 ^ k) <<< shift % 2 ^ 64) % 2 ^ 64,
          (b.take (k + 1)).2) := by
  obtain ⟨scratch', hrun, hbytes⟩ := readBits_eq hlt hscratch hfirst
  have hx : (b.take (k + 1)).1 < 2 ^ (k + 1) := BitReader.take_lt
  have hbyte : (b.take (k + 1)).1 < 2 ^ 8 := hx.trans_le (Nat.pow_le_pow_right (by decide) hk)
  have hzero : scratch' 0 = (b.take (k + 1)).1 := by
    rw [hbytes 0, window, Nat.mul_zero, pow_zero, Nat.div_one, Nat.mod_eq_of_lt hbyte]
  refine ⟨scratch', fun i hi => ?_, hzero ▸ hx, ?_⟩
  · have hlarge : (b.take (k + 1)).1 < 2 ^ (8 * i) :=
      hbyte.trans_le (Nat.pow_le_pow_right (by decide) (by omega))
    rw [hbytes i, window, Nat.div_eq_of_lt hlarge, Nat.zero_mod]
  · rw [vbrGroups, bind_of_ok hrun, Nat.add_sub_cancel, hzero]
    dsimp only
    rw [Nat.and_two_pow_sub_one_eq_mod]
    by_cases hshift : 63 < shift
    · rw [if_pos hshift, assertThat, if_neg (by omega)]
      rfl
    · rw [if_neg hshift, bind_of_ok (assertThat_eq (by omega))]
      simp only [and_hibit hx]
      split_ifs <;> rfl

/-- Groups that carry a number, after those below a shift. -/
theorem reads_vbrGroups {k fuel shift ret : Nat} {scratch : Scratch} (hk : 1 ≤ k) (hk' : k + 1 ≤ 8)
    (hscratch : ∀ i, 0 < i → scratch i = 0) (hfirst : scratch 0 < 2 ^ (k + 1)) (hshift : shift ≤ 63)
    (hfuel : 65 ≤ fuel + shift) (hv : ret + v * 2 ^ shift < 2 ^ 64) :
    Reads (vbrGroups (k + 1) fuel shift ret scratch) p (vbrBits (k + 1) v)
      (ret + v * 2 ^ shift) := by
  induction v using Nat.strongRecOn generalizing p fuel shift ret scratch with
  | ind v ih =>
    obtain ⟨fuel, rfl⟩ : ∃ n, fuel = n + 1 := ⟨fuel - 1, by omega⟩
    intro b hlt hp hholds
    obtain ⟨scratch', hscratch', hfirst', hstep⟩ :=
      @vbrGroups_succ b k fuel shift ret scratch hk' hlt hscratch hfirst
    rw [hstep, if_neg (by omega)]
    have hlow := Nat.mod_lt v (Nat.two_pow_pos k)
    have hsplit := Nat.div_add_mod v (2 ^ k)
    have hadd (x : Nat) (hx : x ≤ v) :
        (ret + x <<< shift % 2 ^ 64) % 2 ^ 64 = ret + x * 2 ^ shift := by
      have hle : x * 2 ^ shift ≤ v * 2 ^ shift := Nat.mul_le_mul_right _ hx
      rw [Nat.shiftLeft_eq, Nat.mod_eq_of_lt (by omega), Nat.mod_eq_of_lt (by omega)]
    by_cases hmore : 2 ^ k ≤ v
    · have hbits : vbrBits (k + 1) v = lowBits (k + 1) (v % 2 ^ k + 2 ^ k) ++ vbrBits (k + 1)
          (v / 2 ^ k) := by
        rw [vbrBits, Nat.add_sub_cancel, dif_pos ⟨by omega, hmore⟩]
      rw [hbits] at hholds ⊢
      obtain ⟨hgroup, hrest⟩ := BitReader.holds_append.mp hholds
      have htake := hgroup.take
      rw [length_lowBits, ofBits_lowBits, Nat.mod_eq_of_lt (by rw [pow_succ]; omega)] at htake
      have hnext : shift + k ≤ 63 := by
        have hmul : 2 ^ k * 2 ^ shift ≤ v * 2 ^ shift := Nat.mul_le_mul_right _ hmore
        rw [← pow_add] at hmul
        have : k + shift < 64 := (Nat.pow_lt_pow_iff_right (by decide : 1 < 2)).mp (by omega)
        omega
      have hvalue : ret + v % 2 ^ k * 2 ^ shift + v / 2 ^ k * 2 ^ (shift + k) =
          ret + v * 2 ^ shift := by
        conv_rhs => rw [← hsplit]
        ring
      have hlt' : v / 2 ^ k < v := Nat.div_lt_self (by omega) (Nat.one_lt_two_pow (by omega))
      rw [htake, if_pos (Nat.le_add_left ..), Nat.add_mod_right, Nat.mod_eq_of_lt hlow,
        hadd _ (Nat.mod_le ..)]
      rw [length_lowBits] at hrest
      rw [ih _ hlt' hscratch' hfirst' hnext (by omega) (by rw [hvalue]; exact hv)
        _ BitReader.skip_offset_lt rfl
        hrest, hvalue, BitReader.skip_skip, List.length_append, length_lowBits]
    · have hbits : vbrBits (k + 1) v = lowBits (k + 1) v := by
        rw [vbrBits, Nat.add_sub_cancel, dif_neg fun h => hmore h.2]
      rw [hbits] at hholds ⊢
      have htake := hholds.take
      rw [length_lowBits, ofBits_lowBits, Nat.mod_eq_of_lt (by rw [pow_succ]; omega)] at htake
      rw [htake, if_neg hmore, Nat.mod_eq_of_lt (show v < 2 ^ k by omega), hadd v le_rfl,
        length_lowBits]

/-- A number in groups is read back, for all group sizes and all numbers that the type has. -/
theorem reads_vbr (hg : 1 < g) (hg' : g ≤ 8) (hsize : size ≤ 8) (hv : v < 2 ^ (8 * size)) :
    Reads (vbr size g) p (vbrBits g v) v := by
  obtain ⟨k, rfl⟩ : ∃ k, g = k + 1 := ⟨g - 1, by omega⟩
  have hv' : v < 2 ^ 64 := hv.trans_le (Nat.pow_le_pow_right (by decide) (by omega))
  have hgroups : Reads (vbrGroups (k + 1) 65 0 0 fun _ => 0) p (vbrBits (k + 1) v) v := by
    have := @reads_vbrGroups p v k 65 0 0 (fun _ => 0) (by omega) hg' (fun _ _ => rfl)
      (Nat.two_pow_pos _) (by omega) (by omega) (by omega)
    simpa using this
  have hmask : v &&& (2 ^ (8 * size) - 1) = v := by
    rw [Nat.and_two_pow_sub_one_eq_mod, Nat.mod_eq_of_lt hv]
  have hlast : Reads (assertThat (v &&& (2 ^ (8 * size) - 1) = v) >>= fun _ => pure v)
      (p + (vbrBits (k + 1) v).length) [] v :=
    (reads_assertThat hmask _).bind (reads_pure v _)
  exact (reads_assertThat hg p).bind ((reads_assertThat hg' _).bind (hgroups.bind_nil hlast))

variable {blob : List UInt8}

/-- The bits up to the next position that is a multiple of 32. -/
def alignBits (p : Nat) : List Bool := List.replicate ((32 - p % 32) % 32) false

/-- The bits of bytes. -/
def byteBits (bytes : List UInt8) : List Bool := bytes.flatMap fun byte => lowBits 8 byte.toNat

/-- The length of a blob, up to the position at which its bytes begin. -/
def blobHead (p : Nat) (blob : List UInt8) : List Bool :=
  vbrBits 6 blob.length ++ alignBits (p + (vbrBits 6 blob.length).length)

/-- A length, the bytes, and the bits that align both. -/
def blobBits (p : Nat) (blob : List UInt8) : List Bool :=
  blobHead p blob ++
    (byteBits blob ++ alignBits (p + (blobHead p blob).length + (byteBits blob).length))

@[simp] theorem length_alignBits (p : Nat) : (alignBits p).length = (32 - p % 32) % 32 :=
  List.length_replicate

@[simp] theorem length_byteBits (bytes : List UInt8) :
    (byteBits bytes).length = 8 * bytes.length := by
  induction bytes with
  | nil => rfl
  | cons byte bytes ih =>
    rw [byteBits, List.flatMap_cons, List.length_append, length_lowBits, List.length_cons]
    change 8 + (byteBits bytes).length = _
    omega

/-- Alignment goes to the next multiple of 32. -/
theorem align32bits_eq (hlt : b.offset < 8) :
    align32bits b = .ok ((), b.skip ((32 - b.bitOffset % 32) % 32)) := by
  unfold align32bits
  rw [bind_of_ok get_eq]
  by_cases hoffset : b.offset = 0
  · rw [if_neg (by omega)]
    dsimp only
    rw [bind_of_ok get_eq, skipBytes_eq]
    unfold BitReader.skip BitReader.bitOffset
    congr 3 <;> omega
  · rw [if_pos (by omega), bind_of_ok (BitReader.advance_eq hlt (by omega))]
    dsimp only
    rw [bind_of_ok get_eq, skipBytes_eq]
    unfold BitReader.skip BitReader.bitOffset
    congr 3 <;> simp only <;> omega

theorem reads_align32bits : Reads align32bits p (alignBits p) () := by
  rintro b hlt rfl -
  rw [align32bits_eq hlt, length_alignBits]

/-- Bytes that the stream holds. -/
theorem BitReader.Holds.bytes (h : b.Holds (byteBits blob)) (hoffset : b.offset = 0) :
    b.byteOffset + blob.length ≤ b.data.length ∧
      (b.data.drop b.byteOffset).take blob.length = blob := by
  induction blob generalizing b with
  | nil =>
    have hlen : b.byteOffset * 8 + b.offset + 0 ≤ b.data.length * 8 := h.1
    exact ⟨by rw [List.length_nil]; omega, List.take_zero⟩
  | cons byte blob ih =>
    obtain ⟨hbyte, hrest⟩ := BitReader.holds_append.mp h
    have hlen : b.byteOffset * 8 + b.offset + (lowBits 8 byte.toNat).length ≤ b.data.length * 8 :=
      hbyte.1
    rw [length_lowBits] at hlen hrest
    have hin : b.byteOffset < b.data.length := by omega
    have hskip : b.skip 8 = { b with byteOffset := b.byteOffset + 1, offset := 0 } := by
      unfold BitReader.skip BitReader.bitOffset
      congr 1 <;> omega
    have hvalue : b.data[b.byteOffset] = byte := by
      have hwindow := hbyte.2
      rw [length_lowBits, ofBits_lowBits, Nat.mod_eq_of_lt byte.toNat_lt,
        BitReader.bitOffset, hoffset,
        Nat.add_zero, Nat.mul_comm, BitReader.number, window_ofBytes (List.getElem?_eq_getElem hin)]
          at hwindow
      exact UInt8.toNat_inj.mp hwindow
    rw [hskip] at hrest
    obtain ⟨hle, htake⟩ := ih hrest rfl
    refine ⟨by rw [List.length_cons]; simp only at hle; omega, ?_⟩
    rw [List.drop_eq_getElem_cons hin, List.length_cons, List.take_succ_cons, hvalue]
    exact congrArg _ htake

/-- The bytes of a blob begin at a multiple of 32. -/
theorem blobHead_aligned (p : Nat) (blob : List UInt8) :
    (p + (blobHead p blob).length) % 32 = 0 := by
  rw [blobHead, List.length_append, length_alignBits]
  omega

/-- A blob is read back with its length. -/
theorem reads_readBlob (h : (p + (blobHead p blob).length) / 8 + blob.length ≤ maxByteOffset) :
    Reads readBlob p (blobBits p blob) (blob, blob.length) := by
  have hlength : blob.length < 2 ^ (8 * 8) := by
    unfold maxByteOffset at h
    omega
  have hassoc : blobBits p blob =
    vbrBits 6 blob.length ++ (alignBits (p + (vbrBits 6 blob.length).length) ++
      (byteBits blob ++ alignBits (p + (blobHead p blob).length + (byteBits blob).length))) := by
    rw [blobBits, blobHead, List.append_assoc]
  rw [hassoc]
  unfold readBlob
  refine (reads_vbr (by decide) (by decide) le_rfl hlength).bind (reads_align32bits.bind ?_)
  rw [Nat.add_assoc, ← List.length_append, ← blobHead]
  intro b hlt hp hholds
  obtain ⟨hdata, halign⟩ := BitReader.holds_append.mp hholds
  have haligned := blobHead_aligned p blob
  have hpos : b.byteOffset * 8 + b.offset = p + (blobHead p blob).length := hp
  have hoffset : b.offset = 0 := by omega
  have hfits : b.byteOffset + blob.length ≤ maxByteOffset := by omega
  obtain ⟨hle, htake⟩ := hdata.bytes hoffset
  have hskip : { b with byteOffset := b.byteOffset + blob.length } =
      b.skip (byteBits blob).length := by
    rw [length_byteBits]
    unfold BitReader.skip BitReader.bitOffset
    congr 1 <;> omega
  have hpos : (b.skip (byteBits blob).length).bitOffset = _ :=
    BitReader.skip_bitOffset.trans (congrArg (· + _) hp)
  have hlast := reads_align32bits _ BitReader.skip_offset_lt hpos halign
  rw [bind_of_ok get_eq, if_neg (Nat.not_lt.mpr hfits), bind_of_ok skipBytes_eq, hskip,
    bind_of_ok hlast, htake, BitReader.skip_skip, List.length_append]
  rfl

end DxilSpirv.Bitstream
