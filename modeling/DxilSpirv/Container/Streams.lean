import DxilSpirv.Container.MemoryStream
import Mathlib.Tactic.NormNum
import Mathlib.Tactic.SplitIfs

/-!
# What a stream hands out is inside the blob

A stream that is inside the blob reads only the blob, and hands out streams and strings inside the
blob, as long as no sum of a bounds check that lets an access through wraps around.
-/

namespace DxilSpirv.Container

open DxilSpirv.Program

/-- The sum of a bounds check does not wrap around. -/
def Check.Fits (b : Blob) (c : Check) : Prop := c.offset + c.size < 2 ^ b.sizeBits

/-- A 64-bit build with a blob of at most half the address space, where no sum can wrap around. -/
def Blob.Ample (b : Blob) : Prop := b.sizeBits = 64 ∧ b.bytes.length ≤ 2 ^ 63

/-- A run stays inside the blob and meets a postcondition, as far as no sum wraps around. -/
abbrev Blob.Spec {α : Type} (b : Blob) (m : Run α) (post : α → Prop) : Prop :=
  Checked.Spec (Check.Fits b) (· = Stop.outside) b.Ample m post

/-- A stream whose window is inside the blob, and whose offset is inside the window. -/
structure MemoryStream.Inside (b : Blob) (s : MemoryStream) : Prop where
  offset_le : s.blobOffset ≤ s.blobSize
  null : s.blob = none → s.blobSize = 0
  window : ∀ p, s.blob = some p → p + s.blobSize ≤ b.bytes.length

/-- A C string at a pointer lies in the blob with the zero that ends it. -/
def Blob.HasString (b : Blob) (str : Pointer) : Prop :=
  ∃ p name, str = some p ∧ (0 : Byte) ∉ name ∧ name ++ [0] <+: b.bytes.drop p

variable {b : Blob}

theorem littleEndian_lt (buffer : List Byte) : littleEndian buffer < 2 ^ (8 * buffer.length) := by
  induction buffer with
  | nil => simp [littleEndian]
  | cons c rest ih =>
    have digit := c.isLt
    rw [littleEndian, List.length_cons, Nat.mul_succ, Nat.pow_add]
    omega

/-- Returning `false` meets every postcondition. -/
theorem Blob.spec_rejected {α : Type} {post : α → Prop} : b.Spec rejected post :=
  Checked.Spec.stop (by simp)

/-- A bounds check: what lets the access through may rely on the sum of the offset and the size. -/
theorem Blob.spec_check {α : Type} {post : α → Prop} {offset size limit : Nat} {no yes : Run α}
    (ample : b.Ample → offset + size < 2 ^ b.sizeBits)
    (fails : limit < offset + size → b.Spec no post)
    (passes : b.sizeT (offset + size) = offset + size → offset + size ≤ limit → b.Spec yes post) :
    b.Spec (if b.sizeT (offset + size) > limit then no else do
      Checked.record ⟨offset, size⟩
      yes) post := by
  split_ifs with past
  · exact fails (Nat.lt_of_lt_of_le past (Nat.mod_le _ _))
  · refine Checked.Spec.bind (Checked.Spec.record ample) fun _ fits => ?_
    have exact : b.sizeT (offset + size) = offset + size := Nat.mod_eq_of_lt fits
    rw [exact] at past
    exact passes exact (Nat.le_of_not_lt past)

namespace MemoryStream

variable {s : MemoryStream}

/-- A stream inside the blob is no longer than the blob. -/
theorem Inside.size_le (inside : s.Inside b) : s.blobSize ≤ b.bytes.length := by
  cases pointer : s.blob with
  | none => exact (inside.null pointer).trans_le (Nat.zero_le _)
  | some p => exact (Nat.le_add_left _ _).trans (inside.window p pointer)

/-- A stream that is not empty is not null. -/
theorem Inside.pointer (inside : s.Inside b) (nonempty : 0 < s.blobSize) : ∃ p, s.blob = some p :=
  Option.ne_none_iff_exists'.1 fun null => nonempty.ne' (inside.null null)

/-- Where there is ample room, a small number may be added to an offset of the stream. -/
theorem Inside.ample_add (inside : s.Inside b) {size : Nat} (small : size < 2 ^ 63)
    (ample : b.Ample) :
    s.blobOffset + size < 2 ^ b.sizeBits := by
  have offset := inside.offset_le.trans inside.size_le
  have length := ample.2
  rw [ample.1]
  omega

/-- The null stream is inside the blob. -/
theorem inside_null : ({} : MemoryStream).Inside b :=
  ⟨Nat.le_refl _, fun _ => rfl, fun _ pointer => nomatch pointer⟩

/-- The stream at another offset of its window. -/
theorem Inside.moved (inside : s.Inside b) {offset : Nat} (le : offset ≤ s.blobSize) :
    ({ s with blobOffset := offset } : MemoryStream).Inside b :=
  ⟨le, inside.null, inside.window⟩

/-- A window of the window. -/
theorem Inside.narrowed (inside : s.Inside b) {offset size : Nat}
    (le : offset + size ≤ s.blobSize) :
    ({ blob := s.blob.map (· + offset), blobSize := size } : MemoryStream).Inside b := by
  refine ⟨Nat.zero_le _, fun null => ?_, fun p pointer => ?_⟩
  · have empty := inside.null (Option.map_eq_none_iff.1 null)
    change size = 0
    omega
  · obtain ⟨q, found, rfl⟩ := Option.map_eq_some_iff.1 pointer
    have window := inside.window q found
    change q + offset + size ≤ _
    omega

/-- What is copied from a window of the stream is in the blob. -/
theorem Inside.memcpy (inside : s.Inside b) {offset size : Nat} (le : offset + size ≤ s.blobSize) :
    b.Spec (b.memcpy (s.blob.map (· + offset)) size) (fun buffer => buffer.length = size) := by
  unfold Blob.memcpy
  split_ifs with empty
  · exact Checked.Spec.done empty.symm
  · obtain ⟨p, pointer⟩ := inside.pointer (by omega)
    have window := inside.window p pointer
    rw [pointer]
    dsimp only [Option.map_some]
    rw [if_pos (by omega)]
    refine Checked.Spec.done ?_
    rw [List.length_take, List.length_drop]
    omega

/-- A read gives as many bytes as were asked for. -/
theorem Inside.read (inside : s.Inside b) {size : Nat}
    (small : b.Ample → s.blobOffset + size < 2 ^ b.sizeBits) :
    b.Spec (s.read b size) fun r => r.1.length = size ∧ r.2.Inside b ∧
      r.2.blobSize = s.blobSize := by
  refine Blob.spec_check small (fun _ => Blob.spec_rejected) fun _ le => ?_
  refine Checked.Spec.bind (inside.memcpy le) fun buffer length =>
    Checked.Spec.done ⟨length, ?_, rfl⟩
  exact inside.moved ((Nat.mod_le _ _).trans le)

/-- A `uint32_t` that is read is below `2 ^ 32`. -/
theorem Inside.readU32 (inside : s.Inside b) :
    b.Spec (s.readU32 b) fun r => r.1 < 2 ^ 32 ∧ r.2.Inside b ∧ r.2.blobSize = s.blobSize := by
  refine Checked.Spec.bind (inside.read (inside.ample_add (by norm_num))) ?_
  rintro ⟨buffer, s'⟩ ⟨length, inside', size⟩
  refine Checked.Spec.done ⟨?_, inside', size⟩
  have bound := littleEndian_lt buffer
  rwa [length] at bound

/-- Moving to an offset. -/
theorem Inside.seek (inside : s.Inside b) (offset : Nat) :
    b.Spec (s.seek offset) fun r => r.Inside b ∧ r.blobSize = s.blobSize := by
  unfold MemoryStream.seek
  split_ifs with past
  · exact Blob.spec_rejected
  · exact Checked.Spec.done ⟨inside.moved (Nat.le_of_not_lt past), rfl⟩

/-- Moving past some bytes. -/
theorem Inside.skip (inside : s.Inside b) (count : Nat) :
    b.Spec (s.skip b count) fun r => r.Inside b ∧ r.blobSize = s.blobSize :=
  inside.seek _

/-- A window: the null stream where the range leaves the stream, and else the range. -/
theorem createSubstream_spec {offset size : Nat}
    (small : b.Ample → offset + size < 2 ^ b.sizeBits) :
    b.Spec (s.createSubstream b offset size) fun r =>
      (s.blobSize ≤ offset ∨ s.blobSize < offset + size) ∧ r = {} ∨
      offset < s.blobSize ∧ offset + size ≤ s.blobSize ∧
        r = { blob := s.blob.map (· + offset), blobSize := size } := by
  unfold MemoryStream.createSubstream
  by_cases past : offset ≥ s.blobSize
  · rw [if_pos (Or.inl past)]
    exact Checked.Spec.done (Or.inl ⟨Or.inl past, rfl⟩)
  · simp only [past, false_or]
    refine Blob.spec_check small (fun past => ?_) fun _ le => ?_
    · exact Checked.Spec.done (Or.inl ⟨past, rfl⟩)
    · exact Checked.Spec.done (Or.inr ⟨Nat.lt_of_not_le past, le, rfl⟩)

/-- A window is inside the blob. -/
theorem Inside.createSubstream (inside : s.Inside b) {offset size : Nat}
    (small : b.Ample → offset + size < 2 ^ b.sizeBits) :
    b.Spec (s.createSubstream b offset size) fun r => r.Inside b ∧ r.blobOffset = 0 := by
  refine (createSubstream_spec small).mono ?_
  rintro r (⟨_, rfl⟩ | ⟨_, le, rfl⟩)
  · exact ⟨inside_null, rfl⟩
  · exact ⟨inside.narrowed le, rfl⟩

/-- The window to the end is inside the blob. -/
theorem Inside.createSubstreamToEnd (inside : s.Inside b) (offset : Nat) :
    (s.createSubstreamToEnd offset).Inside b := by
  unfold MemoryStream.createSubstreamToEnd
  split_ifs with past
  · exact inside_null
  · exact inside.narrowed (by omega)

/-- The window of the bitcode is inside the blob. -/
theorem Inside.createSubstreamBitcodeSize (inside : s.Inside b) {offset size : Nat}
    (small : b.Ample → offset + size < 2 ^ b.sizeBits) :
    b.Spec (s.createSubstreamBitcodeSize b offset size) fun r => r.Inside b ∧ r.blobOffset = 0 := by
  refine Blob.spec_check small (fun _ => ?_) fun _ le => ?_
  · exact Checked.Spec.done ⟨inside_null, rfl⟩
  · exact Checked.Spec.done ⟨inside.narrowed le, rfl⟩

/-- Mapped bytes are in the blob, and there are none at the null pointer and where too few are
left. -/
theorem Inside.mapRead (inside : s.Inside b) {size : Nat}
    (small : b.Ample → s.blobOffset + size < 2 ^ b.sizeBits) :
    b.Spec (s.mapRead b size) fun r => (∀ p, r.1 = some p → p + size ≤ b.bytes.length) ∧
      (r.1 = none ↔ s.blob = none ∨ s.blobSize < s.blobOffset + size) := by
  refine Blob.spec_check small (fun past => Checked.Spec.done ⟨?_, ?_⟩)
    fun _ le => Checked.Spec.done ⟨fun p pointer => ?_, ?_⟩
  · rintro p ⟨⟩
  · exact iff_of_true rfl (Or.inr past)
  · obtain ⟨q, found, rfl⟩ := Option.map_eq_some_iff.1 pointer
    have window := inside.window q found
    change q + s.blobOffset + size ≤ _
    omega
  · rw [Option.map_eq_none_iff, or_iff_left (Nat.not_lt.2 le)]

/-- The scan of a string stays in the stream, and stops behind the first zero. -/
theorem Inside.scanString {rest : List Byte} (inside : s.Inside b) (left : s.remaining b = rest) :
    b.Spec (scanString b s rest) fun r => r.Inside b ∧ r.blobSize = s.blobSize ∧ s.blob ≠ none ∧
      ∃ name, (0 : Byte) ∉ name ∧ name ++ [0] <+: rest := by
  have small : b.Ample → s.blobOffset + 1 < 2 ^ b.sizeBits := inside.ample_add (by norm_num)
  induction rest generalizing s with
  | nil =>
    refine Blob.spec_check small (fun _ => Blob.spec_rejected) fun _ le => ?_
    obtain ⟨p, pointer⟩ := inside.pointer (by omega)
    have window := inside.window p pointer
    rw [remaining, pointer, Option.elim_some, List.drop_eq_nil_iff] at left
    omega
  | cons c rest ih =>
    refine Blob.spec_check small (fun _ => Blob.spec_rejected) fun exact le => ?_
    obtain ⟨p, pointer⟩ := inside.pointer (by omega)
    rw [exact]
    by_cases ends : c = 0
    · subst ends
      exact Checked.Spec.done ⟨inside.moved le, rfl, Option.ne_none_iff_exists'.2 ⟨p, pointer⟩, [],
        List.not_mem_nil, ⟨rest, rfl⟩⟩
    · have moved : ({ s with blobOffset := s.blobOffset + 1 } : MemoryStream).remaining b =
          rest := by
        rw [remaining, pointer, Option.elim_some] at left ⊢
        rw [← Nat.add_assoc, ← List.drop_drop, left]
        rfl
      dsimp only
      rw [if_neg ends]
      refine (ih (inside.moved le) moved ((inside.moved le).ample_add (by norm_num))).mono ?_
      rintro r ⟨inside', size, found, name, zero, starts⟩
      refine ⟨inside', size, found, c :: name, ?_, ?_⟩
      · exact fun mem => (List.mem_cons.1 mem).elim (fun here => ends here.symm) zero
      · exact (List.prefix_cons_inj c).2 starts

/-- A string that was mapped at the offset lies in the blob. -/
theorem Inside.mapStringIterate (inside : s.Inside b) :
    b.Spec (s.mapStringIterate b) fun r => b.HasString r.1 ∧ r.2.Inside b ∧
      r.2.blobSize = s.blobSize := by
  refine Checked.Spec.bind (inside.scanString rfl) ?_
  rintro after ⟨inside', size, found, name, zero, starts⟩
  refine Checked.Spec.done ⟨?_, inside', size⟩
  obtain ⟨p, pointer⟩ := Option.ne_none_iff_exists'.1 found
  rw [remaining, pointer] at starts
  exact ⟨p + s.blobOffset, name, by rw [pointer]; rfl, zero, starts⟩

/-- A string that was mapped at an offset lies in the blob. -/
theorem Inside.mapStringAbsolute (inside : s.Inside b) (offset : Nat) :
    b.Spec (s.mapStringAbsolute b offset) b.HasString := by
  refine Checked.Spec.bind (inside.createSubstreamToEnd offset).mapStringIterate ?_
  rintro ⟨str, _⟩ ⟨holds, _⟩
  exact Checked.Spec.done holds

end MemoryStream

/-- The characters before a zero are copied. -/
theorem copyCharacters_spec {name rest : List Byte} (zero : (0 : Byte) ∉ name)
    (starts : name ++ [0] <+: rest) :
    b.Spec (copyCharacters rest) (· = name) := by
  obtain ⟨tail, rfl⟩ := starts
  induction name with
  | nil => exact Checked.Spec.done rfl
  | cons c name ih =>
    rw [List.mem_cons, not_or] at zero
    rw [List.append_assoc, List.cons_append, copyCharacters, if_neg (Ne.symm zero.1),
      ← List.append_assoc]
    refine Checked.Spec.bind (ih zero.2) ?_
    rintro _ rfl
    exact Checked.Spec.done rfl

/-- What is copied from a string in the blob lies in the blob. -/
theorem Blob.HasString.copyString {str : Pointer} (holds : b.HasString str) :
    b.Spec (b.copyString str) fun name => ∃ p, (0 : Byte) ∉ name ∧
      name ++ [0] <+: b.bytes.drop p := by
  obtain ⟨p, name, rfl, zero, starts⟩ := holds
  refine (copyCharacters_spec zero starts).mono ?_
  rintro _ rfl
  exact ⟨p, zero, starts⟩

end DxilSpirv.Container
