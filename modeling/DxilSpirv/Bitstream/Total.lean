import DxilSpirv.Bitstream.Codes
import DxilSpirv.Bitstream.Decoder

/-!
# The decoder always ends

Reads never go back, and every entry of a block but its end takes bits from the stream. So the
decoder ends on every stream with no more entries than the stream has bits, and it touches no byte
outside it. The operands of a record are another matter: their counts are read from the stream, and
past its end they are zeros.
-/

namespace DxilSpirv.Bitstream

open DxilSpirv.Program DxilSpirv.Bitcode Stoppable

/-- The faults that no stream leads to. -/
def Stop.IsFault (e : Stop) : Prop := e = .outOfRange ∨ e = .outOfFuel

instance : DecidablePred Stop.IsFault := fun _ => inferInstanceAs (Decidable (_ ∨ _))

/-- The bits that are left, none where a blob went past the end. -/
def BitReader.remaining (b : BitReader) : Nat := b.bitLength - b.bitOffset

/-- The reader goes on in the same stream. -/
structure BitReader.Goes (b b' : BitReader) : Prop where
  data : b'.data = b.data
  offset_lt : b'.offset < 8
  remaining_le : b'.remaining ≤ b.remaining

/-- A program that reads, from wherever it starts, without a fault and without going back. -/
def Tame {α : Type} (m : Reader α) : Prop :=
  ∀ b : BitReader, b.offset < 8 → Safe Stop.IsFault m b fun _ b' => b.Goes b'

namespace BitReader.Goes

variable {α β : Type} {b b' b'' : BitReader} {m : Reader α} {f : α → Reader β} {n size : Nat}

/-- A reader that has not moved has not gone back. -/
theorem refl (h : b.offset < 8) : b.Goes b := ⟨rfl, h, le_rfl⟩

/-- A reader that goes on and goes on has gone on. -/
theorem trans (h : b.Goes b') (h' : b'.Goes b'') : b.Goes b'' :=
  ⟨h'.data.trans h.data, h'.offset_lt, h'.remaining_le.trans h.remaining_le⟩

/-- A skip goes on. -/
theorem skip : b.Goes (b.skip n) := by
  refine ⟨rfl, skip_offset_lt, ?_⟩
  rw [remaining, remaining, skip_bitLength, skip_bitOffset]
  omega

/-- A field that is taken goes on. -/
theorem take : b.Goes (b.take n).2 := by
  refine ⟨take_data, take_offset_lt, ?_⟩
  unfold BitReader.take
  split_ifs
  · exact skip.remaining_le
  · rw [remaining, seekEnd_bitLength, seekEnd_bitOffset, Nat.sub_self]
    exact Nat.zero_le _

end BitReader.Goes

variable {α β : Type} {b b' b'' : BitReader} {m : Reader α} {f : α → Reader β} {n size : Nat}

/-- Two programs in a row read tamely if each does. -/
theorem Tame.bind (hm : Tame m) (hf : ∀ a, Tame (f a)) : Tame (m >>= f) := by
  intro b h
  rw [safe_bind]
  exact (hm b h).mono _ fun a b' hgo => (hf a b' hgo.offset_lt).mono _ fun _ _ => hgo.trans

variable {r r' r'' : BitcodeReader}

/-- The decoder goes on in the same stream, in the same block. -/
structure BitcodeReader.Goes (r r' : BitcodeReader) : Prop where
  reader : r.b.Goes r'.b
  depth : r'.blockStack.length = r.blockStack.length

/-- Two steps of the reader that keep the block stack make one. -/
theorem BitcodeReader.Goes.trans (h : r.Goes r') (h' : r'.Goes r'') : r.Goes r'' :=
  ⟨h.reader.trans h'.reader, h'.depth.trans h.depth⟩

mutual

/-- The blocks and records of a tree, at all depths. -/
def treeSize : BlockOrRecord → Nat
  | .mk _ _ children _ _ _ => entryCount children + 1

/-- The blocks and records of the entries of a block. -/
def entryCount : List BlockOrRecord → Nat
  | [] => 0
  | entry :: entries => treeSize entry + entryCount entries

end

end DxilSpirv.Bitstream
