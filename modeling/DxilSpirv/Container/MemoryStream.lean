import DxilSpirv.Program.Checked
import Mathlib.Algebra.Order.Ring.Nat

/-!
# Memory streams

A memory stream is a window into the blob with an offset, and hands out narrower windows. Sizes are
of the width the library is built for, and the sums of the bounds checks are taken in that width. A
run logs the offset and the size of every bounds check that lets an access through.
-/

namespace DxilSpirv.Container

open DxilSpirv.Program

/-- A byte. -/
abbrev Byte := BitVec 8

/-- A blob of bytes, and the bits of a `size_t`. -/
structure Blob where
  bytes : List Byte
  sizeBits : Nat
  width : sizeBits = 32 ∨ sizeBits = 64
  size_lt : bytes.length < 2 ^ sizeBits

/-- A bounds check that let an access through: `offset + size > blob_size` was false. -/
structure Check where
  offset : Nat
  size : Nat
  deriving DecidableEq

/-- What ends a run: the code returns `false`, or it reads memory outside the blob. -/
inductive Stop
  | rejected
  | outside
  deriving DecidableEq

/-- A run of the parser. -/
abbrev Run := Checked Check Stop

/-- The code returns `false`. -/
def rejected {α : Type} : Run α := Checked.stop .rejected

/-- A value of `size_t`. -/
def Blob.sizeT (b : Blob) (n : Nat) : Nat := n % 2 ^ b.sizeBits

/-- A pointer into the blob, as the offset of the byte it points to; none is the null pointer. -/
abbrev Pointer := Option Nat

/-- The number that bytes stand for, the least significant byte first. -/
def littleEndian : List Byte → Nat
  | [] => 0
  | c :: rest => c.toNat + 2 ^ 8 * littleEndian rest

/-- `memcpy` from a pointer: no byte is read when the size is zero. -/
def Blob.memcpy (b : Blob) (src : Pointer) (size : Nat) : Run (List Byte) :=
  if size = 0 then pure []
  else match src with
    | none => Checked.stop .outside
    | some p => if p + size ≤ b.bytes.length then pure ((b.bytes.drop p).take size)
        else Checked.stop .outside

/-- The characters of a C string, given the bytes from its pointer to the end of the blob. -/
def copyCharacters : List Byte → Run (List Byte)
  | [] => Checked.stop .outside
  | c :: rest => if c = 0 then pure [] else do
      let tail ← copyCharacters rest
      pure (c :: tail)

/-- A string assigned from a C string. -/
def Blob.copyString (b : Blob) (str : Pointer) : Run (List Byte) :=
  match str with
  | none => Checked.stop .outside
  | some p => copyCharacters (b.bytes.drop p)

/-- A memory stream. -/
structure MemoryStream where
  blob : Pointer := none
  blobSize : Nat := 0
  blobOffset : Nat := 0
  deriving DecidableEq

namespace MemoryStream

variable (b : Blob) (s : MemoryStream)

/-- Read bytes at the offset, and move past them. -/
def read (size : Nat) : Run (List Byte × MemoryStream) :=
  if b.sizeT (s.blobOffset + size) > s.blobSize then rejected
  else do
    Checked.record ⟨s.blobOffset, size⟩
    let buffer ← b.memcpy (s.blob.map (· + s.blobOffset)) size
    pure (buffer, { s with blobOffset := b.sizeT (s.blobOffset + size) })

/-- Read a `uint32_t`, or an enumeration of that type. -/
def readU32 : Run (Nat × MemoryStream) := do
  let (buffer, s) ← s.read b 4
  pure (littleEndian buffer, s)

/-- The pointer at the offset; null when fewer bytes are left. -/
def mapRead (size : Nat) : Run (Pointer × MemoryStream) :=
  if b.sizeT (s.blobOffset + size) > s.blobSize then pure (none, s)
  else do
    Checked.record ⟨s.blobOffset, size⟩
    pure (s.blob.map (· + s.blobOffset), { s with blobOffset := b.sizeT (s.blobOffset + size) })

/-- The loop of `map_string_iterate`, given the bytes from the offset to the end of the blob:
characters are read until one is zero. -/
def scanString (s : MemoryStream) : List Byte → Run MemoryStream
  | [] =>
    if b.sizeT (s.blobOffset + 1) > s.blobSize then rejected
    else do
      Checked.record ⟨s.blobOffset, 1⟩
      Checked.stop .outside
  | c :: rest =>
    if b.sizeT (s.blobOffset + 1) > s.blobSize then rejected
    else do
      Checked.record ⟨s.blobOffset, 1⟩
      let s := { s with blobOffset := b.sizeT (s.blobOffset + 1) }
      if c = 0 then pure s else scanString s rest

/-- The bytes from the offset to the end of the blob; there is none at the null pointer. -/
def remaining : List Byte := s.blob.elim [] fun p => b.bytes.drop (p + s.blobOffset)

/-- The C string at the offset, once a zero was found that ends it. -/
def mapStringIterate : Run (Pointer × MemoryStream) := do
  let after ← scanString b s (s.remaining b)
  pure (s.blob.map (· + s.blobOffset), after)

/-- Move to an offset. -/
def seek (newOffset : Nat) : Run MemoryStream :=
  if newOffset > s.blobSize then rejected else pure { s with blobOffset := newOffset }

/-- Move past some bytes. -/
def skip (count : Nat) : Run MemoryStream := s.seek (b.sizeT (s.blobOffset + count))

/-- The window of a size at an offset, or the null stream. -/
def createSubstream (offset size : Nat) : Run MemoryStream :=
  if offset ≥ s.blobSize ∨ b.sizeT (offset + size) > s.blobSize then pure {}
  else do
    Checked.record ⟨offset, size⟩
    pure { blob := s.blob.map (· + offset), blobSize := size }

/-- The window from an offset to the end, or the null stream. -/
def createSubstreamToEnd (offset : Nat) : MemoryStream :=
  if offset ≥ s.blobSize then {}
  else { blob := s.blob.map (· + offset), blobSize := s.blobSize - offset }

/-- The window of the bitcode, or the null stream. -/
def createSubstreamBitcodeSize (offset bitcodeSize : Nat) : Run MemoryStream :=
  if b.sizeT (offset + bitcodeSize) > s.blobSize then pure {}
  else do
    Checked.record ⟨offset, bitcodeSize⟩
    pure { blob := s.blob.map (· + offset), blobSize := bitcodeSize }

/-- The C string at an offset. -/
def mapStringAbsolute (offset : Nat) : Run Pointer := do
  let (str, _) ← (s.createSubstreamToEnd offset).mapStringIterate b
  pure str

end MemoryStream

end DxilSpirv.Container
