import DxilSpirv.Bitstream.Windows
import DxilSpirv.Program.Weakest
import Mathlib.Logic.Function.Basic

/-!
# The bit reader

Fields of any width are read at any bit position. The reader goes byte by byte: it takes what is
left of the byte it is in, then whole bytes, each split over two bytes of the destination, and then
the bits that remain.
-/

namespace DxilSpirv.Bitstream

open DxilSpirv.Program

/-- What stops a reader: an assertion, memory outside the stream, a pointer whose position in bits
has no 64-bit size, or an operand that a record does not have. The last is for a bound of the
model. -/
inductive Stop where
  | assertion
  | outOfRange
  | pointerOverflow
  | missingOperand
  | outOfFuel
  deriving DecidableEq, Repr

/-- `BitReader`: the byte `m_Bits - m_Start` and the offset within it. Blobs can take `m_Bits` past
the end. -/
structure BitReader where
  data : List UInt8
  byteOffset : Nat := 0
  offset : Nat := 0
  deriving DecidableEq, Repr

/-- A program that reads. -/
abbrev Reader := Stoppable BitReader Stop

/-- The destination of a read, from the byte that `dst` points to at first. -/
abbrev Scratch := Nat → Nat

/-- `memcpy(&ret, scratch, size)`. -/
def littleEndian (scratch : Scratch) : Nat → Nat
  | 0 => 0
  | size + 1 => littleEndian scratch size + 2 ^ (8 * size) * scratch size

namespace BitReader

def bitOffset (b : BitReader) : Nat := b.byteOffset * 8 + b.offset

def bitLength (b : BitReader) : Nat := b.data.length * 8

def atEndOfStream (b : BitReader) : Bool := b.data.length ≤ b.byteOffset

/-- The reader at the end of the stream. -/
def seekEnd (b : BitReader) : BitReader :=
  { b with
    byteOffset := b.data.length
    offset := 0 }

end BitReader

/-- Stop at an assertion that fails. -/
def assertThat (p : Prop) [Decidable p] : Reader Unit :=
  if p then pure () else Stoppable.stop .assertion

/-- `*m_Bits`. -/
def currentByte : Reader Nat := fun b =>
  match b.data[b.byteOffset]? with
  | some byte => .ok (byte.toNat, b)
  | none => .error .outOfRange

/-- `m_Bits += n`. -/
def skipBytes (n : Nat) : Reader Unit := modify fun b => { b with byteOffset := b.byteOffset + n }

/-- `Advance`. -/
def advance (n : Nat) : Reader Unit := do
  let b ← get
  assertThat (b.offset + n ≤ 8)
  if b.offset + n = 8 then set { b with byteOffset := b.byteOffset + 1, offset := 0 }
  else set { b with offset := b.offset + n }

/-- The whole bytes of a read off the end of the stream. -/
def clearBytes : Nat → Nat → Scratch → Scratch
  | 0, _, dst => dst
  | n + 1, d, dst => clearBytes n (d + 1) (Function.update dst d 0)

/-- A read off the end of the stream clears the bits and goes to the end. -/
def readPastEnd (bitsToRead : Nat) (dst : Scratch) : Reader Scratch := do
  let whole := bitsToRead / 8
  let rest := bitsToRead % 8
  let dst := clearBytes whole 0 dst
  modify BitReader.seekEnd
  if rest ≠ 0 then pure (Function.update dst whole (dst whole &&& (255 ^^^ (2 ^ rest - 1))))
  else pure dst

/-- `memcpy` of whole bytes. -/
def copyBytes : Nat → Nat → Scratch → Reader Scratch
  | 0, _, dst => pure dst
  | n + 1, d, dst => do
    let cur ← currentByte
    skipBytes 1
    copyBytes n (d + 1) (Function.update dst d cur)

/-- Whole bytes that fill the rest of one byte of the destination and the start of the next one. -/
def shuffleBytes (dstoffs : Nat) : Nat → Nat → Scratch → Reader Scratch
  | 0, _, dst => pure dst
  | n + 1, d, dst => do
    let cur ← currentByte
    skipBytes 1
    let dst := Function.update dst d ((dst d ||| cur <<< dstoffs) % 2 ^ 8)
    shuffleBytes dstoffs n (d + 1) (Function.update dst (d + 1) (cur >>> (8 - dstoffs)))

/-- The bits after the whole bytes, fewer than eight. -/
def readTail (dstoffs bitsToRead d : Nat) (dst : Scratch) : Reader Scratch := do
  if bitsToRead = 0 then pure dst
  else
    let cur ← currentByte
    let data := cur &&& (2 ^ bitsToRead - 1)
    let dst := Function.update dst d ((dst d ||| data <<< dstoffs) % 2 ^ 8)
    advance bitsToRead
    if dstoffs + bitsToRead ≤ 8 then pure dst
    else pure (Function.update dst (d + 1) (data >>> (8 - dstoffs)))

/-- Whole bytes, after `dstoffs` bits in the first byte of the destination. -/
def readWhole (dstoffs bytes : Nat) (dst : Scratch) : Reader Scratch :=
  if dstoffs = 0 then copyBytes bytes 0 dst else shuffleBytes dstoffs bytes 0 dst

/-- The bits from the start of a byte on. -/
def readAligned (dstoffs bitsToRead : Nat) (dst : Scratch) : Reader Scratch := do
  assertThat ((← get).offset = 0)
  let dst ← readWhole dstoffs (bitsToRead / 8) dst
  readTail dstoffs (bitsToRead % 8) (bitsToRead / 8) dst

/-- `ReadBits`. -/
def readBits (bitsToRead : Nat) (dst : Scratch) : Reader Scratch := do
  let b ← get
  if b.bitLength < b.bitOffset + bitsToRead then readPastEnd bitsToRead dst
  else if b.offset ≠ 0 then
    let avail := 8 - b.offset
    let cur ← currentByte
    if avail = bitsToRead then
      advance bitsToRead
      pure (Function.update dst 0 (cur >>> b.offset))
    else if bitsToRead < avail then
      advance bitsToRead
      pure (Function.update dst 0 (cur >>> b.offset &&& (2 ^ bitsToRead - 1)))
    else
      advance avail
      readAligned avail (bitsToRead - avail) (Function.update dst 0 (cur >>> b.offset))
  else readAligned 0 bitsToRead (Function.update dst 0 0)

/-- `fixed`, for a type of `size` bytes. -/
def fixed (size bitWidth : Nat) : Reader Nat := do
  assertThat (bitWidth ≤ 64)
  let scratch ← readBits bitWidth fun _ => 0
  pure (littleEndian scratch size)

/-- The groups of `vbr` from one shift on; no shift past 63 is accepted. -/
def vbrGroups (groupBitSize : Nat) : Nat → Nat → Nat → Scratch → Reader Nat
  | 0, _, _, _ => Stoppable.stop .outOfFuel
  | fuel + 1, shift, ret, scratch => do
    let scratch ← readBits groupBitSize scratch
    assertThat (shift ≤ 63)
    let hibit := 2 ^ (groupBitSize - 1)
    let ret := (ret + (scratch 0 &&& (hibit - 1)) <<< shift % 2 ^ 64) % 2 ^ 64
    if scratch 0 &&& hibit ≠ 0
      then vbrGroups groupBitSize fuel (shift + (groupBitSize - 1)) ret scratch
    else pure ret

/-- `vbr`, for a type of `size` bytes. -/
def vbr (size groupBitSize : Nat) : Reader Nat := do
  assertThat (1 < groupBitSize)
  assertThat (groupBitSize ≤ 8)
  let ret ← vbrGroups groupBitSize 65 0 0 fun _ => 0
  assertThat (ret &&& (2 ^ (8 * size) - 1) = ret)
  pure ret

/-- The characters of `c6`. -/
def char6 (c : Nat) : Nat :=
  if c ≤ 25 then 97 + c
  else if c ≤ 51 then 65 + c - 26
  else if c ≤ 61 then 48 + c - 52
  else if c = 62 then 46
  else if c = 63 then 95
  else 63

/-- `c6`, which clears only the first byte. -/
def c6 : Reader Nat := do
  let scratch ← readBits 6 fun _ => 0
  pure (char6 (scratch 0))

/-- `Read`. -/
def read (size : Nat) : Reader Nat := do
  let scratch ← readBits (size * 8) fun _ => 0
  pure (littleEndian scratch size)

/-- `align32bits`. -/
def align32bits : Reader Unit := do
  let b ← get
  if 0 < b.offset then advance (8 - b.offset)
  let byteOffset := (← get).byteOffset
  skipBytes ((byteOffset + 3) / 4 * 4 - byteOffset)

/-- The last byte from which on positions in bits still fit 64 bits, whatever field is read
there. -/
def maxByteOffset : Nat := 2 ^ 61 - 16

/-- `ReadBlob`: what the stream holds of the blob, and its length. Nothing compares the length with
the stream, so `m_Bits` goes past the end with a blob that does; it stops the model where
`BitOffset` wraps. -/
def readBlob : Reader (List UInt8 × Nat) := do
  let bloblen ← vbr 8 6
  align32bits
  let b ← get
  if maxByteOffset < b.byteOffset + bloblen then Stoppable.stop .pointerOverflow
  else
    skipBytes bloblen
    align32bits
    pure ((b.data.drop b.byteOffset).take bloblen, bloblen)

end DxilSpirv.Bitstream
