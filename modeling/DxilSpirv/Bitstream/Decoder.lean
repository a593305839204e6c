import DxilSpirv.Bitcode.Types
import DxilSpirv.Bitstream.Reader

/-!
# The bitcode decoder

A bitcode stream is a tree of blocks and records. Records are spelled in full or by an abbreviation,
which the block itself or the block info before it defines. The width of the abbreviation ids is set
for each block.
-/

namespace DxilSpirv.Bitstream

open DxilSpirv.Program DxilSpirv.Bitcode

/-- `AbbrevParam`: an encoding, with its value where it has one. -/
inductive AbbrevParam where
  | fixed (bitWidth : Nat)
  | vbr (groupBitSize : Nat)
  | array
  | char6
  | blob
  | literal (value : Nat)
  | other (encoding : Nat)
  deriving DecidableEq, Repr

/-- `AbbrevDesc`. -/
abbrev AbbrevDesc := List AbbrevParam

/-- `BlockContext`. -/
structure BlockContext where
  abbrevSize : Nat
  abbrevs : List AbbrevDesc := []

/-- `BitcodeReader`: the stack begins with the block that was entered last. -/
structure BitcodeReader where
  b : BitReader
  blockStack : List BlockContext := []
  blockInfo : Nat → Option (List AbbrevDesc) := fun _ => none

/-- A program that decodes. -/
abbrev Decoder := Stoppable BitcodeReader Stop

/-- Read from the stream. -/
def reading {α : Type} (m : Reader α) : Decoder α := fun r =>
  match m r.b with
  | .ok (a, b) => .ok (a, { r with b := b })
  | .error e => .error e

/-- Read values of one kind. -/
def readMany {α : Type} (m : Reader α) : Nat → Reader (List α)
  | 0 => pure []
  | n + 1 => do
    let a ← m
    let l ← readMany m n
    pure (a :: l)

/-- One parameter of `DEFINE_ABBREV`. -/
def readAbbrevParam : Reader AbbrevParam := do
  let lit ← fixed 1 1
  if lit ≠ 0 then return .literal (← vbr 8 8)
  let encoding ← fixed 1 3
  match encoding with
  | 1 => return .fixed (← vbr 8 5)
  | 2 => return .vbr (← vbr 8 5)
  | 3 => return .array
  | 4 => return .char6
  | 5 => return .blob
  | _ => return .other encoding

/-- `DEFINE_ABBREV`. -/
def readAbbrevDesc : Reader AbbrevDesc := do
  let numops ← vbr 4 5
  readMany readAbbrevParam numops

/-- `decodeAbbrevParam`. -/
def decodeAbbrevParam : AbbrevParam → Reader Nat
  | .fixed bitWidth => fixed 8 bitWidth
  | .vbr groupBitSize => vbr 8 groupBitSize
  | .char6 => c6
  | .literal value => pure value
  | .array | .blob => Stoppable.stop .assertion
  | .other _ => pure 0

/-- What the parameters of an abbreviation fill in: `ops`, `blob` and `blobLength` of the record. -/
structure Operands where
  ops : List Nat := []
  blob : Option (List UInt8) := none
  blobLength : Nat := 0
  deriving DecidableEq, Repr

/-- The operands of an abbreviated record. An array is second to last, a blob is last. -/
def readOperands : List AbbrevParam → Reader Operands
  | [] => pure {}
  | .array :: rest =>
    match rest with
    | [elType] => do
      let arrayLen ← vbr 8 6
      let ops ← readMany (decodeAbbrevParam elType) arrayLen
      pure { ops := ops }
    | _ => Stoppable.stop .assertion
  | .blob :: rest => do
    assertThat (rest = [])
    let (blob, blobLength) ← readBlob
    pure { blob := some blob, blobLength := blobLength }
  | param :: rest => do
    let op ← decodeAbbrevParam param
    let operands ← readOperands rest
    pure { operands with ops := op :: operands.ops }

/-- An abbreviated record. -/
def readAbbreviated : AbbrevDesc → Reader BlockOrRecord
  | [] => Stoppable.stop .assertion
  | code :: params => do
    let id ← decodeAbbrevParam code
    let operands ← readOperands params
    pure (.mk false (id % 2 ^ 32) [] operands.ops operands.blob operands.blobLength)

/-- `UNABBREV_RECORD`. -/
def readUnabbreviated : Reader (Nat × List Nat) := do
  let id ← vbr 4 6
  let numops ← vbr 4 6
  let ops ← readMany (vbr 8 6) numops
  pure (id, ops)

/-- `abbrevSize`. -/
def BitcodeReader.abbrevSize (r : BitcodeReader) : Nat :=
  match r.blockStack with
  | [] => 2
  | context :: _ => context.abbrevSize

/-- `getAbbrev`. -/
def getAbbrev (blockId abbrevID : Nat) : Decoder AbbrevDesc := fun r =>
  if abbrevID < 4 then .error .assertion
  else
    let info := (r.blockInfo blockId).getD []
    match info[abbrevID - 4]? with
    | some a => .ok (a, r)
    | none =>
      match r.blockStack with
      | [] => .error .assertion
      | context :: _ =>
        match context.abbrevs[abbrevID - 4 - info.length]? with
        | some a => .ok (a, r)
        | none => .error .assertion

/-- An abbreviation goes to the block info that is being defined, or else to the block. -/
def addAbbrev (curBlockInfo : Option Nat) (a : AbbrevDesc) : Decoder Unit := fun r =>
  match curBlockInfo with
  | some bid =>
    .ok ((), { r
      with blockInfo := Function.update r.blockInfo bid (some ((r.blockInfo bid).getD [] ++ [a])) })
  | none =>
    match r.blockStack with
    | [] => .error .outOfRange
    | context :: rest =>
      .ok ((), { r with blockStack := { context with abbrevs := context.abbrevs ++ [a] } :: rest })

/-- The records of BLOCKINFO: SETBID chooses a block, the names are skipped. -/
def blockInfoRecord (curBlockInfo : Option Nat) (id : Nat) (ops : List Nat) :
    Decoder (Option Nat) := fun r =>
  if id = 1 then
    match ops with
    | [] => .error .missingOperand
    | op :: _ =>
      let bid := op % 2 ^ 32
      .ok (some bid,
        { r with blockInfo := Function.update r.blockInfo bid (some ((r.blockInfo bid).getD [])) })
  else .ok (curBlockInfo, r)

/-- The start of a block: its id and its length, which nothing else uses. -/
def enterBlock : Decoder (Nat × Nat) := do
  let id ← reading (vbr 4 8)
  let abbrevSize ← reading (vbr 8 4)
  modify fun r => { r with blockStack := { abbrevSize := abbrevSize } :: r.blockStack }
  reading align32bits
  let blockDwordLength ← reading (read 4)
  pure (id, blockDwordLength)

/-- The end of a block. -/
def exitBlock : Decoder Unit := modify fun r => { r with blockStack := r.blockStack.tail }

/-- An entry of a block, by its id, and the entries after it. -/
def readEntry (readEntries : Nat → Option Nat → Decoder (List BlockOrRecord)) (id : Nat)
    (curBlockInfo : Option Nat) :
    Nat → Decoder (List BlockOrRecord)
  | 0 => do
    reading align32bits
    pure []
  | 1 => do
    let (sub, blockDwordLength) ← enterBlock
    let children ← readEntries sub none
    exitBlock
    let rest ← readEntries id curBlockInfo
    pure (.mk (0 < blockDwordLength) sub children [] none 0 :: rest)
  | 2 => do
    let a ← reading readAbbrevDesc
    addAbbrev curBlockInfo a
    readEntries id curBlockInfo
  | 3 => do
    let (recordId, ops) ← reading readUnabbreviated
    let curBlockInfo ← if id = 0 then blockInfoRecord curBlockInfo recordId ops
      else pure curBlockInfo
    let rest ← readEntries id curBlockInfo
    pure (.record recordId ops :: rest)
  | abbrevID => do
    let a ← getAbbrev id abbrevID
    let r ← reading (readAbbreviated a)
    let rest ← readEntries id curBlockInfo
    pure (r :: rest)

/-- The entries of a block, up to its end. -/
def readEntries : Nat → Nat → Option Nat → Decoder (List BlockOrRecord)
  | 0, _, _ => Stoppable.stop .outOfFuel
  | fuel + 1, id, curBlockInfo => do
    let abbrevID ← reading (fixed 4 (← get).abbrevSize)
    readEntry (readEntries fuel) id curBlockInfo abbrevID

/-- `ReadBlockContents`. -/
def readBlockContents (fuel : Nat) : Decoder BlockOrRecord := do
  let (id, blockDwordLength) ← enterBlock
  let children ← readEntries fuel id none
  exitBlock
  pure (.mk (0 < blockDwordLength) id children [] none 0)

/-- The constructor of the reader checks the magic number. -/
def readMagic : Decoder Unit := do
  let magic ← reading (read 4)
  reading (assertThat (magic = 0xDEC04342))

/-- `ReadToplevelBlock`. -/
def readToplevelBlock (fuel : Nat) : Decoder BlockOrRecord := do
  let abbrevID ← reading (fixed 4 (← get).abbrevSize)
  reading (assertThat (abbrevID = 1))
  readBlockContents fuel

/-- A stream: its block, and whether it ends there. No block has more entries than the stream has
bits. -/
def readStream (data : List UInt8) : Except Stop (BlockOrRecord × Bool) :=
  match (do readMagic; readToplevelBlock (8 * data.length + 1)) { b := { data := data } } with
  | .ok (toplevel, r) => .ok (toplevel, r.b.atEndOfStream)
  | .error e => .error e

end DxilSpirv.Bitstream
