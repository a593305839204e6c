import DxilSpirv.Bitstream.Codes
import DxilSpirv.Bitstream.Decoder

/-!
# A writer of bitcode

A writer lays out blocks, definitions of abbreviations and records, each record in full or by an
abbreviation in scope. It refuses what does not fit: numbers too large for their field, operands
that an abbreviation cannot spell, blobs that end where positions in bits have no 64-bit size. This
is the format as the decoder is to read it; the repository has no writer.
-/

namespace DxilSpirv.Bitstream

open DxilSpirv.Bitcode

/-- What a writer puts into a block. -/
inductive Item where
  | block (id abbrevSize : Nat) (items : List Item)
  | define (a : AbbrevDesc)
  | record (id : Nat) (ops : List Nat)
  | abbreviated (abbrevID id : Nat) (ops : List Nat) (blob : Option (List UInt8))

/-- The code of a character. -/
def char6Code (v : Nat) : Option Nat := (List.range 64).find? fun c => char6 c = v

/-- The codes of all elements, one after the other. -/
def manyBits {α : Type} (f : α → Option (List Bool)) : List α → Option (List Bool)
  | [] => some []
  | a :: l => do
    let x ← f a
    let y ← manyBits f l
    some (x ++ y)

/-- An operand, as a parameter of an abbreviation spells it. -/
def scalarBits : AbbrevParam → Nat → Option (List Bool)
  | .fixed w, v => if w ≤ 64 ∧ v < 2 ^ w then some (lowBits w v) else none
  | .vbr g, v => if 1 < g ∧ g ≤ 8 ∧ v < 2 ^ 64 then some (vbrBits g v) else none
  | .char6, v => (char6Code v).map (lowBits 6)
  | .literal x, v => if v = x then some [] else none
  | _, _ => none

/-- The operands after the record id, at a position. -/
def operandBits : Nat → List AbbrevParam → List Nat → Option (List UInt8) → Option (List Bool)
  | _, [], [], none => some []
  | _, .array :: [elType], ops, none => do
    let x ← manyBits (scalarBits elType) ops
    if ops.length < 2 ^ 64 then some (vbrBits 6 ops.length ++ x) else none
  | p, .blob :: [], [], some blob =>
    if (p + (blobHead p blob).length) / 8 + blob.length ≤ maxByteOffset
      then some (blobBits p blob) else none
  | p, param :: params, op :: ops, blob => do
    let x ← scalarBits param op
    let y ← operandBits (p + x.length) params ops blob
    some (x ++ y)
  | _, _, _, _ => none

/-- An abbreviated record, at a position. -/
def abbreviatedBits (p : Nat) (a : AbbrevDesc) (id : Nat) (ops : List Nat)
    (blob : Option (List UInt8)) :
    Option (List Bool) :=
  match a with
  | [] => none
  | code :: params => do
    let x ← scalarBits code id
    let y ← operandBits (p + x.length) params ops blob
    if id < 2 ^ 32 then some (x ++ y) else none

/-- A record in full. -/
def recordBits (id : Nat) (ops : List Nat) : Option (List Bool) := do
  let x ← manyBits (fun op => if op < 2 ^ 64 then some (vbrBits 6 op) else none) ops
  if id < 2 ^ 32 ∧ ops.length < 2 ^ 32
    then some (vbrBits 6 id ++ (vbrBits 6 ops.length ++ x)) else none

/-- A parameter of an abbreviation. -/
def paramBits : AbbrevParam → Option (List Bool)
  | .fixed w => if w < 2 ^ 64 then some (lowBits 1 0 ++ (lowBits 3 1 ++ vbrBits 5 w)) else none
  | .vbr g => if g < 2 ^ 64 then some (lowBits 1 0 ++ (lowBits 3 2 ++ vbrBits 5 g)) else none
  | .array => some (lowBits 1 0 ++ lowBits 3 3)
  | .char6 => some (lowBits 1 0 ++ lowBits 3 4)
  | .blob => some (lowBits 1 0 ++ lowBits 3 5)
  | .literal x => if x < 2 ^ 64 then some (lowBits 1 1 ++ vbrBits 8 x) else none
  | .other _ => none

/-- The definition of an abbreviation. -/
def abbrevBits (a : AbbrevDesc) : Option (List Bool) := do
  let x ← manyBits paramBits a
  if a.length < 2 ^ 32 then some (vbrBits 5 a.length ++ x) else none

/-- What is in scope within a block: its abbreviations, those of the block info, and the block that
the block info is about. -/
structure Scope where
  abbrevs : List AbbrevDesc := []
  blockInfo : Nat → Option (List AbbrevDesc) := fun _ => none
  curBlockInfo : Option Nat := none

/-- The abbreviation with an id. -/
def Scope.abbrev (s : Scope) (blockId abbrevID : Nat) : Option AbbrevDesc :=
  if 4 ≤ abbrevID then ((s.blockInfo blockId).getD [] ++ s.abbrevs)[abbrevID - 4]? else none

/-- The scope after a definition. -/
def Scope.define (s : Scope) (a : AbbrevDesc) : Scope :=
  match s.curBlockInfo with
  | some bid => { s
      with blockInfo := Function.update s.blockInfo bid (some ((s.blockInfo bid).getD [] ++ [a])) }
  | none => { s with abbrevs := s.abbrevs ++ [a] }

/-- The scope after a record: SETBID needs its operand. -/
def Scope.record (s : Scope) (blockId id : Nat) (ops : List Nat) : Option Scope :=
  if blockId = 0 ∧ id = 1 then
    match ops with
    | [] => none
    | op :: _ =>
      let bid := op % 2 ^ 32
      some { s with
        blockInfo := Function.update s.blockInfo bid (some ((s.blockInfo bid).getD []))
        curBlockInfo := some bid }
  else some s

/-- The start of a block: its id, the width of the ids in it, and its length in words. -/
def headBits (p id abbrevSize words : Nat) : List Bool :=
  let x := vbrBits 8 id ++ vbrBits 4 abbrevSize
  x ++ (alignBits (p + x.length) ++ lowBits 32 words)

/-- The end of a block. -/
def endBits (p width : Nat) : List Bool := lowBits width 0 ++ alignBits (p + width)

/-- The id of an entry. -/
def idBits (width abbrevID : Nat) : Option (List Bool) :=
  if abbrevID < 2 ^ width ∧ abbrevID < 2 ^ 32 then some (lowBits width abbrevID) else none

mutual

/-- One item, in a block with an id and a width for the ids of its entries. -/
def Item.write (blockId width : Nat) (s : Scope) (p : Nat) : Item → Option (List Bool × Scope)
  | .block id abbrevSize items => do
    let entry ← idBits width 1
    let start := p + entry.length + (headBits (p + entry.length) id abbrevSize 0).length
    let (x, inner) ← writeItems id abbrevSize { blockInfo := s.blockInfo } start items
    let body := x ++ endBits (start + x.length) abbrevSize
    let words := body.length / 32
    if id < 2 ^ 32 ∧ 0 < abbrevSize ∧ abbrevSize ≤ 64 ∧ words < 2 ^ 32 then
      some (entry ++ (headBits (p + entry.length) id abbrevSize words ++ body),
        { s with blockInfo := inner.blockInfo })
    else none
  | .define a => do
    let entry ← idBits width 2
    let x ← abbrevBits a
    some (entry ++ x, s.define a)
  | .record id ops => do
    let entry ← idBits width 3
    let x ← recordBits id ops
    let s ← s.record blockId id ops
    some (entry ++ x, s)
  | .abbreviated abbrevID id ops blob => do
    let entry ← idBits width abbrevID
    let a ← s.abbrev blockId abbrevID
    let x ← abbreviatedBits (p + entry.length) a id ops blob
    some (entry ++ x, s)

/-- The items of a block. -/
def writeItems (blockId width : Nat) (s : Scope) (p : Nat) : List Item → Option (List Bool × Scope)
  | [] => some ([], s)
  | item :: items => do
    let (x, s) ← item.write blockId width s p
    let (y, s) ← writeItems blockId width s (p + x.length) items
    some (x ++ y, s)

end

/-- The length of the blob of a record, which is 0 where there is none. -/
def blobLengthOf (blob : Option (List UInt8)) : Nat := (blob.map List.length).getD 0

mutual

/-- What an item stands for: definitions stand for nothing. -/
def Item.entries : Item → List BlockOrRecord
  | .block id _ items => [.block id (entriesOf items)]
  | .define _ => []
  | .record id ops => [.record id ops]
  | .abbreviated _ id ops blob => [.mk false id [] ops blob (blobLengthOf blob)]

/-- What the items of a block stand for. -/
def entriesOf : List Item → List BlockOrRecord
  | [] => []
  | item :: items => item.entries ++ entriesOf items

end

/-- Bits in bytes, lowest first. -/
def packBytes : List Bool → List UInt8
  | b₀ :: b₁ :: b₂ :: b₃ :: b₄ :: b₅ :: b₆ :: b₇ :: bits =>
    UInt8.ofNat (ofBits [b₀, b₁, b₂, b₃, b₄, b₅, b₆, b₇]) :: packBytes bits
  | _ => []

/-- A stream: the magic number, and a block at the top level. -/
def writeStream (toplevel : Item) : Option (List UInt8) := do
  let (x, _) ← toplevel.write 0 2 {} 32
  some (packBytes (lowBits 32 0xDEC04342 ++ x))

end DxilSpirv.Bitstream
