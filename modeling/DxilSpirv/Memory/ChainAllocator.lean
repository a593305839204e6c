import DxilSpirv.Memory.Regions
import DxilSpirv.Program.Weakest
import Mathlib.Algebra.Ring.Nat

/-!
# The chain allocator

A thread allocates from a chain of blocks. A block gives out its memory front to back, and nothing
is given back before a reset, after which the same blocks are used again. What is larger than a
block is allocated on its own.
-/

namespace DxilSpirv.Memory

open DxilSpirv.Program

/-- What an allocator must not do. -/
inductive Stop where
  | outOfRange
  | nullOffset
  deriving DecidableEq, Repr

/-- `BLOCK_SIZE`. -/
def BLOCK_SIZE : Nat := 64 * 1024

/-- `Block`. Its memory is null when `malloc` failed. -/
structure Block where
  block : Nat
  offset : Nat := 0
  blockSize : Nat
  deriving DecidableEq, Repr

/-- `ChainAllocator`, with the number of calls of `malloc` so far. -/
structure ChainAllocator where
  blocks : List Block := []
  hugeBlocks : List Block := []
  blockIndex : Nat := 0
  mallocs : Nat := 0
  deriving DecidableEq, Repr

/-- A program of the allocator. -/
abbrev Allocating := Stoppable ChainAllocator Stop

/-- The memory of a block. -/
def Block.region (b : Block) : Region := ⟨b.block, b.blockSize⟩

/-- The memory that the allocator has. -/
def ChainAllocator.live (s : ChainAllocator) : List Region :=
  ((s.blocks ++ s.hugeBlocks).map Block.region).filter (·.base ≠ 0)

/-- `Block::allocate`. Only an offset of zero may be added to null. -/
def Block.allocate (size : Nat) (b : Block) : Except Stop (Nat × Block) :=
  let offset := (b.offset + 15) / 16 * 16
  if offset + size ≤ b.blockSize then
    if b.block = 0 ∧ offset ≠ 0 then .error .nullOffset
    else .ok (b.block + offset, { b with offset := offset + size })
  else .ok (0, { b with offset := offset })

variable (malloc : Malloc)

/-- A new block. -/
def newBlock (size : Nat) : Allocating Block := modifyGet fun s =>
  ({ block := malloc.answer s.mallocs s.live size
     blockSize := size }, { s with mallocs := s.mallocs + 1 })

/-- `ensure_block`. -/
def ensureBlock : Allocating Bool := do
  let b ← newBlock malloc BLOCK_SIZE
  modify fun s => { s with blocks := s.blocks ++ [b] }
  pure (b.block ≠ 0)

/-- `allocate_huge`. -/
def allocateHuge (size : Nat) : Allocating Nat := do
  let b ← newBlock malloc size
  modify fun s => { s with hugeBlocks := s.hugeBlocks ++ [b] }
  pure b.block

/-- There is a block at the index, or a new one is put there. -/
def ensureIndex : Allocating Bool := do
  let s ← get
  if s.blocks.length ≤ s.blockIndex then ensureBlock malloc else pure true

/-- `blocks[block_index].allocate(size)`. -/
def allocateAtIndex (size : Nat) : Allocating Nat := fun s =>
  match s.blocks[s.blockIndex]? with
  | none => .error .outOfRange
  | some b => (b.allocate size).map fun (p, b) =>
    (p, { s with blocks := s.blocks.set s.blockIndex b })

/-- `ChainAllocator::allocate`, when the current block has no room. -/
def allocateNext (size : Nat) : Allocating Nat := do
  modify fun s => { s with blockIndex := s.blockIndex + 1 }
  if ¬ (← ensureIndex malloc) then pure 0 else allocateAtIndex size

/-- `ChainAllocator::allocate`. -/
def allocate (size : Nat) : Allocating Nat := do
  if BLOCK_SIZE < size then allocateHuge malloc size
  else if ¬ (← ensureIndex malloc) then pure 0
  else
    let ptr ← allocateAtIndex size
    if ptr ≠ 0 then pure ptr else allocateNext malloc size

/-- `ChainAllocator::reset`. -/
def ChainAllocator.reset (s : ChainAllocator) : ChainAllocator :=
  { s with
    blocks := s.blocks.map fun b => { b with offset := 0 }
    hugeBlocks := []
    blockIndex := 0 }

/-- What a thread asks of its allocator. Freeing does nothing. -/
inductive Request where
  | allocate (size : Nat)
  | reset
  deriving DecidableEq, Repr

/-- The allocator, and the memory that it gave out since the last reset. -/
structure Session where
  allocator : ChainAllocator := {}
  given : List Region := []

/-- One request. -/
def serve (s : Session) : Request → Except Stop Session
  | .allocate size => (allocate malloc size s.allocator).map fun (p, a) =>
    { allocator := a
      given := if p = 0 then s.given else ⟨p, size⟩ :: s.given }
  | .reset => .ok { allocator := s.allocator.reset }

/-- Requests, one after the other. -/
def serveAll (requests : List Request) (s : Session) : Except Stop Session :=
  requests.foldlM (serve malloc) s

end DxilSpirv.Memory
