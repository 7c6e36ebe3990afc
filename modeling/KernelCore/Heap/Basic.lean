/-
# The kernel heap: blocks and how they are found

The heap is one contiguous range of memory.  Blocks tile the range: each begins with a header of
two words, its size (header included) and a tag that says whether it is in use, so that stepping
from header to header visits every block in address order.  The headers lie in the same memory as
the data between them; a header that cannot be right halts the machine, before anything moves.

* `Heap.blockAt` reads one header, and accepts it only if the block fits (`Heap.blockAt_bounds`);
* `Heap.blocks` is the walk over all of them;
* `Heap.stats` sums the walk up.
-/
import KernelCore.Halt
import KernelCore.Memory

namespace KernelCore

/-! ## 1. The layout of a block -/

/-- Every payload starts at a multiple of this. -/
def heapAlign : Nat := 16

/-- Bytes of a header: the size, then the tag. -/
def headerSize : Nat := 16

/-- The smallest block: a header and one unit of payload. -/
def minBlock : Nat := headerSize + heapAlign

/-- What both tags have in common. -/
def blockMagic : UInt64 := 0x6b6865617000

/-- The tag of a free block. -/
def freeTag : UInt64 := blockMagic <<< 1

/-- The tag of a block in use. -/
def usedTag : UInt64 := freeTag ||| 1

/-- The next multiple of `align` from `n` on. -/
def alignUp (n align : Nat) : Nat := (n + (align - 1)) / align * align

/-- The last multiple of `align` up to `n`. -/
def alignDown (n align : Nat) : Nat := n / align * align

/-- Why the heap refuses. -/
inductive HeapError where
  /-- No free block is large enough. -/
  | outOfMemory
  /-- The address to free is not that of a live allocation. -/
  | invalidFree (address : Nat)
  /-- The number of bytes asked for leaves the 64-bit range. -/
  | overflow
  deriving DecidableEq, Repr

namespace HeapError

/-- Only a bad free means that the owner has lost track. -/
def isFatal : HeapError → Bool
  | .outOfMemory => false
  | .invalidFree _ => true
  | .overflow => false

/-- The error in words. -/
def message : HeapError → String
  | .outOfMemory => "Kernel heap exhausted"
  | .invalidFree address =>
    "Free of " ++ hex address ++ ", which is not a live heap allocation"
  | .overflow => "Allocation size overflows"

end HeapError

/-- A block as its header tells it. -/
structure Block where
  /-- Where the header is. -/
  address : Nat
  /-- Bytes of the whole block, header included. -/
  size : Nat
  used : Bool
  deriving DecidableEq, Repr

namespace Block

/-- Where the block after this one begins. -/
def next (b : Block) : Nat := b.address + b.size

/-- Where the payload begins. -/
def payload (b : Block) : Nat := b.address + headerSize

/-- Bytes of payload. -/
def capacity (b : Block) : Nat := b.size - headerSize

end Block

/-- What the blocks of a heap add up to, in bytes and in number. -/
structure HeapStats where
  total : Nat
  used : Nat
  free : Nat
  blocks : Nat
  freeBlocks : Nat
  /-- The largest request that would be served now. -/
  largestFree : Nat
  deriving DecidableEq, Repr

/-- A heap: the range that the blocks tile, and the memory that it lies in. -/
structure Heap where
  start : Nat
  size : Nat
  memory : Memory

namespace Heap

/-! ## 2. Headers -/

/-- A heap without any block. -/
def empty (memory : Memory) : Heap := ⟨0, 0, memory⟩

/-- One past the last byte. -/
def limit (h : Heap) : Nat := h.start + h.size

/-- One past the last byte, as a machine word. -/
def checkedLimit (h : Heap) : Except Halt Nat :=
  if 2 ^ (64 : Nat) ≤ h.limit then .error .addOverflow else .ok h.limit

/-- The heap with a header written at an address. -/
def setHeader (h : Heap) (address size : Nat) (tag : UInt64) : Heap :=
  { h with memory :=
      (h.memory.setWord address (UInt64.ofNat size)).setWord (address + 8) tag }

/-- The heap with the header at an address wiped. -/
def clearHeader (h : Heap) (address : Nat) : Heap := h.setHeader address 0 0

/-- What the tag of a header says: in use, free, or nothing that a header can say. -/
def usedOfTag? (tag : UInt64) : Option Bool :=
  if tag = usedTag then some true else if tag = freeTag then some false else none

/-- The block whose header is at an address.  The tag must be one of the two, and the block must
be large enough to be one and end inside the heap; otherwise the machine halts. -/
def blockAt (h : Heap) (address : Nat) : Except Halt Block :=
  if address % 8 ≠ 0 then .error (.misaligned address)
  else
    let size := (h.memory.word address).toNat
    let tag := h.memory.word (address + 8)
    match usedOfTag? tag with
    | none => .error (.blockTag address tag.toNat)
    | some used =>
      if size < minBlock then .error (.blockSize address size)
      else if 2 ^ (64 : Nat) ≤ address + size then .error .addOverflow
      else if h.limit < address + size then .error (.blockSize address size)
      else .ok ⟨address, size, used⟩

/-- A block that was accepted is where it was asked for, has room for a header and a unit of
payload, and ends inside the heap. -/
theorem blockAt_bounds {h : Heap} {address : Nat} {b : Block} (hb : h.blockAt address = .ok b) :
    b.address = address ∧ minBlock ≤ b.size ∧ b.next ≤ h.limit := by
  simp only [blockAt] at hb
  split at hb
  · cases hb
  · split at hb
    · cases hb
    · split at hb
      · cases hb
      · split at hb
        · cases hb
        · split at hb
          · cases hb
          · cases hb
            refine ⟨rfl, ?_, ?_⟩
            · show minBlock ≤ (h.memory.word address).toNat; omega
            · show address + (h.memory.word address).toNat ≤ h.limit; omega

theorem lt_next_of_blockAt {h : Heap} {address : Nat} {b : Block}
    (hb : h.blockAt address = .ok b) : address < b.next := by
  have ⟨h₁, h₂, _⟩ := blockAt_bounds hb
  simp only [minBlock, headerSize, heapAlign] at h₂
  simp only [Block.next]
  omega

/-! ## 3. The walk -/

/-- The blocks from an address on, in address order. -/
def blocksFrom (h : Heap) (address : Nat) : Except Halt (List Block) :=
  if address < h.limit then
    match _hb : h.blockAt address with
    | .error halt => .error halt
    | .ok b => do return b :: (← h.blocksFrom b.next)
  else .ok []
termination_by h.limit - address
decreasing_by
  have := lt_next_of_blockAt ‹_›
  omega

/-- All blocks, in address order. -/
def blocks (h : Heap) : Except Halt (List Block) := do
  let _ ← h.checkedLimit
  h.blocksFrom h.start

/-- What a list of blocks adds up to, for a heap of `total` bytes. -/
def statsOf (total : Nat) (blocks : List Block) : HeapStats :=
  let used := blocks.filter Block.used
  let free := blocks.filter fun b => !b.used
  { total
    used := used.foldr (fun b n => b.size + n) 0
    free := free.foldr (fun b n => b.size + n) 0
    blocks := blocks.length
    freeBlocks := free.length
    largestFree := (free.map Block.capacity).foldl max 0 }

/-- What the blocks of the heap add up to. -/
def stats (h : Heap) : Except Halt HeapStats := do return statsOf h.size (← h.blocks)

/-- The heap over `size` bytes from `start` on: one free block over all of it that is aligned, or
no block if that leaves less than the smallest one.  The bytes of the range become the heap's. -/
def ofRange (memory : Memory) (start size : Nat) : Except Halt Heap :=
  if 2 ^ (64 : Nat) ≤ start + heapAlign then .error .addOverflow
  else
    let aligned := alignUp start heapAlign
    let usable := alignDown (size - (aligned - start)) heapAlign
    if minBlock ≤ usable then
      .ok ((Heap.mk aligned usable memory).setHeader aligned usable freeTag)
    else .ok ⟨aligned, 0, memory⟩

end Heap

end KernelCore
