/-
# Taking and returning blocks

`Heap.alloc` takes the first free block that is large enough, and splits off what it does not need
if that makes a block of its own.  `Heap.free` looks the address up by walking the blocks, so that
one that is not the payload of a block in use is refused and nothing is trusted; the block is then
merged with a free block behind it and with a free block in front of it.
-/
import KernelCore.Heap.Basic

namespace KernelCore

namespace Heap

/-! ## 1. Taking a block -/

/-- The size of the smallest block with room for `n` bytes of payload, or nothing if that leaves
the 64-bit range.  There is always room for one byte. -/
def blockSizeFor? (n : Nat) : Option Nat :=
  let size := max n 1 + (headerSize + heapAlign - 1)
  if 2 ^ (64 : Nat) ≤ size then none else some (alignDown size heapAlign)

/-- The first free block of at least `need` bytes from an address on. -/
def firstFit (h : Heap) (need address : Nat) : Except Halt (Option Block) :=
  if address < h.limit then
    match _hb : h.blockAt address with
    | .error halt => .error halt
    | .ok b =>
      if !b.used && need ≤ b.size then .ok (some b) else h.firstFit need b.next
  else .ok none
termination_by h.limit - address
decreasing_by
  have := lt_next_of_blockAt ‹_›
  omega

/-- The heap with `need` bytes at the front of a block in use.  What is left over becomes a free
block if it is large enough to be one, and stays part of the block otherwise. -/
def carve (h : Heap) (b : Block) (need : Nat) : Heap :=
  if minBlock ≤ b.size - need then
    (h.setHeader (b.address + need) (b.size - need) freeTag).setHeader b.address need usedTag
  else h.setHeader b.address b.size usedTag

/-- Allocates `n` bytes, first-fit; the result is the address of the payload. -/
def alloc (h : Heap) (n : Nat) : Except (Stop HeapError) (Nat × Heap) :=
  match blockSizeFor? n with
  | none => .error (.refused .outOfMemory)
  | some need => do
    let _ ← Stop.ofHalt h.checkedLimit
    match ← Stop.ofHalt (h.firstFit need h.start) with
    | none => throw (.refused .outOfMemory)
    | some b => return (b.payload, h.carve b need)

/-- Allocates `count * size` bytes and clears them. -/
def calloc (h : Heap) (count size : Nat) : Except (Stop HeapError) (Nat × Heap) :=
  if 2 ^ (64 : Nat) ≤ count * size then .error (.refused .overflow)
  else do
    let (address, h) ← h.alloc (count * size)
    return (address, { h with memory := h.memory.fill address (count * size) 0 })

/-! ## 2. Returning a block -/

/-- Walks from `address` to the first block that does not begin before `target`.  The result is the
block that the walk saw last, if any, and where it stopped. -/
def seek (h : Heap) (target : Nat) (previous : Option Block) (address : Nat) :
    Except Halt (Option Block × Nat) :=
  if address < target then
    match _hb : h.blockAt address with
    | .error halt => .error halt
    | .ok b => h.seek target (some b) b.next
  else .ok (previous, address)
termination_by target - address
decreasing_by
  have := lt_next_of_blockAt ‹_›
  omega

/-- The block with everything up to the end of a free block behind it, and the heap without that
block's header. -/
def absorbNext (h : Heap) (b : Block) : Except Halt (Block × Heap) :=
  if b.next < h.limit then do
    let next ← h.blockAt b.next
    return if next.used then (b, h)
      else ({ b with size := b.size + next.size }, h.clearHeader next.address)
  else .ok (b, h)

/-- The block with everything from the beginning of a free block in front of it, and the heap
without its own header. -/
def absorbPrevious (h : Heap) (previous : Option Block) (b : Block) : Block × Heap :=
  match previous with
  | some p =>
    if p.used then (b, h)
    else ({ p with size := p.size + b.size }, h.clearHeader b.address)
  | none => (b, h)

/-- Frees the allocation at an address, and merges it with its free neighbours. -/
def free (h : Heap) (address : Nat) : Except (Stop HeapError) Heap :=
  let invalid : Except (Stop HeapError) Heap := .error (.refused (.invalidFree address))
  let target := address - headerSize
  if address < headerSize ∨ target < h.start then invalid
  else do
    let limit ← Stop.ofHalt h.checkedLimit
    if limit ≤ target then invalid
    else
      let (previous, found) ← Stop.ofHalt (h.seek target none h.start)
      if found ≠ target then invalid
      else
        let b ← Stop.ofHalt (h.blockAt target)
        if !b.used then invalid
        else
          let (b, h) ← Stop.ofHalt (h.absorbNext b)
          let (b, h) := h.absorbPrevious previous b
          return h.setHeader b.address b.size freeTag

end Heap

end KernelCore
