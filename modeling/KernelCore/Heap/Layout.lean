/-
# Allocations of a given alignment

Users of the heap may ask for a larger alignment than the one that every block has.  The heap then
takes a block with room to spare, returns an aligned address inside it, and keeps the address that
the block really has in the eight bytes in front of the returned one, where `Heap.freeAligned`
finds it again.

A request of this kind that cannot be served has no error of its own: there is just no address.
A wrong release stops the machine.
-/
import KernelCore.Heap.Alloc

namespace KernelCore

/-- A size and an alignment to allocate. -/
structure Layout where
  size : Nat
  align : Nat
  deriving DecidableEq, Repr

/-- Is `n` one of the powers of two that fit into a word? -/
def isWordPowerOfTwo (n : Nat) : Bool := n != 0 && n.log2 < 64 && 2 ^ n.log2 == n

namespace Layout

/-- The layout of a size and an alignment: the alignment is a power of two, and the size rounded
up to it stays below half of the 64-bit range. -/
def of? (size align : Nat) : Option Layout :=
  if isWordPowerOfTwo align && size + align ≤ 2 ^ (63 : Nat) then some ⟨size, align⟩ else none

end Layout

namespace Heap

/-- Allocates a layout.  Beyond the alignment of every block, the address of the block is kept in
front of the result. -/
def allocAligned (h : Heap) (layout : Layout) : Except (Stop HeapError) (Nat × Heap) :=
  if layout.align ≤ heapAlign then h.alloc layout.size
  else if 2 ^ (64 : Nat) ≤ layout.size + layout.align then .error (.refused .overflow)
  else do
    let (address, h) ← h.alloc (layout.size + layout.align)
    let aligned := alignUp (address + 1) layout.align
    return (aligned,
      { h with memory := h.memory.setWord (aligned - 8) (UInt64.ofNat address) })

/-- Frees what `allocAligned` returned for the same layout. -/
def freeAligned (h : Heap) (address : Nat) (layout : Layout) : Except (Stop HeapError) Heap :=
  if layout.align ≤ heapAlign then h.free address
  else
    let invalid : Except (Stop HeapError) Heap := .error (.refused (.invalidFree address))
    let kept := address - 8
    if address < 8 ∨ kept < h.start then invalid
    else do
      let limit ← Stop.ofHalt h.checkedLimit
      if limit ≤ kept then invalid else h.free (h.memory.word kept).toNat

/-- Allocates a layout, if there is room. -/
def obtain? (h : Heap) (layout : Layout) : Except Halt (Option Nat × Heap) :=
  match h.allocAligned layout with
  | .ok (address, h) => .ok (some address, h)
  | .error (.refused _) => .ok (none, h)
  | .error (.halted halt) => .error halt

/-- Allocates a layout and clears its bytes, if there is room. -/
def obtainZeroed? (h : Heap) (layout : Layout) : Except Halt (Option Nat × Heap) := do
  match ← h.obtain? layout with
  | (some address, h) =>
    return (some address, { h with memory := h.memory.fill address layout.size 0 })
  | (none, h) => return (none, h)

/-- Gives an allocation back; an error stops the machine. -/
def giveBack (h : Heap) (address : Nat) (layout : Layout) : Except Halt Heap :=
  match h.freeAligned address layout with
  | .ok h => .ok h
  | .error (.refused e) => .error (.fatal e.message)
  | .error (.halted halt) => .error halt

/-- Moves an allocation to one of another size and the same alignment, with as many of its bytes
as both have.  If there is no room, the old allocation stays. -/
def resize? (h : Heap) (address : Nat) (layout : Layout) (size : Nat) :
    Except Halt (Option Nat × Heap) := do
  match ← h.obtain? { layout with size } with
  | (none, h) => return (none, h)
  | (some target, h) =>
    let kept := h.memory.read address (min layout.size size)
    let h ← { h with memory := h.memory.write target kept }.giveBack address layout
    return (some target, h)

end Heap

end KernelCore
