/-
# Copying bytes in and out of a space

Bytes of an address space are read and written through physical memory, whichever space is loaded.
The range is translated page by page, since pages that follow each other need not lie in frames
that do.  A copy goes on until the first page that leads nowhere; what was copied by then stays.

* `readBytes`: the bytes that were read, and how the copy ended;
* `writeBytes`: the memory that was written, and how the copy ended.
-/
import KernelCore.Paging.Vm

namespace KernelCore

namespace Memory

/-- How a copy ends: complete, or stopped. -/
abbrev CopyResult := Except (Stop PagingError) Unit

/-- The physical address of one address of a space, for a copy. -/
def locate (m : Memory) (root : Nat) (a : VirtAddr) : Except (Stop PagingError) Nat :=
  match m.translate root a with
  | .error halt => .error (.halted halt)
  | .ok none => .error (.refused (.notMapped (.containing a)))
  | .ok (some t) => .ok t.address

/-- Where the next piece of a copy begins: the address `copied` bytes behind `start`, and its
physical address. -/
def locateAt (m : Memory) (root : Nat) (start : VirtAddr) (copied : Nat) :
    Except (Stop PagingError) (VirtAddr × Nat) := do
  let a ← Stop.ofHalt (start.advance copied)
  return (a, ← m.locate root a)

/-- How many of `left` bytes there are up to the end of the page of an address. -/
def pieceLength (a : VirtAddr) (left : Nat) : Nat := min (pageSize - a.offset) left

theorem pieceLength_pos (a : VirtAddr) {left : Nat} (h : left ≠ 0) : 0 < pieceLength a left := by
  have : a.offset < pageSize := Nat.mod_lt _ (by decide)
  simp only [pieceLength]
  omega

/-- Reads `left` bytes of a space, from the one `copied` bytes behind `start` on. -/
def readBytesFrom (m : Memory) (root : Nat) (start : VirtAddr) (copied left : Nat) :
    List UInt8 × CopyResult :=
  if left = 0 then ([], .ok ())
  else match m.locateAt root start copied with
    | .error stop => ([], .error stop)
    | .ok (a, physical) =>
      let n := pieceLength a left
      let (bytes, ending) := m.readBytesFrom root start (copied + n) (left - n)
      (m.read physical n ++ bytes, ending)
termination_by left
decreasing_by
  have := pieceLength_pos a ‹_›
  omega

/-- Reads `length` bytes of the space with the given root. -/
def readBytes (m : Memory) (root : Nat) (start : VirtAddr) (length : Nat) :
    List UInt8 × CopyResult := m.readBytesFrom root start 0 length

/-- Writes bytes of a space, from the one `copied` bytes behind `start` on. -/
def writeBytesFrom (m : Memory) (root : Nat) (start : VirtAddr) (copied : Nat)
    (bytes : List UInt8) : Memory × CopyResult :=
  if bytes.length = 0 then (m, .ok ())
  else match m.locateAt root start copied with
    | .error stop => (m, .error stop)
    | .ok (a, physical) =>
      let n := pieceLength a bytes.length
      (m.write physical (bytes.take n)).writeBytesFrom root start (copied + n) (bytes.drop n)
termination_by bytes.length
decreasing_by
  have := pieceLength_pos a ‹_›
  simp only [List.length_drop]
  omega

/-- Writes bytes of the space with the given root. -/
def writeBytes (m : Memory) (root : Nat) (start : VirtAddr) (bytes : List UInt8) :
    Memory × CopyResult := m.writeBytesFrom root start 0 bytes

end Memory

namespace Vm

/-- Reads bytes of a space. -/
def readBytes (vm : Vm) (space : AddressSpace) (start : VirtAddr) (length : Nat) :
    List UInt8 × Memory.CopyResult := vm.ram.memory.readBytes space.root start length

/-- Writes bytes of a space. -/
def writeBytes (space : AddressSpace) (start : VirtAddr) (bytes : List UInt8) : Op Unit :=
  fun vm =>
    let (memory, ending) := vm.ram.memory.writeBytes space.root start bytes
    match ending with
    | .ok () => .ok () { vm with ram := { vm.ram with memory } }
    | .error stop => .error stop { vm with ram := { vm.ram with memory } }

end Vm

end KernelCore
