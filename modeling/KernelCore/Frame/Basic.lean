/-
# Physical frames

Physical memory is handed out in frames of `pageSize` bytes.  A frame is named by its number:
frame `n` starts at physical address `n * pageSize`.  Physical addresses have 52 bits, so not
every number names a frame that exists; `Frame.address` is where that shows.
-/
import KernelCore.Halt
import KernelCore.Memory

namespace KernelCore

namespace Frame

/-- Where frame `n` starts in physical memory. -/
def address (n : Nat) : Except Halt Nat :=
  if 2 ^ (64 : Nat) ≤ n * pageSize then .error .mulOverflow
  else if 2 ^ (52 : Nat) ≤ n * pageSize then .error .physicalAddress
  else .ok (n * pageSize)

/-- The frame that holds a physical address. -/
def containing (address : Nat) : Nat := address / pageSize

/-- Frame `n` in words: its number and its address. -/
def describe (n : Nat) : Except Halt String := do
  let start ← address n
  return "frame #" ++ toString n ++ " (" ++ hex start ++ ")"

theorem address_of_lt {n : Nat} (h : n < 2 ^ (40 : Nat)) : address n = .ok (n * pageSize) := by
  have h₁ : ¬2 ^ (64 : Nat) ≤ n * pageSize := by simp only [pageSize]; omega
  have h₂ : ¬2 ^ (52 : Nat) ≤ n * pageSize := by simp only [pageSize]; omega
  rw [address, if_neg h₁, if_neg h₂]

@[simp] theorem containing_mul (n : Nat) : containing (n * pageSize) = n :=
  Nat.mul_div_cancel n (by decide)

end Frame

/-- Why the frame pool refuses. -/
inductive FrameError where
  /-- No frame is free. -/
  | outOfMemory
  /-- The frame to free is free already. -/
  | doubleFree (frame : Nat)
  /-- The frame to free is none of the pool's. -/
  | outOfRange (frame : Nat)
  deriving DecidableEq, Repr

namespace FrameError

/-- Running out of frames is an answer; a bad free means that the owner has lost track. -/
def isFatal : FrameError → Bool
  | .outOfMemory => false
  | .doubleFree _ => true
  | .outOfRange _ => true

/-- The error in words.  Naming a frame beyond the physical address range halts. -/
def message : FrameError → Except Halt String
  | .outOfMemory => .ok "Out of physical frames"
  | .doubleFree frame => do return "Double free of " ++ (← Frame.describe frame)
  | .outOfRange frame => do
    return (← Frame.describe frame) ++ " is not tracked by the allocator"

end FrameError

end KernelCore
