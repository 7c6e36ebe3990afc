/-
# The frame pool

The pool knows which frames of physical memory are taken.  It is set up from the memory map that
the boot loader hands over: frames that lie wholly inside a usable region become free, and then
frames that a reserved region touches are taken back, so that an overlap is always used.

Frames are handed out next-fit: the search starts at the cursor, behind the frame handed out last,
and goes round once.  Words of the bitmap without a free frame are passed over in one step.

* `FramePool.ofMap`: the pool of a memory map;
* `FramePool.allocate`, `FramePool.release`: taking and returning one frame.
-/
import KernelCore.Frame.Bitmap
import KernelCore.Journal

namespace KernelCore

/-! ## 1. The memory map -/

/-- What a region of physical memory may be used for. -/
inductive RegionKind where
  | usable
  | reserved
  | kernelImage
  deriving DecidableEq, Repr

/-- A region of the boot memory map. -/
structure Region where
  base : UInt64
  length : UInt64
  kind : RegionKind
  deriving DecidableEq, Repr

/-- The number of whole pages that `bytes` bytes reach into. -/
def pagesUp (bytes : Nat) : Nat := (bytes + (pageSize - 1)) / pageSize

namespace Region

/-- One past the last byte, cut off at the largest address. -/
def stop (r : Region) : Nat := min (r.base.toNat + r.length.toNat) (2 ^ (64 : Nat) - 1)

/-- Is the region free to use? -/
def isUsable (r : Region) : Bool := r.kind == .usable

/-- The first frame that begins inside the region. -/
def firstInside (r : Region) : Nat := pagesUp r.base.toNat

/-- One past the last frame that ends inside the region. -/
def stopInside (r : Region) : Nat := r.stop / pageSize

/-- The first frame that the region touches. -/
def firstTouched (r : Region) : Nat := r.base.toNat / pageSize

/-- One past the last frame that the region touches. -/
def stopTouched (r : Region) : Nat := pagesUp r.stop

end Region

/-- A boot memory map. -/
abbrev MemoryMap := List Region

namespace MemoryMap

/-- Where usable memory ends. -/
def top (map : MemoryMap) : Nat :=
  ((map.filter Region.isUsable).map Region.stop).foldl max 0

/-- Frames below the end of usable memory. -/
def frames (map : MemoryMap) : Nat := pagesUp map.top

end MemoryMap

/-! ## 2. The pool -/

/-- The frames of physical memory and which of them are taken. -/
structure FramePool where
  /-- Frames that the pool tracks, those numbered below `total`. -/
  total : Nat
  /-- How many of them are free. -/
  free : Nat
  /-- Where the next search starts. -/
  cursor : Nat
  bitmap : FrameBitmap
  deriving DecidableEq

/-- How many frames there are, free and used. -/
structure FrameStats where
  total : Nat
  free : Nat
  used : Nat
  deriving DecidableEq, Repr

namespace FramePool

/-- The bitmap with the frames inside a usable region free. -/
def releaseRegion (total : Nat) (b : FrameBitmap) (r : Region) : FrameBitmap :=
  b.releaseRange r.firstInside (min r.stopInside total - r.firstInside)

/-- The bitmap with the frames that a reserved region touches used. -/
def reserveRegion (total : Nat) (b : FrameBitmap) (r : Region) : FrameBitmap :=
  b.markRange r.firstTouched (min r.stopTouched total - r.firstTouched)

/-- The pool of a memory map.  Usable regions are released first and all others taken back
afterwards, so that an overlap is used. -/
def ofMap (map : MemoryMap) : FramePool :=
  let total := min map.frames maxFrames
  let released := (map.filter Region.isUsable).foldl (releaseRegion total) .full
  let bitmap := (map.filter fun r => !r.isUsable).foldl (reserveRegion total) released
  { total, free := bitmap.countFree total, cursor := 0, bitmap }

/-- What setting up the pool of a memory map reports. -/
def bootRecords (map : MemoryMap) : List Record :=
  let pool := ofMap map
  let tracked : Record := ⟨.debug, .frames,
    "Frame allocator tracks " ++ toString pool.total ++ " frames, " ++ toString pool.free ++
      " free"⟩
  if maxFrames < map.frames then
    [⟨.warn, .frames, "Ignoring " ++ toString (map.frames - maxFrames) ++
      " frames above the tracked physical limit"⟩, tracked]
  else [tracked]

/-- Is the frame taken?  A frame that the pool does not track counts as taken. -/
def isUsed (p : FramePool) (frame : Nat) : Bool := p.total ≤ frame || p.bitmap.isUsed frame

/-- Number of taken frames. -/
def used (p : FramePool) : Nat := p.total - p.free

/-- The counts of the pool. -/
def stats (p : FramePool) : FrameStats := ⟨p.total, p.free, p.used⟩

/-- The position that follows, back at the start past the last frame. -/
def wrap (total position : Nat) : Nat := if total ≤ position then 0 else position

/-- The first free frame from `position` on, going round, among the next `left` ones.  A full word
is passed over at once; the bits of the last word beyond `total` do not count as seen. -/
def search (b : FrameBitmap) (total position left : Nat) : Option Nat :=
  if left = 0 ∨ total ≤ position then none
  else if b.wordOf position = fullWord then
    let skip := min (wordBits - position % wordBits) (total - position)
    search b total (wrap total (position + skip)) (left - skip)
  else if b.isUsed position then search b total (wrap total (position + 1)) (left - 1)
  else some position
termination_by left
decreasing_by
  · have : position % wordBits < wordBits := Nat.mod_lt _ (by decide)
    omega
  · omega

/-- Hands out the next free frame. -/
def allocate (p : FramePool) : Except FrameError (Nat × FramePool) :=
  if p.free = 0 then .error .outOfMemory
  else match search p.bitmap p.total p.cursor p.total with
    | none => .error .outOfMemory
    | some frame => .ok (frame, { p with
        free := p.free - 1
        cursor := wrap p.total (frame + 1)
        bitmap := p.bitmap.mark frame })

/-- Takes a frame back. -/
def release (p : FramePool) (frame : Nat) : Except FrameError FramePool :=
  if p.total ≤ frame then .error (.outOfRange frame)
  else if p.bitmap.isUsed frame then
    .ok { p with free := p.free + 1, bitmap := p.bitmap.release frame }
  else .error (.doubleFree frame)

/-- Takes a frame back that must be the caller's; any error stops the machine. -/
def mustRelease (p : FramePool) (frame : Nat) : Except Halt FramePool :=
  match p.release frame with
  | .ok p => .ok p
  | .error e => do throw (.fatal (← e.message))

/-- The free frames as runs of consecutive numbers, first frame and length. -/
def freeRuns (p : FramePool) : List (Nat × Nat) :=
  (List.range p.total).foldr (fun frame runs =>
    if p.isUsed frame then runs
    else match runs with
      | (first, length) :: rest =>
        if first = frame + 1 then (frame, length + 1) :: rest
        else (frame, 1) :: (first, length) :: rest
      | [] => [(frame, 1)]) []

end FramePool

end KernelCore
