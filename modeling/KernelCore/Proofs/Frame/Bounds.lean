/-
# Every word that the pool looks at is there

The bitmap reads as full where it has no words, and a change there is none.  That is a convenience, and
nothing rests on it: the same operations with every access checked, which come to nothing at the first
word that is not there and at the first position that the pool does not track, come to the same result.

* `FrameBitmap.word?`, `FrameBitmap.setWord?`: the two checked accesses;
* `search?_eq`: a search visits tracked positions only;
* `ofMap?_eq`, `allocate?_eq`, `release?_eq`: so no operation of the pool misses a word.
-/
import KernelCore.Proofs.Frame.Ledger

namespace KernelCore

/-! ## 1. Checked accesses -/

namespace FrameBitmap

variable {b : FrameBitmap} {frame n total : Nat}

/-- The word that holds the bit of a frame, if there is one. -/
def word? (b : FrameBitmap) (frame : Nat) : Option UInt64 := b.words[frame / wordBits]?

/-- The bitmap with the word of a frame replaced, if there is one. -/
def setWord? (b : FrameBitmap) (frame : Nat) (w : UInt64) : Option FrameBitmap :=
  if h : frame / wordBits < bitmapWords then some ⟨b.words.set (frame / wordBits) w h⟩ else none

/-- Is the frame used? -/
def isUsed? (b : FrameBitmap) (frame : Nat) : Option Bool :=
  (b.word? frame).map fun w => w &&& bitOf frame != 0

/-- The bitmap with the frame used. -/
def mark? (b : FrameBitmap) (frame : Nat) : Option FrameBitmap :=
  (b.word? frame).bind fun w => b.setWord? frame (w ||| bitOf frame)

/-- The bitmap with the frame free. -/
def release? (b : FrameBitmap) (frame : Nat) : Option FrameBitmap :=
  (b.word? frame).bind fun w => b.setWord? frame (w &&& ~~~bitOf frame)

/-- The bitmap with `n` frames changed, one after the other. -/
def changeRange? (change : FrameBitmap → Nat → Option FrameBitmap) (b : FrameBitmap) (frame : Nat) :
    Nat → Option FrameBitmap
  | 0 => some b
  | n + 1 => (change b frame).bind fun b => b.changeRange? change (frame + 1) n

/-- How many frames below a number are free. -/
def countFree? (b : FrameBitmap) : Nat → Option Nat
  | 0 => some 0
  | frame + 1 => (b.countFree? frame).bind fun n =>
    (b.isUsed? frame).map fun used => if used then n else n + 1

theorem index_lt_bitmapWords (h : frame < maxFrames) : frame / wordBits < bitmapWords := by
  have : frame < 131072 := h
  show frame / 64 < 2048
  omega

theorem word?_eq (h : frame < maxFrames) : b.word? frame = some (b.wordOf frame) := by
  unfold word? wordOf
  rw [Vector.getElem?_eq_getElem (index_lt_bitmapWords h), Option.getD_some]

theorem setWord?_eq (h : frame < maxFrames) (w : UInt64) :
    b.setWord? frame w = some (b.setWordOf frame w) := by
  unfold setWord? setWordOf
  rw [dif_pos (index_lt_bitmapWords h)]
  refine congrArg some (congrArg mk (Vector.ext fun i hi => ?_))
  rw [Vector.getElem_set, Vector.getElem_setIfInBounds hi]

theorem isUsed?_eq (h : frame < maxFrames) : b.isUsed? frame = some (b.isUsed frame) := by
  unfold isUsed? isUsed
  rw [word?_eq h, Option.map_some]

theorem mark?_eq (h : frame < maxFrames) : b.mark? frame = some (b.mark frame) := by
  unfold mark? mark
  rw [word?_eq h, Option.bind_some, setWord?_eq h]

theorem release?_eq (h : frame < maxFrames) : b.release? frame = some (b.release frame) := by
  unfold release? release
  rw [word?_eq h, Option.bind_some, setWord?_eq h]

theorem markRange?_eq (h : n = 0 ∨ frame + n ≤ maxFrames) :
    b.changeRange? mark? frame n = some (b.markRange frame n) := by
  induction n generalizing b frame with
  | zero => rfl
  | succ n ih =>
    rw [changeRange?, mark?_eq (by omega), Option.bind_some, ih (by omega), markRange]

theorem releaseRange?_eq (h : n = 0 ∨ frame + n ≤ maxFrames) :
    b.changeRange? release? frame n = some (b.releaseRange frame n) := by
  induction n generalizing b frame with
  | zero => rfl
  | succ n ih =>
    rw [changeRange?, release?_eq (by omega), Option.bind_some, ih (by omega), releaseRange]

theorem countFree?_eq (h : total ≤ maxFrames) : b.countFree? total = some (b.countFree total) := by
  induction total with
  | zero => rfl
  | succ frame ih =>
    rw [countFree?, ih (Nat.le_of_succ_le h), Option.bind_some, isUsed?_eq h, Option.map_some,
      countFree, countFree, List.range_succ, List.countP_append, List.countP_singleton]
    cases b.isUsed frame <;> rfl

end FrameBitmap

/-! ## 2. The pool with its accesses checked -/

namespace FramePool

variable {b : FrameBitmap} {pool : FramePool} {total position left frame : Nat}

/-- The bitmap with the frames inside a usable region free. -/
def releaseRegion? (total : Nat) (b : FrameBitmap) (r : Region) : Option FrameBitmap :=
  b.changeRange? FrameBitmap.release? r.firstInside (min r.stopInside total - r.firstInside)

/-- The bitmap with the frames that a reserved region touches used. -/
def reserveRegion? (total : Nat) (b : FrameBitmap) (r : Region) : Option FrameBitmap :=
  b.changeRange? FrameBitmap.mark? r.firstTouched (min r.stopTouched total - r.firstTouched)

/-- The pool of a memory map. -/
def ofMap? (map : MemoryMap) : Option FramePool :=
  let total := min map.frames maxFrames
  ((map.filter Region.isUsable).foldlM (releaseRegion? total) .full).bind fun released =>
    ((map.filter fun r => !r.isUsable).foldlM (reserveRegion? total) released).bind fun bitmap =>
      (bitmap.countFree? total).map fun free => { total, free, cursor := 0, bitmap }

/-- The first free frame from a position on. -/
def search? (b : FrameBitmap) (total position left : Nat) : Option (Option Nat) :=
  if left = 0 then some none
  else if total ≤ position then none
  else match b.word? position with
    | none => none
    | some w =>
      if w = fullWord then
        let skip := min (wordBits - position % wordBits) (total - position)
        search? b total (wrap total (position + skip)) (left - skip)
      else if w &&& FrameBitmap.bitOf position != 0 then
        search? b total (wrap total (position + 1)) (left - 1)
      else some (some position)
termination_by left
decreasing_by
  · have : position % wordBits < wordBits := Nat.mod_lt _ (by decide)
    omega
  · omega

/-- Hands out the next free frame. -/
def allocate? (p : FramePool) : Option (Except FrameError (Nat × FramePool)) :=
  if p.free = 0 then some (.error .outOfMemory)
  else (search? p.bitmap p.total p.cursor p.total).bind fun
    | none => some (.error .outOfMemory)
    | some frame => (p.bitmap.mark? frame).map fun bitmap => .ok (frame,
      { p with free := p.free - 1, cursor := wrap p.total (frame + 1), bitmap })

/-- Takes a frame back. -/
def release? (p : FramePool) (frame : Nat) : Option (Except FrameError FramePool) :=
  if p.total ≤ frame then some (.error (.outOfRange frame))
  else (p.bitmap.isUsed? frame).bind fun used =>
    if used then
      (p.bitmap.release? frame).map fun bitmap => .ok { p with free := p.free + 1, bitmap }
    else some (.error (.doubleFree frame))

theorem releaseRegion?_eq (h : total ≤ maxFrames) (b : FrameBitmap) (r : Region) :
    releaseRegion? total b r = some (releaseRegion total b r) :=
  FrameBitmap.releaseRange?_eq (by omega)

theorem reserveRegion?_eq (h : total ≤ maxFrames) (b : FrameBitmap) (r : Region) :
    reserveRegion? total b r = some (reserveRegion total b r) :=
  FrameBitmap.markRange?_eq (by omega)

/-- A fold of steps none of which fails. -/
theorem foldlM_eq_some {α β : Type} {f? : α → β → Option α} {f : α → β → α}
    (h : ∀ a x, f? a x = some (f a x)) : ∀ (l : List β) (a : α), l.foldlM f? a = some (l.foldl f a)
  | [], _ => rfl
  | x :: l, a => by
    rw [List.foldlM_cons, h]
    exact foldlM_eq_some h l (f a x)

/-- **Setting up a pool** misses no word. -/
theorem ofMap?_eq (map : MemoryMap) : ofMap? map = some (ofMap map) := by
  have ht : min map.frames maxFrames ≤ maxFrames := Nat.min_le_right _ _
  unfold ofMap? ofMap
  dsimp only
  rw [foldlM_eq_some (releaseRegion?_eq ht), Option.bind_some,
    foldlM_eq_some (reserveRegion?_eq ht), Option.bind_some, FrameBitmap.countFree?_eq ht,
    Option.map_some]

theorem wrap_lt (h : 0 < total) (position : Nat) : wrap total position < total := by
  unfold wrap
  split
  · exact h
  · next hlt => exact Nat.lt_of_not_le hlt

/-- One step of a search at a tracked position. -/
theorem search?_of_lt (ht : total ≤ maxFrames) (hleft : left ≠ 0) (hpos : position < total) :
    search? b total position left =
      if b.wordOf position = fullWord then
        let skip := min (wordBits - position % wordBits) (total - position)
        search? b total (wrap total (position + skip)) (left - skip)
      else if b.isUsed position then search? b total (wrap total (position + 1)) (left - 1)
      else some (some position) := by
  conv_lhs => unfold search?
  rw [if_neg hleft, if_neg (Nat.not_le_of_lt hpos), FrameBitmap.word?_eq (Nat.lt_of_lt_of_le hpos ht)]
  rfl

/-- **A search** that begins at a tracked position visits no other. -/
theorem search?_eq (ht : total ≤ maxFrames) (h : left = 0 ∨ position < total) :
    search? b total position left = some (search b total position left) := by
  fun_induction search b total position left with
  | case1 position left hend =>
    unfold search?
    rw [if_pos (by omega)]
  | case2 position left hgo hfull skip ih =>
    rw [search?_of_lt ht (by omega) (by omega), if_pos hfull]
    exact ih (Or.inr (wrap_lt (by omega) _))
  | case3 position left hgo hfull hused ih =>
    rw [search?_of_lt ht (by omega) (by omega), if_neg hfull, if_pos hused]
    exact ih (Or.inr (wrap_lt (by omega) _))
  | case4 position left hgo hfull hfree =>
    rw [search?_of_lt ht (by omega) (by omega), if_neg hfull, if_neg hfree]

/-- **Handing out a frame** misses no word, from a cursor at a tracked position. -/
theorem allocate?_eq (ht : pool.total ≤ maxFrames) (h : pool.total = 0 ∨ pool.cursor < pool.total) :
    pool.allocate? = some pool.allocate := by
  unfold allocate? allocate
  split
  · rfl
  · rw [search?_eq ht h, Option.bind_some]
    cases hs : search pool.bitmap pool.total pool.cursor pool.total with
    | none => rfl
    | some frame =>
      have hlt := Nat.lt_of_lt_of_le (of_search hs).1 ht
      dsimp only
      rw [FrameBitmap.mark?_eq hlt, Option.map_some]

/-- **Taking back a frame** misses no word, whatever number is given. -/
theorem release?_eq (ht : pool.total ≤ maxFrames) (frame : Nat) :
    pool.release? frame = some (pool.release frame) := by
  unfold release? release
  split
  · rfl
  · next hlt =>
    have hlt : frame < maxFrames := by omega
    rw [FrameBitmap.isUsed?_eq hlt, Option.bind_some]
    split
    · rw [FrameBitmap.release?_eq hlt, Option.map_some]
    · rfl

end FramePool

end KernelCore
