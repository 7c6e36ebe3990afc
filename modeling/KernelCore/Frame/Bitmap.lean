/-
# The frame bitmap

One bit per frame, in words of 64: a set bit is a used frame.  The bitmap has room for
`maxFrames` frames and none beyond; a number beyond it reads as used and cannot be changed.

* `isUsed_mark`, `isUsed_release`: each update changes the bit of one frame and no other;
* `isUsed_markRange`, `isUsed_releaseRange`: the same for a range of frames;
* `isUsed_of_word_full`: a full word holds used frames only, which is what lets a search skip it.
-/
import KernelCore.Frame.Basic

namespace KernelCore

/-- Frames above this number of bytes of physical memory are never handed out. -/
def maxPhysicalMemory : Nat := 512 * 1024 * 1024

/-- Frames the bitmap has room for. -/
def maxFrames : Nat := maxPhysicalMemory / pageSize

/-- Bits per word of the bitmap. -/
def wordBits : Nat := 64

/-- Words of the bitmap. -/
def bitmapWords : Nat := maxFrames / wordBits

/-- A word all of whose frames are used. -/
def fullWord : UInt64 := 0xFFFFFFFFFFFFFFFF

/-- One bit per frame; a set bit is a used frame. -/
structure FrameBitmap where
  words : Vector UInt64 bitmapWords
  deriving DecidableEq

namespace FrameBitmap

/-- The bitmap in which every frame is used. -/
def full : FrameBitmap := ⟨Vector.replicate bitmapWords fullWord⟩

/-- The word that holds the bit of a frame; past the end, a full word. -/
def wordOf (b : FrameBitmap) (frame : Nat) : UInt64 := b.words[frame / wordBits]?.getD fullWord

/-- The word in which only the bit of the frame is set. -/
def bitOf (frame : Nat) : UInt64 := 1 <<< UInt64.ofNat (frame % wordBits)

/-- Is the frame used? -/
def isUsed (b : FrameBitmap) (frame : Nat) : Bool := b.wordOf frame &&& bitOf frame != 0

/-- The bitmap with the word of a frame replaced; past the end, nothing changes. -/
def setWordOf (b : FrameBitmap) (frame : Nat) (w : UInt64) : FrameBitmap :=
  ⟨b.words.setIfInBounds (frame / wordBits) w⟩

/-- The bitmap with the frame used. -/
def mark (b : FrameBitmap) (frame : Nat) : FrameBitmap :=
  b.setWordOf frame (b.wordOf frame ||| bitOf frame)

/-- The bitmap with the frame free. -/
def release (b : FrameBitmap) (frame : Nat) : FrameBitmap :=
  b.setWordOf frame (b.wordOf frame &&& ~~~bitOf frame)

/-- The bitmap with the `n` frames from `frame` on used. -/
def markRange (b : FrameBitmap) (frame : Nat) : Nat → FrameBitmap
  | 0 => b
  | n + 1 => (b.mark frame).markRange (frame + 1) n

/-- The bitmap with the `n` frames from `frame` on free. -/
def releaseRange (b : FrameBitmap) (frame : Nat) : Nat → FrameBitmap
  | 0 => b
  | n + 1 => (b.release frame).releaseRange (frame + 1) n

/-- How many frames below `total` are free. -/
def countFree (b : FrameBitmap) (total : Nat) : Nat :=
  (List.range total).countP fun frame => !b.isUsed frame

/-! ## 2. What the updates do to each frame -/

/-- The bit of a frame, as a bit vector. -/
theorem toBitVec_bitOf (frame : Nat) :
    (bitOf frame).toBitVec = BitVec.twoPow 64 (frame % wordBits) := by
  have h : frame % 64 < 64 := Nat.mod_lt _ (by decide)
  apply BitVec.eq_of_toNat_eq
  rw [UInt64.toNat_toBitVec, bitOf, UInt64.toNat_shiftLeft, BitVec.toNat_twoPow, wordBits,
    UInt64.toNat_ofNat', Nat.mod_eq_of_lt (show frame % 64 < 2 ^ 64 by omega), Nat.mod_eq_of_lt h]
  simp [Nat.shiftLeft_eq]

/-- A frame is used when its bit of its word is set. -/
theorem isUsed_eq (b : FrameBitmap) (frame : Nat) :
    b.isUsed frame = (b.wordOf frame).toBitVec.getLsbD (frame % wordBits) := by
  have h : frame % 64 < 64 := Nat.mod_lt _ (by decide)
  have hz : BitVec.twoPow 64 (frame % wordBits) ≠ 0#64 := fun e => by
    have := congrArg (·.getLsbD (frame % wordBits)) e
    simp [wordBits, h] at this
  have key : (b.wordOf frame &&& bitOf frame = 0) ↔
      (b.wordOf frame).toBitVec.getLsbD (frame % wordBits) = false := by
    rw [← UInt64.toBitVec_inj, UInt64.toBitVec_and, toBitVec_bitOf, BitVec.and_twoPow]
    split <;> simp_all
  cases hb : (b.wordOf frame).toBitVec.getLsbD (frame % wordBits) with
  | false => simp [isUsed, key.mpr hb]
  | true =>
    have hne : b.wordOf frame &&& bitOf frame ≠ 0 := fun e => by simp [key.mp e] at hb
    simpa [isUsed] using hne

theorem wordOf_setWordOf (b : FrameBitmap) (frame frame' : Nat) (w : UInt64)
    (h : frame < maxFrames) : (b.setWordOf frame w).wordOf frame' =
      if frame / wordBits = frame' / wordBits then w else b.wordOf frame' := by
  have hw : frame / wordBits < bitmapWords := by
    have : frame < 131072 := h
    show frame / 64 < 2048
    omega
  rw [wordOf, setWordOf, Vector.getElem?_setIfInBounds]
  by_cases hd : frame / wordBits = frame' / wordBits
  · rw [if_pos hd, if_pos hd, if_pos hw, Option.getD_some]
  · rw [if_neg hd, if_neg hd, wordOf]

theorem isUsed_mark (b : FrameBitmap) (frame frame' : Nat) (h : frame < maxFrames) :
    (b.mark frame).isUsed frame' = (decide (frame = frame') || b.isUsed frame') := by
  have hlt : frame % 64 < 64 := Nat.mod_lt _ (by decide)
  rw [isUsed_eq, isUsed_eq, mark, wordOf_setWordOf b frame frame' _ h]
  by_cases hd : frame / wordBits = frame' / wordBits
  · have hw : b.wordOf frame = b.wordOf frame' := by rw [wordOf, wordOf, hd]
    have hm : (frame % wordBits = frame' % wordBits) ↔ frame = frame' := by
      simp only [wordBits] at hd ⊢; omega
    rw [if_pos hd, UInt64.toBitVec_or, BitVec.getLsbD_or, toBitVec_bitOf, BitVec.getLsbD_twoPow,
      hw, Bool.or_comm]
    simp [hm, show frame % wordBits < 64 from hlt]
  · have hne : frame ≠ frame' := fun e => hd (by rw [e])
    simp [hd, hne]

theorem isUsed_release (b : FrameBitmap) (frame frame' : Nat) (h : frame < maxFrames) :
    (b.release frame).isUsed frame' = (!decide (frame = frame') && b.isUsed frame') := by
  have hlt : frame' % 64 < 64 := Nat.mod_lt _ (by decide)
  rw [isUsed_eq, isUsed_eq, release, wordOf_setWordOf b frame frame' _ h]
  by_cases hd : frame / wordBits = frame' / wordBits
  · have hw : b.wordOf frame = b.wordOf frame' := by rw [wordOf, wordOf, hd]
    have hm : (frame % wordBits = frame' % wordBits) ↔ frame = frame' := by
      simp only [wordBits] at hd ⊢; omega
    have hlt' : frame % wordBits < 64 := Nat.mod_lt _ (by decide)
    rw [if_pos hd, UInt64.toBitVec_and, BitVec.getLsbD_and, UInt64.toBitVec_not,
      BitVec.getLsbD_not, toBitVec_bitOf, BitVec.getLsbD_twoPow, hw, Bool.and_comm]
    simp [hm, hlt', show frame' % wordBits < 64 from hlt]
  · have hne : frame ≠ frame' := fun e => hd (by rw [e])
    simp [hd, hne]

/-- Marking a range makes exactly its frames used. -/
theorem isUsed_markRange (n : Nat) (b : FrameBitmap) (frame frame' : Nat)
    (h : frame + n ≤ maxFrames) : (b.markRange frame n).isUsed frame' =
      (decide (frame ≤ frame' ∧ frame' < frame + n) || b.isUsed frame') := by
  induction n generalizing b frame with
  | zero => simp only [markRange]; rw [decide_eq_false (by omega), Bool.false_or]
  | succ n ih =>
    rw [markRange, ih _ _ (by omega), isUsed_mark b frame frame' (by omega), ← Bool.or_assoc,
      ← Bool.decide_or]
    congr 2
    apply propext
    omega

/-- Releasing a range makes exactly its frames free. -/
theorem isUsed_releaseRange (n : Nat) (b : FrameBitmap) (frame frame' : Nat)
    (h : frame + n ≤ maxFrames) : (b.releaseRange frame n).isUsed frame' =
      (!decide (frame ≤ frame' ∧ frame' < frame + n) && b.isUsed frame') := by
  induction n generalizing b frame with
  | zero => simp only [releaseRange]; rw [decide_eq_false (by omega), Bool.not_false, Bool.true_and]
  | succ n ih =>
    rw [releaseRange, ih _ _ (by omega), isUsed_release b frame frame' (by omega), ← Bool.and_assoc,
      ← Bool.not_or, ← Bool.decide_or]
    congr 3
    apply propext
    omega

/-- A full word holds used frames only. -/
theorem isUsed_of_word_full (b : FrameBitmap) (frame : Nat) (h : b.wordOf frame = fullWord) :
    b.isUsed frame = true := by
  have hlt : frame % wordBits < 64 := Nat.mod_lt _ (by decide)
  have hf : fullWord.toBitVec = BitVec.allOnes 64 := by decide
  rw [isUsed_eq, h, hf, BitVec.getLsbD_allOnes, decide_eq_true hlt]

@[simp] theorem isUsed_full (frame : Nat) : full.isUsed frame = true := by
  apply isUsed_of_word_full
  rw [wordOf, full, Vector.getElem?_replicate]
  split <;> rfl

end FrameBitmap

end KernelCore
