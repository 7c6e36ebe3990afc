/-
# Page-table entries

A page table is one frame of 512 entries, 64 bits each.  An entry holds a frame number in bits 12
to 51 and attributes in the other twenty-four.  `Entry.ofWord` and `Entry.toWord` take the word
apart and put it together again; they are inverse to each other (`Entry.ofWord_toWord`,
`Entry.toWord_ofWord`), so an entry *is* its word.
-/
import KernelCore.Memory

namespace KernelCore

/-! ## 1. The three parts of a word -/

/-- The lower attribute bits of an entry. -/
def lowBits (w : UInt64) : BitVec 12 := w.toBitVec.extractLsb' 0 12

/-- The frame number of an entry. -/
def frameBits (w : UInt64) : BitVec 40 := w.toBitVec.extractLsb' 12 40

/-- The upper attribute bits of an entry. -/
def highBits (w : UInt64) : BitVec 12 := w.toBitVec.extractLsb' 52 12

/-- The word of three parts. -/
def packBits (high : BitVec 12) (frame : BitVec 40) (low : BitVec 12) : UInt64 :=
  ⟨high ++ (frame ++ low)⟩

@[simp] theorem lowBits_packBits (high : BitVec 12) (frame : BitVec 40) (low : BitVec 12) :
    lowBits (packBits high frame low) = low := by
  apply BitVec.eq_of_getLsbD_eq
  intro i hi
  rw [lowBits, packBits, BitVec.getLsbD_extractLsb', BitVec.getLsbD_append, if_pos (by omega),
    BitVec.getLsbD_append, if_pos (by omega)]
  simp [hi]

@[simp] theorem frameBits_packBits (high : BitVec 12) (frame : BitVec 40) (low : BitVec 12) :
    frameBits (packBits high frame low) = frame := by
  apply BitVec.eq_of_getLsbD_eq
  intro i hi
  rw [frameBits, packBits, BitVec.getLsbD_extractLsb', BitVec.getLsbD_append, if_pos (by omega),
    BitVec.getLsbD_append, if_neg (by omega)]
  simp [hi]

@[simp] theorem highBits_packBits (high : BitVec 12) (frame : BitVec 40) (low : BitVec 12) :
    highBits (packBits high frame low) = high := by
  apply BitVec.eq_of_getLsbD_eq
  intro i hi
  rw [highBits, packBits, BitVec.getLsbD_extractLsb', BitVec.getLsbD_append, if_neg (by omega)]
  simp [hi]

@[simp] theorem packBits_parts (w : UInt64) :
    packBits (highBits w) (frameBits w) (lowBits w) = w := by
  rw [← UInt64.toBitVec_inj]
  apply BitVec.eq_of_getLsbD_eq
  intro i hi
  rw [packBits, BitVec.getLsbD_append]
  split
  · rw [BitVec.getLsbD_append]
    split
    · next h => simp [lowBits, h]
    · rw [frameBits, BitVec.getLsbD_extractLsb', show 12 + (i - 12) = i by omega,
        decide_eq_true (by omega), Bool.true_and]
  · rw [highBits, BitVec.getLsbD_extractLsb', show 52 + (i - (40 + 12)) = i by omega,
      decide_eq_true (by omega), Bool.true_and]

/-! ## 2. Attributes -/

/-- The attributes of an entry: bits 0 to 11 and bits 52 to 63 of its word. -/
structure Flags where
  low : BitVec 12
  high : BitVec 12
  deriving DecidableEq

namespace Flags

/-- The attributes in a word; the frame number there does not matter. -/
def ofWord (w : UInt64) : Flags := ⟨lowBits w, highBits w⟩

/-- The attributes at their places in a word. -/
def toWord (f : Flags) : UInt64 := packBits f.high 0 f.low

/-- No attribute. -/
def none : Flags := ⟨0, 0⟩

/-- The entry is in force. -/
def present : Flags := ⟨.twoPow 12 0, 0⟩

/-- Writes are allowed. -/
def writable : Flags := ⟨.twoPow 12 1, 0⟩

/-- Not only the kernel has access. -/
def userAccessible : Flags := ⟨.twoPow 12 2, 0⟩

/-- The entry is a large mapping of its own, not a table. -/
def huge : Flags := ⟨.twoPow 12 7, 0⟩

/-- Nothing may be executed. -/
def noExecute : Flags := ⟨0, .twoPow 12 11⟩

/-- All attributes of both. -/
def union (f g : Flags) : Flags := ⟨f.low ||| g.low, f.high ||| g.high⟩

/-- The attributes that both have. -/
def inter (f g : Flags) : Flags := ⟨f.low &&& g.low, f.high &&& g.high⟩

/-- Does the first have all attributes of the second? -/
def contains (f g : Flags) : Bool := f.inter g == g

/-- Read and write, never execute, for everyone. -/
def userData : Flags := ((present.union writable).union userAccessible).union noExecute

/-- Read and write, never execute, for the kernel. -/
def kernelData : Flags := (present.union writable).union noExecute

/-- What the tables above a leaf have to allow, so that what the leaf allows takes effect. -/
def ofTables (leaf : Flags) : Flags :=
  leaf.inter ((present.union writable).union userAccessible)

@[simp] theorem ofWord_toWord (f : Flags) : ofWord f.toWord = f := by
  simp [ofWord, toWord]

example : userData.toWord = 0x8000000000000007 := by decide
example : kernelData.toWord = 0x8000000000000003 := by decide

end Flags

/-! ## 3. Entries -/

/-- A page-table entry: a frame number and attributes. -/
structure Entry where
  frame : BitVec 40
  flags : Flags
  deriving DecidableEq

namespace Entry

/-- The entry that a word stands for. -/
def ofWord (w : UInt64) : Entry := ⟨frameBits w, .ofWord w⟩

/-- The word of an entry. -/
def toWord (e : Entry) : UInt64 := packBits e.flags.high e.frame e.flags.low

/-- An entry for a frame. -/
def ofFrame (frame : Nat) (flags : Flags) : Entry := ⟨.ofNat 40 frame, flags⟩

/-- The unused entry: all zero. -/
def unused : Entry := ⟨0, .none⟩

/-- Is the entry in force? -/
def isPresent (e : Entry) : Bool := e.flags.contains .present

/-- Is the entry a large mapping? -/
def isHuge (e : Entry) : Bool := e.flags.contains .huge

/-- The physical address in the entry. -/
def address (e : Entry) : Nat := e.frame.toNat * pageSize

@[simp] theorem ofWord_toWord (e : Entry) : ofWord e.toWord = e := by
  simp [ofWord, toWord, Flags.ofWord]

@[simp] theorem toWord_ofWord (w : UInt64) : (ofWord w).toWord = w := by
  simp [ofWord, toWord, Flags.ofWord]

@[simp] theorem ofWord_zero : ofWord 0 = unused := by decide

end Entry

end KernelCore
