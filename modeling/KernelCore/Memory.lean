/-
# Byte memory

A memory is a sparse map from addresses to bytes in which everything starts out as zero.  It is
kept as pages of 4096 bytes, each a map from offsets to bytes, so that a whole page is cleared in
one step.  The view is `byte m a`; every operation is described by what it does to that view:

* `byte_setByte`, `byte_write`: a write changes the bytes of its range and no other;
* `byte_clearPage`: clearing a page changes the bytes of that page and no other;
* `word_setWord_self`, `word_setWord_of_disjoint`: a 64-bit word is eight bytes, the least
  significant first, and words that do not overlap are independent.
-/
import Std.Data.TreeMap

namespace KernelCore

-- In the model a power of numbers is the core library's, also where Mathlib is there: an exponent that is a
-- literal is given its type, so that no default instance decides.
attribute [scoped instance (high)] instPowNat

/-- Bytes per page, and per physical frame. -/
def pageSize : Nat := 4096

/-- The bytes of one page that were ever written, by offset. -/
abbrev PageBytes := Std.TreeMap Nat UInt8

/-- The pages that were ever written, by address / `pageSize`. -/
structure Memory where
  pages : Std.TreeMap Nat PageBytes

namespace Memory

/-! ## 1. Bytes -/

/-- A memory of zeros. -/
def zero : Memory := ⟨∅⟩

/-- The bytes of a page. -/
def page (m : Memory) (n : Nat) : PageBytes := m.pages.getD n ∅

/-- The byte at an address. -/
def byte (m : Memory) (a : Nat) : UInt8 := (m.page (a / pageSize)).getD (a % pageSize) 0

/-- The memory with one byte replaced. -/
def setByte (m : Memory) (a : Nat) (v : UInt8) : Memory :=
  ⟨m.pages.insert (a / pageSize) ((m.page (a / pageSize)).insert (a % pageSize) v)⟩

/-- The memory with all bytes of page `n` zero. -/
def clearPage (m : Memory) (n : Nat) : Memory := ⟨m.pages.erase n⟩

@[simp] theorem byte_zero (a : Nat) : zero.byte a = 0 := by
  simp [zero, byte, page]

theorem byte_setByte (m : Memory) (a b : Nat) (v : UInt8) :
    (m.setByte a v).byte b = if a = b then v else m.byte b := by
  simp only [byte, setByte, page, Std.TreeMap.getD_insert, Nat.compare_eq_eq]
  by_cases hp : a / pageSize = b / pageSize
  · simp only [hp, if_true, Std.TreeMap.getD_insert, Nat.compare_eq_eq]
    by_cases ho : a % pageSize = b % pageSize
    · have hab : a = b := by
        rw [← Nat.div_add_mod a pageSize, ← Nat.div_add_mod b pageSize, hp, ho]
      simp [hab]
    · have hab : a ≠ b := fun h => ho (by rw [h])
      simp [ho, hab]
  · have hab : a ≠ b := fun h => hp (by rw [h])
    simp [hp, hab]

theorem byte_clearPage (m : Memory) (n a : Nat) :
    (m.clearPage n).byte a = if a / pageSize = n then 0 else m.byte a := by
  simp only [byte, clearPage, page, Std.TreeMap.getD_erase, Nat.compare_eq_eq]
  by_cases h : n = a / pageSize
  · simp [h]
  · simp [h, Ne.symm h]

/-! ## 2. Runs of bytes -/

/-- The `n` bytes from `a` on. -/
def read (m : Memory) (a n : Nat) : List UInt8 := (List.range n).map fun i => m.byte (a + i)

/-- The memory with a run of bytes stored from `a` on. -/
def write (m : Memory) (a : Nat) : List UInt8 → Memory
  | [] => m
  | v :: vs => (m.setByte a v).write (a + 1) vs

/-- The memory with `n` copies of one byte stored from `a` on. -/
def fill (m : Memory) (a n : Nat) (v : UInt8) : Memory := m.write a (List.replicate n v)

@[simp] theorem length_read (m : Memory) (a n : Nat) : (m.read a n).length = n := by
  simp [read]

theorem byte_write (vs : List UInt8) (m : Memory) (a b : Nat) :
    (m.write a vs).byte b = if a ≤ b ∧ b < a + vs.length then vs.getD (b - a) 0 else m.byte b := by
  induction vs generalizing m a with
  | nil => simp only [write, List.length_nil]; rw [if_neg (by omega)]
  | cons v vs ih =>
    simp only [write, ih, byte_setByte, List.length_cons]
    by_cases hab : a = b
    · subst hab; rw [if_neg (by omega), if_pos rfl, if_pos (by omega)]; simp
    · by_cases hin : a + 1 ≤ b ∧ b < a + 1 + vs.length
      · rw [if_pos hin, if_pos (by omega), show b - a = b - (a + 1) + 1 by omega]; simp
      · rw [if_neg hin, if_neg hab, if_neg (by omega)]

theorem byte_write_of_outside (m : Memory) (a b : Nat) (vs : List UInt8)
    (h : b < a ∨ a + vs.length ≤ b) : (m.write a vs).byte b = m.byte b := by
  rw [byte_write, if_neg (by omega)]

theorem byte_fill_of_outside (m : Memory) (a b n : Nat) (v : UInt8) (h : b < a ∨ a + n ≤ b) :
    (m.fill a n v).byte b = m.byte b :=
  byte_write_of_outside m a b _ (by simpa using h)

theorem byte_fill_of_inside (m : Memory) (a b n : Nat) (v : UInt8) (h : a ≤ b ∧ b < a + n) :
    (m.fill a n v).byte b = v := by
  rw [fill, byte_write, List.length_replicate, if_pos h,
    List.getD_eq_getElem?_getD, List.getElem?_replicate_of_lt (by omega), Option.getD_some]

theorem read_write_self (m : Memory) (a : Nat) (vs : List UInt8) :
    (m.write a vs).read a vs.length = vs := by
  apply List.ext_getElem (by simp)
  intro i h₁ h₂
  simp [read, byte_write, h₂]

/-- Reading a range that a write does not meet. -/
theorem read_write_of_disjoint (m : Memory) (a b n : Nat) (vs : List UInt8)
    (h : a + vs.length ≤ b ∨ b + n ≤ a) : (m.write a vs).read b n = m.read b n := by
  apply List.map_congr_left
  intro i hi
  have hi := List.mem_range.mp hi
  rw [byte_write, if_neg (by omega)]

/-! ## 3. Words -/

/-- The number whose base-256 digits are the given bytes, the least significant first. -/
def natOfBytes : List UInt8 → Nat
  | [] => 0
  | b :: bs => b.toNat + 256 * natOfBytes bs

/-- The `n` lowest base-256 digits of a number, the least significant first. -/
def bytesOfNat : Nat → Nat → List UInt8
  | 0, _ => []
  | n + 1, w => UInt8.ofNat w :: bytesOfNat n (w / 256)

@[simp] theorem length_bytesOfNat (n w : Nat) : (bytesOfNat n w).length = n := by
  induction n generalizing w with
  | zero => rfl
  | succ n ih => simp [bytesOfNat, ih]

/-- `n` bytes hold a number below `256 ^ n` without loss. -/
theorem natOfBytes_bytesOfNat (n w : Nat) : natOfBytes (bytesOfNat n w) = w % 256 ^ n := by
  induction n generalizing w with
  | zero => simp [bytesOfNat, natOfBytes, Nat.mod_one]
  | succ n ih =>
    have hb : (UInt8.ofNat w).toNat = w % 256 := UInt8.toNat_ofNat'
    rw [bytesOfNat, natOfBytes, ih, hb, Nat.pow_succ', Nat.mod_mul]

/-- The 64-bit word at `a`. -/
def word (m : Memory) (a : Nat) : UInt64 := UInt64.ofNat (natOfBytes (m.read a 8))

/-- The memory with the word at `a` replaced. -/
def setWord (m : Memory) (a : Nat) (w : UInt64) : Memory := m.write a (bytesOfNat 8 w.toNat)

/-- A word is its eight bytes. -/
theorem word_congr {m m' : Memory} {a : Nat} (h : ∀ i < 8, m'.byte (a + i) = m.byte (a + i)) :
    m'.word a = m.word a := by
  rw [word, word, show m'.read a 8 = m.read a 8 from
    List.map_congr_left fun i hi => h i (List.mem_range.mp hi)]

@[simp] theorem word_setWord_self (m : Memory) (a : Nat) (w : UInt64) :
    (m.setWord a w).word a = w := by
  have h := read_write_self m a (bytesOfNat 8 w.toNat)
  rw [length_bytesOfNat] at h
  rw [word, setWord, h, natOfBytes_bytesOfNat]
  have hw := w.toNat_lt
  rw [Nat.mod_eq_of_lt (by omega), UInt64.ofNat_toNat]

theorem word_setWord_of_disjoint (m : Memory) (a b : Nat) (w : UInt64)
    (h : a + 8 ≤ b ∨ b + 8 ≤ a) : (m.setWord a w).word b = m.word b := by
  rw [word, setWord, read_write_of_disjoint _ _ _ _ _ (by simpa using h), word]

theorem byte_setWord_of_outside (m : Memory) (a b : Nat) (w : UInt64)
    (h : b < a ∨ a + 8 ≤ b) : (m.setWord a w).byte b = m.byte b := by
  rw [setWord, byte_write, length_bytesOfNat, if_neg (by omega)]

end Memory

end KernelCore
