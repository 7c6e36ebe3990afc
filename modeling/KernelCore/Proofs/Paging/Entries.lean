/-
# What reading and writing entries comes to

A table is one frame of memory, and whatever happens elsewhere leaves it alone
(`Memory.SameFrame`).  This module says for every way in which memory changes which frames stay the
same, and what the entries of the others are; and what the attributes of an entry are good for.

A page finds its way by the indices of its number.  The pages that share a table of a level are those
that share the rest of the number, `Page.stem`:

* `Page.stem_eq_iff`: two pages share a table if they share the one above and the index in it;
* `Page.eq_of_stem_zero`: a table of the lowest level and the index in it are those of one page.
-/
import KernelCore.Paging.Vm
import Mathlib.Algebra.Group.Nat.Defs

namespace KernelCore

/-! ## 1. Frames of memory -/

namespace Memory

variable {m m' m'' : Memory} {frame table index : Nat}

/-- The frame has the same bytes in both memories. -/
def SameFrame (m m' : Memory) (frame : Nat) : Prop :=
  ∀ a, a / pageSize = frame → m'.byte a = m.byte a

theorem SameFrame.refl (m : Memory) (frame : Nat) : m.SameFrame m frame := fun _ _ => rfl

theorem SameFrame.trans (h : m.SameFrame m' frame) (h' : m'.SameFrame m'' frame) :
    m.SameFrame m'' frame := fun a ha => (h' a ha).trans (h a ha)

/-- The bytes of an entry lie in its table. -/
theorem entryAddress_div {i : Nat} (hindex : index < tableEntries) (hi : i < 8) :
    (entryAddress table index + i) / pageSize = table := by
  simp only [tableEntries] at hindex
  simp only [entryAddress, pageSize]
  omega

theorem SameFrame.entry_eq (h : m.SameFrame m' table) (hindex : index < tableEntries) :
    m'.entry table index = m.entry table index := by
  unfold entry
  rw [word_congr fun i hi => h _ (entryAddress_div hindex hi)]

/-- An entry that is written changes its own table only. -/
theorem sameFrame_setEntry (e : Entry) (hindex : index < tableEntries) (hne : frame ≠ table) :
    m.SameFrame (m.setEntry table index e) frame := by
  intro a ha
  refine byte_setWord_of_outside m _ a _ ?_
  have hfirst : (entryAddress table index + 0) / pageSize = table :=
    entryAddress_div hindex (by decide)
  have hlast : (entryAddress table index + 7) / pageSize = table :=
    entryAddress_div hindex (by decide)
  simp only [pageSize] at ha hfirst hlast
  omega

theorem sameFrame_clearPage (hne : frame ≠ table) : m.SameFrame (m.clearPage table) frame := by
  intro a ha
  rw [byte_clearPage, if_neg]
  rw [ha]
  exact hne

theorem word_zero (a : Nat) : zero.word a = 0 := by
  have hread : zero.read a 8 = List.replicate 8 0 := by
    simp [read, List.range_succ]
  rw [word, hread]
  rfl

theorem entry_zero (table index : Nat) : zero.entry table index = .unused := by
  rw [entry, word_zero, Entry.ofWord_zero]

/-- A cleared table has no entry in use. -/
theorem entry_clearPage_self (hindex : index < tableEntries) :
    (m.clearPage table).entry table index = .unused := by
  have hzero : (m.clearPage table).word (entryAddress table index) =
      zero.word (entryAddress table index) := by
    refine word_congr fun i hi => ?_
    rw [byte_clearPage, if_pos (entryAddress_div hindex hi), byte_zero]
  rw [entry, hzero, word_zero, Entry.ofWord_zero]

/-- Entries that are written one after the other into one table. -/
theorem foldl_setEntry (value : Memory → Nat → Entry) : ∀ (indices : List Nat) (m : Memory),
    (∀ i ∈ indices, i < tableEntries) →
      (∀ frame, frame ≠ table → m.SameFrame
        (indices.foldl (fun m i => m.setEntry table i (value m i)) m) frame) ∧
      ∀ j, j < tableEntries → j ∉ indices →
        (indices.foldl (fun m i => m.setEntry table i (value m i)) m).entry table j =
          m.entry table j
  | [], m, _ => ⟨fun _ _ => SameFrame.refl m _, fun _ _ _ => rfl⟩
  | i :: indices, m, hlt => by
    have hi := hlt i List.mem_cons_self
    have ⟨hframes, hentries⟩ := foldl_setEntry value indices (m.setEntry table i (value m i))
      fun j hj => hlt j (List.mem_cons_of_mem _ hj)
    refine ⟨fun frame hne => (sameFrame_setEntry _ hi hne).trans (hframes frame hne), ?_⟩
    intro j hj hnot
    rw [List.mem_cons, not_or] at hnot
    rw [List.foldl_cons, hentries j hj hnot.2,
      entry_setEntry_of_ne _ _ _ _ _ _ hi hj (Or.inr (Ne.symm hnot.1))]

theorem mem_upperIndices {i : Nat}
    (hi : i ∈ List.range' Page.upperHalfIndex (tableEntries - Page.upperHalfIndex)) :
    Page.upperHalfIndex ≤ i ∧ i < tableEntries := by
  simp only [List.mem_range'_1, Page.upperHalfIndex, tableEntries] at hi ⊢
  omega

/-- Taking over the upper half changes one table. -/
theorem sameFrame_copyUpperHalf (m : Memory) (source : Nat) (hne : frame ≠ table) :
    m.SameFrame (m.copyUpperHalf source table) frame :=
  (foldl_setEntry (fun m index => m.entry source index) _ m fun _ hi => (mem_upperIndices hi).2).1
    frame hne

/-- Taking over the upper half leaves the lower half. -/
theorem entry_copyUpperHalf_of_lt (m : Memory) (source : Nat) (hindex : index < Page.upperHalfIndex) :
    (m.copyUpperHalf source table).entry table index = m.entry table index := by
  refine (foldl_setEntry (fun m index => m.entry source index) _ m
    fun _ hi => (mem_upperIndices hi).2).2 index ?_ ?_
  · exact Nat.lt_trans hindex (by decide)
  · exact fun hi => absurd (mem_upperIndices hi).1 (Nat.not_le_of_lt hindex)

/-- Entries that are taken over one after the other from another table. -/
theorem entry_foldl_setEntry {source : Nat} (hne : source ≠ table) : ∀ (indices : List Nat) (m : Memory),
    (∀ i ∈ indices, i < tableEntries) → indices.Nodup → ∀ j ∈ indices,
      (indices.foldl (fun m i => m.setEntry table i (m.entry source i)) m).entry table j =
        m.entry source j
  | i :: indices, m, hlt, hnodup, j, hj => by
    have hi := hlt i List.mem_cons_self
    have hrest : ∀ k ∈ indices, k < tableEntries := fun k hk => hlt k (List.mem_cons_of_mem _ hk)
    have ⟨hnot, hnodup⟩ := List.nodup_cons.mp hnodup
    rw [List.foldl_cons]
    rcases List.mem_cons.mp hj with rfl | hj
    · rw [(foldl_setEntry (fun m i => m.entry source i) indices _ hrest).2 j hi hnot,
        entry_setEntry_self]
    · rw [entry_foldl_setEntry hne indices _ hrest hnodup j hj,
        (sameFrame_setEntry _ hi hne).entry_eq (hrest j hj)]

/-- **Taking over the upper half** takes over every entry of it. -/
theorem entry_copyUpperHalf_of_le (m : Memory) {source : Nat} (hne : source ≠ table)
    (hle : Page.upperHalfIndex ≤ index) (hindex : index < tableEntries) :
    (m.copyUpperHalf source table).entry table index = m.entry source index := by
  refine entry_foldl_setEntry hne _ m (fun _ hi => (mem_upperIndices hi).2) List.nodup_range' index ?_
  simp only [List.mem_range'_1, Page.upperHalfIndex, tableEntries] at hle hindex ⊢
  omega

/-- **A new root**, which is cleared first, leaves all other frames. -/
theorem sameFrame_newRoot (m : Memory) (source : Nat) (hne : frame ≠ table) :
    m.SameFrame ((m.clearPage table).copyUpperHalf source table) frame :=
  (sameFrame_clearPage hne).trans (sameFrame_copyUpperHalf _ _ hne)

theorem entry_newRoot_of_lt (m : Memory) (source : Nat) (hindex : index < Page.upperHalfIndex) :
    ((m.clearPage table).copyUpperHalf source table).entry table index = .unused := by
  rw [entry_copyUpperHalf_of_lt _ _ hindex]
  exact entry_clearPage_self (Nat.lt_trans hindex (by decide))

theorem entry_newRoot_of_le (m : Memory) {source : Nat} (hne : source ≠ table)
    (hle : Page.upperHalfIndex ≤ index) (hindex : index < tableEntries) :
    ((m.clearPage table).copyUpperHalf source table).entry table index = m.entry source index := by
  rw [entry_copyUpperHalf_of_le _ hne hle hindex]
  exact (sameFrame_clearPage hne).entry_eq hindex

end Memory

/-! ## 2. Attributes -/

namespace Flags

theorem contains_twoPow (f : Flags) (i : Nat) (hi : i < 12) :
    f.contains ⟨.twoPow 12 i, 0⟩ = f.low.getLsbD i := by
  have hne : BitVec.twoPow 12 i ≠ 0#12 := fun h => by
    have := congrArg (·.getLsbD i) h
    simp [hi] at this
  unfold contains inter
  rw [BitVec.and_twoPow]
  cases f.low.getLsbD i with
  | false => simp [Ne.symm hne]
  | true => simp

theorem contains_present (f : Flags) : f.contains .present = f.low.getLsbD 0 :=
  contains_twoPow f 0 (by decide)

theorem contains_huge (f : Flags) : f.contains .huge = f.low.getLsbD 7 :=
  contains_twoPow f 7 (by decide)

theorem contains_present_union (f g : Flags) :
    (f.union g).contains .present = (f.contains .present || g.contains .present) := by
  simp only [contains_present, union, BitVec.getLsbD_or]

theorem contains_huge_union (f g : Flags) :
    (f.union g).contains .huge = (f.contains .huge || g.contains .huge) := by
  simp only [contains_huge, union, BitVec.getLsbD_or]

/-- A leaf that is in force needs tables that are, and no table is a large mapping. -/
theorem contains_ofTables (leaf : Flags) :
    (ofTables leaf).contains .present = leaf.contains .present ∧
      (ofTables leaf).contains .huge = false := by
  have hpresent : ((present.union writable).union userAccessible).low.getLsbD 0 = true := by decide
  have hhuge : ((present.union writable).union userAccessible).low.getLsbD 7 = false := by decide
  simp only [contains_present, contains_huge, ofTables, inter, BitVec.getLsbD_and, hpresent, hhuge]
  simp

/-- The attributes of a mapped page: those that were asked for, and that it is in force. -/
def inForce (f : Flags) : Flags := f.union .present

theorem contains_present_inForce (f : Flags) : f.inForce.contains .present = true := by
  rw [inForce, contains_present_union, show present.contains .present = true by decide, Bool.or_true]

theorem contains_huge_inForce (f : Flags) : f.inForce.contains .huge = f.contains .huge := by
  rw [inForce, contains_huge_union, show present.contains .huge = false by decide, Bool.or_false]

end Flags

namespace Entry

/-- An entry in force is in use. -/
theorem ne_unused {e : Entry} (h : e.isPresent = true) : e ≠ unused := by
  rintro rfl
  cases h

theorem toNat_frame_ofFrame {frame : Nat} (h : frame < 2 ^ 40) (flags : Flags) :
    (ofFrame frame flags).frame.toNat = frame := by
  rw [ofFrame, BitVec.toNat_ofNat, Nat.mod_eq_of_lt h]

end Entry

/-! ## 3. Pages -/

namespace Page

variable {g h : Page} {level : Nat}

/-- What the pages have in common that share a table of a level. -/
def stem (g : Page) (level : Nat) : Nat := g.number / 512 ^ (level + 1)

theorem index_lt (g : Page) (level : Nat) : g.index level < tableEntries := Nat.mod_lt _ (by decide)

theorem stem_succ (g : Page) (level : Nat) : g.stem (level + 1) = g.stem level / 512 := by
  rw [stem, stem, Nat.div_div_eq_div_mul, ← Nat.pow_succ]

theorem index_succ (g : Page) (level : Nat) : g.index (level + 1) = g.stem level % 512 := rfl

/-- **Two pages share a table** if they share the one above and the index in it. -/
theorem stem_eq_iff : g.stem level = h.stem level ↔
    g.stem (level + 1) = h.stem (level + 1) ∧ g.index (level + 1) = h.index (level + 1) := by
  rw [stem_succ, stem_succ, index_succ, index_succ]
  constructor
  · intro he
    rw [he]
    exact ⟨rfl, rfl⟩
  · rintro ⟨hdiv, hmod⟩
    rw [← Nat.div_add_mod (g.stem level) 512, ← Nat.div_add_mod (h.stem level) 512, hdiv, hmod]

/-- **A lowest table and the index in it** are those of one page. -/
theorem eq_of_stem_zero (hstem : g.stem 0 = h.stem 0) (hindex : g.index 0 = h.index 0) : g = h := by
  have hnumber : g.number = h.number := by
    simp only [stem, index] at hstem hindex
    omega
  cases g
  cases h
  cases hnumber
  rfl

/-- The pages of one half share the root. -/
theorem stem_three (g : Page) : g.stem 3 = if g.isUpper then 65535 else 0 := by
  have hcanonical := g.canonical
  have hupper : g.isUpper = true ↔ 256 ≤ g.number / 512 ^ 3 % 512 := decide_eq_true_iff
  unfold stem
  split
  · next h =>
    have := hupper.mp h
    omega
  · next h =>
    have := mt hupper.mpr h
    omega

theorem isUpper_eq_false_iff : g.isUpper = false ↔ g.index 3 < upperHalfIndex :=
  decide_eq_false_iff_not.trans Nat.not_le

/-- Which half a page is in shows in its index in the root. -/
theorem isUpper_congr (he : g.index 3 = h.index 3) : g.isUpper = h.isUpper := by
  rw [isUpper, isUpper, he]

end Page

namespace VirtAddr

/-- An address has the indices of its page. -/
theorem index_eq (a : VirtAddr) (level : Nat) : a.index level = (Page.containing a).index level := by
  rw [index, Page.index, Page.containing, Nat.div_div_eq_div_mul]

/-- Further on there is another address, unless there is none of that number. -/
theorem advance_eq {a b : VirtAddr} {n : Nat} (h : a.val + n = b.val) : a.advance n = .ok b := by
  have hb := b.canonical
  simp only [IsCanonical] at hb
  have hof : of? (a.val + n) = some b := of?_eq_some_iff.mpr h.symm
  unfold advance
  rw [if_neg (by omega), hof]

end VirtAddr

/-- An address of the upper half is in a page of the upper half. -/
theorem Page.isUpper_containing {a : VirtAddr} (ha : 2 ^ 47 ≤ a.val) :
    (Page.containing a).isUpper = true := by
  have hcanonical := a.canonical
  refine decide_eq_true ?_
  simp only [IsCanonical] at hcanonical
  simp only [Page.index, Page.containing, Page.upperHalfIndex, pageSize]
  omega

/-- The page that follows, where there is one. -/
theorem Page.next_eq {p : Page} {a : VirtAddr} (h : p.start.val + pageSize = a.val) :
    p.next = .ok (some (.containing a)) := by
  have hlast : p.number ≠ 2 ^ 52 - 1 := by
    have ha := a.canonical
    have hval : p.start.val = p.number * pageSize := rfl
    simp only [IsCanonical] at ha
    simp only [pageSize] at hval h
    omega
  unfold Page.next
  rw [if_neg hlast, VirtAddr.advance_eq h]
  rfl

end KernelCore
