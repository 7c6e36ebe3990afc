/-
# Pools that count right

A pool has its count of free frames beside its bitmap.  Taking a frame and giving one back change both
alike (`FramePool.Counted`), so whoever only takes and gives keeps the count right
(`FramePool.Trades`).

* `Trades.total`: the pool goes on tracking the same frames;
* `Trades.counted`: its count of free frames is that of its bitmap.

Where the count is right, a list of owned frames that nothing was used before has all used frames in it
(`Holds.isUsed_iff`), and not only used ones.
-/
import KernelCore.Proofs.Frame.Ledger

namespace KernelCore

namespace FramePool

variable {pool pool' : FramePool} {frame : Nat} {owned : List Nat}

/-- Frames were taken from the pool and given back, one at a time. -/
inductive Trades (origin : FramePool) : FramePool → Prop where
  | refl : Trades origin origin
  | take {pool pool' : FramePool} {frame : Nat} : Trades origin pool →
      pool.allocate = .ok (frame, pool') → Trades origin pool'
  | give {pool pool' : FramePool} {frame : Nat} : Trades origin pool →
      pool.release frame = .ok pool' → Trades origin pool'

theorem Trades.total (h : pool.Trades pool') : pool'.total = pool.total := by
  induction h with
  | refl => rfl
  | take _ hok ih =>
    obtain ⟨-, -, -, rfl⟩ := eq_of_allocate hok
    exact ih
  | give _ hok ih =>
    obtain ⟨-, -, rfl⟩ := eq_of_release hok
    exact ih

theorem Trades.trans {pool'' : FramePool} (h : pool.Trades pool') (h' : pool'.Trades pool'') :
    pool.Trades pool'' := by
  induction h' with
  | refl => exact h
  | take _ hok ih => exact ih.take hok
  | give _ hok ih => exact ih.give hok

/-- Two ways to pick from the numbers below a bound that differ in one of them. -/
theorem countP_range_of_differ {total : Nat} {p q : Nat → Bool} (hlt : frame < total) (hp : p frame = true)
    (hq : q frame = false) (hsame : ∀ f, f ≠ frame → p f = q f) :
    (List.range total).countP p = (List.range total).countP q + 1 := by
  have hperm := List.perm_cons_erase (List.mem_range.mpr hlt)
  have hrest : ((List.range total).erase frame).countP p = ((List.range total).erase frame).countP q := by
    refine List.countP_congr fun f hf => ?_
    rw [hsame f ((List.Nodup.mem_erase_iff List.nodup_range).mp hf).1]
  rw [hperm.countP_eq, hperm.countP_eq, List.countP_cons_of_pos hp, List.countP_cons_of_neg, hrest]
  rw [hq]
  exact Bool.false_ne_true

/-- The pool tracks frames of the bitmap, and its count of free ones is right. -/
structure Counted (pool : FramePool) : Prop where
  total_le : pool.total ≤ maxFrames
  free : pool.free = pool.bitmap.countFree pool.total

theorem Counted.ofMap (map : MemoryMap) : (ofMap map).Counted := ⟨Nat.min_le_right _ _, rfl⟩

/-- A pool that counts no free frame has none. -/
theorem Counted.free_eq_zero_iff (h : pool.Counted) :
    pool.free = 0 ↔ ∀ f < pool.total, pool.bitmap.isUsed f = true := by
  simp [h.free, FrameBitmap.countFree, List.countP_eq_zero]

theorem Counted.of_allocate (h : pool.Counted) (hok : pool.allocate = .ok (frame, pool')) :
    pool'.Counted := by
  obtain ⟨-, hlt, hfree, rfl⟩ := eq_of_allocate hok
  have hmark := FrameBitmap.isUsed_mark pool.bitmap frame
  have hmax := Nat.lt_of_lt_of_le hlt h.total_le
  have hcount : pool.bitmap.countFree pool.total = (pool.bitmap.mark frame).countFree pool.total + 1 := by
    refine countP_range_of_differ hlt ?_ ?_ fun f hne => ?_
    · rw [hfree]
      rfl
    · rw [hmark _ hmax, decide_eq_true rfl]
      rfl
    · rw [hmark _ hmax, decide_eq_false (Ne.symm hne), Bool.false_or]
  refine ⟨h.total_le, ?_⟩
  show pool.free - 1 = (pool.bitmap.mark frame).countFree pool.total
  rw [h.free, hcount, Nat.add_sub_cancel]

theorem Counted.of_release (h : pool.Counted) (hok : pool.release frame = .ok pool') :
    pool'.Counted := by
  obtain ⟨hlt, hused, rfl⟩ := eq_of_release hok
  have hrelease := FrameBitmap.isUsed_release pool.bitmap frame
  have hmax := Nat.lt_of_lt_of_le hlt h.total_le
  refine ⟨h.total_le, ?_⟩
  show pool.free + 1 = (pool.bitmap.release frame).countFree pool.total
  rw [h.free]
  refine (countP_range_of_differ hlt ?_ ?_ fun f hne => ?_).symm
  · rw [hrelease _ hmax, decide_eq_true rfl]
    rfl
  · rw [hused]
    rfl
  · rw [hrelease _ hmax, decide_eq_false (Ne.symm hne), Bool.not_false, Bool.true_and]

theorem Trades.counted (h : pool.Trades pool') (hc : pool.Counted) : pool'.Counted := by
  induction h with
  | refl => exact hc
  | take _ hok ih => exact ih.of_allocate hok
  | give _ hok ih => exact ih.of_release hok

/-- The used ones of the frames that the pool tracks. -/
def usedFrames (pool : FramePool) : List Nat := (List.range pool.total).filter pool.bitmap.isUsed

theorem mem_usedFrames :
    frame ∈ pool.usedFrames ↔ frame < pool.total ∧ pool.bitmap.isUsed frame = true := by
  rw [usedFrames, List.mem_filter, List.mem_range]

theorem isUsed_iff_mem : pool.isUsed frame = true ↔ pool.total ≤ frame ∨ frame ∈ pool.usedFrames := by
  rw [mem_usedFrames, isUsed, Bool.or_eq_true, decide_eq_true_iff]
  constructor
  · rintro (hle | hused)
    · exact Or.inl hle
    · exact (Nat.lt_or_ge frame pool.total).symm.imp_right fun hlt => ⟨hlt, hused⟩
  · exact Or.imp_right And.right

theorem Counted.free_add_length (h : pool.Counted) : pool.free + pool.usedFrames.length = pool.total := by
  have hsplit := List.length_eq_countP_add_countP pool.bitmap.isUsed (l := List.range pool.total)
  have hunused : (List.range pool.total).countP (fun f => !pool.bitmap.isUsed f) = pool.free := h.free.symm
  rw [List.length_range, List.countP_eq_length_filter] at hsplit
  simp only [Bool.not_eq_true, Bool.decide_eq_false] at hsplit
  rw [hunused] at hsplit
  rw [usedFrames]
  omega

/-- What is used at the start makes a right list of owned frames. -/
theorem Counted.holds (h : pool.Counted) : pool.Holds 0 pool.usedFrames := by
  have hcount := h.free_add_length
  refine ⟨h.total_le, List.nodup_range.filter _, fun f => mem_usedFrames.mp, ?_⟩
  omega

/-- What is used besides the owned frames can be put on the list, too. -/
theorem Holds.exists_rest {base : Nat} (h : pool.Holds base owned) (hc : pool.Counted) :
    ∃ rest, pool.Holds 0 (owned ++ rest) := by
  have howned : owned.Perm (pool.usedFrames.filter fun f => decide (f ∈ owned)) := by
    refine (List.perm_ext_iff_of_nodup h.nodup (hc.holds.nodup.filter _)).mpr fun f => ?_
    rw [List.mem_filter, decide_eq_true_iff]
    exact ⟨fun hf => ⟨mem_usedFrames.mpr (h.used f hf), hf⟩, And.right⟩
  have hsplit := List.filter_append_perm (fun f => decide (f ∈ owned)) pool.usedFrames
  exact ⟨_, hc.holds.perm (hsplit.symm.trans (howned.symm.append_right _))⟩

/-- **All used frames are owned**, if none was used before the list was begun. -/
theorem Holds.isUsed_iff (h : pool.Holds 0 owned) (hc : pool.Counted) :
    pool.isUsed frame = true ↔ pool.total ≤ frame ∨ frame ∈ owned := by
  have hsub : owned ⊆ pool.usedFrames := fun f hf => mem_usedFrames.mpr (h.used f hf)
  have hperm : owned.Perm pool.usedFrames := by
    refine (List.subperm_of_subset h.nodup hsub).perm_of_length_le ?_
    have := h.count
    have := hc.free_add_length
    omega
  rw [isUsed_iff_mem, hperm.mem_iff]

/-- **A tracked frame is used as often as it is owned**, which is once at most. -/
theorem Holds.toNat_isUsed (h : pool.Holds 0 owned) (hc : pool.Counted) (hlt : frame < pool.total) :
    (pool.isUsed frame).toNat = owned.count frame := by
  have hiff : pool.isUsed frame = true ↔ _ := h.isUsed_iff hc
  by_cases hmem : frame ∈ owned
  · rw [hiff.mpr (Or.inr hmem), List.count_eq_one_of_mem h.nodup hmem]
    rfl
  · have hunused : pool.isUsed frame = false := by
      refine Bool.eq_false_iff.mpr fun hused => ?_
      exact (hiff.mp hused).elim (Nat.not_le_of_lt hlt) hmem
    rw [hunused, List.count_eq_zero_of_not_mem hmem]
    rfl

/-- **Giving up some of the owned frames** makes free just these. -/
theorem Holds.isUsed_iff_of_released {released : List Nat} (h : pool.Holds 0 (released ++ owned))
    (h' : pool'.Holds 0 owned) (hc : pool.Counted) (hc' : pool'.Counted)
    (htotal : pool'.total = pool.total) :
    pool'.isUsed frame = true ↔ pool.isUsed frame = true ∧ frame ∉ released := by
  rw [h.isUsed_iff hc, h'.isUsed_iff hc', htotal, List.mem_append]
  have hdisjoint := (List.nodup_append.mp h.nodup).2.2
  constructor
  · rintro (hle | hmem)
    · refine ⟨Or.inl hle, fun hin => ?_⟩
      exact Nat.not_le_of_lt (h.used _ (List.mem_append_left _ hin)).1 hle
    · exact ⟨Or.inr (Or.inr hmem), fun hin => hdisjoint _ hin _ hmem rfl⟩
  · rintro ⟨hle | hin | hmem, hnot⟩
    · exact Or.inl hle
    · exact absurd hin hnot
    · exact Or.inr hmem

/-- **Frames that came to be used** are those that came to be owned. -/
theorem Holds.came_iff {before after : List Nat} (h : pool.Holds 0 (before ++ owned))
    (h' : pool'.Holds 0 (after ++ owned)) (hc : pool.Counted) (hc' : pool'.Counted)
    (htotal : pool'.total = pool.total) :
    pool'.isUsed frame = true ∧ pool.isUsed frame = false ↔ frame ∈ after ∧ frame ∉ before := by
  rw [← Bool.not_eq_true, h.isUsed_iff hc, h'.isUsed_iff hc', htotal, List.mem_append, List.mem_append]
  constructor
  · rintro ⟨hle | hin | hmem, hnot⟩
    · exact absurd (Or.inl hle) hnot
    · exact ⟨hin, fun hbefore => hnot (Or.inr (Or.inl hbefore))⟩
    · exact absurd (Or.inr (Or.inr hmem)) hnot
  · rintro ⟨hin, hbefore⟩
    refine ⟨Or.inr (Or.inl hin), ?_⟩
    rintro (hle | hin' | hmem)
    · exact Nat.not_le_of_lt (htotal ▸ (h'.used _ (List.mem_append_left _ hin)).1) hle
    · exact hbefore hin'
    · exact (List.nodup_append.mp h'.nodup).2.2 _ hin _ hmem rfl

end FramePool

end KernelCore
