/-
# How many frames can be had

A pool hands out a frame as long as its count says that there is one: the count is that of the bitmap, and
the search misses no free frame.

* `Regular.exists_allocate`, `allocate_eq_error`: a frame is had exactly if the count is not zero;
* `Regular.supplies_iff`: so many frames can be had as the count says.
-/
import KernelCore.Proofs.Frame.NextFit

namespace KernelCore

namespace FramePool

variable {pool pool' : FramePool} {frame n : Nat}

/-- **As long as the count is not zero, a frame is handed out.** -/
theorem Regular.exists_allocate (h : pool.Regular) (hfree : pool.free ≠ 0) :
    ∃ frame pool', pool.allocate = .ok (frame, pool') := by
  cases hfirst : pool.firstFree? with
  | none => exact absurd (h.firstFree?_eq_none_iff.mp hfirst) hfree
  | some frame => exact ⟨frame, _, h.allocate_eq.trans (by rw [hfirst])⟩

/-- If there are more than so many frames, one is handed out, and so many are left. -/
theorem Regular.exists_allocate_of_lt (h : pool.Regular) (hfree : n < pool.free) :
    ∃ frame pool', pool.allocate = .ok (frame, pool') ∧ pool'.Regular ∧ n ≤ pool'.free := by
  obtain ⟨frame, pool', hok⟩ := h.exists_allocate (Nat.ne_of_gt (Nat.zero_lt_of_lt hfree))
  refine ⟨frame, pool', hok, h.of_allocate hok, ?_⟩
  obtain ⟨-, -, -, rfl⟩ := eq_of_allocate hok
  exact Nat.le_sub_one_of_lt hfree

theorem allocate_eq_error (hfree : pool.free = 0) : pool.allocate = .error .outOfMemory := by
  unfold allocate
  rw [if_pos hfree]

/-- A pool has no frame to hand out exactly if its count says so. -/
theorem Regular.exhausted_iff (h : pool.Regular) : pool.Exhausted ↔ pool.free = 0 := by
  refine ⟨fun ⟨e, he⟩ => ?_, fun hfree => ⟨_, allocate_eq_error hfree⟩⟩
  by_contra hne
  obtain ⟨frame, pool', hok⟩ := h.exists_allocate hne
  cases he.symm.trans hok

/-- **So many frames can be had as the count says.** -/
theorem Regular.supplies_iff (h : pool.Regular) : pool.Supplies n ↔ n ≤ pool.free := by
  induction n generalizing pool with
  | zero => exact ⟨fun _ => Nat.zero_le _, fun _ => True.intro⟩
  | succ n ih =>
    by_cases hfree : pool.free = 0
    · refine ⟨fun hs => absurd hs (not_supplies_of_error (allocate_eq_error hfree)), fun hle => ?_⟩
      omega
    · obtain ⟨frame, pool', hok⟩ := h.exists_allocate hfree
      rw [supplies_of_ok hok, ih (h.of_allocate hok)]
      obtain ⟨-, -, -, rfl⟩ := eq_of_allocate hok
      show n ≤ pool.free - 1 ↔ n + 1 ≤ pool.free
      omega

/-- What is taken and given back one at a time leaves the pool in order. -/
theorem Trades.regular (h : pool.Trades pool') (hr : pool.Regular) : pool'.Regular := by
  induction h with
  | refl => exact hr
  | take _ hok ih => exact ih.of_allocate hok
  | give _ hok ih => exact ih.of_release hok

end FramePool

end KernelCore
