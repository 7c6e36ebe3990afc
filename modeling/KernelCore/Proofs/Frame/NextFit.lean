/-
# Next-fit is the plain search in cyclic order

The pool looks for a free frame from its cursor on, round to where it began.  It does not look at every
position: a full word of the bitmap is passed over at once, up to the end of the word or of the pool,
whichever comes first, and positions are counted off against the number of frames.  None of that shows.
The frames in cyclic order from the cursor on are a list (`FramePool.round`), and what is handed out is
the first of the list whose bit is clear (`FramePool.firstFree?`).

* `find?_round`: passing over used frames goes on with the list from there on;
* `search_eq_find?`: so the search is `List.find?` on as much of the list as it may look at;
* `Regular.allocate_eq`: where the records of the pool agree, a frame is refused only if none is left.

The loop is also given as the pool goes through it, moving its own cursor (`FramePool.Sweep`): a relation
without any bound on the number of turns, so that it relates the pool to a result only if the loop ends.
From a pool whose records agree it does, with the frame of the list (`sweep_iff_of_search`); and where
the count says that nothing is left the loop is not entered, so that a refusal leaves the cursor alone.
-/
import KernelCore.Proofs.Frame.Lending

namespace KernelCore

namespace FramePool

variable {pool pool' : FramePool} {b : FrameBitmap} {total position left seen n frame : Nat}

/-! ## 1. The cyclic order -/

/-- The frames in cyclic order from a position on: up to the last one, then from the first one on. -/
def round (total position : Nat) : List Nat :=
  List.range' position (total - position) ++ List.range position

/-- The first free frame in cyclic order from the cursor on. -/
def firstFree? (pool : FramePool) : Option Nat :=
  (round pool.total pool.cursor).find? fun frame => !pool.bitmap.isUsed frame

theorem mem_round (h : position ≤ total) : frame ∈ round total position ↔ frame < total := by
  simp only [round, List.mem_append, List.mem_range'_1, List.mem_range]
  omega

theorem length_round (h : position ≤ total) : (round total position).length = total := by
  simp only [round, List.length_append, List.length_range', List.length_range]
  omega

/-- **Going on from a later position**, the frames in between come last instead of first. -/
theorem exists_round (h : position + n ≤ total) : ∃ rest,
    round total position = List.range' position n ++ rest ∧
      round total (wrap total (position + n)) = rest ++ List.range' position n := by
  refine ⟨List.range' (position + n) (total - (position + n)) ++ List.range position, ?_, ?_⟩
  · rw [round, ← List.append_assoc, List.range'_append_1,
      show n + (total - (position + n)) = total - position by omega]
  · have hfront : List.range position ++ List.range' position n = List.range (position + n) := by
      have := List.range'_append_1 (s := 0) (m := position) (n := n)
      simpa [List.range_eq_range'] using this
    rw [List.append_assoc, hfront, wrap]
    split
    · have heq : position + n = total := by omega
      simp [round, heq, List.range_eq_range']
    · rfl

/-- **Passing over used frames** goes on with the list from there on. -/
theorem find?_round (h : position + n ≤ total) (hleft : left ≤ total)
    (hused : ∀ f, position ≤ f → f < position + n → b.isUsed f = true) :
    ((round total position).take left).find? (fun f => !b.isUsed f) =
      ((round total (wrap total (position + n))).take (left - n)).find? fun f => !b.isUsed f := by
  obtain ⟨rest, hround, hnext⟩ := exists_round h
  have hlength : n + rest.length = total := by
    have := length_round (Nat.le_of_add_right_le h)
    simpa [hround] using this
  have hnone : ((List.range' position n).take left).find? (fun f => !b.isUsed f) = none := by
    refine List.find?_eq_none.mpr fun f hf => ?_
    have hf := List.mem_range'_1.mp (List.mem_of_mem_take hf)
    simp [hused f hf.1 hf.2]
  rw [hround, hnext, List.take_append, List.find?_append, hnone, Option.none_or, List.length_range',
    List.take_append_of_le_length (by omega)]

/-- **The search finds the first free frame** among those of the list that it may look at. -/
theorem search_eq_find? (hposition : position < total) (hleft : left ≤ total) :
    search b total position left =
      ((round total position).take left).find? fun f => !b.isUsed f := by
  fun_induction search b total position left with
  | case1 position left hstop =>
    have hzero : left = 0 := by omega
    simp [hzero]
  | case2 position left hgo hfull skip ih =>
    have hskip : skip ≤ wordBits - position % wordBits ∧ skip ≤ total - position := by omega
    rw [ih (wrap_lt (Nat.zero_lt_of_lt hposition) _) (by omega)]
    refine (find?_round (by omega) hleft fun f hle hlt => ?_).symm
    -- all of them lie in the one full word
    have hsame : f / wordBits = position / wordBits := by
      simp only [wordBits] at hskip ⊢
      omega
    refine FrameBitmap.isUsed_of_word_full b f ?_
    simpa [FrameBitmap.wordOf, hsame] using hfull
  | case3 position left hgo hfull hused ih =>
    rw [ih (wrap_lt (Nat.zero_lt_of_lt hposition) _) (by omega)]
    refine (find?_round (by omega) hleft fun f hle hlt => ?_).symm
    rw [show f = position by omega, hused]
  | case4 position left hgo hfull hfree =>
    obtain ⟨rest, hround, -⟩ := exists_round (show position + 1 ≤ total by omega)
    obtain ⟨k, rfl⟩ : ∃ k, left = k + 1 := ⟨left - 1, by omega⟩
    simp [hround, hfree]

/-! ## 2. What is handed out -/

theorem Regular.cursor_le (h : pool.Regular) : pool.cursor ≤ pool.total := by
  have := h.cursor
  omega

theorem Regular.firstFree?_eq_none_iff (h : pool.Regular) : pool.firstFree? = none ↔ pool.free = 0 := by
  simp [firstFree?, mem_round h.cursor_le, h.counted.free_eq_zero_iff]

theorem Regular.free_ne_zero (h : pool.Regular) (hfirst : pool.firstFree? = some frame) :
    pool.free ≠ 0 := fun hzero => by simp [h.firstFree?_eq_none_iff.mpr hzero] at hfirst

/-- The pool with a frame taken, and the cursor behind it. -/
def taken (pool : FramePool) (frame : Nat) : FramePool :=
  { pool with
    free := pool.free - 1
    cursor := wrap pool.total (frame + 1)
    bitmap := pool.bitmap.mark frame }

theorem Regular.search_eq (h : pool.Regular) (hfree : pool.free ≠ 0) :
    search pool.bitmap pool.total pool.cursor pool.total = pool.firstFree? := by
  have hcursor : pool.cursor < pool.total := by
    have := h.counted.free_add_length
    have := h.cursor
    omega
  have hlength := length_round (Nat.le_of_lt hcursor)
  rw [search_eq_find? hcursor (Nat.le_refl _), List.take_of_length_le (Nat.le_of_eq hlength), firstFree?]

/-- **Where the records agree, the first free frame is handed out**, and memory is out only if there is
none. -/
theorem Regular.allocate_eq (h : pool.Regular) : pool.allocate =
    match pool.firstFree? with
    | none => .error .outOfMemory
    | some frame => .ok (frame, pool.taken frame) := by
  by_cases hfree : pool.free = 0
  · simp [allocate, hfree, h.firstFree?_eq_none_iff.mpr hfree]
  · simp only [allocate, hfree, if_false, h.search_eq hfree]
    cases pool.firstFree? <;> rfl

/-! ## 3. The loop -/

/-- The pool with its cursor some positions further on. -/
def advance (pool : FramePool) (n : Nat) : FramePool :=
  { pool with cursor := wrap pool.total (pool.cursor + n) }

/-- How many positions a full word at the cursor passes over: the bits of the last word behind the last
frame do not count. -/
def stride (pool : FramePool) : Nat :=
  min (wordBits - pool.cursor % wordBits) (pool.total - pool.cursor)

/-- **The loop as the pool goes through it**, with so many positions counted off.  It moves the cursor at
every turn, and leaves the pool as it then is also if it finds nothing. -/
inductive Sweep : FramePool → Nat → EStateM.Result FrameError FramePool Nat → Prop where
  | stop {pool : FramePool} {seen : Nat} :
      pool.total ≤ seen → Sweep pool seen (.error .outOfMemory pool)
  | skip {pool : FramePool} {seen : Nat} {r : EStateM.Result FrameError FramePool Nat} :
      seen < pool.total → pool.bitmap.wordOf pool.cursor = fullWord →
      Sweep (pool.advance pool.stride) (seen + pool.stride) r → Sweep pool seen r
  | pass {pool : FramePool} {seen : Nat} {r : EStateM.Result FrameError FramePool Nat} :
      seen < pool.total → pool.bitmap.wordOf pool.cursor ≠ fullWord →
      pool.bitmap.isUsed pool.cursor = true → Sweep (pool.advance 1) (seen + 1) r → Sweep pool seen r
  | take {pool : FramePool} {seen : Nat} :
      seen < pool.total → pool.bitmap.wordOf pool.cursor ≠ fullWord →
      pool.bitmap.isUsed pool.cursor = false →
      Sweep pool seen (.ok pool.cursor (pool.taken pool.cursor))

/-- What asking the pool for a frame comes to, with the pool that it leaves. -/
def Allocates (pool : FramePool) (r : EStateM.Result FrameError FramePool Nat) : Prop :=
  if pool.free = 0 then r = .error .outOfMemory pool else pool.Sweep 0 r

/-- One turn of the loop. -/
theorem sweep_iff {r : EStateM.Result FrameError FramePool Nat} (hseen : seen < pool.total) :
    pool.Sweep seen r ↔
      if pool.bitmap.wordOf pool.cursor = fullWord then
        (pool.advance pool.stride).Sweep (seen + pool.stride) r
      else if pool.bitmap.isUsed pool.cursor then (pool.advance 1).Sweep (seen + 1) r
      else r = .ok pool.cursor (pool.taken pool.cursor) := by
  constructor
  · intro h
    cases h with
    | stop hle => omega
    | skip _ hfull h => rwa [if_pos hfull]
    | pass _ hfull hused h => rwa [if_neg hfull, if_pos hused]
    | take _ hfull hfree => rw [if_neg hfull, if_neg (by simp [hfree])]
  · intro h
    split at h
    · next hfull => exact .skip hseen hfull h
    · next hfull =>
      split at h
      · next hused => exact .pass hseen hfull hused h
      · next hfree => exact h ▸ .take hseen hfull (by simpa using hfree)

/-- **The loop ends where the search does.** -/
theorem sweep_iff_of_search (h : search b total position left = some frame) {pool : FramePool}
    {seen : Nat} {r : EStateM.Result FrameError FramePool Nat} (hb : pool.bitmap = b)
    (htotal : pool.total = total) (hposition : pool.cursor = position) (hleft : total - seen = left) :
    pool.Sweep seen r ↔ r = .ok frame (pool.taken frame) := by
  fun_induction search b total position left generalizing pool seen with
  | case1 => cases h
  | case2 position left hgo hfull skip ih =>
    subst hb htotal hposition
    rw [sweep_iff (by omega), if_pos hfull]
    exact ih h rfl rfl rfl (by simp only [stride]; omega)
  | case3 position left hgo hfull hused ih =>
    subst hb htotal hposition
    rw [sweep_iff (by omega), if_neg hfull, if_pos hused]
    exact ih h rfl rfl rfl (by omega)
  | case4 position left hgo hfull hfree =>
    subst hb htotal hposition
    cases h
    rw [sweep_iff (by omega), if_neg hfull, if_neg hfree]

/-! ## 4. Every run -/

/-- The second pool is the first with one frame taken: the bit of the frame is set and no other bit has
changed, the count is one less, and the cursor is behind the frame, or at the start behind the last. -/
structure Takes (pool pool' : FramePool) (frame : Nat) : Prop where
  total : pool'.total = pool.total
  bits : ∀ f, pool'.bitmap.isUsed f = (decide (f = frame) || pool.bitmap.isUsed f)
  free : pool'.free + 1 = pool.free
  cursor : pool'.cursor = if frame + 1 = pool.total then 0 else frame + 1

/-- **Next-fit.**  What is handed out is the first free frame in cyclic order from the cursor on, and
memory is out exactly if no frame is free.  The loop ends, with the same result; and where there is no
frame it leaves the pool as it was. -/
structure NextFit (pool : FramePool) : Prop where
  serves : ∀ frame, pool.firstFree? = some frame →
    ∃ pool', pool.allocate = .ok (frame, pool') ∧ pool.Takes pool' frame
  outOfMemory : pool.allocate = .error .outOfMemory ↔ ∀ f < pool.total, pool.bitmap.isUsed f = true
  ends : ∀ r, pool.Allocates r ↔ r =
    match pool.allocate with
    | .ok (frame, pool') => .ok frame pool'
    | .error e => .error e pool

theorem Regular.takes (h : pool.Regular) (hfirst : pool.firstFree? = some frame) :
    pool.Takes (pool.taken frame) frame := by
  have hlt : frame < pool.total := (mem_round h.cursor_le).mp (List.mem_of_find?_eq_some hfirst)
  refine ⟨rfl, fun f => ?_, Nat.succ_pred_eq_of_ne_zero (h.free_ne_zero hfirst), ?_⟩
  · simp [taken, FrameBitmap.isUsed_mark _ _ _ (Nat.lt_of_lt_of_le hlt h.counted.total_le), eq_comm]
  · simp only [taken, wrap]
    split <;> split <;> omega

theorem Regular.nextFit (h : pool.Regular) : pool.NextFit := by
  refine ⟨fun frame hfirst => ⟨_, by rw [h.allocate_eq, hfirst], h.takes hfirst⟩, ?_, fun r => ?_⟩
  · rw [h.allocate_eq, ← h.counted.free_eq_zero_iff, ← h.firstFree?_eq_none_iff]
    cases pool.firstFree? <;> simp
  · rw [h.allocate_eq]
    cases hfirst : pool.firstFree? with
    | none => simp [Allocates, h.firstFree?_eq_none_iff.mp hfirst]
    | some frame =>
      have hfree := h.free_ne_zero hfirst
      have hsearch := (h.search_eq hfree).trans hfirst
      simpa [Allocates, hfree] using sweep_iff_of_search hsearch rfl rfl rfl (Nat.sub_zero _)

/-- **On every memory map and after any calls, with any numbers, the pool hands out next-fit.** -/
theorem nextFit_of_runs {map : MemoryMap} {may : PoolCall → List Nat → Prop} {held : List Nat}
    (h : Runs map may pool held) : pool.NextFit :=
  (regular_of_runs h).nextFit

/-- A run goes on with the first free frame. -/
theorem Runs.take {map : MemoryMap} {held : List Nat} (h : Runs map (fun _ _ => True) pool held)
    (frame : Nat) (hfirst : pool.firstFree? = some frame) :
    Runs map (fun _ _ => True) (pool.taken frame) (frame :: held) := by
  have hrun : PoolCall.allocate.run pool = .ok (some frame, pool.taken frame) := by
    simp [PoolCall.run, (regular_of_runs h).allocate_eq, hfirst]
  exact h.step True.intro hrun

/-- Sixty-seven frames, of which only the last three are free: the first word of the bitmap is full. -/
def threeLeft : MemoryMap := [⟨0, 67 * 4096, .usable⟩, ⟨0, 64 * 4096, .reserved⟩]

/-- There frames 64 and 65 come first; once 64 is given back, 66 comes before it, being next; and then the
search begins at the start, over the full word, and comes to 64. -/
theorem nextFit_threeLeft : ∃ pool, Runs threeLeft (fun _ _ => True) pool [66, 65] ∧
    pool.cursor = 0 ∧ ∃ pool', pool.allocate = .ok (64, pool') ∧ pool'.cursor = 65 ∧
      pool'.allocate = .error .outOfMemory := by
  have h₀ : Runs threeLeft (fun _ _ => True) (.ofMap threeLeft) [] := .start
  have h₂ := (h₀.take 64 (by decide +kernel)).take 65 (by decide +kernel)
  generalize hpool₂ : ((ofMap threeLeft).taken 64).taken 65 = pool₂ at h₂
  have hback : (PoolCall.release 64).run pool₂ =
      .ok (none, { pool₂ with free := pool₂.free + 1, bitmap := pool₂.bitmap.release 64 }) := by
    have htotal : ¬pool₂.total ≤ 64 := by subst hpool₂; decide +kernel
    have hused : pool₂.bitmap.isUsed 64 = true := by subst hpool₂; decide +kernel
    simp [PoolCall.run, release, htotal, hused]
  have h₃ := (h₂.step True.intro hback).take 66 (by subst hpool₂; decide +kernel)
  generalize hpool₃ : taken _ 66 = pool₃ at h₃
  obtain ⟨pool', hok, htakes⟩ :=
    (nextFit_of_runs h₃).serves 64 (by subst hpool₃ hpool₂; decide +kernel)
  have hrun : PoolCall.allocate.run pool₃ = .ok (some 64, pool') := by simp only [PoolCall.run, hok]
  refine ⟨pool₃, h₃, by subst hpool₃ hpool₂; decide +kernel, pool', hok, ?_, ?_⟩
  · rw [htakes.cursor]
    subst hpool₃ hpool₂
    decide +kernel
  · refine (nextFit_of_runs (h₃.step True.intro hrun)).outOfMemory.mpr ?_
    simp only [htakes.bits, htakes.total]
    subst hpool₃ hpool₂
    decide +kernel

end FramePool

end KernelCore
