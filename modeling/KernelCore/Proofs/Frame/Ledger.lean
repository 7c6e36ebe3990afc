/-
# Who owns which frame

The owners of frames keep a list of what they took from the pool.  The list is right
(`FramePool.Holds`) if no frame stands in it twice, the pool counts each of them as used, and the
pool has as many used frames as there are in the list, besides those that were used at the start.

* `Holds.of_allocate`: a frame that is handed out is new to the list;
* `Holds.exists_release`: a frame of the list can be given back, and is then off the list;
* `Holds.releaseFrames_eq`: so can the frames of a whole space.
-/
import KernelCore.Paging.Vm
import Mathlib.Data.List.Nodup
import Mathlib.Data.List.Perm.Basic

namespace KernelCore

namespace FramePool

variable {pool pool' : FramePool} {base frame : Nat} {owned rest : List Nat}

/-- **The list of owned frames is right.**  `base` frames were used before the list was begun. -/
structure Holds (pool : FramePool) (base : Nat) (owned : List Nat) : Prop where
  total_le : pool.total ≤ maxFrames
  nodup : owned.Nodup
  used : ∀ frame ∈ owned, frame < pool.total ∧ pool.bitmap.isUsed frame = true
  count : pool.free + base + owned.length = pool.total

/-- The pool counts the frames that were used at the start and those of the list. -/
theorem Holds.used_eq (h : pool.Holds base owned) : pool.used = base + owned.length := by
  have := h.count
  simp only [FramePool.used]
  omega

theorem Holds.isUsed (h : pool.Holds base owned) {frame : Nat} (hf : frame ∈ owned) :
    pool.isUsed frame = true := by
  simp [FramePool.isUsed, (h.used frame hf).2]

theorem Holds.lt_maxFrames (h : pool.Holds base owned) {frame : Nat} (hf : frame ∈ owned) :
    frame < maxFrames :=
  Nat.lt_of_lt_of_le (h.used frame hf).1 h.total_le

/-- The order of the list does not matter. -/
theorem Holds.perm {owned' : List Nat} (h : pool.Holds base owned) (hp : owned.Perm owned') :
    pool.Holds base owned' :=
  ⟨h.total_le, hp.nodup_iff.mp h.nodup, fun f hf => h.used f (hp.mem_iff.mpr hf),
    hp.length_eq ▸ h.count⟩

/-- At the start nothing is owned. -/
theorem Holds.ofMap (map : MemoryMap) : (ofMap map).Holds (ofMap map).used [] := by
  have hle : (FramePool.ofMap map).free ≤ (FramePool.ofMap map).total := by
    have := List.countP_le_length (p := fun frame => !(FramePool.ofMap map).bitmap.isUsed frame)
      (l := List.range (FramePool.ofMap map).total)
    rwa [List.length_range] at this
  refine ⟨Nat.min_le_right _ _, List.nodup_nil, by simp, ?_⟩
  simp only [FramePool.used, List.length_nil]
  omega

/-- A search finds a frame that the pool tracks and that is free. -/
theorem of_search {b : FrameBitmap} {total position left : Nat}
    (h : search b total position left = some frame) :
    frame < total ∧ b.isUsed frame = false := by
  fun_induction search b total position left with
  | case1 => cases h
  | case2 position left hne hfull skip ih => exact ih h
  | case3 position left hne hfull hused ih => exact ih h
  | case4 position left hne hfull hfree =>
    cases h
    exact ⟨by omega, by simpa using hfree⟩

/-- A frame that is handed out was free, and the pool has it down as used. -/
theorem eq_of_allocate (hok : pool.allocate = .ok (frame, pool')) :
    pool.free ≠ 0 ∧ frame < pool.total ∧ pool.bitmap.isUsed frame = false ∧
      pool' = { pool with
        free := pool.free - 1
        cursor := wrap pool.total (frame + 1)
        bitmap := pool.bitmap.mark frame } := by
  unfold allocate at hok
  split at hok
  · cases hok
  · next hne =>
    split at hok
    · cases hok
    · next f hs =>
      cases hok
      obtain ⟨hlt, hfree⟩ := of_search hs
      exact ⟨hne, hlt, hfree, rfl⟩

/-- There is one reason only not to hand out a frame. -/
theorem eq_outOfMemory_of_allocate {e : FrameError} (he : pool.allocate = .error e) : e = .outOfMemory := by
  unfold allocate at he
  split at he
  · cases he
    rfl
  · split at he
    · cases he
      rfl
    · cases he

/-- A frame that is taken back was used, and the pool has it down as free. -/
theorem eq_of_release (hok : pool.release frame = .ok pool') :
    frame < pool.total ∧ pool.bitmap.isUsed frame = true ∧
      pool' = { pool with free := pool.free + 1, bitmap := pool.bitmap.release frame } := by
  unfold release at hok
  split at hok
  · cases hok
  · next hle =>
    split at hok
    · next hused =>
      cases hok
      exact ⟨Nat.lt_of_not_le hle, hused, rfl⟩
    · cases hok

/-- **A frame that is handed out** was free, and is on the list from then on. -/
theorem Holds.of_allocate (h : pool.Holds base owned) (hok : pool.allocate = .ok (frame, pool')) :
    pool'.Holds base (frame :: owned) := by
  obtain ⟨hne, hlt, hfree, rfl⟩ := eq_of_allocate hok
  have hmax := Nat.lt_of_lt_of_le hlt h.total_le
  have hcount := h.count
  refine ⟨h.total_le, List.nodup_cons.mpr ⟨?_, h.nodup⟩, ?_, ?_⟩
  · intro hin
    rw [(h.used _ hin).2] at hfree
    cases hfree
  · intro g hg
    show g < pool.total ∧ (pool.bitmap.mark frame).isUsed g = true
    rw [FrameBitmap.isUsed_mark _ _ _ hmax]
    rcases List.mem_cons.mp hg with rfl | hg
    · exact ⟨hlt, by simp⟩
    · exact ⟨(h.used g hg).1, by simp [(h.used g hg).2]⟩
  · simp only [List.length_cons]
    omega

/-- **A frame of the list can be given back.** -/
theorem Holds.exists_release (h : pool.Holds base (frame :: owned)) :
    ∃ pool', pool.release frame = .ok pool' ∧ pool'.Holds base owned := by
  obtain ⟨hlt, hused⟩ := h.used frame List.mem_cons_self
  have hmax := Nat.lt_of_lt_of_le hlt h.total_le
  have hnodup := List.nodup_cons.mp h.nodup
  have hcount := h.count
  unfold release
  rw [if_neg (by omega), if_pos hused]
  refine ⟨_, rfl, h.total_le, hnodup.2, ?_, ?_⟩
  · intro g hg
    obtain ⟨hglt, hgused⟩ := h.used g (List.mem_cons_of_mem _ hg)
    show g < pool.total ∧ (pool.bitmap.release frame).isUsed g = true
    rw [FrameBitmap.isUsed_release _ _ _ hmax]
    have hne : frame ≠ g := fun e => hnodup.1 (e ▸ hg)
    exact ⟨hglt, by simp [hne, hgused]⟩
  · simp only [List.length_cons] at hcount ⊢
    omega

/-- **All frames of a space can be given back.** -/
theorem Holds.releaseFrames_eq : ∀ {frames : List Nat} {pool : FramePool},
    pool.Holds base (frames ++ rest) →
      ∃ pool', Vm.releaseFrames frames pool = (.ok frames.length, pool') ∧ pool'.Holds base rest
  | [], pool, h => ⟨pool, rfl, h⟩
  | frame :: frames, pool, h => by
    obtain ⟨pool₁, hok, h₁⟩ := h.exists_release
    obtain ⟨pool₂, hoks, h₂⟩ := h₁.releaseFrames_eq
    refine ⟨pool₂, ?_, h₂⟩
    rw [Vm.releaseFrames, hok]
    simp only [hoks]
    rfl

/-! ## Frames that are left -/

/-- The pool has no frame to hand out. -/
def Exhausted (pool : FramePool) : Prop := ∃ e, pool.allocate = .error e

/-- **The pool can hand out so many frames**, one after the other. -/
def Supplies : Nat → FramePool → Prop
  | 0, _ => True
  | n + 1, pool => ∃ frame pool', pool.allocate = .ok (frame, pool') ∧ Supplies n pool'

/-- One frame less is left when one has been handed out. -/
theorem supplies_of_ok {n : Nat} (hok : pool.allocate = .ok (frame, pool')) :
    pool.Supplies (n + 1) ↔ pool'.Supplies n := by
  refine ⟨fun ⟨f, p, hok', h⟩ => ?_, fun h => ⟨frame, pool', hok, h⟩⟩
  cases hok.symm.trans hok'
  exact h

theorem not_supplies_of_error {n : Nat} {e : FrameError} (he : pool.allocate = .error e) :
    ¬pool.Supplies (n + 1) := by
  rintro ⟨f, p, hok, -⟩
  cases he.symm.trans hok

/-- A search that starts at a free frame ends there. -/
theorem allocate_of_unused (hfree : pool.free ≠ 0) (hlt : pool.cursor < pool.total)
    (hunused : pool.bitmap.isUsed pool.cursor = false) :
    pool.allocate = .ok (pool.cursor, { pool with
      free := pool.free - 1
      cursor := wrap pool.total (pool.cursor + 1)
      bitmap := pool.bitmap.mark pool.cursor }) := by
  have hword : pool.bitmap.wordOf pool.cursor ≠ fullWord := by
    intro hfull
    rw [FrameBitmap.isUsed_of_word_full _ _ hfull] at hunused
    cases hunused
  have hsearch : search pool.bitmap pool.total pool.cursor pool.total = some pool.cursor := by
    unfold search
    rw [if_neg (by omega), if_neg hword, hunused]
    rfl
  unfold allocate
  rw [if_neg hfree, hsearch]

/-- The frames from `next` on are free, and come next. -/
structure Fresh (pool : FramePool) (next : Nat) : Prop where
  total_le : pool.total ≤ maxFrames
  free : pool.free = pool.total - next
  cursor : next < pool.total → pool.cursor = next
  unused : ∀ f, next ≤ f → f < pool.total → pool.bitmap.isUsed f = false

/-- **Fresh frames are handed out in order.** -/
theorem Fresh.exists_allocate {next : Nat} (h : pool.Fresh next) (hlt : next < pool.total) :
    ∃ pool', pool.allocate = .ok (next, pool') ∧ pool'.total = pool.total ∧ pool'.Fresh (next + 1) := by
  have hfree := h.free
  have hcursor := h.cursor hlt
  have hunused : pool.bitmap.isUsed pool.cursor = false := by
    rw [hcursor]
    exact h.unused next (Nat.le_refl _) hlt
  have hok := allocate_of_unused (by omega) (by omega) hunused
  rw [hcursor] at hok
  refine ⟨_, hok, rfl, h.total_le, ?_, ?_, ?_⟩
  · show pool.free - 1 = pool.total - (next + 1)
    omega
  · intro hnext
    exact if_neg (Nat.not_le_of_lt hnext)
  · intro f hle hf
    show (pool.bitmap.mark next).isUsed f = false
    rw [FrameBitmap.isUsed_mark _ _ _ (Nat.lt_of_lt_of_le hlt h.total_le), h.unused f (by omega) hf]
    simpa using Nat.ne_of_lt hle

theorem Fresh.supplies {n next : Nat} (h : pool.Fresh next) (hle : next + n ≤ pool.total) :
    pool.Supplies n := by
  induction n generalizing pool next with
  | zero => exact True.intro
  | succ n ih =>
    obtain ⟨pool', hok, htotal, h'⟩ := h.exists_allocate (by omega)
    exact ⟨next, pool', hok, ih h' (by omega)⟩

end FramePool

end KernelCore
