/-
# A pool is what its memory map says

The pool of a memory map is set up in two passes over a bitmap of used frames, the usable regions rounded
inwards and then all others rounded outwards, both cut off at a number of frames that the usable regions
alone decide.  This module says what comes of it without the passes.

* `endsAt_top`, `EndsAt.unique`: usable memory ends where its last region does;
* `isUsed_ofMap_iff`, `free_ofMap`: which frames are free, and that they are counted right;
* `ofMap_eq_of_perm`: regions may come in any order.  The later passes override the earlier ones, so
  this is no matter of swapping two steps: the two pools have the same free frames, and a bitmap is
  known by its free frames (`FrameBitmap.eq_of_isUsed`).
-/
import KernelCore.Proofs.Frame.Regions
import Mathlib.Data.List.Fold
import Mathlib.Data.List.MinMax
import Mathlib.Data.List.Perm.Basic
import Mathlib.Order.Nat

namespace KernelCore

/-- **A bitmap is known by the frames that are used.** -/
theorem FrameBitmap.eq_of_isUsed {b b' : FrameBitmap} (h : ∀ frame, b.isUsed frame = b'.isUsed frame) :
    b = b' := by
  obtain ⟨words⟩ := b
  obtain ⟨words'⟩ := b'
  refine congrArg mk (Vector.ext fun i hi => ?_)
  refine UInt64.eq_of_toBitVec_eq (BitVec.eq_of_getLsbD_eq fun j hj => ?_)
  have hbit := h (i * wordBits + j)
  have hword : (i * wordBits + j) / wordBits = i := by
    simp only [wordBits]
    omega
  have hrest : (i * wordBits + j) % wordBits = j := by
    simp only [wordBits]
    omega
  simpa [isUsed_eq, wordOf, hword, hrest, hi] using hbit

/-! ## 1. Where usable memory ends -/

namespace MemoryMap

variable {map map' : MemoryMap} {top top' frame : Nat}

/-- Usable memory ends at an address: that is the last end of a usable region, or zero if there is none. -/
structure EndsAt (map : MemoryMap) (top : Nat) : Prop where
  stop_le : ∀ r ∈ map, r.kind = .usable → r.stop ≤ top
  attained : top = 0 ∨ ∃ r ∈ map, r.kind = .usable ∧ r.stop = top

theorem EndsAt.unique (h : map.EndsAt top) (h' : map.EndsAt top') : top = top' := by
  have hle : ∀ {top top' : Nat}, map.EndsAt top → map.EndsAt top' → top ≤ top' := by
    intro top top' h h'
    rcases h.attained with rfl | ⟨r, hr, hkind, rfl⟩
    · exact Nat.zero_le _
    · exact h'.stop_le r hr hkind
  exact Nat.le_antisymm (hle h h') (hle h' h)

theorem endsAt_top (map : MemoryMap) : map.EndsAt map.top := by
  have hmem : ∀ stop, stop ∈ (map.filter Region.isUsable).map Region.stop ↔
      ∃ r ∈ map, r.kind = .usable ∧ r.stop = stop := by
    simp [Region.isUsable, and_assoc]
  have htop : map.top = ((map.filter Region.isUsable).map Region.stop).foldr max ⊥ :=
    List.foldl_eq_foldr
  constructor
  · intro r hr hkind
    rw [htop]
    exact List.le_max_of_le ((hmem _).mpr ⟨r, hr, hkind, rfl⟩) (Nat.le_refl _)
  · rw [htop]
    by_cases hnil : (map.filter Region.isUsable).map Region.stop = []
    · exact .inl (by rw [hnil]; rfl)
    · refine .inr ((hmem _).mp (List.maximum_mem ?_))
      rw [List.foldr_max_of_ne_nil hnil]

/-- A frame of the map is free at the start: it lies wholly inside one usable region, and no other region
touches it. -/
def Offers (map : MemoryMap) (frame : Nat) : Prop :=
  (∃ r ∈ map, r.kind = .usable ∧ r.Contains frame) ∧
    ∀ r ∈ map, r.kind ≠ .usable → ¬r.Touches frame

instance : Decidable (map.Offers frame) :=
  inferInstanceAs (Decidable ((∃ r ∈ map, r.kind = .usable ∧ r.Contains frame) ∧
    ∀ r ∈ map, r.kind ≠ .usable → ¬r.Touches frame))

theorem offers_iff_of_perm (h : map.Perm map') : map.Offers frame ↔ map'.Offers frame := by
  simp only [Offers, h.mem_iff]

theorem top_eq_of_perm (h : map.Perm map') : map.top = map'.top :=
  ((h.filter _).map _).foldl_eq 0

end MemoryMap

/-! ## 2. The frames of the pool -/

attribute [ext] FramePool

namespace FramePool

variable {map map' : MemoryMap} {frame : Nat}

theorem isUsed_ofMap_iff (map : MemoryMap) (frame : Nat) : (ofMap map).isUsed frame = false ↔
    frame < (ofMap map).total ∧ map.Offers frame := by
  simp only [isUsed, Bool.or_eq_false_iff, decide_eq_false_iff_not, Nat.not_le, unused_ofMap_iff]
  exact and_self_left

theorem free_ofMap (map : MemoryMap) :
    (ofMap map).free = (List.range (ofMap map).total).countP fun frame => map.Offers frame := by
  have hcount : (ofMap map).free =
      (List.range (ofMap map).total).countP fun frame => !(ofMap map).bitmap.isUsed frame := rfl
  rw [hcount]
  refine List.countP_congr fun frame hlt => ?_
  rw [Bool.not_eq_true', unused_ofMap_iff, decide_eq_true_iff]
  exact and_iff_right (List.mem_range.mp hlt)

/-- **The order of the regions does not matter.** -/
theorem ofMap_eq_of_perm (h : map.Perm map') : ofMap map = ofMap map' := by
  have htotal : (ofMap map).total = (ofMap map').total := by
    simp only [ofMap, MemoryMap.frames, MemoryMap.top_eq_of_perm h]
  have hbitmap : (ofMap map).bitmap = (ofMap map').bitmap := by
    refine FrameBitmap.eq_of_isUsed fun frame => Bool.eq_iff_iff.mpr (not_iff_not.mp ?_)
    simp only [Bool.not_eq_true, unused_ofMap_iff, htotal, h.mem_iff]
  have hfree : (ofMap map).free = (ofMap map').free := by
    simp only [free_ofMap, htotal, MemoryMap.offers_iff_of_perm h]
  exact FramePool.ext htotal hfree rfl hbitmap

/-- **A pool is what its memory map says**, whatever regions there are.  It tracks the frames up to the end
of usable memory, as far as there is room for them; those that are free, which it counts right, are the
ones that the map offers; and nothing depends on the order of the regions. -/
theorem ofMap_exact (map : MemoryMap) :
    (∃ top, map.EndsAt top ∧ (ofMap map).total = min maxFrames ((top + 4095) / 4096)) ∧
      (∀ frame, (ofMap map).isUsed frame = false ↔
        frame < (ofMap map).total ∧ map.Offers frame) ∧
      (ofMap map).free = (List.range (ofMap map).total).countP (fun frame => map.Offers frame) ∧
      ∀ map', map.Perm map' → ofMap map' = ofMap map :=
  ⟨⟨map.top, map.endsAt_top, Nat.min_comm _ _⟩, isUsed_ofMap_iff map, free_ofMap map,
    fun _ h => (ofMap_eq_of_perm h).symm⟩

/-- An empty region inside a frame, a usable region that begins and ends inside frames, and one that it
overlaps. -/
def overlapping : MemoryMap :=
  [⟨0x1800, 0, .kernelImage⟩, ⟨100, 5 * 4096, .usable⟩, ⟨0, 4096, .usable⟩]

/-- Of the six frames there, the last lies only in part in the usable region, and the empty region is
enough to take the second, also if it comes last. -/
theorem ofMap_overlapping : overlapping.Perm overlapping.reverse ∧ (ofMap overlapping).total = 6 ∧
    (ofMap overlapping).isUsed 0 = false ∧ (ofMap overlapping).isUsed 1 = true ∧
      (ofMap overlapping).free = 4 ∧ ofMap overlapping.reverse = ofMap overlapping := by
  obtain ⟨⟨top, hends, htotal⟩, hunused, hfree, hperm⟩ := ofMap_exact overlapping
  have hreverse := (List.reverse_perm overlapping).symm
  have htop : top = 20580 :=
    hends.unique ⟨by decide, .inr ⟨⟨100, 5 * 4096, .usable⟩, by decide, rfl, by decide⟩⟩
  have htotal : (ofMap overlapping).total = 6 := by rw [htotal, htop]; decide
  refine ⟨hreverse, htotal, ?_, ?_, ?_, hperm _ hreverse⟩
  · exact (hunused 0).mpr (by rw [htotal]; decide)
  · exact Bool.not_eq_false _ ▸ fun hfalse => absurd ((hunused 1).mp hfalse).2 (by decide)
  · rw [hfree, htotal]
    decide

end FramePool

end KernelCore
