/-
# The frames of a memory map

Which frames a new pool has to give is said by the bytes of the regions alone.  A frame is free if it
lies wholly inside one usable region and no other region touches it (`Region.Contains`,
`Region.Touches`); all other bits of the bitmap are set, also those behind the last frame.

* `isUsed_releaseRegion`, `isUsed_reserveRegion`: what one region does to each bit;
* `unused_ofMap_iff`: what all of them leave free.
-/
import KernelCore.Frame.Pool

namespace KernelCore

namespace Region

variable {r : Region} {frame : Nat}

/-- The frame lies wholly inside the region. -/
def Contains (r : Region) (frame : Nat) : Prop :=
  r.base.toNat ≤ frame * pageSize ∧ (frame + 1) * pageSize ≤ r.stop

/-- Part of the frame may lie in the region. -/
def Touches (r : Region) (frame : Nat) : Prop :=
  r.base.toNat < (frame + 1) * pageSize ∧ frame * pageSize < r.stop

instance : Decidable (r.Contains frame) :=
  inferInstanceAs (Decidable (r.base.toNat ≤ frame * pageSize ∧ (frame + 1) * pageSize ≤ r.stop))

instance : Decidable (r.Touches frame) :=
  inferInstanceAs (Decidable (r.base.toNat < (frame + 1) * pageSize ∧ frame * pageSize < r.stop))

theorem inside_iff : r.firstInside ≤ frame ∧ frame < r.stopInside ↔ r.Contains frame := by
  simp only [firstInside, stopInside, pagesUp, Contains, pageSize]
  omega

theorem touched_iff : r.firstTouched ≤ frame ∧ frame < r.stopTouched ↔ r.Touches frame := by
  simp only [firstTouched, stopTouched, pagesUp, Touches, pageSize]
  omega

end Region

namespace FramePool

variable {total frame : Nat} {b : FrameBitmap} {map : MemoryMap}

/-! ## One region -/

/-- A usable region makes the tracked frames inside it free. -/
theorem isUsed_releaseRegion (ht : total ≤ maxFrames) (b : FrameBitmap) (r : Region) (frame : Nat) :
    (releaseRegion total b r).isUsed frame = false ↔
      b.isUsed frame = false ∨ frame < total ∧ r.Contains frame := by
  rw [← Region.inside_iff]
  unfold releaseRegion
  rcases Nat.lt_or_ge r.firstInside (min r.stopInside total) with hlt | hge
  · rw [FrameBitmap.isUsed_releaseRange _ _ _ _ (by omega), Bool.and_eq_false_iff,
      Bool.not_eq_false', decide_eq_true_iff, or_comm]
    exact or_congr_right (by omega)
  · rw [Nat.sub_eq_zero_of_le hge]
    exact (or_iff_left (by omega)).symm

/-- Any other region makes the tracked frames that it touches used. -/
theorem isUsed_reserveRegion (ht : total ≤ maxFrames) (b : FrameBitmap) (r : Region) (frame : Nat) :
    (reserveRegion total b r).isUsed frame = false ↔
      b.isUsed frame = false ∧ ¬(frame < total ∧ r.Touches frame) := by
  rw [← Region.touched_iff]
  unfold reserveRegion
  rcases Nat.lt_or_ge r.firstTouched (min r.stopTouched total) with hlt | hge
  · rw [FrameBitmap.isUsed_markRange _ _ _ _ (by omega), Bool.or_eq_false_iff,
      decide_eq_false_iff_not, and_comm]
    exact and_congr_right' (by omega)
  · rw [Nat.sub_eq_zero_of_le hge]
    exact (and_iff_left (by omega)).symm

/-! ## All regions -/

theorem isUsed_foldl_release (ht : total ≤ maxFrames) (frame : Nat) : ∀ (regions : MemoryMap)
    (b : FrameBitmap), (regions.foldl (releaseRegion total) b).isUsed frame = false ↔
      b.isUsed frame = false ∨ frame < total ∧ ∃ r ∈ regions, r.Contains frame
  | [], b => by simp
  | r :: regions, b => by
    rw [List.foldl_cons, isUsed_foldl_release ht frame regions, isUsed_releaseRegion ht, or_assoc,
      ← and_or_left]
    simp only [List.mem_cons, exists_eq_or_imp]

theorem isUsed_foldl_reserve (ht : total ≤ maxFrames) (frame : Nat) : ∀ (regions : MemoryMap)
    (b : FrameBitmap), (regions.foldl (reserveRegion total) b).isUsed frame = false ↔
      b.isUsed frame = false ∧ ∀ r ∈ regions, ¬(frame < total ∧ r.Touches frame)
  | [], b => by simp
  | r :: regions, b => by
    rw [List.foldl_cons, isUsed_foldl_reserve ht frame regions, isUsed_reserveRegion ht, and_assoc,
      List.forall_mem_cons]

/-- **The free frames of a memory map** lie wholly inside a usable region, and no other region touches
them. -/
theorem unused_ofMap_iff (map : MemoryMap) (frame : Nat) :
    (ofMap map).bitmap.isUsed frame = false ↔ frame < (ofMap map).total ∧
      (∃ r ∈ map, r.kind = .usable ∧ r.Contains frame) ∧
        ∀ r ∈ map, r.kind ≠ .usable → ¬r.Touches frame := by
  have ht : (ofMap map).total ≤ maxFrames := Nat.min_le_right _ _
  have husable : ∀ r, r ∈ map.filter Region.isUsable ↔ r ∈ map ∧ r.kind = .usable := by
    intro r
    rw [List.mem_filter, Region.isUsable, beq_iff_eq]
  have hother : ∀ r, r ∈ map.filter (fun r => !r.isUsable) ↔ r ∈ map ∧ r.kind ≠ .usable := by
    intro r
    rw [List.mem_filter, Region.isUsable, Bool.not_eq_true', beq_eq_false_iff_ne]
  show ((map.filter fun r => !r.isUsable).foldl (reserveRegion (ofMap map).total)
    ((map.filter Region.isUsable).foldl (releaseRegion (ofMap map).total) .full)).isUsed frame =
      false ↔ _
  rw [isUsed_foldl_reserve ht, isUsed_foldl_release ht, FrameBitmap.isUsed_full]
  simp only [husable, hother]
  constructor
  · rintro ⟨hfull | ⟨hlt, r, ⟨hr, hkind⟩, hin⟩, hnone⟩
    · cases hfull
    · exact ⟨hlt, ⟨r, hr, hkind, hin⟩, fun r' hr' hne htouch => hnone r' ⟨hr', hne⟩ ⟨hlt, htouch⟩⟩
  · rintro ⟨hlt, ⟨r, hr, hkind, hin⟩, hnone⟩
    exact ⟨Or.inr ⟨hlt, r, ⟨hr, hkind⟩, hin⟩, fun r' hr' htouch => hnone r' hr'.1 hr'.2 htouch.2⟩

end FramePool

end KernelCore
