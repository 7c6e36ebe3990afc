/-
# What the manager does to the pool

The manager reaches the frame pool in two ways only: it takes the next free frame, and it gives a frame
back.  So whatever an operation does, also one that is refused on the way, the pool that it leaves is
one that it traded with (`FramePool.Trades`), and what taking and giving keep, every operation keeps.

* `Mapper.trades_map`, `Mapper.trades_unmap`: pages;
* `Vm.trades_createSpaceWith`, `Vm.trades_destroySpace`: spaces;
* `Vm.trades_mapKernelRegion`: regions of the kernel's space.
-/
import KernelCore.Proofs.Frame.Counts
import KernelCore.Proofs.Paging.Accounting

namespace KernelCore

/-! ## 1. The mapper -/

namespace Mapper

variable {origin : FramePool} {s : Ram × AddressSpace} {page : Page} {leaf flags : Flags}

theorem trades_drawTable (h : origin.Trades s.1.pool) : Outcome (drawTable s)
    (fun _ s' => origin.Trades s'.1.pool) fun _ s' => origin.Trades s'.1.pool := by
  obtain ⟨ram, space⟩ := s
  unfold drawTable
  dsimp only
  split
  · exact h
  · next hok => exact h.take hok

theorem trades_descend (page : Page) (leaf : Flags) (table index : Nat) (h : origin.Trades s.1.pool) :
    Outcome (descend page leaf table index s)
      (fun _ s' => origin.Trades s'.1.pool) fun _ s' => origin.Trades s'.1.pool := by
  obtain ⟨ram, space⟩ := s
  unfold descend
  dsimp only
  split
  · exact (trades_drawTable h).bind fun _ _ h => h
  · split
    · exact h
    · exact h

/-- On the way down frames are only taken. -/
theorem trades_reach (page : Page) (leaf : Flags) (level : Nat) : ∀ {table : Nat}
    {s : Ram × AddressSpace}, origin.Trades s.1.pool → Outcome (reach page leaf level table s)
      (fun _ s' => origin.Trades s'.1.pool) fun _ s' => origin.Trades s'.1.pool := by
  induction level with
  | zero => exact fun h => h
  | succ level ih => exact fun h => (trades_descend page leaf _ _ h).bind fun _ _ h₁ => ih h₁

/-- **Mapping a page** trades with the pool, also when it is refused on the way. -/
theorem trades_map (page : Page) (frame : Nat) (flags : Flags) (h : origin.Trades s.1.pool) :
    Outcome (map page frame flags s)
      (fun _ s' => origin.Trades s'.1.pool) fun _ s' => origin.Trades s'.1.pool := by
  obtain ⟨ram, space⟩ := s
  unfold map
  dsimp only
  split
  · exact h
  · split
    · exact h
    · split
      · exact True.intro
      · refine (trades_reach page (flags.union .present) 3 h).bind fun table s₁ h₁ => ?_
        refine Outcome.bind (P := fun _ s₂ => origin.Trades s₂.1.pool) ?_ fun _ _ h₂ => by exact h₂
        unfold writeLeaf
        dsimp only
        split
        · exact h₁
        · split
          · exact True.intro
          · exact h₁

/-- So does taking a page out, whose frame is the caller's afterwards. -/
theorem trades_unmap (page : Page) (h : origin.Trades s.1.pool) : Outcome (unmap page s)
    (fun _ s' => origin.Trades s'.1.pool) fun _ s' => origin.Trades s'.1.pool := by
  obtain ⟨ram, space⟩ := s
  unfold unmap
  dsimp only
  split
  · split
    · exact h
    · exact h
  · exact h

end Mapper

/-! ## 2. The manager -/

namespace Vm

variable {origin : FramePool} {vm : Vm}

theorem trades_takeFrame (h : origin.Trades vm.ram.pool) : Outcome (takeFrame vm)
    (fun _ vm' => origin.Trades vm'.ram.pool) fun _ vm' => origin.Trades vm'.ram.pool := by
  unfold takeFrame
  split
  · exact h
  · next hok => exact h.take hok

theorem trades_giveFrame (frame : Nat) (h : origin.Trades vm.ram.pool) : Outcome (giveFrame frame vm)
    (fun _ vm' => origin.Trades vm'.ram.pool) fun _ vm' => origin.Trades vm'.ram.pool := by
  unfold giveFrame
  split
  · exact h
  · next hok => exact h.give hok

/-- Frames go back one at a time, up to the first that cannot. -/
theorem trades_releaseFrames : ∀ {frames : List Nat} {pool : FramePool}, origin.Trades pool →
    origin.Trades (releaseFrames frames pool).2
  | [], _, h => h
  | frame :: frames, pool, h => by
    unfold releaseFrames
    split
    · exact h
    · next hok => exact trades_releaseFrames (h.give hok)

/-- **Taking a space down** trades with the pool, also when some frame cannot go back. -/
theorem trades_destroySpace (space : AddressSpace) (h : origin.Trades vm.ram.pool) :
    Outcome (destroySpace space vm)
      (fun _ vm' => origin.Trades vm'.ram.pool) fun _ vm' => origin.Trades vm'.ram.pool := by
  have hreleased : origin.Trades (releaseFrames space.ownedFrames vm.ram.pool).2 :=
    trades_releaseFrames h
  unfold destroySpace
  split
  · exact h
  · dsimp only
    split
    · exact hreleased
    · exact hreleased

theorem trades_createSpace (h : origin.Trades vm.ram.pool) : Outcome (createSpace vm)
    (fun _ vm' => origin.Trades vm'.ram.pool) fun _ vm' => origin.Trades vm'.ram.pool := by
  unfold createSpace
  split
  · exact h
  · next hok => exact h.take hok

theorem trades_mapUserPage (page : Page) (frame : Nat) (space : AddressSpace)
    (h : origin.Trades vm.ram.pool) : Outcome (mapUserPage page frame (vm, space))
      (fun _ s => origin.Trades s.1.ram.pool) fun _ s => origin.Trades s.1.ram.pool := by
  have hmap : Outcome (onSpace (Mapper.map page frame .userData) (vm, space))
      (fun _ s => origin.Trades s.1.ram.pool) fun _ s => origin.Trades s.1.ram.pool :=
    Outcome.onSpace (Mapper.trades_map (s := (vm.ram, space)) page frame .userData h)
  unfold mapUserPage map
  match onSpace (Mapper.map page frame .userData) (vm, space), hmap with
  | .ok _ _, h => exact h
  | .error (.refused _) (_, _), h =>
    exact (Outcome.besideSpace (trades_giveFrame frame h)).bind fun _ _ h => Outcome.besideSpace h
  | .error (.halted _) _, _ => exact True.intro

theorem trades_furnish (page : Page) (space : AddressSpace) (h : origin.Trades vm.ram.pool) :
    Outcome (furnish page space vm)
      (fun _ vm' => origin.Trades vm'.ram.pool) fun _ vm' => origin.Trades vm'.ram.pool := by
  have hmap : Outcome ((onVm takeFrame >>= mapUserPage page) (vm, space))
      (fun _ s => origin.Trades s.1.ram.pool) fun _ s => origin.Trades s.1.ram.pool := by
    refine Outcome.bind (P := fun _ s => origin.Trades s.1.ram.pool)
      (Outcome.besideSpace (trades_takeFrame h)) fun frame s h₁ => ?_
    exact trades_mapUserPage page frame s.2 h₁
  unfold furnish
  match (onVm takeFrame >>= mapUserPage page) (vm, space), hmap with
  | .ok _ (_, _), h => exact h
  | .error (.refused _) (_, space'), h => exact (trades_destroySpace space' h).bind fun _ _ h => h
  | .error (.halted _) _, _ => exact True.intro

/-- **Making a space with a page in it** trades with the pool, also when the page cannot be mapped and the space
goes back. -/
theorem trades_createSpaceWith (page : Page) (h : origin.Trades vm.ram.pool) :
    Outcome (createSpaceWith page vm)
      (fun _ vm' => origin.Trades vm'.ram.pool) fun _ vm' => origin.Trades vm'.ram.pool :=
  (trades_createSpace h).bind fun space _ h₁ => trades_furnish page space h₁

/-- A page for the kernel is mapped, or its frame goes back. -/
theorem trades_mapKernelPage (page : Page) (frame : Nat) (h : origin.Trades vm.ram.pool) :
    Outcome (mapKernelPage page frame vm)
      (fun _ vm' => origin.Trades vm'.ram.pool) fun _ vm' => origin.Trades vm'.ram.pool := by
  have hmap : Outcome (onKernelSpace (Mapper.map page frame .kernelData) vm)
      (fun _ vm' => origin.Trades vm'.ram.pool) fun _ vm' => origin.Trades vm'.ram.pool :=
    Outcome.onKernelSpace (Mapper.trades_map (s := (vm.ram, vm.kernel)) page frame .kernelData h)
  unfold mapKernelPage
  match onKernelSpace (Mapper.map page frame .kernelData) vm, hmap with
  | .ok _ _, h => exact h
  | .error (.refused _) _, h => exact (trades_giveFrame frame h).bind fun _ _ h => h
  | .error (.halted _) _, _ => exact True.intro

/-- **Mapping a region** trades with the pool, also when it ends at a page that cannot be mapped. -/
theorem trades_mapKernelRegion (start : VirtAddr) (length : Nat) (h : origin.Trades vm.ram.pool) :
    Outcome (mapKernelRegion start length vm)
      (fun _ vm' => origin.Trades vm'.ram.pool) fun _ vm' => origin.Trades vm'.ram.pool := by
  refine outcome_mapKernelRegion (P := fun vm => origin.Trades vm.ram.pool) (fun page vm h => ?_) start
    length h
  exact (trades_takeFrame h).bind fun frame _ h₁ => trades_mapKernelPage page frame h₁

end Vm

end KernelCore
