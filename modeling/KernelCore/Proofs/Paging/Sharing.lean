/-
# What user spaces have of the kernel's half

A user space has a root table of its own, in which the entries of the upper half are the kernel's, taken
over when the space is made.  So it shares with the kernel's space the tables that the kernel had by then,
with all that is mapped under them later, and it does not see what comes under a root entry that was not
in use then.  That is so whether the kernel booted alone or took over what a boot loader left:

* `World.Since.shares`: what is in the upper half of a user space's root is what was in the kernel's when
  the space was made, and the kernel's root leads there still;
* `World.sharedHalf_of_reaches`: so an upper address leads where it leads in the kernel's space, if the
  kernel's root had an entry for it when the space was made, and nowhere if it had none;
* `World.unsharedHalf_sixFrames`: and the second does happen.
-/
import KernelCore.Proofs.Paging.Handover
import KernelCore.Proofs.Paging.Refinement

namespace KernelCore

namespace World

variable {map : MemoryMap} {bootRoot : Option Nat} {root : Nat} {w w' w₀ : World} {g : Guest}

/-! ## 1. Since a space was made -/

/-- In a run that has come to a world, the user space with the given root was made by a call in the world
`w₀`, and it has been there since. -/
inductive Since (map : MemoryMap) (bootRoot : Option Nat) (w₀ : World) : World → Nat → Prop where
  | made {w : World} {g : Guest} : ReachesOn map bootRoot w₀ → w₀.Step w → g ∈ w.guests →
      (∀ g₀ ∈ w₀.guests, g₀.space.root ≠ g.space.root) → Since map bootRoot w₀ w g.space.root
  | stays {w w' : World} {g : Guest} : Since map bootRoot w₀ w g.space.root → w.Step w' → g ∈ w'.guests →
      Since map bootRoot w₀ w' g.space.root

theorem Since.reaches (h : Since map bootRoot w₀ w root) : ReachesOn map bootRoot w := by
  induction h with
  | made hr hstep _ _ => exact hr.step hstep
  | stays _ hstep _ ih => exact ih.step hstep

theorem Since.reaches_start (h : Since map bootRoot w₀ w root) : ReachesOn map bootRoot w₀ := by
  induction h with
  | made hr _ _ _ => exact hr
  | stays _ _ _ ih => exact ih

theorem Since.lives (h : Since map bootRoot w₀ w root) : ∃ g ∈ w.guests, g.space.root = root := by
  cases h with
  | made _ _ hg _ => exact ⟨_, hg, rfl⟩
  | stays _ _ hg => exact ⟨_, hg, rfl⟩

/-- **Every user space was made at some time.** -/
theorem exists_since (hr : ReachesOn map bootRoot w) :
    ∀ g ∈ w.guests, ∃ w₀, Since map bootRoot w₀ w g.space.root := by
  induction hr with
  | boot => exact fun g hg => absurd hg List.not_mem_nil
  | @step w _ hr hstep ih =>
    intro g' hg'
    by_cases hold : ∃ g ∈ w.guests, g.space.root = g'.space.root
    · obtain ⟨g, hg, hroot⟩ := hold
      obtain ⟨w₀, hsince⟩ := ih g hg
      rw [hroot] at hsince
      exact ⟨w₀, hsince.stays hstep hg'⟩
    · exact ⟨_, .made hr hstep hg' fun g₀ hg₀ heq => hold ⟨g₀, hg₀, heq⟩⟩

/-- What a user space made in `w₀` has of the kernel's root: what was in it then, and that leads where it
did. -/
structure Shares (w₀ w : World) (root : Nat) : Prop where
  kernel : w.vm.kernel.root = w₀.vm.kernel.root
  copied : ∀ {h : Page}, h.isUpper = true →
    rootEntry w.vm root h = rootEntry w₀.vm w₀.vm.kernel.root h
  leads : ∀ {h : Page} {t}, (rootEntry w₀.vm w₀.vm.kernel.root h).LeadsTo (some t) →
    (rootEntry w.vm w.vm.kernel.root h).LeadsTo (some t)

theorem Since.shares (h : Since map bootRoot w₀ w root) : Shares w₀ w root := by
  induction h with
  | made hr hstep hg hnew =>
    have hkeeps := hr.evolves_of_step hstep
    refine ⟨hkeeps.root, fun hp => ?_, fun hlead => hkeeps.root ▸ hkeeps.leads hlead⟩
    rcases hkeeps.origin _ hg with ⟨g₀, hg₀, heq⟩ | hcopied
    · exact absurd heq (hnew g₀ hg₀)
    · exact hcopied hp
  | stays hsince hstep _ ih =>
    have hkeeps := hsince.reaches.evolves_of_step hstep
    obtain ⟨g, hg, hroot⟩ := hsince.lives
    refine ⟨hkeeps.root.trans ih.kernel, fun hp => ?_,
      fun hlead => hkeeps.root ▸ hkeeps.leads (ih.leads hlead)⟩
    rw [← ih.copied hp, ← hroot]
    exact hkeeps.upper g hg hp

/-- **An upper address in a user space** leads where it leads in the kernel's space, or nowhere if the
kernel's root had no entry for it when the space was made. -/
theorem Shares.translate_eq (hs : Shares w₀ w root) (h₀ : ReachesOn map bootRoot w₀) {a : VirtAddr}
    (ha : 2 ^ 47 ≤ a.val) : w.vm.ram.memory.translate root a =
      if rootEntry w₀.vm w₀.vm.kernel.root (.containing a) = .unused then .ok none
      else w.vm.ram.memory.translate w.vm.kernel.root a := by
  have hupper := Page.isUpper_containing ha
  rcases h₀.rootEntry_cases (.containing a) with hunused | ⟨table, hlead⟩
  · rw [if_pos hunused]
    exact Memory.translate_of_unused ((hs.copied hupper).trans hunused)
  · rw [if_neg (Entry.ne_unused hlead.1), Memory.translate_of_leadsTo (hs.leads hlead)]
    have hcopied : (rootEntry w.vm root (.containing a)).LeadsTo (some table) := by
      rw [hs.copied hupper]
      exact hlead
    exact Memory.translate_of_leadsTo hcopied

/-- **What a user space has of the kernel's half**, in every world that callers can get to after booting, on
what a boot loader left or alone: it was made at some time, and whenever that was, an upper address leads
where it leads in the kernel's space if the kernel's root had an entry for it then, and nowhere otherwise. -/
theorem sharedHalf_of_reaches (hr : ReachesOn map bootRoot w) (hg : g ∈ w.guests) :
    (∃ w₀, Since map bootRoot w₀ w g.space.root) ∧
      ∀ w₀, Since map bootRoot w₀ w g.space.root → ∀ a : VirtAddr, 2 ^ 47 ≤ a.val →
        w.vm.translate g.space a =
          if rootEntry w₀.vm w₀.vm.kernel.root (.containing a) = .unused then .ok none
          else w.vm.translate w.vm.kernel a :=
  ⟨exists_since hr g hg, fun _ hsince _ ha =>
    hsince.shares.translate_eq hsince.reaches_start ha⟩

/-! ## 2. A region that is not shared -/

/-- The first address of the upper half. -/
def firstUpper : VirtAddr := ⟨2 ^ 64 - 2 ^ 47, by decide⟩

theorem isUpper_firstUpper : (Page.containing firstUpper).isUpper = true :=
  Page.isUpper_containing (by decide)

theorem next_firstUpper : (Page.containing firstUpper).next =
    .ok (some (.containing ⟨2 ^ 64 - 2 ^ 47 + pageSize, by decide⟩)) :=
  Page.next_eq (by decide)

/-- A user space is made, and then the first page of the upper half is mapped in the kernel's space: an
address in it leads into the third frame there, and nowhere in the user space. -/
theorem exists_unshared : ∃ w g, Reaches sixFrames w ∧ g ∈ w.guests ∧
    w.vm.translate g.space firstUpper = .ok none ∧
    w.vm.translate w.vm.kernel firstUpper = .ok (some ⟨2 * pageSize, Flags.kernelData.inForce⟩) := by
  obtain ⟨htotal, hfresh⟩ := fresh_sixFrames
  obtain ⟨pool₀, hroot, htotal₀, hfresh₀⟩ := hfresh.exists_allocate (by omega)
  obtain ⟨pool₁, hcreate, htotal₁, hfresh₁⟩ := hfresh₀.exists_allocate (by omega)
  obtain ⟨pool₂, htake, -, -⟩ := hfresh₁.exists_allocate (by omega)
  obtain ⟨root, _, memory, hroot', h, hunused⟩ := exists_supplied five_lt_free_sixFrames
  cases hroot.symm.trans hroot'
  have hr₀ := reachesOn_none_iff.mpr h.reaches
  obtain ⟨root', _, memory', w₁, hcreate', hcreated, rfl, h⟩ := h.exists_create
  cases hcreate.symm.trans hcreate'
  -- The kernel's root has no entry for the page when the space is made.
  have hmade : Since sixFrames none _ _ 1 := .made (g := ⟨.ofRoot .user 1, fun _ => .none⟩) hr₀
    ⟨.create, True.intro, Or.inl ⟨_, hcreated⟩⟩ List.mem_cons_self nofun
  obtain ⟨frame, _, ram, space, w, htake', hregion, rfl, hframe, h⟩ :=
    h.exists_mapRegion isUpper_firstUpper next_firstUpper rfl
  cases htake.symm.trans htake'
  have hsince := hmade.stays (g := ⟨.ofRoot .user 1, fun _ => .none⟩)
    ⟨.mapRegion firstUpper 1, True.intro, Or.inl ⟨_, hregion⟩⟩ List.mem_cons_self
  refine ⟨_, ⟨.ofRoot .user 1, fun _ => .none⟩, h.reaches, List.mem_cons_self, ?_, ?_⟩
  · have htranslate := hsince.shares.translate_eq hr₀ (a := firstUpper) (by decide)
    exact htranslate.trans (if_pos (hunused _))
  · have hright := (sound_of_reaches h.reaches).kernel
    have haccepts := (accepts_kernel hright.1).trans isUpper_firstUpper
    have hfollows := hright.follows haccepts 0 firstUpper (by decide) rfl
    rwa [hframe] at hfollows

/-- So the kernel's half is not the same in every space, in every world that callers can get to. -/
theorem unsharedHalf_sixFrames : ¬ ∀ (map : MemoryMap) (w : World) (g : Guest) (a : VirtAddr),
    Reaches map w → g ∈ w.guests → 2 ^ 47 ≤ a.val →
      w.vm.translate g.space a = w.vm.translate w.vm.kernel a := by
  intro hsame
  obtain ⟨w, g, hr, hg, hguest, hkernel⟩ := exists_unshared
  have heq := hsame _ w g firstUpper hr hg (by decide)
  rw [hguest, hkernel] at heq
  cases heq

/-! ## 3. What a boot loader left -/

/-- The first address under the last entry of a root. -/
def lastSlot : VirtAddr := ⟨2 ^ 64 - 2 ^ 39, by decide⟩

/-- The large mapping of the first frames, for the kernel. -/
def largePage : Entry := .ofFrame 0 ((Flags.present.union .writable).union .huge)

/-- A boot loader's root in frame 6: its last entry leads to the table in frame 7, and there the first entry
is the large mapping. -/
def bootMemory : Memory :=
  (Memory.zero.setEntry 6 511 (.ofFrame 7 (.union .present .writable))).setEntry 7 0 largePage

theorem entry_bootMemory {i : Nat} (hi : i < tableEntries) :
    (bootMemory.entry 6 i = if i = 511 then .ofFrame 7 (.union .present .writable) else .unused) ∧
      bootMemory.entry 7 i = if i = 0 then largePage else .unused := by
  unfold bootMemory
  constructor
  · rw [Memory.entry_setEntry_of_ne _ _ _ _ _ _ (by decide) hi (by omega)]
    split
    · next h => rw [h, Memory.entry_setEntry_self]
    · rw [Memory.entry_setEntry_of_ne _ _ _ _ _ _ (by decide) hi (by omega), Memory.entry_zero]
  · split
    · next h => rw [h, Memory.entry_setEntry_self]
    · rw [Memory.entry_setEntry_of_ne _ _ _ _ _ _ (by decide) hi (by omega),
        Memory.entry_setEntry_of_ne _ _ _ _ _ _ (by decide) hi (by omega), Memory.entry_zero]

theorem leadsTo_bootTable : (Entry.ofFrame 7 (.union .present .writable)).LeadsTo (some 7) :=
  Entry.leadsTo_ofFrame (by decide) (by decide) (by decide)

/-- The frames 6 and 7 are beyond those of the memory map. -/
theorem bootTables_bootMemory : BootTables sixFrames bootMemory 6 fun l t => l = 2 ∧ t = 7 := by
  have hused : ∀ {f}, 6 ≤ f → (FramePool.ofMap sixFrames).isUsed f = true := fun hf =>
    (Bool.or_eq_true _ _).mpr (Or.inl (decide_eq_true (fresh_sixFrames.1 ▸ hf)))
  refine ⟨fun {i} _ hi => ?_, ?_, fun h h' => h.1.trans h'.1.symm, ?_, hused (by decide)⟩
  · rw [(entry_bootMemory hi).1]
    split
    · exact ⟨by decide, Or.inr (Or.inr ⟨7, leadsTo_bootTable, rfl, rfl⟩)⟩
    · exact ⟨rfl, Or.inl rfl⟩
  · rintro l t i - ⟨-, rfl⟩ hi
    rw [(entry_bootMemory hi).2]
    split
    · exact Or.inr (Or.inl (by decide))
    · exact Or.inl rfl
  · rintro l t ⟨-, rfl⟩
    exact hused (by decide)

/-- An address of the large mapping. -/
theorem translateFrom_lastSlot {m : Memory} (h : m.entry 7 0 = largePage) :
    m.translateFrom lastSlot 2 7 = .ok (some ⟨0, largePage.flags⟩) := by
  have hindex : lastSlot.index 2 = 0 := by decide
  unfold Memory.translateFrom
  dsimp only
  rw [hindex, h]
  rfl

/-- The kernel takes these tables over, with its root in the first frame. -/
theorem exists_booted_bootMemory : ∃ memory pool pool',
    ReachesOn sixFrames (some 6) ⟨⟨⟨memory, pool⟩, .ofRoot .kernel 0, none, false⟩, [], []⟩ ∧
      pool.allocate = .ok (1, pool') ∧ memory.entry 7 0 = largePage ∧
        ∀ {i}, Page.upperHalfIndex ≤ i → i < tableEntries →
          memory.entry 0 i = if i = 511 then .ofFrame 7 (.union .present .writable) else .unused := by
  obtain ⟨htotal, hfresh⟩ := fresh_sixFrames
  obtain ⟨pool, hroot, htotal', hfresh'⟩ := hfresh.exists_allocate (by omega)
  obtain ⟨pool', hnext, -, -⟩ := hfresh'.exists_allocate (by omega)
  obtain ⟨memory, hmemory⟩ : ∃ memory, memory = (bootMemory.clearPage 0).copyUpperHalf 6 0 := ⟨_, rfl⟩
  have hboot : Vm.boot ⟨bootMemory, .ofMap sixFrames⟩ (some 6) =
      .ok ⟨⟨memory, pool⟩, .ofRoot .kernel 0, none, false⟩ := by
    unfold Vm.boot
    rw [hroot, hmemory]
  have hleft : ∀ source ∈ some 6, ∃ K, BootTables sixFrames bootMemory source K :=
    fun source hsource => Option.mem_some_iff.mp hsource ▸ ⟨_, bootTables_bootMemory⟩
  refine ⟨memory, pool, pool', .boot .start hleft hboot, hnext, ?_, fun {i} hle hi => ?_⟩
  · rw [hmemory, (Memory.sameFrame_newRoot bootMemory 6 (by decide)).entry_eq (by decide)]
    exact (entry_bootMemory (by decide)).2
  · rw [hmemory, Memory.entry_newRoot_of_le _ (by decide) hle hi]
    exact (entry_bootMemory hi).1

/-- Then a user space is made: the large mapping is found under the last entry of the kernel's root, and the
first entry of the upper half is not in use. -/
theorem exists_takenOver : ∃ w₀ w g, Since sixFrames (some 6) w₀ w g.space.root ∧ g ∈ w.guests ∧
    rootEntry w₀.vm w₀.vm.kernel.root (.containing lastSlot) ≠ .unused ∧
    rootEntry w₀.vm w₀.vm.kernel.root (.containing firstUpper) = .unused ∧
    w.vm.translate w.vm.kernel lastSlot = .ok (some ⟨0, largePage.flags⟩) := by
  obtain ⟨memory, pool, pool', hr₀, hnext, hlarge, hentry⟩ := exists_booted_bootMemory
  have hlast : (memory.entry 0 ((Page.containing lastSlot).index 3)).LeadsTo (some 7) := by
    rw [hentry (by decide) (by decide), if_pos (by decide)]
    exact leadsTo_bootTable
  have hfirst : memory.entry 0 ((Page.containing firstUpper).index 3) = .unused := by
    rw [hentry (by decide) (by decide), if_neg (by decide)]
  obtain ⟨memory', hmemory'⟩ : ∃ memory', memory' = (memory.clearPage 1).copyUpperHalf 0 1 := ⟨_, rfl⟩
  have hcreated := run_create_of_allocate (w := ⟨⟨⟨memory, pool⟩, .ofRoot .kernel 0, none, false⟩, [], []⟩)
    hnext hmemory'
  have hsince : Since sixFrames (some 6) _ _ 1 := .made (g := ⟨.ofRoot .user 1, fun _ => .none⟩) hr₀
    ⟨.create, True.intro, Or.inl ⟨_, hcreated⟩⟩ List.mem_cons_self nofun
  have hlarge' : memory'.entry 7 0 = largePage := by
    rw [hmemory', (Memory.sameFrame_newRoot memory 0 (by decide)).entry_eq (by decide)]
    exact hlarge
  refine ⟨_, _, ⟨.ofRoot .user 1, fun _ => .none⟩, hsince, List.mem_cons_self, Entry.ne_unused hlast.1,
    hfirst, ?_⟩
  exact (Memory.translate_of_leadsTo (hsince.shares.leads hlast)).trans (translateFrom_lastSlot hlarge')

/-- The user space of a kernel that took the tables over has the large mapping, and nothing at the first
address of the upper half; the other user space was made when the kernel's root had no entry there. -/
theorem sharedHalf_sixFrames : (∃ w g, (ReachesOn sixFrames (some 6) w ∧ g ∈ w.guests) ∧
      (∃ w₀, Since sixFrames (some 6) w₀ w g.space.root) ∧
        w.vm.translate g.space lastSlot = .ok (some ⟨0, largePage.flags⟩) ∧
          w.vm.translate g.space firstUpper = .ok none) ∧
    ∃ w g, (ReachesOn sixFrames none w ∧ g ∈ w.guests) ∧
      w.vm.translate w.vm.kernel firstUpper = .ok (some ⟨2 * pageSize, Flags.kernelData.inForce⟩) ∧
        ∀ w₀, Since sixFrames none w₀ w g.space.root →
          rootEntry w₀.vm w₀.vm.kernel.root (.containing firstUpper) = .unused := by
  constructor
  · obtain ⟨w₀, w, g, hsince, hg, hused, hunused, hkernel⟩ := exists_takenOver
    obtain ⟨hmade, htranslate⟩ := sharedHalf_of_reaches hsince.reaches hg
    have hlast := htranslate w₀ hsince lastSlot (by decide)
    have hfirst := htranslate w₀ hsince firstUpper (by decide)
    rw [if_neg hused, hkernel] at hlast
    rw [if_pos hunused] at hfirst
    exact ⟨w, g, ⟨hsince.reaches, hg⟩, hmade, hlast, hfirst⟩
  · obtain ⟨w, g, hr, hg, hguest, hkernel⟩ := exists_unshared
    have hr := reachesOn_none_iff.mpr hr
    obtain ⟨-, htranslate⟩ := sharedHalf_of_reaches hr hg
    refine ⟨w, g, ⟨hr, hg⟩, hkernel, fun w₀ hsince => ?_⟩
    have heq := htranslate w₀ hsince firstUpper (by decide)
    by_contra hused
    rw [if_neg hused, hguest, hkernel] at heq
    cases heq

end World

end KernelCore
