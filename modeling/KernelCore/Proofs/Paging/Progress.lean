/-
# Calls that are done

A call is refused for want of frames, or for what the record of a space says.  Where the record says
nothing against it and frames are left, it is done, and what it comes to can be said without looking into
memory.  So a run is put together call by call, with an account of the frames that are left:

* `Mapper.exists_map_of_free`: mapping a page takes a table of each lower level at most;
* `World.Supplied`: a world that callers can get to, with so many frames left;
* `World.exists_supplied`, `Supplied.exists_takeFrame`, `exists_create`, `exists_map`, `exists_mapRegion`:
  the manager boots, and each of these calls is done.
-/
import KernelCore.Proofs.Frame.Supply
import KernelCore.Proofs.Paging.World

namespace KernelCore

/-! ## 1. Mapping while frames are left -/

namespace Mapper

variable {base frame n : Nat} {others : List Nat} {s s' : Ram × AddressSpace} {page : Page} {flags : Flags}
  {asked : Page → Flags} {τ : Tables}

/-- The frames that are left, those used at the start, those of the space and those of the others make up
all frames. -/
theorem Books.free_add (hb : Books base others s) :
    s.1.pool.free + base + s.2.frameCount + others.length = s.1.pool.total := by
  have hcount := FramePool.Holds.count hb
  rw [List.length_append, AddressSpace.length_ownedFrames] at hcount
  omega

/-- **A page is mapped while frames are left** for its tables: one for each lower level at most. -/
theorem exists_map_of_free (hb : Books base (frame :: others) s) (hr : s.1.pool.Regular)
    (ht : Tree s.1.memory s.2 asked τ) (hg : s.2.accepts page = true) (hnone : s.2.frameAt? page = none)
    (hflags : flags.contains .huge = false) (hfree : n + 3 ≤ s.1.pool.free) :
    ∃ s', map page frame flags s = .ok () s' ∧ s'.1.pool.Regular ∧ n ≤ s'.1.pool.free ∧
      ∀ g, s'.2.frameAt? g = if g = page then some frame else s.2.frameAt? g := by
  have hframe : frame < 2 ^ 40 := Nat.lt_trans
    (FramePool.Holds.lt_maxFrames hb (List.mem_append_right _ List.mem_cons_self)) (by decide)
  have hmissing : (τ.missing page (Finset.range 3)).card ≤ 3 := by
    have hle := Tables.card_missing_le τ page (Finset.range 3)
    rwa [Finset.card_range] at hle
  have hbefore := hb.free_add
  have hmap : Outcome (map page frame flags s) _ _ := (books_map page frame flags hb).and
    ((draws_map hb ht hframe).and (trades_map page frame flags .refl))
  rcases hmap.ends (neverHalts_map page hframe hflags s) with
    ⟨_, s', hok, ⟨hb', -, hsame⟩, ⟨hmaps, τ', -, hdraws⟩, htrades⟩ |
    ⟨e, s', -, ⟨hb', hsame⟩, ⟨hrefuses, -, -, hshort⟩, htrades⟩
  · refine ⟨s', hok, htrades.regular hr, ?_, hmaps.pages⟩
    have hafter := hb'.free_add
    have hcount := hdraws.count
    have hpages : s'.2.pages.length = s.2.pages.length + 1 :=
      (congrArg List.length hsame.pages).trans (AddressSpace.insertPage_perm frame hnone).length_eq
    have htotal := htrades.total
    simp only [AddressSpace.frameCount, List.length_cons] at hbefore hafter
    omega
  · -- It could only be refused for want of frames, and then three have been taken.
    exfalso
    cases hrefuses with
    | outOfRange hrange => cases hg.symm.trans hrange
    | alreadyMapped _ hsome => cases (Option.isSome_iff_ne_none.mp hsome) hnone
    | outOfMemory _ _ hdry =>
      have hdry := (htrades.regular hr).exhausted_iff.mp hdry
      have hafter := hb'.free_add
      have hshort := hshort rfl
      have hpages := congrArg List.length hsame.pages
      have htotal := htrades.total
      simp only [AddressSpace.frameCount, FallsShort, List.length_cons] at hbefore hafter hshort
      omega

end Mapper

/-! ## 2. What calls come to -/

namespace World

variable {map : MemoryMap} {i frame n : Nat} {w : World} {g : Guest} {page : Page} {flags : Flags}

theorem given_of_some {β : Type} {what : World → Option β} {op : β → Op (Option Nat)} {b : β}
    (hb : what w = some b) : given what op w = op b w := by
  unfold given
  rw [hb]

/-- An operation of the mapper on a user space, and what comes after it. -/
theorem onGuest_bind {α : Type} (i : Nat) (g : Guest) (asked : Page → Flags) (op : Mapper α)
    (f : α → Op (Option Nat)) (w : World) : (onGuest i g asked (Vm.onSpace op) >>= f) w =
      match op (w.vm.ram, g.space) with
      | .ok a (ram, space) => f a ⟨{ w.vm with ram }, w.guests.set i ⟨space, asked⟩, w.held⟩
      | .error stop (ram, space) =>
        .error stop ⟨{ w.vm with ram }, w.guests.set i ⟨space, g.asked⟩, w.held⟩ := by
  cases hop : op (w.vm.ram, g.space) with
  | ok a s =>
    refine bind_of_ok ?_
    unfold onGuest Vm.onSpace
    simp only [hop]
  | error stop s =>
    refine bind_of_error ?_
    unfold onGuest Vm.onSpace
    simp only [hop]

theorem run_map_eq (hi : guest? i w = some g) (page : Page) (frame : Nat) (flags : Flags) :
    PagingCall.run (.map i page frame flags) w =
      match Mapper.map page frame flags (w.vm.ram, g.space) with
      | .ok _ (ram, space) => .ok none ⟨{ w.vm with ram },
          w.guests.set i ⟨space, Mapper.ask g.asked page flags⟩, w.held.erase frame⟩
      | .error stop (ram, space) =>
        .error stop ⟨{ w.vm with ram }, w.guests.set i ⟨space, g.asked⟩, w.held⟩ := by
  refine (given_of_some hi).trans ((onGuest_bind i g _ (Mapper.map page frame flags) _ w).trans ?_)
  cases Mapper.map page frame flags (w.vm.ram, g.space) with
  | ok => rfl
  | error => rfl

theorem run_unmap_eq (hi : guest? i w = some g) (page : Page) :
    PagingCall.run (.unmap i page) w =
      match Mapper.unmap page (w.vm.ram, g.space) with
      | .ok frame (ram, space) => .ok (some frame) ⟨{ w.vm with ram },
          w.guests.set i ⟨space, g.asked⟩, frame :: w.held⟩
      | .error stop (ram, space) =>
        .error stop ⟨{ w.vm with ram }, w.guests.set i ⟨space, g.asked⟩, w.held⟩ := by
  refine (given_of_some hi).trans ((onGuest_bind i g _ (Mapper.unmap page) _ w).trans ?_)
  cases Mapper.unmap page (w.vm.ram, g.space) with
  | ok => rfl
  | error => rfl

/-- A space is made if there is a free frame for its root. -/
theorem run_create_of_allocate {root : Nat} {pool : FramePool} {memory : Memory}
    (hok : w.vm.ram.pool.allocate = .ok (root, pool))
    (hmemory : memory = (w.vm.ram.memory.clearPage root).copyUpperHalf w.vm.kernel.root root) :
    PagingCall.run .create w = .ok none ⟨{ w.vm with ram := ⟨memory, pool⟩ },
      w.guests ++ [⟨.ofRoot .user root, fun _ => .none⟩], w.held⟩ := by
  have hmade : onVm Vm.createSpace w =
      .ok (.ofRoot .user root) { w with vm := { w.vm with ram := ⟨memory, pool⟩ } } := by
    unfold onVm Vm.createSpace
    rw [hok, hmemory]
  exact bind_of_ok hmade

/-- A region of one page is mapped if the page can be mapped to the next free frame. -/
theorem run_mapRegion_of_page {a : VirtAddr} {next : Page} {pool : FramePool} {s : Ram × AddressSpace}
    (hnext : (Page.containing a).next = .ok (some next)) (htake : w.vm.ram.pool.allocate = .ok (frame, pool))
    (hmap : Mapper.map (.containing a) frame .kernelData (⟨w.vm.ram.memory, pool⟩, w.vm.kernel) = .ok () s) :
    PagingCall.run (.mapRegion a 1) w =
      .ok none { w with vm := { w.vm with ram := s.1, kernel := s.2 } } := by
  have hfresh : Vm.mapFresh (.containing a) w.vm = .ok () { w.vm with ram := s.1, kernel := s.2 } := by
    refine (bind_of_ok (Vm.takeFrame_of_ok htake)).trans ?_
    unfold Vm.mapKernelPage Vm.onKernelSpace
    rw [hmap]
  have hcount : Vm.pageCount a a = 1 := Nat.add_sub_cancel_left _ _
  have hpages : Vm.mapFreshPages 1 (.containing a) w.vm = .ok () { w.vm with ram := s.1, kernel := s.2 } := by
    unfold Vm.mapFreshPages
    rw [hnext]
    exact bind_of_ok hfresh
  have hregion : Vm.mapKernelRegion a 1 w.vm = .ok 1 { w.vm with ram := s.1, kernel := s.2 } := by
    unfold Vm.mapKernelRegion
    rw [if_neg (by decide), Nat.sub_self, VirtAddr.advance_eq (Nat.add_zero a.val)]
    dsimp only
    rw [hcount]
    exact bind_of_ok hpages
  have hmapped : onVm (Vm.mapKernelRegion a 1) w =
      .ok 1 { w with vm := { w.vm with ram := s.1, kernel := s.2 } } := by
    unfold onVm
    rw [hregion]
  exact bind_of_ok hmapped

/-! ## 3. Worlds with frames left -/

/-- **Callers can get to the world**, and so many frames are left there. -/
structure Supplied (map : MemoryMap) (n : Nat) (w : World) : Prop where
  reaches : Reaches map w
  regular : w.vm.ram.pool.Regular
  free : n ≤ w.vm.ram.pool.free

/-- **The manager boots** if there is a frame for its root, and nothing is mapped then. -/
theorem exists_supplied (hfree : n < (FramePool.ofMap map).free) : ∃ root pool memory,
    (FramePool.ofMap map).allocate = .ok (root, pool) ∧
      Supplied map n ⟨⟨⟨memory, pool⟩, .ofRoot .kernel root, none, false⟩, [], []⟩ ∧
        ∀ page : Page, memory.entry root (page.index 3) = .unused := by
  obtain ⟨root, pool, hok, hregular, hleft⟩ := (FramePool.Regular.ofMap map).exists_allocate_of_lt hfree
  have hboot : Vm.boot ⟨.zero, .ofMap map⟩ none =
      .ok ⟨⟨Memory.zero.clearPage root, pool⟩, .ofRoot .kernel root, none, false⟩ := by
    unfold Vm.boot
    rw [hok]
  exact ⟨root, pool, _, hok, ⟨.boot .start hboot, hregular, hleft⟩, fun page =>
    Memory.entry_clearPage_self (page.index_lt 3)⟩

namespace Supplied

/-- **A frame is taken.** -/
theorem exists_takeFrame (h : Supplied map (n + 1) w) : ∃ frame pool,
    w.vm.ram.pool.allocate = .ok (frame, pool) ∧
      Supplied map n ⟨{ w.vm with ram := ⟨w.vm.ram.memory, pool⟩ }, w.guests, frame :: w.held⟩ := by
  obtain ⟨frame, pool, hok, hregular, hleft⟩ := h.regular.exists_allocate_of_lt h.free
  have htook : onVm Vm.takeFrame w =
      .ok frame { w with vm := { w.vm with ram := ⟨w.vm.ram.memory, pool⟩ } } := by
    unfold onVm
    rw [Vm.takeFrame_of_ok hok]
  have hallowed : PagingCall.Allowed w .takeFrame := True.intro
  exact ⟨frame, pool, hok, .done h.reaches hallowed (bind_of_ok htook), hregular, hleft⟩

/-- **A user space is made.** -/
theorem exists_create (h : Supplied map (n + 1) w) : ∃ root pool memory w',
    w.vm.ram.pool.allocate = .ok (root, pool) ∧ PagingCall.run .create w = .ok none w' ∧
      w' = ⟨{ w.vm with ram := ⟨memory, pool⟩ }, w.guests ++ [⟨.ofRoot .user root, fun _ => .none⟩], w.held⟩ ∧
        Supplied map n w' := by
  obtain ⟨root, pool, hok, hregular, hleft⟩ := h.regular.exists_allocate_of_lt h.free
  obtain ⟨memory, hmemory⟩ : ∃ memory,
    memory = (w.vm.ram.memory.clearPage root).copyUpperHalf w.vm.kernel.root root := ⟨_, rfl⟩
  have hrun := run_create_of_allocate hok hmemory
  have hallowed : PagingCall.Allowed w .create := True.intro
  exact ⟨root, pool, memory, _, hok, hrun, rfl, .done h.reaches hallowed hrun, hregular, hleft⟩

/-- **A page of a user space is mapped** to a frame that is held, if nothing is mapped there. -/
theorem exists_map (h : Supplied map (n + 3) w) (hi : guest? i w = some g) (hframe : frame ∈ w.held)
    (hlower : page.isUpper = false) (hnone : g.space.frameAt? page = none)
    (hflags : flags.contains .huge = false) : ∃ ram space,
      (∀ q, space.frameAt? q = if q = page then some frame else g.space.frameAt? q) ∧
        Supplied map n ⟨{ w.vm with ram }, w.guests.set i ⟨space, Mapper.ask g.asked page flags⟩,
          w.held.erase frame⟩ := by
  have hsound := sound_of_reaches h.reaches
  obtain ⟨hkind, τ, ht⟩ := hsound.guests g (List.mem_of_getElem? hi)
  have haccepts : g.space.accepts page = true := (accepts_user hkind).trans (congrArg (!·) hlower)
  obtain ⟨s, hmap, hregular, hleft, hpages⟩ := Mapper.exists_map_of_free (hsound.books_aside hi hframe)
    h.regular ht haccepts hnone hflags h.free
  have hrun := run_map_eq hi page frame flags
  rw [hmap] at hrun
  have hallowed : PagingCall.Allowed w (.map i page frame flags) := ⟨hframe, hflags⟩
  exact ⟨s.1, s.2, hpages, .done h.reaches hallowed hrun, hregular, hleft⟩

/-- **A region of one page is mapped**, if the page is not mapped. -/
theorem exists_mapRegion (h : Supplied map (n + 4) w) {a : VirtAddr} {next : Page}
    (hupper : (Page.containing a).isUpper = true) (hnext : (Page.containing a).next = .ok (some next))
    (hnone : w.vm.kernel.frameAt? (.containing a) = none) : ∃ frame pool ram space w',
      w.vm.ram.pool.allocate = .ok (frame, pool) ∧ PagingCall.run (.mapRegion a 1) w = .ok none w' ∧
        w' = { w with vm := { w.vm with ram, kernel := space } } ∧
          space.frameAt? (.containing a) = some frame ∧ Supplied map n w' := by
  have hsound := sound_of_reaches h.reaches
  obtain ⟨hkind, τ, ht⟩ := hsound.kernel
  obtain ⟨frame, pool, hok, hregular, hleft⟩ := h.regular.exists_allocate_of_lt h.free
  have hbooks : Mapper.Books _ (frame :: (frames w.guests ++ w.held))
      (⟨w.vm.ram.memory, pool⟩, w.vm.kernel) :=
    (hsound.books.of_allocate hok).perm List.perm_middle.symm
  have hflags : Flags.kernelData.contains .huge = false := by decide
  obtain ⟨s, hmap, hregular, hleft, hpages⟩ := Mapper.exists_map_of_free hbooks hregular ht
    ((accepts_kernel hkind).trans hupper) hnone hflags hleft
  have hrun := run_mapRegion_of_page hnext hok hmap
  have hallowed : PagingCall.Allowed w (.mapRegion a 1) := True.intro
  exact ⟨frame, pool, s.1, s.2, _, hok, hrun, rfl, (hpages _).trans (if_pos rfl),
    .done h.reaches hallowed hrun, hregular, hleft⟩

end Supplied

end World

end KernelCore
