/-
# Every access is what was asked for, in every run

Callers map and unmap pages with whatever attributes they like, in any order, and some of it is refused on
the way (`World.Arises`).  In each space the entries on the way to a page allow together what was asked for
that page when it was mapped:

* `Vm.permits_mapKernelRegion`: regions of the kernel's space keep it so, as far as they are mapped;
* `World.permitted_run`: so does every call of an honest caller, done or refused;
* `World.Closed.evolves`: no root lets users into the upper half, since the kernel's does not and the others
  have theirs from it;
* `World.enforces_of_arises`: so the access to an address is what was asked for its page, and no user gets at
  an upper address in any space.
-/
import KernelCore.Proofs.Paging.Isolation
import KernelCore.Proofs.Paging.Permissions
import KernelCore.Proofs.Paging.Sharing

namespace KernelCore

/-! ## 1. The manager's spaces -/

/-- The root of the kernel's space does not let users in. -/
theorem Permits.closed {m : Memory} {s : AddressSpace} {asked : Page → Flags} (hp : Permits m s asked)
    (hkind : s.kind = .kernel) {page : Page} (hpage : page.isUpper = true) :
    (m.entry s.root (page.index 3)).flags.contains .userAccessible = false := by
  obtain ⟨τ, ht, ho⟩ := hp
  have haccepts : s.accepts page = true := (World.accepts_kernel hkind).trans hpage
  exact (ho.suits haccepts (by decide) (ht.root haccepts)).closed hkind

namespace Vm

variable {base frame : Nat} {others : List Nat} {vm : Vm} {memory : Memory}

theorem permits_boot {pool : FramePool} (hboot : boot ⟨memory, pool⟩ none = .ok vm) :
    Permits vm.ram.memory vm.kernel kernelAsked := by
  unfold boot at hboot
  split at hboot
  · cases hboot
  · cases hboot
    exact .ofRoot kernelAsked fun g _ => Memory.entry_clearPage_self (g.index_lt 3)

/-- A new user space permits nothing, since nothing is mapped in it. -/
theorem permits_created (asked : Page → Flags) (m : Memory) (source root : Nat) :
    Permits ((m.clearPage root).copyUpperHalf source root) (.ofRoot .user root) asked := by
  refine .ofRoot asked fun g hg => ?_
  have hlow : g.isUpper = false := by
    rcases hg with hg | hg
    · cases hg
    · exact (Bool.not_eq_true' _).mp hg
  exact Memory.entry_newRoot_of_lt _ _ (Page.isUpper_eq_false_iff.mp hlow)

/-- The kernel's pages are mapped in one way, which lets no users in. -/
theorem permits_mapKernel (page : Page)
    (h : vm.ram.pool.Holds base (vm.kernel.ownedFrames ++ frame :: others))
    (hp : Permits vm.ram.memory vm.kernel kernelAsked) :
    Outcome (onKernelSpace (Mapper.map page frame .kernelData) vm)
      (fun _ vm' => Permits vm'.ram.memory vm'.kernel kernelAsked)
      fun _ vm' => Permits vm'.ram.memory vm'.kernel kernelAsked := by
  have hlt : frame < 2 ^ 40 := Nat.lt_trans
    (h.lt_maxFrames (List.mem_append_right _ List.mem_cons_self)) (by decide)
  have hmapped : Outcome (Mapper.map page frame .kernelData (vm.ram, vm.kernel))
      (fun _ s => Permits s.1.memory s.2 (Mapper.ask kernelAsked page .kernelData))
      fun _ s => Permits s.1.memory s.2 kernelAsked :=
    Mapper.permits_map h hp hlt fun _ => by decide
  rw [ask_kernelAsked] at hmapped
  exact Outcome.onKernelSpace hmapped

/-- **Mapping a region of the kernel's space** leaves all pages what they allow, as far as it goes. -/
theorem permits_mapKernelRegion (start : VirtAddr) (length : Nat)
    (h : vm.ram.pool.Holds base (vm.kernel.ownedFrames ++ others))
    (hp : Permits vm.ram.memory vm.kernel kernelAsked) :
    Outcome (mapKernelRegion start length vm)
      (fun _ vm' => Permits vm'.ram.memory vm'.kernel kernelAsked)
      fun _ vm' => Permits vm'.ram.memory vm'.kernel kernelAsked := by
  have hmapped : Outcome (mapKernelRegion start length vm)
      (fun _ vm' => KernelBooks base others vm vm' ∧ Permits vm'.ram.memory vm'.kernel kernelAsked)
      fun _ vm' => KernelBooks base others vm vm' ∧ Permits vm'.ram.memory vm'.kernel kernelAsked := by
    refine outcome_mapKernelRegion (fun page _ => outcome_mapFresh (R := fun others vm' =>
        KernelBooks base others vm vm' ∧ Permits vm'.ram.memory vm'.kernel kernelAsked)
      (fun h' => h'.1.holds) (fun h' _ hp' => ⟨⟨hp', h'.1.root, h'.1.active⟩, h'.2⟩) page fun h' => ?_)
        start length ⟨⟨h, rfl, rfl⟩, hp⟩
    exact (kernelBooks_map page h'.1).and (permits_mapKernel page h'.1.holds h'.2)
  exact hmapped.mono (fun _ _ h' => h'.2) fun _ _ h' => h'.2

end Vm

/-! ## 2. What calls keep -/

namespace World

variable {map : MemoryMap} {base i frame : Nat} {w w' : World} {vm : Vm} {g g' : Guest}
  {call : PagingCall} {space : AddressSpace}

/-- **Every space permits** what was asked for its pages. -/
structure Permitted (w : World) : Prop where
  kernel : Permits w.vm.ram.memory w.vm.kernel Vm.kernelAsked
  guests : ∀ g ∈ w.guests, Permits w.vm.ram.memory g.space g.asked

theorem Permitted.of_sameTables (h : w.Permitted) (hkernel : w'.vm.kernel = w.vm.kernel)
    (hm : w.SameTables w'.vm.ram.memory) (hguests : w'.guests ⊆ w.guests) : w'.Permitted := by
  refine ⟨?_, fun g hg => (h.guests g (hguests hg)).congr (hm.2 g (hguests hg))⟩
  rw [hkernel]
  exact h.kernel.congr hm.1

theorem Permitted.of_memory_eq (h : w.Permitted) (hkernel : w'.vm.kernel = w.vm.kernel)
    (hmemory : w'.vm.ram.memory = w.vm.ram.memory) (hguests : w'.guests ⊆ w.guests) : w'.Permitted :=
  h.of_sameTables hkernel (hmemory ▸ SameTables.refl w) hguests

/-- The user space at a position permits what was asked for its pages. -/
def PermittedAt (i : Nat) (w : World) : Prop :=
  ∀ g, guest? i w = some g → Permits w.vm.ram.memory g.space g.asked

theorem Permitted.permittedAt (h : w.Permitted) (i : Nat) : w.PermittedAt i :=
  fun g hi => h.guests g (List.mem_of_getElem? hi)

/-- An operation of the mapper on a user space, as far as that space is concerned. -/
theorem permittedAt_onGuest {α : Type} {op : Mapper α} {asked : Page → Flags} (hi : guest? i w = some g)
    (h : Outcome (op (w.vm.ram, g.space)) (fun _ s => Permits s.1.memory s.2 asked)
      fun _ s => Permits s.1.memory s.2 g.asked) :
    Outcome (onGuest i g asked (Vm.onSpace op) w) (fun _ w' => w'.PermittedAt i)
      fun _ w' => w'.PermittedAt i := by
  have hset : ∀ g₁ g₂ : Guest, (w.guests.set i g₁)[i]? = some g₂ → g₁ = g₂ := fun g₁ g₂ hg₂ => by
    rw [List.getElem?_set_self (List.getElem?_eq_some_iff.mp hi).1] at hg₂
    exact Option.some.inj hg₂
  refine outcome_onGuest (Outcome.onSpace (h.mono ?_ ?_))
  · intro _ s hs g₂ hg₂
    rw [← hset _ g₂ hg₂]
    exact hs
  · intro _ s hs g₂ hg₂
    rw [← hset _ g₂ hg₂]
    exact hs

/-- Mapping a page in a user space, as far as that space is concerned. -/
theorem permittedAt_map (h : w.Sound base) (hp : w.Permitted) (i : Nat) (page : Page) (flags : Flags)
    (hframe : frame ∈ w.held) : Outcome (PagingCall.run (.map i page frame flags) w)
      (fun _ w' => w'.PermittedAt i) fun _ w' => w'.PermittedAt i := by
  refine outcome_given (hp.permittedAt i) fun g hi => ?_
  have hg := List.mem_of_getElem? hi
  have huser : g.space.kind = .user := (h.guests g hg).1
  refine Outcome.bind (P := fun _ w' => PermittedAt i (drop frame w')) (permittedAt_onGuest hi ?_)
    fun _ _ h' => h'
  refine Mapper.permits_map (h.books_aside hi hframe) (hp.guests g hg) (h.lt_of_held hframe) fun hkernel => ?_
  cases huser.symm.trans hkernel

theorem permittedAt_unmap (hp : w.Permitted) (i : Nat) (page : Page) :
    Outcome (PagingCall.run (.unmap i page) w) (fun _ w' => w'.PermittedAt i)
      fun _ w' => w'.PermittedAt i := by
  refine outcome_given (hp.permittedAt i) fun g hi => ?_
  refine Outcome.bind (P := fun frame w' => PermittedAt i (hold frame w')) (permittedAt_onGuest hi ?_)
    fun _ _ h' => h'
  exact Mapper.permits_unmap (s := (w.vm.ram, g.space)) (hp.guests g (List.mem_of_getElem? hi)) page

/-- **When a user space was worked on**, the others permit what they did. -/
theorem Permitted.of_guest (h : w.Permitted) (hr : Reworks base i g g' w w') (hat : w'.PermittedAt i) :
    w'.Permitted := by
  refine ⟨?_, fun g₁ hg₁ => ?_⟩
  · rw [hr.kernel]
    exact h.kernel.congr fun t ht =>
      hr.sameFrame t (List.mem_append_left _ (AddressSpace.mem_ownedFrames ht))
  · rw [hr.guests] at hg₁
    rcases List.mem_cons.mp ((perm_set hr.found g').mem_iff.mp hg₁) with rfl | hrest
    · refine hat g₁ ?_
      unfold guest?
      rw [hr.guests, List.getElem?_set_self (List.getElem?_eq_some_iff.mp hr.found).1]
    · exact (h.guests g₁ (List.mem_of_mem_eraseIdx hrest)).congr fun t ht =>
        hr.sameFrame t (List.mem_append_right _ (mem_frames hrest ht))

/-- **A new space** permits everything that is mapped in it: nothing. -/
theorem permitted_create (h : w.Sound base) (hp : w.Permitted) : Outcome (PagingCall.run .create w)
    (fun _ w' => w'.Permitted) fun _ w' => w'.Permitted := by
  refine outcome_create h.toLodged hp fun root vm hkernel _ hroot hmemory => ?_
  have htables : w.SameTables vm.ram.memory := .of_owned fun t ht => hmemory ▸ sameFrame_create hroot ht
  have hold : Permitted { w with vm } := hp.of_sameTables hkernel htables fun _ hg => hg
  refine ⟨hold.kernel, fun g hg => ?_⟩
  rcases List.mem_append.mp hg with hg | hg
  · exact hold.guests g hg
  · rw [List.mem_singleton.mp hg, addGuest, hmemory]
    exact Vm.permits_created _ _ _ _

/-- **Regions of the kernel's space** leave the user spaces what they permit. -/
theorem permitted_mapRegion (h : w.Sound base) (hp : w.Permitted) (start : VirtAddr) (length : Nat) :
    Outcome (PagingCall.run (.mapRegion start length) w) (fun _ w' => w'.Permitted)
      fun _ w' => w'.Permitted := by
  have hstep : ∀ vm, Vm.KernelGrows base (frames w.guests ++ w.held) w.vm vm ∧
      Permits vm.ram.memory vm.kernel Vm.kernelAsked → Permitted { w with vm } := by
    rintro vm ⟨hgrows, hkernel⟩
    refine ⟨hkernel, fun g hg => (hp.guests g hg).congr fun t ht => ?_⟩
    exact hgrows.within.sameFrame hgrows.books.holds (List.mem_append_left _ (mem_frames hg ht))
  refine Outcome.bind (P := fun _ w' => w'.Permitted) (outcome_onVm ?_) fun _ _ h' => h'
  exact ((Vm.kernelGrows_mapKernelRegion start length h.books h.kernel.2).and
    (Vm.permits_mapKernelRegion start length h.books hp.kernel)).mono (fun _ => hstep) fun _ => hstep

/-- **Every call of an honest caller** leaves each space permitting what was asked for its pages. -/
theorem permitted_run (h : w.Sound base) (hp : w.Permitted) (hhonest : call.Honest w)
    (hspares : w.SparesTables call) :
    Outcome (call.run w) (fun _ w' => w'.Permitted) fun _ w' => w'.Permitted := by
  cases call with
  | takeFrame => exact outcome_takeFrame h.toLodged hp fun _ _ _ => hp.of_memory_eq rfl rfl fun _ hg => hg
  | giveFrame frame =>
    exact outcome_giveFrame h.toLodged hhonest fun _ _ => hp.of_memory_eq rfl rfl fun _ hg => hg
  | create => exact permitted_create h hp
  | destroy i =>
    exact outcome_destroy h.toLodged i hp fun _ _ =>
      hp.of_memory_eq rfl rfl fun _ hg => List.mem_of_mem_eraseIdx hg
  | map i page frame flags =>
    have hrest : Outcome (PagingCall.run (.map i page frame flags) w)
        (fun _ w' => w'.PermittedAt i → w'.Permitted) fun _ w' => w'.PermittedAt i → w'.Permitted :=
      outcome_map h.toLodged i page flags hhonest (fun _ => hp) fun _ _ _ => hp.of_guest
    exact (hrest.and (permittedAt_map h hp i page flags hhonest)).mono (fun _ _ h' => h'.1 h'.2)
      fun _ _ h' => h'.1 h'.2
  | unmap i page =>
    have hrest : Outcome (PagingCall.run (.unmap i page) w)
        (fun _ w' => w'.PermittedAt i → w'.Permitted) fun _ w' => w'.PermittedAt i → w'.Permitted :=
      outcome_unmap h.toLodged i page (fun _ => hp) fun _ _ _ => hp.of_guest
    exact (hrest.and (permittedAt_unmap hp i page)).mono (fun _ _ h' => h'.1 h'.2) fun _ _ h' => h'.1 h'.2
  | mapRegion start length => exact permitted_mapRegion h hp start length
  | write i? start bytes =>
    refine outcome_write hp fun space hspace => ?_
    exact hp.of_sameTables rfl (hspares space hspace) fun _ hg => hg
  | load i? => exact outcome_given hp fun _ _ => hp.of_memory_eq rfl rfl fun _ hg => hg

/-! ## 3. The upper half -/

/-- No root of a user space lets users into the upper half. -/
def Closed (w : World) : Prop := ∀ g ∈ w.guests, ∀ {page : Page}, page.isUpper = true →
  (rootEntry w.vm g.space.root page).flags.contains .userAccessible = false

/-- **Roots stay closed**: what is in them they had before, or have it from the kernel's. -/
theorem Closed.evolves (hc : w.Closed) (hp : w.Permitted) (h : w.Sound base) (he : w.Evolves w') :
    w'.Closed := by
  intro g' hg' page hpage
  rcases he.origin g' hg' with ⟨g, hg, hroot⟩ | hcopied
  · rw [← hroot, he.upper g hg hpage]
    exact hc g hg hpage
  · rw [hcopied hpage]
    exact hp.kernel.closed h.kernel.1 hpage

/-- **Every run of honest callers** keeps what the spaces permit, and their roots closed. -/
theorem permitted_of_arises (ha : Arises map w) : w.Permitted ∧ w.Closed := by
  induction ha with
  | boot _ hboot => exact ⟨⟨Vm.permits_boot hboot, fun g hg => by cases hg⟩, fun g hg => by cases hg⟩
  | @call w w' call ha hhonest hleads ih =>
    obtain ⟨h, hl⟩ := sound_of_arises ha
    have hspares := h.sparesTables hl call
    exact ⟨of_leads hleads (permitted_run h ih.1 hhonest hspares),
      ih.2.evolves ih.1 h (of_leads hleads (evolves_run h hhonest hspares))⟩
  | @enable w vm _ hok ih =>
    unfold Vm.enable at hok
    split at hok
    · cases hok
    · cases hok
      exact ⟨ih.1.of_memory_eq rfl rfl fun _ hg => hg, ih.2⟩

/-! ## 4. Two pages with the same tables -/

/-- A machine with frames for two pages of a user space and for one of the kernel's. -/
def sixteenFrames : MemoryMap := [⟨0, 16 * 4096, .usable⟩]

/-- On that machine one page of a user space is mapped with no attributes and then another as data of users;
and a page of the kernel's space is mapped. -/
theorem exists_twoPages {first second : Page} (hne : first ≠ second) (hfirst : first.isUpper = false)
    (hsecond : second.isUpper = false) : ∃ w g, (Reaches sixteenFrames w ∧ g ∈ w.guests) ∧
      ((g.space.frameAt? first).isSome ∧ g.asked first = .userData) ∧
      ((g.space.frameAt? second).isSome ∧ g.asked second = .none) ∧
      (w.vm.kernel.frameAt? (.containing firstUpper)).isSome := by
  have hfree : 15 < (FramePool.ofMap sixteenFrames).free := by decide +kernel
  have hnone : Flags.none.contains .huge = false := by decide
  have hdata : Flags.userData.contains .huge = false := by decide
  obtain ⟨_, _, _, -, h, -⟩ := exists_supplied hfree
  obtain ⟨frame, _, -, h⟩ := h.exists_takeFrame
  obtain ⟨frame', _, -, h⟩ := h.exists_takeFrame
  obtain ⟨root, _, _, _, -, -, rfl, h⟩ := h.exists_create
  obtain ⟨_, space, hpages, h⟩ := h.exists_map (i := 0) (g := ⟨.ofRoot .user root, fun _ => .none⟩) rfl
    List.mem_cons_self hsecond rfl hnone
  have hheld : frame ∈ [frame', frame].erase frame' := by simp
  have hfree : space.frameAt? first = none := (hpages first).trans (if_neg hne)
  obtain ⟨_, space', hpages', h⟩ := h.exists_map (i := 0) (g := ⟨space, _⟩) rfl hheld hfirst hfree hdata
  obtain ⟨_, _, _, _, _, -, -, rfl, hframe, h⟩ := h.exists_mapRegion isUpper_firstUpper next_firstUpper rfl
  refine ⟨_, _, ⟨h.reaches, List.mem_cons_self⟩, ⟨?_, if_pos rfl⟩, ⟨?_, ?_⟩, ?_⟩
  · simp [hpages']
  · simp [hpages', hpages, hne.symm]
  · simp [Mapper.ask, hne.symm]
  · simp [hframe]

/-! ## 5. What accesses may do -/

/-- **Every access is what was asked for.**  The entries on the way to an address of the half that a space
maps allow together what was asked for its page, if it is mapped, and nothing if it is not.  And users get at
no upper address, in any space. -/
structure Enforces (w : World) : Prop where
  kernel : ∀ a : VirtAddr, 2 ^ 47 ≤ a.val → w.vm.ram.memory.access? w.vm.kernel.root a =
    (w.vm.kernel.frameAt? (.containing a)).map fun _ => .ofFlags .kernelData
  guests : ∀ g ∈ w.guests, ∀ a : VirtAddr, a.val < 2 ^ 47 → w.vm.ram.memory.access? g.space.root a =
    (g.space.frameAt? (.containing a)).map fun _ => .ofFlags (g.asked (.containing a))
  upper : ∀ i? s, space? i? w = some s → ∀ (a : VirtAddr) p, 2 ^ 47 ≤ a.val →
    w.vm.ram.memory.access? s.root a = some p → p.user = false

theorem Permitted.enforces (hp : w.Permitted) (hc : w.Closed) (h : w.Sound base) : w.Enforces := by
  refine ⟨fun a ha => ?_, fun g hg a ha => ?_, fun i? s hspace a p ha haccess => ?_⟩
  · exact hp.kernel.access?_eq ((accepts_kernel h.kernel.1).trans (Page.isUpper_containing ha))
  · refine (hp.guests g hg).access?_eq ((accepts_user (h.guests g hg).1).trans ?_)
    rw [Memory.isUpper_containing ha]
    rfl
  · refine Memory.user_eq_false ?_ haccess
    cases i? with
    | none =>
      cases hspace
      exact hp.kernel.closed h.kernel.1 (Page.isUpper_containing ha)
    | some i =>
      obtain ⟨g, hi, rfl⟩ := Option.map_eq_some_iff.mp hspace
      exact hc g (List.mem_of_getElem? hi) (Page.isUpper_containing ha)

/-- The access to a mapped page of a user space is what was asked for it. -/
theorem Enforces.access?_of_isSome {a : VirtAddr} (h : w.Enforces) (hg : g ∈ w.guests)
    (hmapped : (g.space.frameAt? (.containing a)).isSome) (ha : (Page.containing a).isUpper = false) :
    w.vm.ram.memory.access? g.space.root a = some (.ofFlags (g.asked (.containing a))) := by
  obtain ⟨frame, hframe⟩ := Option.isSome_iff_exists.mp hmapped
  have hlow : a.val < 2 ^ 47 := by
    by_contra hle
    cases ha.symm.trans (Page.isUpper_containing (Nat.le_of_not_lt hle))
  rw [h.guests g hg a hlow, hframe]
  rfl

/-- **In every run of honest callers** accesses are what was asked for, whatever else was mapped and unmapped
in the same tables, and whatever was refused on the way. -/
theorem enforces_of_arises (ha : Arises map w) : w.Enforces := by
  obtain ⟨hp, hc⟩ := permitted_of_arises ha
  exact hp.enforces hc (sound_of_arises ha).1

/-- The first two pages of a user space have all their tables in common, and users may write to the first
one only, though every table on the way to the second is open to them.  A page of the kernel's space may be
written, by no user, and not executed. -/
theorem enforces_sixteenFrames : ∃ w g first second, (Arises sixteenFrames w ∧ g ∈ w.guests) ∧
    (first.number = 0 ∧ second.number = 1) ∧ w.Enforces ∧
    (∀ a, Page.containing a = first →
      w.vm.ram.memory.access? g.space.root a = some ⟨true, true, true⟩) ∧
    (∀ a, Page.containing a = second →
      w.vm.ram.memory.access? g.space.root a = some ⟨false, false, false⟩) ∧
    w.vm.ram.memory.access? w.vm.kernel.root firstUpper = some ⟨true, false, true⟩ := by
  let first : Page := ⟨0, .inl (by decide)⟩
  let second : Page := ⟨1, .inl (by decide)⟩
  have hfirst : first.isUpper = false := by decide
  have hsecond : second.isUpper = false := by decide
  have hne : first ≠ second := fun he => Nat.zero_ne_one (congrArg Page.number he)
  obtain ⟨w, g, ⟨hr, hg⟩, ⟨hmapped, hdata⟩, ⟨hmapped', hnone⟩, hkernel⟩ := exists_twoPages hne hfirst hsecond
  have henforces := enforces_of_arises hr.arises
  refine ⟨w, g, first, second, ⟨hr.arises, hg⟩, ⟨rfl, rfl⟩, henforces, ?_, ?_, ?_⟩
  · rintro a ha
    rw [← ha] at hmapped hfirst hdata
    rw [henforces.access?_of_isSome hg hmapped hfirst, hdata]
    rfl
  · rintro a ha
    rw [← ha] at hmapped' hsecond hnone
    rw [henforces.access?_of_isSome hg hmapped' hsecond, hnone]
    rfl
  · obtain ⟨frame, hframe⟩ := Option.isSome_iff_exists.mp hkernel
    rw [henforces.kernel firstUpper (by decide), hframe]
    rfl

end World

end KernelCore
