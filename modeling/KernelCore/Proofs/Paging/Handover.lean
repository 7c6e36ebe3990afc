/-
# Taking over from a boot loader

Where a boot loader left a root table, the kernel's space begins with its upper half.  The kernel does not
look at the tables under it, and they are on no record.  They can be taken over if they are tables
(`BootTables`): they lie in levels, and in frames that the memory map withholds, so that nobody else gets
them.

The worlds that allowed calls lead to from there (`World.ReachesOn`) are, without a boot loader's root, those
of the kernel that booted alone.  What is withheld may as well be held by callers who never use it: a call
does with more frames held what it does without (`World.run_lend`), and with the withheld frames among them
all frames that are used have an owner.

* `BootTables.layers`: a new root above these tables is in order;
* `World.keeps_run`: every call leaves the user spaces in order and the kernel's tables in levels, and keeps
  of the roots what a world that evolves keeps;
* `World.exists_layered`: so does every run;
* `World.ReachesOn.evolves_of_step`, `World.ReachesOn.rootEntry_cases`: what follows for the next call.
-/
import KernelCore.Proofs.Frame.Lending
import KernelCore.Proofs.Paging.Layers
import KernelCore.Proofs.Paging.Roots

namespace KernelCore

/-! ## 1. What a boot loader leaves -/

/-- **Tables that can be taken over.**  The upper half of the root leads to tables that lie in levels, and all
of them, the root too, are in frames that are used from the start. -/
structure BootTables (map : MemoryMap) (m : Memory) (source : Nat) (K : Levels) : Prop where
  top : ∀ {i}, Page.upperHalfIndex ≤ i → i < tableEntries →
    (m.entry source i).isHuge = false ∧ (m.entry source i).Descends (K 2)
  next : ∀ {l t i}, l < 2 → K (l + 1) t → i < tableEntries → (m.entry t i).Descends (K l)
  apart : ∀ {l l' t}, K l t → K l' t → l = l'
  used : ∀ {l t}, K l t → (FramePool.ofMap map).isUsed t = true
  source : (FramePool.ofMap map).isUsed source = true

/-- The tables of the lower levels, and a root of its own above them. -/
def Levels.under (K : Levels) (root : Nat) : Levels := fun l t => (l = 3 ∧ t = root) ∨ (l < 3 ∧ K l t)

/-- **A root above tables that lie in levels** is in order itself. -/
theorem layers_under {m : Memory} {root : Nat} {K : Levels} (hnew : ∀ l, ¬K l root)
    (hapart : ∀ {l l' t}, K l t → K l' t → l = l')
    (hnext : ∀ {l t i}, l < 2 → K (l + 1) t → i < tableEntries → (m.entry t i).Descends (K l))
    (htop : ∀ {i}, Page.upperHalfIndex ≤ i → i < tableEntries →
      (m.entry root i).isHuge = false ∧ (m.entry root i).Descends (K 2))
    (hblank : ∀ {i}, i < Page.upperHalfIndex → m.entry root i = .unused) : Layers m root (K.under root) := by
  have hlow : ∀ {l t}, l < 3 → K l t → K.under root l t := fun hl ht => Or.inr ⟨hl, ht⟩
  refine ⟨⟨?_, fun ht => Or.inl ⟨rfl, ht⟩⟩, ?_, ?_, fun {i} hi => ?_, hblank⟩
  · rintro (⟨-, ht⟩ | ⟨hl, -⟩)
    · exact ht
    · exact absurd hl (by decide)
  · rintro l l' t (⟨hl, ht⟩ | ⟨-, ht⟩) (⟨hl', ht'⟩ | ⟨-, ht'⟩)
    · exact hl.trans hl'.symm
    · exact absurd (ht ▸ ht') (hnew _)
    · exact absurd (ht' ▸ ht) (hnew _)
    · exact hapart ht ht'
  · rintro l t i (⟨hl, rfl⟩ | ⟨hl, ht⟩) hi
    · obtain rfl : l = 2 := Nat.succ.inj hl
      rcases Nat.lt_or_ge i Page.upperHalfIndex with hlt | hle
      · exact Or.inl (hblank hlt)
      · exact (htop hle hi).2.mono fun _ => hlow (by decide)
    · exact (hnext (by omega) ht hi).mono fun _ => hlow (by omega)
  · rcases Nat.lt_or_ge i Page.upperHalfIndex with hlt | hle
    · rw [hblank hlt]
      rfl
    · exact (htop hle hi).1

/-- A root that was cleared leads to nothing. -/
theorem layers_clearPage (m : Memory) (root : Nat) :
    Layers (m.clearPage root) root (Levels.under (fun _ _ => False) root) := by
  have hclear : ∀ {i}, i < tableEntries → (m.clearPage root).entry root i = .unused :=
    Memory.entry_clearPage_self
  refine layers_under (fun _ => id) False.elim (fun _ h => h.elim) (fun _ hi => ?_)
    fun hi => hclear (lt_tableEntries hi)
  rw [hclear hi]
  exact ⟨rfl, Or.inl rfl⟩

/-- **A free frame becomes a root above what a boot loader left.** -/
theorem BootTables.layers {map : MemoryMap} {m : Memory} {source root : Nat} {K : Levels}
    (h : BootTables map m source K) (hroot : (FramePool.ofMap map).isUsed root = false) :
    Layers ((m.clearPage root).copyUpperHalf source root) root (K.under root) := by
  have hne : ∀ {t}, (FramePool.ofMap map).isUsed t = true → t ≠ root := by
    rintro t ht rfl
    exact absurd ht (Bool.eq_false_iff.mp hroot)
  refine layers_under (fun l ht => hne (h.used ht) rfl) h.apart (fun hl ht hi => ?_)
    (fun {i} hle hi => ?_) (fun hi => ?_)
  · rw [(Memory.sameFrame_newRoot m source (hne (h.used ht))).entry_eq hi]
    exact h.next hl ht hi
  · rw [Memory.entry_newRoot_of_le m (hne h.source) hle hi]
    exact h.top hle hi
  · exact Memory.entry_newRoot_of_lt m source hi

/-- What memory holds after booting. -/
theorem Vm.memory_of_boot {ram : Ram} {bootRoot : Option Nat} {vm : Vm}
    (hboot : Vm.boot ram bootRoot = .ok vm) : vm.ram.memory = bootRoot.elim
      (ram.memory.clearPage vm.kernel.root)
      ((ram.memory.clearPage vm.kernel.root).copyUpperHalf · vm.kernel.root) := by
  unfold Vm.boot at hboot
  cases hok : ram.pool.allocate with
  | error e =>
    rw [hok] at hboot
    cases hboot
  | ok r =>
    rw [hok] at hboot
    cases hboot
    cases bootRoot with
    | none => dsimp only [AddressSpace.ofRoot, Option.elim]
    | some source => dsimp only [AddressSpace.ofRoot, Option.elim]

/-- **The kernel's tables lie in levels after booting**, and what is below its root was used before. -/
theorem Vm.layers_boot {map : MemoryMap} {m : Memory} {pool : FramePool} {bootRoot : Option Nat} {vm : Vm}
    (hleft : ∀ source ∈ bootRoot, ∃ K, BootTables map m source K)
    (hboot : Vm.boot ⟨m, pool⟩ bootRoot = .ok vm)
    (hroot : (FramePool.ofMap map).isUsed vm.kernel.root = false) :
    ∃ K : Levels, Layers vm.ram.memory vm.kernel.root (K.under vm.kernel.root) ∧
      ∀ l t, K l t → (FramePool.ofMap map).isUsed t = true := by
  rw [Vm.memory_of_boot hboot]
  cases bootRoot with
  | none => exact ⟨fun _ _ => False, layers_clearPage m _, fun _ _ => False.elim⟩
  | some source =>
    obtain ⟨K, hK⟩ := hleft source rfl
    dsimp only [Option.elim]
    exact ⟨K, hK.layers hroot, fun _ _ => hK.used⟩

namespace World

variable {map : MemoryMap} {bootRoot : Option Nat} {base i total : Nat} {withheld : List Nat}
  {w w' : World} {g g' : Guest} {α β : Type}

/-! ## 2. Frames that nobody uses -/

/-- The callers hold some frames more. -/
def lend (withheld : List Nat) (w : World) : World := { w with held := w.held ++ withheld }

/-- The same result, with frames more. -/
def lendResult (withheld : List Nat) :
    EStateM.Result (Stop PagingError) World α → EStateM.Result (Stop PagingError) World α
  | .ok a w => .ok a (w.lend withheld)
  | .error e w => .error e (w.lend withheld)

theorem onVm_lend (op : Vm.Op α) (w : World) :
    onVm op (w.lend withheld) = lendResult withheld (onVm op w) := by
  unfold onVm lend
  dsimp only
  cases op w.vm <;> rfl

theorem onGuest_lend (i : Nat) (g : Guest) (asked : Page → Flags) (op : Vm.SpaceOp α) (w : World) :
    onGuest i g asked op (w.lend withheld) = lendResult withheld (onGuest i g asked op w) := by
  unfold onGuest lend
  dsimp only
  cases op (w.vm, g.space) <;> rfl

theorem held_of_onVm {op : Vm.Op α} {a : α} (hok : onVm op w = .ok a w') : w'.held = w.held := by
  unfold onVm at hok
  cases hop : op w.vm with
  | ok b vm =>
    rw [hop] at hok
    cases hok
    rfl
  | error e vm =>
    rw [hop] at hok
    cases hok

theorem held_of_onGuest {asked : Page → Flags} {op : Vm.SpaceOp α} {a : α}
    (hok : onGuest i g asked op w = .ok a w') : w'.held = w.held := by
  unfold onGuest at hok
  cases hop : op (w.vm, g.space) with
  | ok b s =>
    rw [hop] at hok
    cases hok
    rfl
  | error e s =>
    rw [hop] at hok
    cases hok

theorem bind_lend {x : Op α} {f : α → Op β} (hx : x (w.lend withheld) = lendResult withheld (x w))
    (hf : ∀ a w', x w = .ok a w' → f a (w'.lend withheld) = lendResult withheld (f a w')) :
    (x >>= f) (w.lend withheld) = lendResult withheld ((x >>= f) w) := by
  cases hr : x w with
  | ok a w' =>
    rw [hr] at hx
    rw [bind_of_ok hx, bind_of_ok hr]
    exact hf a w' hr
  | error e w' =>
    rw [hr] at hx
    rw [bind_of_error hx, bind_of_error hr]
    rfl

theorem given_lend {what : World → Option α} {op : α → Op (Option Nat)}
    (hwhat : what (w.lend withheld) = what w)
    (hop : ∀ a, op a (w.lend withheld) = lendResult withheld (op a w)) :
    given what op (w.lend withheld) = lendResult withheld (given what op w) := by
  unfold given
  rw [hwhat]
  cases what w with
  | none => rfl
  | some a => exact hop a

theorem space?_lend (i? : Option Nat) (w : World) : space? i? (w.lend withheld) = space? i? w := by
  cases i? <;> rfl

/-- A frame that goes is none of those that are withheld. -/
theorem drop_lend {frame : Nat} (hframe : frame ∈ w.held) :
    drop frame (w.lend withheld) = (drop frame w).lend withheld := by
  unfold drop lend
  rw [List.erase_append_left _ hframe]

/-- **A call does with more frames held what it does without.** -/
theorem run_lend (withheld : List Nat) {call : PagingCall} (hhonest : call.Honest w) :
    call.run (w.lend withheld) = lendResult withheld (call.run w) := by
  have hdrop : ∀ {frame : Nat} {w' : World}, w'.held = w.held → frame ∈ w.held →
      (do modify (drop frame); return none : Op (Option Nat)) (w'.lend withheld) =
        lendResult withheld ((do modify (drop frame); return none : Op (Option Nat)) w') :=
    fun hheld hframe => congrArg (EStateM.Result.ok none) (drop_lend (hheld ▸ hframe))
  cases call with
  | takeFrame => exact bind_lend (onVm_lend _ w) fun _ _ _ => rfl
  | giveFrame frame => exact bind_lend (onVm_lend _ w) fun _ _ hok => hdrop (held_of_onVm hok) hhonest
  | create => exact bind_lend (onVm_lend _ w) fun _ _ _ => rfl
  | destroy i => exact given_lend rfl fun g => bind_lend (onVm_lend _ w) fun _ _ _ => rfl
  | map i page frame flags =>
    refine given_lend rfl fun g => bind_lend (onGuest_lend i g _ _ w) fun _ _ hok => ?_
    exact hdrop (held_of_onGuest hok) hhonest
  | unmap i page => exact given_lend rfl fun g => bind_lend (onGuest_lend i g _ _ w) fun _ _ _ => rfl
  | mapRegion start length => exact bind_lend (onVm_lend _ w) fun _ _ _ => rfl
  | write i? start bytes =>
    exact given_lend (space?_lend i? w) fun _ => bind_lend (onVm_lend _ w) fun _ _ _ => rfl
  | load i? => exact given_lend (space?_lend i? w) fun _ => rfl

/-! ## 3. What every call keeps -/

/-- **The user spaces are in order, and the kernel's tables lie in levels**, in frames of the kernel's space
or in frames that are withheld. -/
structure Layered (total : Nat) (withheld : List Nat) (w : World) : Prop extends Lodged 0 w where
  tracked : w.vm.ram.pool.total = total
  stands : ∃ K, Mapper.Stands (Vm.Beside total withheld) (w.vm.ram, w.vm.kernel) K

/-- Where the frames of the kernel's tables and those that are withheld are as they were. -/
theorem Layered.of_sameFrame (h : w.Layered total withheld) (hl : w'.Lodged 0)
    (htotal : w'.vm.ram.pool.total = total) (hkernel : w'.vm.kernel = w.vm.kernel)
    (hm : ∀ t, t ∈ w.vm.kernel.tableFrames ∨ Vm.Beside total withheld t →
      w.vm.ram.memory.SameFrame w'.vm.ram.memory t) : w'.Layered total withheld := by
  obtain ⟨K, hkind, hlayers, hown⟩ := h.stands
  refine ⟨hl, htotal, K, ?_, ?_, ?_⟩
  · rw [hkernel]
    exact hkind
  · rw [hkernel]
    exact hlayers.congr fun l t i ht hi => (hm t (hown ht)).entry_eq hi
  · rw [hkernel]
    exact hown

/-- What a call leaves, if the withheld frames are still held then. -/
def Keeps (total : Nat) (withheld : List Nat) (w w' : World) : Prop :=
  withheld ⊆ w'.held → w'.vm.ram.pool.total = total → w'.Layered total withheld ∧ w.Evolves w'

theorem Keeps.of_memory_eq (h : w.Layered total withheld) (hl : w'.Lodged 0)
    (hmemory : w'.vm.ram.memory = w.vm.ram.memory) (hkernel : w'.vm.kernel = w.vm.kernel)
    (hguests : w'.guests ⊆ w.guests) : w.Keeps total withheld w' := by
  refine fun _ htotal => ⟨h.of_sameFrame hl htotal hkernel fun t _ => ?_,
    .of_memory_eq hkernel hmemory hguests⟩
  rw [hmemory]
  exact .refl _ _

/-- A frame of a space is none of those that are withheld. -/
theorem Lodged.not_beside (h : w.Lodged base) (hheld : withheld ⊆ w.held)
    (htotal : w.vm.ram.pool.total = total) {t : Nat} (ht : t ∈ w.vm.kernel.ownedFrames ++ frames w.guests) :
    ¬Vm.Beside total withheld t := by
  have hbooks := h.books
  rw [← List.append_assoc] at hbooks
  rintro (hin | hle)
  · exact ne_of_holds hbooks ht (hheld hin) rfl
  · have := (hbooks.used t (List.mem_append_left _ ht)).1
    omega

/-- **A user space was worked on.** -/
theorem Keeps.of_guest (h : w.Layered total withheld) (hr : Reworks 0 i g g' w w') :
    w.Keeps total withheld w' := by
  refine fun hheld htotal => ⟨h.of_sameFrame (h.toLodged.of_guest hr) htotal hr.kernel ?_,
    .of_guest h.toLodged hr⟩
  rintro t (ht | ht)
  · exact hr.sameFrame t (List.mem_append_left _ (AddressSpace.mem_ownedFrames ht))
  · refine Vm.sameFrame_of_beside hr.within hr.books htotal (ht.imp_left fun hin => ?_)
    exact List.mem_append_right _ (hheld hin)

/-- **A new user space** has a root that was nobody's. -/
theorem keeps_create (h : w.Layered total withheld) : Outcome (PagingCall.run .create w)
    (fun _ w' => w.Keeps total withheld w') fun _ w' => w.Keeps total withheld w' := by
  have hlayered : Outcome (PagingCall.run .create w)
      (fun _ w' => withheld ⊆ w'.held → w'.vm.ram.pool.total = total → w'.Layered total withheld)
      fun _ w' => withheld ⊆ w'.held → w'.vm.ram.pool.total = total → w'.Layered total withheld := by
    refine outcome_create h.toLodged (fun _ _ => h) fun root vm hkernel hlodged hroot hmemory => ?_
    intro hheld htotal
    refine h.of_sameFrame hlodged htotal hkernel fun t ht => ?_
    have hne : t ≠ root := by
      rintro rfl
      rcases ht with hin | hbeside
      · exact hroot (List.mem_append_left _ (AddressSpace.mem_ownedFrames hin))
      · refine hlodged.not_beside hheld htotal (List.mem_append_right _ ?_) hbeside
        exact mem_frames (List.mem_append_right _ List.mem_cons_self) List.mem_cons_self
    dsimp only [addGuest]
    rw [hmemory]
    exact Memory.sameFrame_newRoot _ _ hne
  exact (hlayered.and (evolves_create h.toLodged)).mono
    (fun _ _ h' hheld htotal => ⟨h'.1 hheld htotal, h'.2⟩)
    fun _ _ h' hheld htotal => ⟨h'.1 hheld htotal, h'.2⟩

/-- **A region of the kernel's space was mapped**, as far as it went. -/
theorem Keeps.of_kernelSpreads {vm : Vm} (h : w.Layered total withheld)
    (hs : Vm.KernelSpreads 0 (frames w.guests ++ w.held) (Vm.Beside total withheld) w.vm vm) :
    w.Keeps total withheld { w with vm } := by
  intro hheld htotal
  have houtside : ∀ g ∈ w.guests, ∀ t ∈ g.space.tableFrames,
      w.vm.ram.memory.SameFrame vm.ram.memory t := by
    intro g hg t ht
    refine hs.spreads.outside t (fun hin => ?_) ?_
    · exact ne_of_holds hs.books.holds (AddressSpace.mem_ownedFrames hin)
        (List.mem_append_left _ (mem_frames hg ht)) rfl
    · exact h.toLodged.not_beside hheld h.tracked (List.mem_append_right _ (mem_frames hg ht))
  refine ⟨⟨⟨hs.books.holds, fun g hg => (h.guests g hg).congr (houtside g hg)⟩, htotal, hs.stands⟩, ?_⟩
  exact .of_kernel hs.spreads.root hs.spreads.leads fun g hg => houtside g hg _ List.mem_cons_self

/-- The frames that are mapped are those of spaces. -/
theorem dataFrames_subset (w : World) : w.dataFrames ⊆ w.vm.kernel.ownedFrames ++ frames w.guests := by
  refine List.append_subset.mpr ⟨fun f hf => ?_, fun f hf => ?_⟩
  · exact List.mem_append_left _ (w.vm.kernel.data_subset_ownedFrames hf)
  · obtain ⟨g, hg, hf⟩ := List.mem_flatMap.mp hf
    exact List.mem_append_right _ (List.mem_flatMap.mpr ⟨g, hg, g.space.data_subset_ownedFrames hf⟩)

/-- An address of the lower half leads into a frame that is mapped in the space, or nowhere. -/
theorem Layered.lands_of_lower (h : w.Layered total withheld) {i? : Option Nat} {s : AddressSpace}
    {m : Memory} (hspace : space? i? w = some s) (hm : w.SameTables m) {a : VirtAddr}
    (ha : a.val < 2 ^ 47) : m.Lands s.root w.dataFrames a := by
  cases i? with
  | none =>
    cases hspace
    obtain ⟨K, hK⟩ := h.stands
    refine .of_none (Memory.translate_of_unused ?_)
    rw [(hm.1 _ List.mem_cons_self).entry_eq (Page.index_lt _ 3)]
    exact hK.layers.blank (Page.isUpper_eq_false_iff.mp (Memory.isUpper_containing ha))
  | some i =>
    obtain ⟨g, hi, rfl⟩ := Option.map_eq_some_iff.mp hspace
    have hg := List.mem_of_getElem? hi
    exact (h.toLodged.lands_of_lower hg (hm.2 g hg) ha).mono (mem_dataFrames hspace)

/-- **Bytes of the lower half** are written into frames that are mapped. -/
theorem keeps_write (h : w.Layered total withheld) {i? : Option Nat} {start : VirtAddr} {bytes : List UInt8}
    (hlow : start.val + bytes.length ≤ 2 ^ 47) :
    Outcome (PagingCall.run (.write i? start bytes) w) (fun _ w' => w.Keeps total withheld w')
      fun _ w' => w.Keeps total withheld w' := by
  refine outcome_write (.of_memory_eq h h.toLodged rfl rfl fun _ hg => hg) fun space hspace => ?_
  have hm : ∀ f ∉ w.dataFrames,
      w.vm.ram.memory.SameFrame (w.vm.ram.memory.writeBytes space.root start bytes).1 f :=
    Memory.outside_writeBytes fun m hm a _ hlast =>
      h.lands_of_lower hspace (h.toLodged.sameTables hm) (Nat.lt_of_lt_of_le hlast hlow)
  have htables := h.toLodged.sameTables hm
  intro hheld htotal
  refine ⟨h.of_sameFrame (h.toLodged.of_memory rfl rfl htables.2) htotal rfl ?_,
    .of_sameTables rfl htables fun _ hg => hg⟩
  rintro t (ht | ht)
  · exact htables.1 t ht
  · exact hm t fun hdata => h.toLodged.not_beside hheld h.tracked (w.dataFrames_subset hdata) ht

/-- **Every call** that callers are allowed keeps what it should. -/
theorem keeps_run (h : w.Layered total withheld) (hheld : withheld ⊆ w.held) {call : PagingCall}
    (hallowed : call.Allowed w) : Outcome (call.run w) (fun _ w' => w.Keeps total withheld w')
      fun _ w' => w.Keeps total withheld w' := by
  have hsame : w.Keeps total withheld w := .of_memory_eq h h.toLodged rfl rfl fun _ hg => hg
  cases call with
  | takeFrame =>
    refine outcome_takeFrame h.toLodged hsame fun frame pool hp => ?_
    exact .of_memory_eq h (h.toLodged.of_pool rfl rfl (fun _ hg => hg) hp) rfl rfl fun _ hg => hg
  | giveFrame frame =>
    refine outcome_giveFrame h.toLodged hallowed fun pool hp => ?_
    exact .of_memory_eq h (h.toLodged.of_pool rfl rfl (fun _ hg => hg) hp) rfl rfl fun _ hg => hg
  | create => exact keeps_create h
  | destroy i =>
    refine outcome_destroy h.toLodged i hsame fun pool hp => ?_
    have hguests : w.guests.eraseIdx i ⊆ w.guests := fun _ hg => List.mem_of_mem_eraseIdx hg
    rw [beside, List.append_assoc] at hp
    exact .of_memory_eq h (h.toLodged.of_pool rfl rfl hguests hp) rfl rfl hguests
  | map i page frame flags =>
    exact outcome_map h.toLodged i page flags hallowed.1 hsame fun _ _ _ => .of_guest h
  | unmap i page => exact outcome_unmap h.toLodged i page hsame fun _ _ _ => .of_guest h
  | mapRegion start length =>
    have hbeside : ∀ f, Vm.Beside total withheld f →
        Vm.Beside w.vm.ram.pool.total (frames w.guests ++ w.held) f := fun f hf =>
      h.tracked.symm ▸ hf.imp_left fun hin => List.mem_append_right _ (hheld hin)
    refine Outcome.bind (P := fun _ w' => w.Keeps total withheld w') (outcome_onVm ?_) fun _ _ h' => h'
    exact (Vm.kernelSpreads_mapKernelRegion start length hbeside h.books h.stands).mono
      (fun _ _ => .of_kernelSpreads h) fun _ _ => .of_kernelSpreads h
  | write i? start bytes => exact keeps_write h hallowed
  | load i? => exact outcome_given hsame fun _ _ => .of_memory_eq h ⟨h.books, h.guests⟩ rfl rfl fun _ hg => hg

/-! ## 4. Every run -/

/-- One allowed call, done or refused. -/
def Step (w w' : World) : Prop := ∃ call : PagingCall, call.Allowed w ∧
  ((∃ a, call.run w = .ok a w') ∨ ∃ e, call.run w = .error (.refused e) w')

/-- **The worlds that allowed calls lead to after booting**, on the root that a boot loader left or alone,
whatever memory holds then. -/
inductive ReachesOn (map : MemoryMap) (bootRoot : Option Nat) : World → Prop where
  | boot {memory : Memory} {pool : FramePool} {held : List Nat} {vm : Vm} :
      pool.Drawn map held → (∀ source ∈ bootRoot, ∃ K, BootTables map memory source K) →
      Vm.boot ⟨memory, pool⟩ bootRoot = .ok vm → ReachesOn map bootRoot ⟨vm, [], held⟩
  | step {w w' : World} : ReachesOn map bootRoot w → w.Step w' → ReachesOn map bootRoot w'

/-- Without a boot loader's root these are the worlds of a kernel that booted alone. -/
theorem reachesOn_none_iff : ReachesOn map none w ↔ Reaches map w := by
  constructor
  · intro hr
    induction hr with
    | boot hdrawn _ hboot => exact .boot hdrawn hboot
    | step _ hstep ih =>
      obtain ⟨call, hallowed, ⟨a, hok⟩ | ⟨e, he⟩⟩ := hstep
      · exact .done ih hallowed hok
      · exact .refused ih hallowed he
  · intro hr
    induction hr with
    | boot hdrawn hboot => exact .boot hdrawn (fun _ h => absurd h (Option.not_mem_none _)) hboot
    | done _ hallowed hok ih => exact ih.step ⟨_, hallowed, Or.inl ⟨_, hok⟩⟩
    | refused _ hallowed he ih => exact ih.step ⟨_, hallowed, Or.inr ⟨_, he⟩⟩

/-- With the withheld frames among those that are held, an allowed call is allowed. -/
theorem allowed_lend {call : PagingCall} (h : call.Allowed w) : call.Allowed (w.lend withheld) := by
  cases call with
  | giveFrame => exact List.mem_append_left _ h
  | map => exact ⟨List.mem_append_left _ h.1, h.2⟩
  | _ => exact h

theorem honest_of_allowed {call : PagingCall} (h : call.Allowed w) : call.Honest w := by
  cases call with
  | map => exact h.1
  | giveFrame => exact h
  | _ => exact True.intro

/-- **A call of callers who do not use the withheld frames**, seen with these frames among the held ones. -/
theorem layered_of_step (h : (w.lend withheld).Layered total withheld) (hstep : w.Step w') :
    (w'.lend withheld).Layered total withheld ∧ w.Evolves w' := by
  obtain ⟨call, hallowed, hend⟩ := hstep
  have hrun := run_lend withheld (honest_of_allowed hallowed)
  have hout := (keeps_run h (List.subset_append_right _ _) (allowed_lend hallowed)).and
    (trades_run (w := w.lend withheld) .refl call)
  have hlent : Keeps total withheld (w.lend withheld) (w'.lend withheld) ∧
      (w.lend withheld).vm.ram.pool.Trades (w'.lend withheld).vm.ram.pool := by
    rcases hend with ⟨a, hok⟩ | ⟨e, he⟩
    · rw [hok] at hrun
      exact hout.of_eq_ok hrun
    · rw [he] at hrun
      exact hout.of_eq_refused hrun
  obtain ⟨hlayered, hevolves⟩ :=
    hlent.1 (List.subset_append_right _ _) (hlent.2.total.trans h.tracked)
  exact ⟨hlayered, hevolves.root, hevolves.leads, hevolves.upper, hevolves.origin⟩

/-- Frames that callers took before the manager was there are lent to them. -/
theorem lends_of_drawn {pool : FramePool} {held : List Nat} (hd : pool.Drawn map held) :
    FramePool.Lends map pool held := by
  induction hd with
  | start => exact .start map
  | take _ hok ih => exact ih.of_allocate hok
  | give _ hframe hok ih => exact ih.of_release hframe hok

/-- What was used at the start is nobody's, and stays used. -/
theorem beside_of_isUsed {pool : FramePool} {held : List Nat} (hd : pool.Drawn map held)
    (hp : pool.Holds 0 (held ++ withheld)) {f : Nat} (hused : (FramePool.ofMap map).isUsed f = true) :
    Vm.Beside (FramePool.ofMap map).total withheld f := by
  have hlends := lends_of_drawn hd
  have hcounted := (trades_of_drawn hd).counted (.ofMap map)
  unfold FramePool.isUsed at hused
  rcases (Bool.or_eq_true _ _).mp hused with hle | hused
  · exact Or.inr (of_decide_eq_true hle)
  · obtain ⟨hnot, hused⟩ := hlends.kept f hused
    have hused : pool.isUsed f = true := (Bool.or_eq_true _ _).mpr (Or.inr hused)
    rcases (hp.isUsed_iff hcounted).mp hused with hle | hin
    · exact Or.inr (hlends.total ▸ hle)
    · exact Or.inl ((List.mem_append.mp hin).resolve_left hnot)

/-- **After booting** the kernel's tables lie in levels, and the frames that the map withholds are
nobody's. -/
theorem exists_layered_of_boot {m : Memory} {pool : FramePool} {held : List Nat} {bootRoot : Option Nat}
    {vm : Vm} (hd : pool.Drawn map held) (hleft : ∀ source ∈ bootRoot, ∃ K, BootTables map m source K)
    (hboot : Vm.boot ⟨m, pool⟩ bootRoot = .ok vm) :
    ∃ withheld, (lend withheld ⟨vm, [], held⟩).Layered (FramePool.ofMap map).total withheld := by
  have hcounted := (trades_of_drawn hd).counted (.ofMap map)
  obtain ⟨withheld, hp⟩ := (holds_of_drawn hd).exists_rest hcounted
  obtain ⟨hok, hkernel, -⟩ := Vm.eq_of_boot hboot
  have hp' := hp.of_allocate hok
  have htotal := (lends_of_drawn hd).total
  have hroot : (FramePool.ofMap map).isUsed vm.kernel.root = false := by
    refine Bool.eq_false_iff.mpr fun hused => ?_
    rcases beside_of_isUsed hd hp hused with hin | hle
    · exact (List.nodup_cons.mp hp'.nodup).1 (List.mem_append_right _ hin)
    · have hlt : vm.kernel.root < pool.total := (FramePool.eq_of_allocate hok).2.1
      omega
  obtain ⟨K, hlayers, hused⟩ := Vm.layers_boot hleft hboot hroot
  have howned : vm.kernel.ownedFrames = [vm.kernel.root] := by
    rw [hkernel]
    rfl
  refine ⟨withheld, ⟨⟨?_, fun g hg => absurd hg List.not_mem_nil⟩, ?_, K.under vm.kernel.root,
    congrArg AddressSpace.kind hkernel, hlayers, ?_⟩⟩
  · show vm.ram.pool.Holds 0 (vm.kernel.ownedFrames ++ ([] ++ (held ++ withheld)))
    rw [howned]
    exact hp'
  · exact ((FramePool.Trades.refl.take hok).total).trans htotal
  · rintro l t (⟨-, rfl⟩ | ⟨-, ht⟩)
    · exact Or.inl List.mem_cons_self
    · exact Or.inr (beside_of_isUsed hd hp (hused l t ht))

/-- **Every run leaves the kernel's tables in levels.** -/
theorem exists_layered (hr : ReachesOn map bootRoot w) :
    ∃ withheld, (w.lend withheld).Layered (FramePool.ofMap map).total withheld := by
  induction hr with
  | boot hd hleft hboot => exact exists_layered_of_boot hd hleft hboot
  | step _ hstep ih =>
    obtain ⟨withheld, h⟩ := ih
    exact ⟨withheld, (layered_of_step h hstep).1⟩

/-- **Every step of a run** keeps the roots. -/
theorem ReachesOn.evolves_of_step (hr : ReachesOn map bootRoot w) (hstep : w.Step w') : w.Evolves w' := by
  obtain ⟨withheld, h⟩ := exists_layered hr
  exact (layered_of_step h hstep).2

/-- An entry of the kernel's root leads to a table, or is not in use. -/
theorem ReachesOn.rootEntry_cases (hr : ReachesOn map bootRoot w) (page : Page) :
    rootEntry w.vm w.vm.kernel.root page = .unused ∨
      ∃ t, (rootEntry w.vm w.vm.kernel.root page).LeadsTo (some t) := by
  obtain ⟨withheld, h⟩ := exists_layered hr
  obtain ⟨K, hK⟩ := h.stands
  exact hK.layers.rootEntry_cases (page.index_lt 3)

end World

end KernelCore
