/-
# The manager and all its spaces

The manager, the user spaces that it has made, and the frames that its callers hold form a `World`.
Callers take frames and give them back, make spaces and take them down, map the frames that they
hold, copy bytes into the lower half, and have regions of the kernel's space mapped, in any order,
each done or refused (`World.Reaches`); a halt ends the run.

A world is sound (`World.Sound`) if the frames of the spaces and the frames that are held are all
different and owned, and the tables of each space are its record:

* `Lodged.of_guest`, `Sound.of_kernel`, `Lodged.of_memory`: changing one space leaves the others right,
  since their tables are in other frames;
* `sound_run`: each call of callers who map and give back what they hold keeps the world sound, if it
  writes into no table; `sound_of_reaches`: so every run does;
* `trades_run`: whoever makes a call, frames are only taken and given back.
-/
import KernelCore.Proofs.Paging.Spaces

namespace KernelCore

/-! ## 1. Worlds and what happens in them -/

/-- A user space, and the attributes that each of its pages was mapped with. -/
structure Guest where
  space : AddressSpace
  asked : Page → Flags

/-- The manager, the user spaces, and the frames that the callers hold. -/
structure World where
  vm : Vm
  guests : List Guest
  held : List Nat

/-- What callers can ask for.  User spaces go by their position; a space that may also be the
kernel's goes by `none` then. -/
inductive PagingCall where
  | takeFrame
  | giveFrame (frame : Nat)
  | create
  | destroy (i : Nat)
  | map (i : Nat) (page : Page) (frame : Nat) (flags : Flags)
  | unmap (i : Nat) (page : Page)
  | mapRegion (start : VirtAddr) (length : Nat)
  | write (i? : Option Nat) (start : VirtAddr) (bytes : List UInt8)
  | load (i? : Option Nat)

namespace World

/-- Operations on a world. -/
abbrev Op := EStateM (Stop PagingError) World

/-- Does an operation of the manager. -/
def onVm {α : Type} (op : Vm.Op α) : Op α := fun w =>
  match op w.vm with
  | .ok a vm => .ok a { w with vm }
  | .error stop vm => .error stop { w with vm }

/-- Does an operation on a user space.  If it is done, the attributes of the pages are those given. -/
def onGuest {α : Type} (i : Nat) (g : Guest) (asked : Page → Flags) (op : Vm.SpaceOp α) : Op α :=
  fun w =>
    match op (w.vm, g.space) with
    | .ok a (vm, space) => .ok a { w with vm, guests := w.guests.set i ⟨space, asked⟩ }
    | .error stop (vm, space) =>
      .error stop { w with vm, guests := w.guests.set i { g with space } }

/-- Does something with what there is, or nothing. -/
def given {α : Type} (what : World → Option α) (op : α → Op (Option Nat)) : Op (Option Nat) :=
  fun w =>
    match what w with
    | some a => op a w
    | none => .ok none w

/-- The user space at a position. -/
def guest? (i : Nat) (w : World) : Option Guest := w.guests[i]?

/-- The space at a position, or the kernel's. -/
def space? : Option Nat → World → Option AddressSpace
  | none, w => some w.vm.kernel
  | some i, w => (guest? i w).map Guest.space

/-- The callers have got a frame. -/
def hold (frame : Nat) (w : World) : World := { w with held := frame :: w.held }

/-- A frame is no longer the callers'. -/
def drop (frame : Nat) (w : World) : World := { w with held := w.held.erase frame }

/-- There is a user space more, and nothing was mapped in it. -/
def addGuest (space : AddressSpace) (w : World) : World :=
  { w with guests := w.guests ++ [⟨space, fun _ => .none⟩] }

/-- There is a user space less. -/
def removeGuest (i : Nat) (w : World) : World := { w with guests := w.guests.eraseIdx i }

end World

/-- What is done for a call; the result is the frame that the caller gets, if any. -/
def PagingCall.run : PagingCall → World.Op (Option Nat)
  | .takeFrame => do
    let frame ← World.onVm Vm.takeFrame
    modify (World.hold frame)
    return some frame
  | .giveFrame frame => do
    World.onVm (Vm.giveFrame frame)
    modify (World.drop frame)
    return none
  | .create => do
    let space ← World.onVm Vm.createSpace
    modify (World.addGuest space)
    return none
  | .destroy i => World.given (World.guest? i) fun g => do
    let _ ← World.onVm (Vm.destroySpace g.space)
    modify (World.removeGuest i)
    return none
  | .map i page frame flags => World.given (World.guest? i) fun g => do
    World.onGuest i g (Mapper.ask g.asked page flags) (Vm.map page frame flags)
    modify (World.drop frame)
    return none
  | .unmap i page => World.given (World.guest? i) fun g => do
    let frame ← World.onGuest i g g.asked (Vm.unmap page)
    modify (World.hold frame)
    return some frame
  | .mapRegion start length => do
    let _ ← World.onVm (Vm.mapKernelRegion start length)
    return none
  | .write i? start bytes => World.given (World.space? i?) fun space => do
    World.onVm (Vm.writeBytes space start bytes)
    return none
  | .load i? => World.given (World.space? i?) fun space => do
    modify fun w => { w with vm := w.vm.load space.root }
    return none

/-- What callers keep to: they map and give back what they hold, map no large pages, write to the
lower half, and take down only spaces that are not loaded. -/
def PagingCall.Allowed (w : World) : PagingCall → Prop
  | .giveFrame frame => frame ∈ w.held
  | .map _ _ frame flags => frame ∈ w.held ∧ flags.contains .huge = false
  | .write _ start bytes => start.val + bytes.length ≤ 2 ^ 47
  | .destroy i => ∀ g, World.guest? i w = some g → w.vm.activeRoot ≠ some g.space.root
  | _ => True

/-- What callers keep to who may do anything else: they map and give back what they hold. -/
def PagingCall.Honest (w : World) : PagingCall → Prop
  | .giveFrame frame => frame ∈ w.held
  | .map _ _ frame _ => frame ∈ w.held
  | _ => True

/-- Frames that were taken from the pool of a memory map before the manager was there. -/
inductive FramePool.Drawn (map : MemoryMap) : FramePool → List Nat → Prop where
  | start : Drawn map (.ofMap map) []
  | take {pool pool' : FramePool} {held : List Nat} {frame : Nat} : Drawn map pool held →
      pool.allocate = .ok (frame, pool') → Drawn map pool' (frame :: held)
  | give {pool pool' : FramePool} {held : List Nat} {frame : Nat} : Drawn map pool held →
      frame ∈ held → pool.release frame = .ok pool' → Drawn map pool' (held.erase frame)

namespace World

/-- The worlds that allowed calls lead to after booting, whatever memory holds then. -/
inductive Reaches (map : MemoryMap) : World → Prop where
  | boot {memory : Memory} {pool : FramePool} {held : List Nat} {vm : Vm} :
      pool.Drawn map held → Vm.boot ⟨memory, pool⟩ none = .ok vm → Reaches map ⟨vm, [], held⟩
  | done {w w' : World} {call : PagingCall} {a : Option Nat} : Reaches map w → call.Allowed w →
      call.run w = .ok a w' → Reaches map w'
  | refused {w w' : World} {call : PagingCall} {e : PagingError} : Reaches map w → call.Allowed w →
      call.run w = .error (.refused e) w' → Reaches map w'

variable {base i frame : Nat} {w w' : World} {vm vm' : Vm} {g g' : Guest} {guests : List Guest}
  {held others : List Nat} {m m' : Memory} {kind : SpaceKind} {s : AddressSpace}
  {asked : Page → Flags} {α : Type} {P : α → World → Prop} {Q : PagingError → World → Prop}

/-! ## 2. Sound worlds -/

/-- The frames of user spaces. -/
def frames (guests : List Guest) : List Nat := guests.flatMap fun g => g.space.ownedFrames

/-- A space of a kind whose tables are its record. -/
def IsRight (m : Memory) (kind : SpaceKind) (s : AddressSpace) (asked : Page → Flags) : Prop :=
  s.kind = kind ∧ ∃ τ, Tree m s asked τ

/-- **The user spaces are in order**, and nobody has a frame of somebody else's.  `base` frames were used
before anybody took one. -/
structure Lodged (base : Nat) (w : World) : Prop where
  books : w.vm.ram.pool.Holds base (w.vm.kernel.ownedFrames ++ (frames w.guests ++ w.held))
  guests : ∀ g ∈ w.guests, IsRight w.vm.ram.memory .user g.space g.asked

/-- **The world is in order**, the kernel's space too. -/
structure Sound (base : Nat) (w : World) : Prop extends Lodged base w where
  kernel : IsRight w.vm.ram.memory .kernel w.vm.kernel Vm.kernelAsked

theorem IsRight.congr (h : IsRight m kind s asked) (hm : ∀ t ∈ s.tableFrames, m.SameFrame m' t) :
    IsRight m' kind s asked := by
  obtain ⟨hkind, τ, ht⟩ := h
  exact ⟨hkind, τ, ht.congr hm⟩

/-- A user space maps the pages of the lower half. -/
theorem accepts_user {page : Page} (hkind : s.kind = .user) : s.accepts page = !page.isUpper := by
  unfold AddressSpace.accepts
  rw [hkind]

/-- The kernel's space maps the pages of the upper half. -/
theorem accepts_kernel {page : Page} (hkind : s.kind = .kernel) : s.accepts page = page.isUpper := by
  unfold AddressSpace.accepts
  rw [hkind]

/-- What is owned beside the user space at a position. -/
def beside (w : World) (i : Nat) : List Nat :=
  w.vm.kernel.ownedFrames ++ frames (w.guests.eraseIdx i)

/-- The frames of one user space, taken out of the list of all. -/
theorem owned_perm (hguests : guests.Perm (g :: w.guests.eraseIdx i)) :
    (w.vm.kernel.ownedFrames ++ (frames guests ++ held)).Perm
      (g.space.ownedFrames ++ (w.beside i ++ held)) := by
  have hframes : (frames guests).Perm (g.space.ownedFrames ++ frames (w.guests.eraseIdx i)) :=
    hguests.flatMap_right _
  unfold beside
  rw [← List.append_assoc, ← List.append_assoc, ← List.append_assoc]
  refine ((hframes.append_left _).trans ?_).append_right held
  rw [← List.append_assoc]
  exact List.perm_append_comm.append_right _

theorem Lodged.books_of (h : w.Lodged base) (hi : w.guests[i]? = some g) :
    w.vm.ram.pool.Holds base (g.space.ownedFrames ++ (w.beside i ++ w.held)) :=
  h.books.perm (owned_perm (perm_eraseIdx hi))

theorem mem_frames (hg : g ∈ guests) (hf : frame ∈ g.space.tableFrames) : frame ∈ frames guests :=
  List.mem_flatMap.mpr ⟨g, hg, AddressSpace.mem_ownedFrames hf⟩

/-- Frames of two parts of the list of owned frames are different. -/
theorem ne_of_holds {pool : FramePool} {l l' : List Nat} {t t' : Nat} (h : pool.Holds base (l ++ l'))
    (ht : t ∈ l) (ht' : t' ∈ l') : t ≠ t' :=
  (List.nodup_append.mp h.nodup).2.2 t ht t' ht'

/-- The kernel's space has the same record as before. -/
theorem Lodged.of_kernel_eq (hkernel : vm'.kernel = s)
    (hbooks : vm'.ram.pool.Holds base (s.ownedFrames ++ (frames guests ++ held)))
    (hguests : ∀ g ∈ guests, IsRight vm'.ram.memory .user g.space g.asked) :
    Lodged base ⟨vm', guests, held⟩ := by
  subst hkernel
  exact ⟨hbooks, hguests⟩

/-- **A user space was worked on.**  Its record and its tables may be others, and memory has changed only
in its tables. -/
structure Reworks (base i : Nat) (g g' : Guest) (w w' : World) : Prop where
  found : w.guests[i]? = some g
  guests : w'.guests = w.guests.set i g'
  kernel : w'.vm.kernel = w.vm.kernel
  books : w'.vm.ram.pool.Holds base (g'.space.ownedFrames ++ (w.beside i ++ w'.held))
  within : Mapper.Within (w.vm.ram, g.space) (w'.vm.ram, g'.space)
  tree : ∃ τ, Tree w'.vm.ram.memory g'.space g'.asked τ

/-- What is owned beside the space is as it was. -/
theorem Reworks.sameFrame (hr : Reworks base i g g' w w') :
    ∀ t ∈ w.beside i, w.vm.ram.memory.SameFrame w'.vm.ram.memory t :=
  fun _ ht => hr.within.sameFrame hr.books (List.mem_append_left _ ht)

/-- **When a user space was worked on**, it is right, and so are the others, since memory has changed only
in the tables of this one. -/
theorem Lodged.of_guest (h : w.Lodged base) (hr : Reworks base i g g' w w') : w'.Lodged base := by
  obtain ⟨vm', _, held⟩ := w'
  cases hr.guests
  refine .of_kernel_eq hr.kernel (hr.books.perm (owned_perm (perm_set hr.found g')).symm) fun g₁ hg₁ => ?_
  rcases List.mem_cons.mp ((perm_set hr.found g').mem_iff.mp hg₁) with rfl | hrest
  · exact ⟨hr.within.kind.trans (h.guests g (List.mem_of_getElem? hr.found)).1, hr.tree⟩
  · exact (h.guests g₁ (List.mem_of_mem_eraseIdx hrest)).congr fun t ht =>
      hr.sameFrame t (List.mem_append_right _ (mem_frames hrest ht))

theorem Sound.of_guest (h : w.Sound base) (hr : Reworks base i g g' w w') : w'.Sound base := by
  refine ⟨h.toLodged.of_guest hr, ?_⟩
  rw [hr.kernel]
  exact h.kernel.congr fun t ht =>
    hr.sameFrame t (List.mem_append_left _ (AddressSpace.mem_ownedFrames ht))

/-- **The kernel's space has changed.**  The user spaces are right. -/
theorem Sound.of_kernel (h : w.Sound base)
    (hgrows : Vm.KernelGrows base (frames w.guests ++ w.held) w.vm vm') :
    Sound base { w with vm := vm' } := by
  refine ⟨⟨hgrows.books.holds, fun g hg => ?_⟩, hgrows.within.kind.trans h.kernel.1, hgrows.tree⟩
  exact (h.guests g hg).congr fun t ht => hgrows.within.sameFrame hgrows.books.holds
    (List.mem_append_left _ (mem_frames hg ht))

/-- **Memory has changed**, but not in a table of a user space. -/
theorem Lodged.of_memory (h : w.Lodged base) (hpool : vm'.ram.pool = w.vm.ram.pool)
    (hkernel : vm'.kernel = w.vm.kernel)
    (htables : ∀ g ∈ w.guests, ∀ t ∈ g.space.tableFrames, w.vm.ram.memory.SameFrame vm'.ram.memory t) :
    Lodged base { w with vm := vm' } := by
  refine .of_kernel_eq hkernel ?_ fun g hg => (h.guests g hg).congr (htables g hg)
  rw [hpool]
  exact h.books

/-- **Frames have come or gone**, and memory is the same. -/
theorem Lodged.of_pool (h : w.Lodged base) (hmemory : vm'.ram.memory = w.vm.ram.memory)
    (hkernel : vm'.kernel = w.vm.kernel) (hguests : guests ⊆ w.guests)
    (hbooks : vm'.ram.pool.Holds base (w.vm.kernel.ownedFrames ++ (frames guests ++ held))) :
    Lodged base ⟨vm', guests, held⟩ := by
  refine .of_kernel_eq hkernel hbooks fun g hg => ?_
  rw [hmemory]
  exact h.guests g (hguests hg)

theorem Sound.of_pool (h : w.Sound base) (hmemory : vm'.ram.memory = w.vm.ram.memory)
    (hkernel : vm'.kernel = w.vm.kernel) (hguests : guests ⊆ w.guests)
    (hbooks : vm'.ram.pool.Holds base (w.vm.kernel.ownedFrames ++ (frames guests ++ held))) :
    Sound base ⟨vm', guests, held⟩ := by
  refine ⟨h.toLodged.of_pool hmemory hkernel hguests hbooks, ?_⟩
  dsimp only
  rw [hmemory, hkernel]
  exact h.kernel

/-! ## 3. Each call keeps a world sound -/

theorem outcome_onVm {op : Vm.Op α}
    (h : Outcome (op w.vm) (fun a vm => P a { w with vm }) fun e vm => Q e { w with vm }) :
    Outcome (onVm op w) P Q := by
  unfold onVm
  match op w.vm, h with
  | .ok a vm, h => exact h
  | .error (.refused e) vm, h => exact h
  | .error (.halted _) _, _ => exact True.intro

theorem outcome_onGuest {op : Vm.SpaceOp α}
    (h : Outcome (op (w.vm, g.space))
      (fun a s => P a { w with vm := s.1, guests := w.guests.set i ⟨s.2, asked⟩ })
      fun e s => Q e { w with vm := s.1, guests := w.guests.set i ⟨s.2, g.asked⟩ }) :
    Outcome (onGuest i g asked op w) P Q := by
  unfold onGuest
  match op (w.vm, g.space), h with
  | .ok a (vm, space), h => exact h
  | .error (.refused e) (vm, space), h => exact h
  | .error (.halted _) _, _ => exact True.intro

/-- Where there is nothing to do, nothing changes. -/
theorem outcome_given {β : Type} {what : World → Option β} {op : β → Op (Option Nat)}
    {P : World → Prop} (hw : P w)
    (h : ∀ b, what w = some b → Outcome (op b w) (fun _ w' => P w') Q) :
    Outcome (given what op w) (fun _ w' => P w') Q := by
  unfold given
  match hb : what w with
  | some b => exact h b hb
  | none => exact hw

/-- What holds of the world as it is, and of it when the callers have a frame more, holds when they asked for
one. -/
theorem outcome_takeFrame {P : World → Prop} (h : w.Lodged base) (hw : P w)
    (htaken : ∀ (frame : Nat) (pool : FramePool),
      pool.Holds base (w.vm.kernel.ownedFrames ++ (frames w.guests ++ frame :: w.held)) →
        P ⟨{ w.vm with ram := { w.vm.ram with pool } }, w.guests, frame :: w.held⟩) :
    Outcome (PagingCall.run .takeFrame w) (fun _ w' => P w') fun _ w' => P w' := by
  refine Outcome.bind (P := fun frame w' => P (hold frame w')) (outcome_onVm ?_) fun _ _ h' => h'
  unfold Vm.takeFrame
  split
  · exact hw
  · next frame pool hok =>
    refine htaken frame pool ((h.books.of_allocate hok).perm ?_)
    exact List.perm_middle.symm.trans (List.perm_middle.symm.append_left _)

theorem sound_takeFrame (h : w.Sound base) : Outcome (PagingCall.run .takeFrame w)
    (fun _ w' => w'.Sound base) fun _ w' => w'.Sound base :=
  outcome_takeFrame h.toLodged h fun _ _ hp => h.of_pool rfl rfl (fun _ hg => hg) hp

/-- A frame of the callers goes back, and what holds of the world then holds. -/
theorem outcome_giveFrame {P : World → Prop} (h : w.Lodged base) (hframe : frame ∈ w.held)
    (hgiven : ∀ pool : FramePool,
      pool.Holds base (w.vm.kernel.ownedFrames ++ (frames w.guests ++ w.held.erase frame)) →
        P ⟨{ w.vm with ram := { w.vm.ram with pool } }, w.guests, w.held.erase frame⟩) :
    Outcome (PagingCall.run (.giveFrame frame) w) (fun _ w' => P w') fun _ w' => P w' := by
  have hperm : (w.vm.kernel.ownedFrames ++ (frames w.guests ++ w.held)).Perm
      (frame :: (w.vm.kernel.ownedFrames ++ (frames w.guests ++ w.held.erase frame))) := by
    refine List.Perm.trans (List.Perm.append_left _ ?_) List.perm_middle
    exact ((List.perm_cons_erase hframe).append_left _).trans List.perm_middle
  obtain ⟨pool, hgive, hp⟩ := Vm.exists_giveFrame (h.books.perm hperm)
  exact Outcome.bind (P := fun _ w' => P (drop frame w')) (outcome_onVm (.of_ok hgive (hgiven pool hp)))
    fun _ _ h' => h'

theorem sound_giveFrame (h : w.Sound base) (hframe : frame ∈ w.held) :
    Outcome (PagingCall.run (.giveFrame frame) w) (fun _ w' => w'.Sound base)
      fun _ w' => w'.Sound base :=
  outcome_giveFrame h.toLodged hframe fun _ hp => h.of_pool rfl rfl (fun _ hg => hg) hp

/-- **A new space** is right, and its root was nobody's.  What holds of the world as it is, and of it with the
space, holds when a space was to be made. -/
theorem outcome_create {P : World → Prop} (h : w.Lodged base) (hw : P w)
    (hmade : ∀ root vm, vm.kernel = w.vm.kernel → Lodged base (addGuest (.ofRoot .user root) { w with vm }) →
      root ∉ w.vm.kernel.ownedFrames ++ (frames w.guests ++ w.held) →
        vm.ram.memory = (w.vm.ram.memory.clearPage root).copyUpperHalf w.vm.kernel.root root →
          P (addGuest (.ofRoot .user root) { w with vm })) :
    Outcome (PagingCall.run .create w) (fun _ w' => P w') fun _ w' => P w' := by
  refine Outcome.bind (P := fun space w' => P (addGuest space w')) (outcome_onVm ?_) fun _ _ h' => h'
  refine ((Vm.outcome_createSpace w.vm).and ((Vm.holds_createSpace h.books).and
    (Vm.tree_createSpace (fun _ => .none) w.vm))).mono ?_ ?_
  · rintro space vm ⟨⟨-, hspace, hkernel, -, hmemory⟩, ⟨hp, hnew, -⟩, -, hkind, houtside, htree⟩
    rw [hspace]
    refine hmade space.root vm hkernel (.of_kernel_eq hkernel (hp.perm ?_) fun g hg => ?_) hnew hmemory
    · rw [frames, frames, List.flatMap_append, List.flatMap_singleton, List.append_assoc, ← hspace]
      refine (List.perm_append_comm_assoc _ _ _).trans ?_
      exact (List.perm_append_comm_assoc _ _ _).append_left _
    · rcases List.mem_append.mp hg with hg | hg
      · refine (h.guests g hg).congr fun t ht => houtside t fun he => hnew (he ▸ ?_)
        exact List.mem_append_right _ (List.mem_append_left _ (mem_frames hg ht))
      · rw [List.mem_singleton.mp hg, ← hspace]
        exact ⟨hkind, htree⟩
  · rintro _ _ ⟨rfl, -⟩
    exact hw

/-- Making a space leaves all that was owned before. -/
theorem sameFrame_create {m : Memory} {root source t : Nat} {owned : List Nat} (hroot : root ∉ owned)
    (ht : t ∈ owned) : m.SameFrame ((m.clearPage root).copyUpperHalf source root) t := by
  have hne : t ≠ root := fun he => hroot (he ▸ ht)
  exact Memory.sameFrame_newRoot _ _ hne

theorem sound_create (h : w.Sound base) : Outcome (PagingCall.run .create w)
    (fun _ w' => w'.Sound base) fun _ w' => w'.Sound base := by
  refine outcome_create h.toLodged h fun root vm hkernel hlodged hroot hmemory => ⟨hlodged, ?_⟩
  dsimp only [addGuest]
  rw [hkernel, hmemory]
  exact h.kernel.congr fun t ht =>
    sameFrame_create hroot (List.mem_append_left _ (AddressSpace.mem_ownedFrames ht))

/-- What holds of the world as it is, and of it without a user space, holds when the space was to be taken
down: one that is loaded stays. -/
theorem outcome_destroy {P : World → Prop} (h : w.Lodged base) (i : Nat) (hw : P w)
    (hgone : ∀ pool : FramePool, pool.Holds base (w.beside i ++ w.held) →
      P ⟨{ w.vm with ram := { w.vm.ram with pool } }, w.guests.eraseIdx i, w.held⟩) :
    Outcome (PagingCall.run (.destroy i) w) (fun _ w' => P w') fun _ w' => P w' := by
  refine outcome_given hw fun g hi => ?_
  refine Outcome.bind (P := fun _ w' => P (removeGuest i w')) (outcome_onVm ?_) fun _ _ h' => h'
  by_cases hactive : w.vm.activeRoot = some g.space.root
  · have hrefused : Vm.destroySpace g.space w.vm = .error (.refused .activeSpace) w.vm := if_pos hactive
    exact .of_refused hrefused hw
  · obtain ⟨pool, hok, hp⟩ := Vm.exists_destroySpace (h.books_of hi) hactive
    exact .of_ok hok (hgone pool hp)

/-- **A space that is taken down** leaves the others. -/
theorem sound_destroy (h : w.Sound base) (i : Nat) : Outcome (PagingCall.run (.destroy i) w)
    (fun _ w' => w'.Sound base) fun _ w' => w'.Sound base := by
  refine outcome_destroy h.toLodged i h fun pool hp => ?_
  refine h.of_pool rfl rfl (fun _ hg => List.mem_of_mem_eraseIdx hg) ?_
  rw [beside, List.append_assoc] at hp
  exact hp

/-- The books of a space when one of the held frames is set aside. -/
theorem Lodged.books_aside (h : w.Lodged base) (hi : w.guests[i]? = some g) (hframe : frame ∈ w.held) :
    Mapper.Books base (frame :: (w.beside i ++ w.held.erase frame)) (w.vm.ram, g.space) := by
  refine (h.books_of hi).perm (List.Perm.append_left _ ?_)
  exact ((List.perm_cons_erase hframe).append_left _).trans List.perm_middle

/-- The held frame that was set aside goes back. -/
theorem holds_of_aside {pool : FramePool} {l : List Nat} (hframe : frame ∈ held)
    (h : pool.Holds base (l ++ frame :: (others ++ held.erase frame))) :
    pool.Holds base (l ++ (others ++ held)) := by
  refine h.perm (List.Perm.append_left _ ?_)
  exact (((List.perm_cons_erase hframe).append_left _).trans List.perm_middle).symm

/-- The books of a space when the frame of a page has been handed back. -/
theorem Lodged.books_unmap (h : w.Lodged base) (hi : w.guests[i]? = some g) {page : Page}
    {s : Ram × AddressSpace} (hun : Mapper.Unmaps g.asked page frame (w.vm.ram, g.space) s) :
    s.1.pool.Holds base (s.2.ownedFrames ++ (w.beside i ++ frame :: w.held)) := by
  rw [hun.pool]
  refine (h.books_of hi).perm ((hun.owned.append_right _).trans ?_)
  exact List.perm_middle.symm.trans (List.Perm.append_left _ List.perm_middle.symm)

theorem Lodged.lt_of_held (h : w.Lodged base) (hframe : frame ∈ w.held) : frame < 2 ^ 40 :=
  Nat.lt_trans (h.books.lt_maxFrames (List.mem_append_right _ (List.mem_append_right _ hframe)))
    (by decide)

/-- What holds of the world as it is, and of it when the space was worked on, holds when a page was to be
mapped. -/
theorem outcome_map {P : World → Prop} (h : w.Lodged base) (i : Nat) (page : Page) (flags : Flags)
    (hframe : frame ∈ w.held) (hw : P w) (hrework : ∀ g g' w', Reworks base i g g' w w' → P w') :
    Outcome (PagingCall.run (.map i page frame flags) w) (fun _ w' => P w') fun _ w' => P w' := by
  refine outcome_given hw fun g hi => ?_
  obtain ⟨-, τ, ht⟩ := h.guests g (List.mem_of_getElem? hi)
  have hbooks := h.books_aside hi hframe
  refine Outcome.bind (P := fun _ w' => P (drop frame w'))
    (outcome_onGuest (Outcome.onSpace (((Mapper.books_map page frame flags hbooks).and
      (Mapper.tree_map hbooks ht (h.lt_of_held hframe))).mono ?_ ?_))) fun _ _ h' => h'
  · rintro _ s ⟨⟨hb, -⟩, hmaps⟩
    exact hrework g _ _ ⟨hi, rfl, rfl, hb, hmaps.within, hmaps.tree⟩
  · rintro e s ⟨⟨hb, -⟩, -, τ', hgrows⟩
    exact hrework g _ _ ⟨hi, rfl, rfl, holds_of_aside hframe hb, hgrows.within, τ', hgrows.tree⟩

/-- The same for a page that was to be unmapped. -/
theorem outcome_unmap {P : World → Prop} (h : w.Lodged base) (i : Nat) (page : Page) (hw : P w)
    (hrework : ∀ g g' w', Reworks base i g g' w w' → P w') :
    Outcome (PagingCall.run (.unmap i page) w) (fun _ w' => P w') fun _ w' => P w' := by
  refine outcome_given hw fun g hi => ?_
  obtain ⟨-, τ, ht⟩ := h.guests g (List.mem_of_getElem? hi)
  refine Outcome.bind (P := fun frame w' => P (hold frame w'))
    (outcome_onGuest (Outcome.onSpace ?_)) fun _ _ h' => h'
  rcases Mapper.unmap_cases (s := (w.vm.ram, g.space)) ht page with ⟨-, hrefused⟩ | ⟨f, s, hok, hun⟩
  · exact Outcome.of_refused hrefused (hrework g g _ ⟨hi, rfl, rfl, h.books_of hi, .refl _, τ, ht⟩)
  · exact Outcome.of_ok hok
      (hrework g _ _ ⟨hi, rfl, rfl, h.books_unmap hi hun, hun.within, hun.tree⟩)

theorem sound_mapRegion (h : w.Sound base) (start : VirtAddr) (length : Nat) :
    Outcome (PagingCall.run (.mapRegion start length) w) (fun _ w' => w'.Sound base)
      fun _ w' => w'.Sound base := by
  refine Outcome.bind (P := fun _ w' => Sound base w') (outcome_onVm ?_) fun _ _ h' => h'
  refine (Vm.kernelGrows_mapKernelRegion start length h.books h.kernel.2).mono ?_ ?_
  · exact fun _ _ => h.of_kernel
  · exact fun _ _ => h.of_kernel

/-- No table has changed. -/
def SameTables (w : World) (m : Memory) : Prop :=
  (∀ t ∈ w.vm.kernel.tableFrames, w.vm.ram.memory.SameFrame m t) ∧
    ∀ g ∈ w.guests, ∀ t ∈ g.space.tableFrames, w.vm.ram.memory.SameFrame m t

theorem SameTables.refl (w : World) : w.SameTables w.vm.ram.memory :=
  ⟨fun _ _ => Memory.SameFrame.refl _ _, fun _ _ _ _ => Memory.SameFrame.refl _ _⟩

/-- Where nothing that is owned has changed, no table has. -/
theorem SameTables.of_owned (hm : ∀ t ∈ w.vm.kernel.ownedFrames ++ (frames w.guests ++ w.held),
    w.vm.ram.memory.SameFrame m t) : w.SameTables m :=
  ⟨fun t ht => hm t (List.mem_append_left _ (AddressSpace.mem_ownedFrames ht)), fun _ hg t ht =>
    hm t (List.mem_append_right _ (List.mem_append_left _ (mem_frames hg ht)))⟩

/-- The frames that are mapped in the spaces. -/
def dataFrames (w : World) : List Nat :=
  w.vm.kernel.pages.map Prod.snd ++ w.guests.flatMap fun g => g.space.pages.map Prod.snd

/-- What is owned is tables, frames that are mapped, and frames that are held. -/
theorem owned_perm_tables (w : World) : (w.vm.kernel.ownedFrames ++ (frames w.guests ++ w.held)).Perm
    ((w.vm.kernel.tableFrames ++ w.guests.flatMap fun g => g.space.tableFrames) ++
      (w.dataFrames ++ w.held)) := by
  have hguests : (frames w.guests).Perm ((w.guests.flatMap fun g => g.space.tableFrames) ++
      w.guests.flatMap fun g => g.space.pages.map Prod.snd) :=
    (List.flatMap_append_perm w.guests (fun g => g.space.tableFrames) fun g =>
      g.space.pages.map Prod.snd).symm
  have hkernel : w.vm.kernel.ownedFrames =
    w.vm.kernel.tableFrames ++ w.vm.kernel.pages.map Prod.snd := rfl
  rw [List.perm_iff_count] at hguests ⊢
  intro f
  simp only [hkernel, dataFrames, List.count_append, hguests]
  omega

/-- **No table is in a frame that is mapped**: where only such frames have changed, no table has. -/
theorem Lodged.sameTables (h : w.Lodged base) (hm : ∀ f ∉ w.dataFrames, w.vm.ram.memory.SameFrame m f) :
    w.SameTables m := by
  have hdisjoint := (List.nodup_append.mp (h.books.perm w.owned_perm_tables).nodup).2.2
  have hnot : ∀ t ∈ w.vm.kernel.tableFrames ++ w.guests.flatMap (fun g => g.space.tableFrames),
      t ∉ w.dataFrames := fun t ht hdata => hdisjoint t ht t (List.mem_append_left _ hdata) rfl
  exact ⟨fun t ht => hm t (hnot t (List.mem_append_left _ ht)), fun g hg t ht =>
    hm t (hnot t (List.mem_append_right _ (List.mem_flatMap.mpr ⟨g, hg, ht⟩)))⟩

/-- **Bytes are written into no table**, if the addresses of the range lead to frames that are mapped. -/
theorem Lodged.sameTables_writeBytes (h : w.Lodged base) {root : Nat} {start : VirtAddr}
    {bytes : List UInt8} (hlands : ∀ m, w.SameTables m → ∀ a : VirtAddr, start.val ≤ a.val →
      a.val < start.val + bytes.length → m.Lands root w.dataFrames a) :
    w.SameTables (w.vm.ram.memory.writeBytes root start bytes).1 :=
  h.sameTables (Memory.outside_writeBytes fun m hm => hlands m (h.sameTables hm))

theorem mem_dataFrames {i? : Option Nat} (hspace : space? i? w = some s) :
    s.pages.map Prod.snd ⊆ w.dataFrames := by
  cases i? with
  | none =>
    cases hspace
    exact List.subset_append_left _ _
  | some i =>
    obtain ⟨g, hi, rfl⟩ := Option.map_eq_some_iff.mp hspace
    exact fun _ hf => List.mem_append_right _ (List.mem_flatMap.mpr ⟨g, List.mem_of_getElem? hi, hf⟩)

/-- An address of the lower half leads into a frame that is mapped in the user space, or nowhere. -/
theorem Lodged.lands_of_lower (h : w.Lodged base) (hg : g ∈ w.guests)
    (hm : ∀ t ∈ g.space.tableFrames, w.vm.ram.memory.SameFrame m t) {a : VirtAddr} (ha : a.val < 2 ^ 47) :
    m.Lands g.space.root (g.space.pages.map Prod.snd) a := by
  obtain ⟨hkind, τ, ht⟩ := (h.guests g hg).congr hm
  exact ht.lands ((accepts_user hkind).trans (congrArg (!·) (Memory.isUpper_containing ha)))

/-- **An address of the lower half** leads into a frame that is mapped in the space, or nowhere. -/
theorem Sound.lands_of_lower (h : w.Sound base) {i? : Option Nat} (hspace : space? i? w = some s)
    (hm : w.SameTables m) {a : VirtAddr} (ha : a.val < 2 ^ 47) :
    m.Lands s.root (s.pages.map Prod.snd) a := by
  cases i? with
  | none =>
    cases hspace
    obtain ⟨hkind, τ, ht⟩ := h.kernel.congr hm.1
    exact .of_none (ht.translate_eq_none hkind ((accepts_kernel hkind).trans (Memory.isUpper_containing ha)))
  | some i =>
    obtain ⟨g, hi, rfl⟩ := Option.map_eq_some_iff.mp hspace
    have hg := List.mem_of_getElem? hi
    exact h.toLodged.lands_of_lower hg (hm.2 g hg) ha

/-- What holds of the world when the bytes have been written, all or some of them, holds in the end. -/
theorem outcome_write {i? : Option Nat} {start : VirtAddr} {bytes : List UInt8} {P : World → Prop}
    (hw : P w) (hwritten : ∀ space, space? i? w = some space → P { w with vm := { w.vm with ram :=
      { w.vm.ram with memory := (w.vm.ram.memory.writeBytes space.root start bytes).1 } } }) :
    Outcome (PagingCall.run (.write i? start bytes) w) (fun _ w' => P w') fun _ w' => P w' := by
  refine outcome_given hw fun space hspace => ?_
  have hwritten := hwritten space hspace
  refine Outcome.bind (P := fun _ w' => P w') (outcome_onVm ?_) fun _ _ h' => h'
  unfold Vm.writeBytes
  dsimp only
  cases (w.vm.ram.memory.writeBytes space.root start bytes).2 with
  | ok => exact hwritten
  | error stop =>
    cases stop with
    | refused => exact hwritten
    | halted => exact True.intro

/-- A write leaves all tables alone. -/
def SparesTables (w : World) : PagingCall → Prop
  | .write i? start bytes => ∀ space, space? i? w = some space →
      w.SameTables (w.vm.ram.memory.writeBytes space.root start bytes).1
  | _ => True

theorem sound_write (h : w.Sound base) {i? : Option Nat} {start : VirtAddr} {bytes : List UInt8}
    (hspares : w.SparesTables (.write i? start bytes)) :
    Outcome (PagingCall.run (.write i? start bytes) w) (fun _ w' => w'.Sound base)
      fun _ w' => w'.Sound base := by
  refine outcome_write h fun space hspace => ?_
  obtain ⟨hkerneltables, htables⟩ := hspares space hspace
  exact ⟨h.toLodged.of_memory rfl rfl htables, h.kernel.congr hkerneltables⟩

theorem sound_load (h : w.Sound base) (i? : Option Nat) :
    Outcome (PagingCall.run (.load i?) w) (fun _ w' => w'.Sound base)
      fun _ w' => w'.Sound base :=
  outcome_given h fun _ _ => h.of_pool rfl rfl (fun _ hg => hg) h.books

/-- **Every call of honest callers keeps the world sound**, whether it is done or refused, if it writes
into no table. -/
theorem sound_run (h : w.Sound base) {call : PagingCall} (hhonest : call.Honest w)
    (hspares : w.SparesTables call) :
    Outcome (call.run w) (fun _ w' => w'.Sound base) fun _ w' => w'.Sound base := by
  cases call with
  | takeFrame => exact sound_takeFrame h
  | giveFrame frame => exact sound_giveFrame h hhonest
  | create => exact sound_create h
  | destroy i => exact sound_destroy h i
  | map i page frame flags => exact outcome_map h.toLodged i page flags hhonest h fun _ _ _ => h.of_guest
  | unmap i page => exact outcome_unmap h.toLodged i page h fun _ _ _ => h.of_guest
  | mapRegion start length => exact sound_mapRegion h start length
  | write i? start bytes => exact sound_write h hspares
  | load i? => exact sound_load h i?

/-- An allowed call is an honest one, and writes into no table. -/
theorem Sound.of_allowed (h : w.Sound base) {call : PagingCall} (hallowed : call.Allowed w) :
    call.Honest w ∧ w.SparesTables call := by
  cases call with
  | giveFrame => exact ⟨hallowed, True.intro⟩
  | map => exact ⟨hallowed.1, True.intro⟩
  | write i? start bytes =>
    have hlow : start.val + bytes.length ≤ 2 ^ 47 := hallowed
    refine ⟨True.intro, fun space hspace => h.sameTables_writeBytes fun m hm a _ hlast => ?_⟩
    exact (h.lands_of_lower hspace hm (Nat.lt_of_lt_of_le hlast hlow)).mono (mem_dataFrames hspace)
  | _ => exact ⟨True.intro, True.intro⟩

/-- **Every call only takes frames and gives them back**, whoever makes it. -/
theorem trades_run {origin : FramePool} (h : origin.Trades w.vm.ram.pool) (call : PagingCall) :
    Outcome (call.run w) (fun _ w' => origin.Trades w'.vm.ram.pool)
      fun _ w' => origin.Trades w'.vm.ram.pool := by
  cases call with
  | takeFrame => exact Outcome.bind (outcome_onVm (Vm.trades_takeFrame h)) fun _ _ h => h
  | giveFrame frame => exact Outcome.bind (outcome_onVm (Vm.trades_giveFrame frame h)) fun _ _ h => h
  | create => exact Outcome.bind (outcome_onVm (Vm.trades_createSpace h)) fun _ _ h => h
  | destroy i =>
    refine outcome_given h fun g _ => ?_
    exact Outcome.bind (outcome_onVm (Vm.trades_destroySpace g.space h)) fun _ _ h => h
  | map i page frame flags =>
    refine outcome_given h fun g _ => Outcome.bind (outcome_onGuest (Outcome.onSpace ?_)) fun _ _ h => h
    exact Mapper.trades_map page frame flags h
  | unmap i page =>
    refine outcome_given h fun g _ => Outcome.bind (outcome_onGuest (Outcome.onSpace ?_)) fun _ _ h => h
    exact Mapper.trades_unmap page h
  | mapRegion start length =>
    exact Outcome.bind (outcome_onVm (Vm.trades_mapKernelRegion start length h)) fun _ _ h => h
  | write i? start bytes => exact outcome_write h fun _ _ => h
  | load i? => exact outcome_given h fun _ _ => h

/-! ## 4. Every run keeps the world sound -/

theorem trades_of_drawn {map : MemoryMap} {pool : FramePool} (hd : pool.Drawn map held) :
    (FramePool.ofMap map).Trades pool := by
  induction hd with
  | start => exact .refl
  | take _ hok ih => exact ih.take hok
  | give _ _ hok ih => exact ih.give hok

theorem holds_of_drawn {map : MemoryMap} {pool : FramePool} (hd : pool.Drawn map held) :
    pool.Holds (FramePool.ofMap map).used held := by
  induction hd with
  | start => exact FramePool.Holds.ofMap map
  | take _ hok ih => exact ih.of_allocate hok
  | give _ hframe hok ih =>
    obtain ⟨pool', hgive, hp⟩ := (ih.perm (List.perm_cons_erase hframe)).exists_release
    rw [hok] at hgive
    cases hgive
    exact hp

/-- **Every run keeps the world sound.** -/
theorem sound_of_reaches {map : MemoryMap} (hr : Reaches map w) :
    w.Sound (FramePool.ofMap map).used := by
  induction hr with
  | boot hdrawn hboot =>
    obtain ⟨hp, hright⟩ := Vm.tree_boot (holds_of_drawn hdrawn) hboot
    exact ⟨⟨hp, fun g hg => absurd hg List.not_mem_nil⟩, hright⟩
  | done _ hallowed hok ih =>
    obtain ⟨hhonest, hspares⟩ := ih.of_allowed hallowed
    exact (sound_run ih hhonest hspares).of_eq_ok hok
  | refused _ hallowed he ih =>
    obtain ⟨hhonest, hspares⟩ := ih.of_allowed hallowed
    exact (sound_run ih hhonest hspares).of_eq_refused he

end World

end KernelCore
