/-
# The virtual-memory manager

`Vm` is physical memory together with the kernel's own address space and the choice of the space
that is loaded.  It creates user spaces, which share the kernel's upper half, maps and unmaps pages
in them, and takes all frames of a space back.

A user space is a value that the caller holds.  Operations on one take it as part of their state,
and leave it in the state also when they fail: a table that was drawn by then belongs to it.
-/
import KernelCore.Journal
import KernelCore.Paging.Tables

namespace KernelCore

/-- Physical memory, the kernel's address space, and what is loaded. -/
structure Vm where
  ram : Ram
  kernel : AddressSpace
  /-- The root table that is loaded, if any was. -/
  activeRoot : Option Nat
  enabled : Bool

namespace Vm

/-- Operations of the manager. -/
abbrev Op := EStateM (Stop PagingError) Vm

/-- Operations of the manager on a space of the caller. -/
abbrev SpaceOp := EStateM (Stop PagingError) (Vm × AddressSpace)

/-! ## 1. Spaces -/

/-- The manager over physical memory, with a kernel space in which nothing is mapped.  If the boot
loader left a root table, its upper half is taken over. -/
def boot (ram : Ram) (bootRoot : Option Nat) : Except PagingError Vm :=
  match ram.pool.allocate with
  | .error e => .error (.ofFrame e)
  | .ok (root, pool) =>
    let cleared := ram.memory.clearPage root
    let memory := match bootRoot with
      | some source => cleared.copyUpperHalf source root
      | none => cleared
    .ok { ram := { memory, pool }, kernel := .ofRoot .kernel root, activeRoot := none,
          enabled := false }

/-- What booting the manager reports. -/
def bootRecord (vm : Vm) : Except Halt Record := do
  return ⟨.debug, .paging, "Kernel address space root at " ++ (← Frame.describe vm.kernel.root)⟩

/-- Refuses with an error. -/
def refuse {α : Type} (e : PagingError) : Op α := .error (.refused e)

/-- Halts the machine. -/
def halt {α : Type} (h : Halt) : Op α := .error (.halted h)

/-- A new user space: an own root table whose upper half is the kernel's. -/
def createSpace : Op AddressSpace := fun vm =>
  match vm.ram.pool.allocate with
  | .error e => refuse (.ofFrame e) vm
  | .ok (root, pool) =>
    let memory := (vm.ram.memory.clearPage root).copyUpperHalf vm.kernel.root root
    .ok (.ofRoot .user root) { vm with ram := { memory, pool } }

/-- Gives frames back one after the other, up to the first that cannot be; the number of frames
given back comes with the pool. -/
def releaseFrames : List Nat → FramePool → Except FrameError Nat × FramePool
  | [], pool => (.ok 0, pool)
  | frame :: frames, pool =>
    match pool.release frame with
    | .error e => (.error e, pool)
    | .ok pool =>
      let (released, pool) := releaseFrames frames pool
      (released.map (· + 1), pool)

/-- Takes back every frame of a space that is not loaded; the result is how many there were. -/
def destroySpace (space : AddressSpace) : Op Nat := fun vm =>
  if vm.activeRoot = some space.root then refuse .activeSpace vm
  else
    let (released, pool) := releaseFrames space.ownedFrames vm.ram.pool
    match released with
    | .ok n => .ok n { vm with ram := { vm.ram with pool } }
    | .error e => refuse (.ofFrame e) { vm with ram := { vm.ram with pool } }

/-! ## 2. Pages -/

/-- Does an operation of the mapper on a space of the caller. -/
def onSpace {α : Type} (op : Mapper α) : SpaceOp α :=
  fun (vm, space) =>
    match op (vm.ram, space) with
    | .ok a (ram, space) => .ok a ({ vm with ram }, space)
    | .error stop (ram, space) => .error stop ({ vm with ram }, space)

/-- Does an operation that touches no space of the caller. -/
def onVm {α : Type} (op : Op α) : SpaceOp α :=
  fun (vm, space) =>
    match op vm with
    | .ok a vm => .ok a (vm, space)
    | .error stop vm => .error stop (vm, space)

/-- Does an operation of the mapper on the kernel's space. -/
def onKernelSpace {α : Type} (op : Mapper α) : Op α := fun vm =>
  match op (vm.ram, vm.kernel) with
  | .ok a (ram, kernel) => .ok a { vm with ram, kernel }
  | .error stop (ram, kernel) => .error stop { vm with ram, kernel }

/-- Maps a page of a space to a frame, which then belongs to the space. -/
def map (page : Page) (frame : Nat) (flags : Flags) : SpaceOp Unit :=
  onSpace (Mapper.map page frame flags)

/-- Takes a page out of a space and hands its frame back to the caller. -/
def unmap (page : Page) : SpaceOp Nat := onSpace (Mapper.unmap page)

/-- Takes a free frame. -/
def takeFrame : Op Nat := fun vm =>
  match vm.ram.pool.allocate with
  | .error e => refuse (.ofFrame e) vm
  | .ok (frame, pool) => .ok frame { vm with ram := { vm.ram with pool } }

/-- Gives a frame back. -/
def giveFrame (frame : Nat) : Op Unit := fun vm =>
  match vm.ram.pool.release frame with
  | .error e => refuse (.ofFrame e) vm
  | .ok pool => .ok () { vm with ram := { vm.ram with pool } }

/-- Maps a kernel page to a frame, or gives the frame back. -/
def mapKernelPage (page : Page) (frame : Nat) : Op Unit := fun vm =>
  match onKernelSpace (Mapper.map page frame .kernelData) vm with
  | .ok _ vm => .ok () vm
  | .error (.refused e) vm => (do giveFrame frame; refuse e : Op Unit) vm
  | .error (.halted h) vm => halt h vm

/-- Maps a kernel page to a fresh frame. -/
def mapFresh (page : Page) : Op Unit := takeFrame >>= mapKernelPage page

/-- Maps the private page of a new user space to a frame, or gives the frame back. -/
def mapUserPage (page : Page) (frame : Nat) : SpaceOp Unit := fun s =>
  match map page frame .userData s with
  | .ok _ s => .ok () s
  | .error (.refused e) s => (do onVm (giveFrame frame); onVm (refuse e) : SpaceOp Unit) s
  | .error (.halted h) s => .error (.halted h) s

/-- Maps a page of a new user space to a fresh frame.  If it cannot be mapped, the space goes
back. -/
def furnish (page : Page) (space : AddressSpace) : Op AddressSpace := fun vm =>
  match (onVm takeFrame >>= mapUserPage page) (vm, space) with
  | .ok _ (vm, space) => .ok space vm
  | .error (.refused e) (vm, space) =>
    (do let _ ← destroySpace space; refuse e : Op AddressSpace) vm
  | .error (.halted h) (vm, _) => halt h vm

/-- A new user space in which one page is mapped to a fresh frame, or nothing new. -/
def createSpaceWith (page : Page) : Op AddressSpace := createSpace >>= furnish page

/-- Maps `n` consecutive kernel pages to fresh frames, up to the first that fails.  The walk steps
on before it deals with a page. -/
def mapFreshPages : Nat → Page → Op Unit
  | 0, _ => pure ()
  | n + 1, page =>
    match page.next with
    | .error h => halt h
    | .ok none => mapFresh page
    | .ok (some next) => mapFresh page >>= fun _ => mapFreshPages n next

/-- Pages from that of one address to that of another. -/
def pageCount (first last : VirtAddr) : Nat :=
  (Page.containing last).number + 1 - (Page.containing first).number

/-- Maps fresh frames over the `length` bytes from `start` on in the kernel's space; the result is
the number of pages. -/
def mapKernelRegion (start : VirtAddr) (length : Nat) : Op Nat :=
  if length = 0 then halt .subOverflow
  else match start.advance (length - 1) with
    | .error h => halt h
    | .ok last => do
      mapFreshPages (pageCount start last) (.containing start)
      return pageCount start last

/-- Where an address leads in a space. -/
def translate (vm : Vm) (space : AddressSpace) (a : VirtAddr) :
    Except Halt (Option Memory.Target) := vm.ram.memory.translate space.root a

/-! ## 3. What is loaded -/

/-- Loads a root table. -/
def load (vm : Vm) (root : Nat) : Vm := { vm with activeRoot := some root }

/-- Turns paging on with the kernel's space.  This works once. -/
def enable : Op Unit := fun vm =>
  if vm.enabled then refuse .alreadyEnabled vm
  else .ok () { vm.load vm.kernel.root with enabled := true }

/-- What turning paging on reports. -/
def enableRecord (vm : Vm) : Except Halt Record := do
  return ⟨.info, .paging,
    "Paging enabled, kernel root at " ++ (← Frame.describe vm.kernel.root)⟩

end Vm

end KernelCore
