/-
# Page tables in memory

The tables of an address space form a tree of four levels, rooted in one frame.  Every table is a
frame of 512 words of physical memory, and all that is known of a mapping is in those words: this
module reads and writes them one entry at a time.

* `Memory.translate` follows an address down the tree;
* `Mapper.map` adds a page to a space, drawing the tables that are missing from the frame pool and
  recording them in the space, also when it then fails further down;
* `Mapper.unmap` takes a page out and hands its frame back.

Tables are numbered by level: the root is at level 3 and a leaf entry stands in a table of level 0.

How an entry is followed, drawn, widened and refused is not the kernel's own choice: it leaves that to a
library's mapper over a direct map of physical memory.  The rules here are that mapper's.  The kernel adds
which half a space may map, and the record of what it has.
-/
import KernelCore.Frame.Pool
import KernelCore.Paging.Entry
import KernelCore.Paging.Error
import KernelCore.Paging.Space

namespace KernelCore

/-! ## 1. Entries in memory -/

/-- Entries of a table. -/
def tableEntries : Nat := 512

namespace Memory

/-- Where an entry of a table is. -/
def entryAddress (table index : Nat) : Nat := table * pageSize + 8 * index

/-- An entry of a table. -/
def entry (m : Memory) (table index : Nat) : Entry := .ofWord (m.word (entryAddress table index))

/-- The memory with an entry of a table replaced. -/
def setEntry (m : Memory) (table index : Nat) (e : Entry) : Memory :=
  m.setWord (entryAddress table index) e.toWord

/-- The memory with the upper half of one table copied into another. -/
def copyUpperHalf (m : Memory) (source target : Nat) : Memory :=
  (List.range' Page.upperHalfIndex (tableEntries - Page.upperHalfIndex)).foldl
    (fun m index => m.setEntry target index (m.entry source index)) m

@[simp] theorem entry_setEntry_self (m : Memory) (table index : Nat) (e : Entry) :
    (m.setEntry table index e).entry table index = e := by
  rw [entry, setEntry, word_setWord_self, Entry.ofWord_toWord]

theorem entry_setEntry_of_ne (m : Memory) (table index table' index' : Nat) (e : Entry)
    (hi : index < tableEntries) (hi' : index' < tableEntries)
    (h : table ≠ table' ∨ index ≠ index') :
    (m.setEntry table index e).entry table' index' = m.entry table' index' := by
  simp only [tableEntries] at hi hi'
  rw [entry, setEntry, word_setWord_of_disjoint, entry]
  simp only [entryAddress, pageSize]
  omega

/-! ## 2. Following an address -/

/-- Where an address leads: a physical address and the attributes of the last entry. -/
structure Target where
  address : Nat
  flags : Flags
  deriving DecidableEq

/-- Bytes under one entry of a table of a level. -/
def span (level : Nat) : Nat := pageSize * 512 ^ level

/-- Follows an address from a table of a level.  A leaf entry counts unless it is zero.  Above the
leaves an entry has to be present; a large one ends the walk there, except at the root, where it
cannot be. -/
def translateFrom (m : Memory) (a : VirtAddr) : Nat → Nat → Except Halt (Option Target)
  | 0, table =>
    let e := m.entry table (a.index 0)
    if e = .unused then .ok none else .ok (some ⟨e.address + a.offset, e.flags⟩)
  | level + 1, table =>
    let e := m.entry table (a.index (level + 1))
    if !e.isPresent then .ok none
    else if e.isHuge then
      if level = 2 then .error .hugeRootEntry
      else .ok (some ⟨alignedDown e.address level + a.val % span (level + 1), e.flags⟩)
    else translateFrom m a level e.frame.toNat
where
  /-- A large mapping begins at a multiple of its size. -/
  alignedDown (address level : Nat) : Nat := address / span (level + 1) * span (level + 1)

/-- Where an address leads in the space with the given root. -/
def translate (m : Memory) (root : Nat) (a : VirtAddr) : Except Halt (Option Target) :=
  m.translateFrom a 3 root

/-- The table of level 0 that a page leads to, if all entries on the way are tables. -/
def leafTable? (m : Memory) (page : Page) : Nat → Nat → Option Nat
  | 0, table => some table
  | level + 1, table =>
    let e := m.entry table (page.index (level + 1))
    if e.isPresent && !e.isHuge then leafTable? m page level e.frame.toNat else none

end Memory

/-! ## 3. Changing a space -/

/-- Physical memory: what its frames hold, and which of them are taken. -/
structure Ram where
  memory : Memory
  pool : FramePool

/-- Operations on a space and on the physical memory that its tables are in. -/
abbrev Mapper := EStateM (Stop PagingError) (Ram × AddressSpace)

namespace Mapper

/-- Refuses with an error. -/
def refuse {α : Type} (e : PagingError) : Mapper α := .error (.refused e)

/-- Halts the machine. -/
def halt {α : Type} (h : Halt) : Mapper α := .error (.halted h)

/-- Takes a frame for a new table; from then on it belongs to the space. -/
def drawTable : Mapper Nat := fun (ram, space) =>
  match ram.pool.allocate with
  | .error _ => refuse .outOfMemory (ram, space)
  | .ok (frame, pool) => .ok frame ({ ram with pool }, space.addTable frame)

/-- Makes a frame a table, empty and with an entry for it in the table above. -/
def linkTable (table index : Nat) (flags : Flags) (frame : Nat) : Mapper Nat :=
  fun (ram, space) =>
    let memory := (ram.memory.setEntry table index (.ofFrame frame flags)).clearPage frame
    .ok frame ({ ram with memory }, space)

/-- One step down from a table, on the way to a leaf with the given attributes.  A missing table is
drawn and cleared; one that is there is made to allow what the leaf allows. -/
def descend (page : Page) (leaf : Flags) (table index : Nat) : Mapper Nat := fun (ram, space) =>
  let needed := Flags.ofTables leaf
  let e := ram.memory.entry table index
  if e = .unused then (drawTable >>= linkTable table index needed) (ram, space)
  else
    let memory := if e.flags.contains needed then ram.memory
      else ram.memory.setEntry table index { e with flags := e.flags.union needed }
    if e.isHuge then refuse (.alreadyMapped page) ({ ram with memory }, space)
    else .ok e.frame.toNat ({ ram with memory }, space)

/-- The table of level 0 for a page, from a table of a level. -/
def reach (page : Page) (leaf : Flags) : Nat → Nat → Mapper Nat
  | 0, table => pure table
  | level + 1, table =>
    descend page leaf table (page.index (level + 1)) >>= reach page leaf level

/-- Writes the leaf entry of a page into its table, unless there is one. -/
def writeLeaf (page : Page) (frame : Nat) (flags : Flags) (table : Nat) : Mapper Unit :=
  fun (ram, space) =>
    if ram.memory.entry table (page.index 0) ≠ .unused then
      refuse (.alreadyMapped page) (ram, space)
    else if flags.contains .huge then halt .hugeLeaf (ram, space)
    else
      let memory := ram.memory.setEntry table (page.index 0) (.ofFrame frame flags)
      .ok () ({ ram with memory }, space)

/-- Records that a page of the space is mapped. -/
def recordPage (page : Page) (frame : Nat) : Mapper Unit := fun (ram, space) =>
  .ok () (ram, space.addPage page frame)

/-- Maps a page to a frame; on success the frame belongs to the space. -/
def map (page : Page) (frame : Nat) (flags : Flags) : Mapper Unit := fun (ram, space) =>
  if !space.accepts page then refuse (.outOfRange page) (ram, space)
  else if (space.frameAt? page).isSome then refuse (.alreadyMapped page) (ram, space)
  else match Frame.address frame with
    | .error h => halt h (ram, space)
    | .ok _ =>
      (do
        let table ← reach page (flags.union .present) 3 space.root
        writeLeaf page frame (flags.union .present) table
        recordPage page frame : Mapper Unit) (ram, space)

/-- Takes a page out of the space; its frame is the caller's again. -/
def unmap (page : Page) : Mapper Nat := fun (ram, space) =>
  match space.frameAt? page, ram.memory.leafTable? page 3 space.root with
  | some frame, some table =>
    let e := ram.memory.entry table (page.index 0)
    if e.isPresent && !e.isHuge then
      .ok frame ({ ram with memory := ram.memory.setEntry table (page.index 0) .unused },
        space.removePage page)
    else refuse (.notMapped page) (ram, space)
  | _, _ => refuse (.notMapped page) (ram, space)

end Mapper

end KernelCore
