/-
# Processes and the table that holds them

A process is a suspended computation with what belongs to it: an address space, a stack on the
kernel heap, and the account of its use of the processor.  The table has one slot for each process
that there can be; a new process takes the first free one.  Next to the slots the table keeps who
runs, who waits, and the context to resume when nobody can run.

The view of the slots is `ProcessTable.live`, the processes in slot order; `live_modify` and `live_erase`
say what changing and removing a process does to it.
-/
import KernelCore.Paging.Space
import KernelCore.Process.Context
import KernelCore.Process.ReadyQueue

namespace KernelCore

/-! ## 1. A process -/

/-- How many bytes of its name a process keeps. -/
def processNameLength : Nat := 16

/-- Bytes of a process's stack. -/
def processStackSize : Nat := 16384

/-- How many timer ticks a process may run before the next one's turn. -/
def quantumTicks : Nat := 5

/-- The private data page of every process. -/
def processDataStart : VirtAddr := ⟨0x40000000, .inl (by decide)⟩

/-- What a process is doing. -/
inductive ProcessState where
  /-- It is being built. -/
  | new
  /-- It waits for the processor. -/
  | ready
  /-- It has the processor. -/
  | running
  /-- It waits for something else. -/
  | blocked
  /-- It is being taken down. -/
  | terminated
  deriving DecidableEq, Repr

/-- The state as it is shown. -/
def ProcessState.label : ProcessState → String
  | .new => "New"
  | .ready => "Ready"
  | .running => "Running"
  | .blocked => "Blocked"
  | .terminated => "Terminated"

/-- A process and what belongs to it. -/
structure Process where
  pid : Nat
  name : String
  state : ProcessState
  /-- Its registers, as they were when it last stopped running. -/
  context : Context
  space : AddressSpace
  /-- The lowest address of its stack. -/
  stack : Nat
  /-- Ticks left of its turn. -/
  quantum : Nat
  /-- Ticks that it has run in all. -/
  ticks : Nat
  deriving DecidableEq

namespace Process

/-- The longest beginning of a text that takes at most `room` bytes and cuts no character. -/
def fitting : Nat → List Char → List Char
  | _, [] => []
  | room, c :: rest =>
    if c.utf8Size ≤ room then c :: fitting (room - c.utf8Size) rest else []

/-- As much of a name as a process keeps. -/
def shortName (name : String) : String := String.ofList (fitting processNameLength name.toList)

/-- The slot of a stack that holds the address to which the first function returns. -/
def returnSlot (stack : Nat) : Nat := stack + processStackSize - 8

/-- A process that will begin at `entry` on its stack. -/
def build (pid : Nat) (name : String) (entry : UInt64) (space : AddressSpace) (stack : Nat) :
    Process :=
  { pid, name := shortName name, state := .new
    context := .start entry (.ofNat (returnSlot stack)), space, stack
    quantum := quantumTicks, ticks := 0 }

/-- The process after a timer tick that was its own. -/
def afterTick (p : Process) : Process :=
  { p with ticks := p.ticks + 1, quantum := p.quantum - 1 }

end Process

/-! ## 2. The table -/

/-- The processes, who runs, who waits, and what to resume when nobody can run. -/
structure ProcessTable where
  slots : Vector (Option Process) maxProcesses
  ready : ReadyQueue
  /-- The process that runs. -/
  current : Option Nat
  /-- The number of the next process. -/
  nextPid : Nat
  /-- Timer ticks so far. -/
  uptime : Nat
  /-- What to resume when nobody can run. -/
  idle : Context

namespace ProcessTable

/-- A table without processes.  Numbers start at one. -/
def empty (idle : Context) : ProcessTable :=
  { slots := .replicate maxProcesses none, ready := .empty, current := none, nextPid := 1,
    uptime := 0, idle }

/-- The processes, in slot order. -/
def live (t : ProcessTable) : List Process := t.slots.toList.flatMap Option.toList

/-- How many processes there are. -/
def size (t : ProcessTable) : Nat := t.live.length

/-- The process with a given number. -/
def find? (t : ProcessTable) (pid : Nat) : Option Process := t.live.find? (·.pid == pid)

/-- The process that runs. -/
def running? (t : ProcessTable) : Option Process := t.current.bind t.find?

/-- The first slot that is free. -/
def freeSlot? (t : ProcessTable) : Option (Fin maxProcesses) :=
  (List.finRange maxProcesses).find? fun slot => t.slots[slot].isNone

/-- The table with a process in a slot. -/
def place (t : ProcessTable) (slot : Fin maxProcesses) (p : Process) : ProcessTable :=
  { t with slots := t.slots.set slot (some p) }

/-- The table with the process of a given number changed. -/
def modify (t : ProcessTable) (pid : Nat) (f : Process → Process) : ProcessTable :=
  { t with slots := t.slots.map (Option.map fun p => if p.pid = pid then f p else p) }

/-- The table without the process of a given number. -/
def erase (t : ProcessTable) (pid : Nat) : ProcessTable :=
  { t with slots := t.slots.map (Option.filter fun p => p.pid ≠ pid) }

/-- How many frames belong to the address spaces of the processes. -/
def frameCount (t : ProcessTable) : Nat := t.live.foldr (fun p n => p.space.frameCount + n) 0

@[simp] theorem live_empty (idle : Context) : (empty idle).live = [] := by
  simp [live, empty]

theorem live_modify (t : ProcessTable) (pid : Nat) (f : Process → Process) :
    (t.modify pid f).live = t.live.map fun p => if p.pid = pid then f p else p := by
  simp only [live, modify, Vector.toList_map]
  induction t.slots.toList with
  | nil => rfl
  | cons slot rest ih =>
    rw [List.map_cons, List.flatMap_cons, List.flatMap_cons, List.map_append, ih]
    cases slot <;> rfl

theorem live_erase (t : ProcessTable) (pid : Nat) :
    (t.erase pid).live = t.live.filter fun p => p.pid ≠ pid := by
  simp only [live, erase, Vector.toList_map]
  induction t.slots.toList with
  | nil => rfl
  | cons slot rest ih =>
    rw [List.map_cons, List.flatMap_cons, List.flatMap_cons, List.filter_append, ih]
    cases slot with
    | none => rfl
    | some p => by_cases h : p.pid = pid <;> simp [h, Option.filter]

theorem isNone_of_freeSlot? {t : ProcessTable} {slot : Fin maxProcesses}
    (h : t.freeSlot? = some slot) : t.slots[slot] = none := by
  unfold freeSlot? at h
  simpa using List.find?_some h

theorem freeSlot?_eq_none_iff (t : ProcessTable) :
    t.freeSlot? = none ↔ ∀ slot : Fin maxProcesses, t.slots[slot].isSome := by
  simp only [freeSlot?, List.find?_eq_none, List.mem_finRange, true_implies,
    Option.isSome_iff_ne_none, Option.isNone_iff_eq_none, ne_eq]

end ProcessTable

end KernelCore
