/-
# The state of the kernel

`Kernel` is everything that the kernel changes: physical memory and what is mapped, its heap, the
processes, the trap frame of the interrupt that is being served, and two records of what it said,
the console and the journal.

An operation of the kernel is a state transformer that keeps the state also when it stops short:
what happened before an error has happened.  `Kernel.Op ε` are the operations that may be refused
with an error in `ε`, and `Kernel.HaltOp` those that can only halt.

* `Kernel.onVm`, `Kernel.onHeap`: an operation of a part is one of the whole;
* `Kernel.boot`: the state after booting.
-/
import KernelCore.Heap.Alloc
import KernelCore.Kernel.Error
import KernelCore.Paging.Vm
import KernelCore.Process.Table

namespace KernelCore

/-- Everything that the kernel changes. -/
structure Kernel where
  vm : Vm
  heap : Heap
  processes : ProcessTable
  /-- The registers that the interrupt being served returns to. -/
  trap : Context
  /-- Bytes written to the console, the first one in front. -/
  console : List UInt8
  /-- Records written to the journal, the first one in front. -/
  journal : List Record
  /-- Where the first function of a process returns to: code of the kernel that exits with status zero. -/
  returnTarget : UInt64

namespace Kernel

/-- Operations that may be refused with an error in `ε`. -/
abbrev Op (ε : Type) := EStateM (Stop ε) Kernel

/-- Operations that can only halt. -/
abbrev HaltOp := EStateM Halt Kernel

variable {ε α : Type}

/-! ## 1. Operations of parts -/

/-- Refuses with an error. -/
def refuse (e : ε) : Op ε α := .error (.refused e)

/-- Halts the machine. -/
def halt (h : Halt) : Op ε α := .error (.halted h)

/-- Does an operation on virtual memory. -/
def onVm (ofError : PagingError → ε) (op : Vm.Op α) : Op ε α := fun k =>
  match op k.vm with
  | .ok a vm => .ok a { k with vm }
  | .error stop vm => .error (stop.mapError ofError) { k with vm }

/-- Does an operation on the heap. -/
def onHeap (ofError : HeapError → ε) (op : Heap → Except (Stop HeapError) (α × Heap)) : Op ε α :=
  fun k => match op k.heap with
    | .ok (a, heap) => .ok a { k with heap }
    | .error stop => .error (stop.mapError ofError) k

/-- The state with the process table changed. -/
def mapProcesses (k : Kernel) (f : ProcessTable → ProcessTable) : Kernel :=
  { k with processes := f k.processes }

/-- The state with a record at the end of the journal. -/
def report (k : Kernel) (level : Level) (source : Source) (text : String) : Kernel :=
  { k with journal := k.journal ++ [⟨level, source, text⟩] }

/-- The state with bytes at the end of the console. -/
def print (k : Kernel) (bytes : List UInt8) : Kernel :=
  { k with console := k.console ++ bytes }

/-- How many frames belong to the kernel's space and to those of the processes. -/
def ownedFrames (k : Kernel) : Nat := k.vm.kernel.frameCount + k.processes.frameCount

/-! ## 2. Booting -/

/-- Where the kernel's heap is mapped. -/
def heapStart : Nat := 0xffffffff00000000

/-- Bytes of the kernel's heap. -/
def heapSize : Nat := 1024 * 1024

/-- Where the linker puts the kernel's code. -/
def imageStart : UInt64 := 0xffffffff80000000

/-- The kernel over a memory map, before paging is on.  `memory` is what physical memory holds, and
`bootRoot` the root table that the boot loader left, if any; `idle` is resumed when nobody can run
and `trap` is what the first interrupt returns to.  Which address `returnTarget` is the linker knows: it is
one in the kernel's code. -/
def boot (memory : Memory) (map : MemoryMap) (bootRoot : Option Nat) (heap : Heap)
    (idle trap : Context) (returnTarget : UInt64 := imageStart) : Except (Stop PagingError) Kernel :=
  match Vm.boot ⟨memory, .ofMap map⟩ bootRoot with
  | .error e => .error (.refused e)
  | .ok vm => do
    let record ← Stop.ofHalt vm.bootRecord
    return { vm, heap, processes := .empty idle, trap, console := []
             journal := FramePool.bootRecords map ++ [record], returnTarget }

/-- Puts what a subsystem reports into the journal. -/
def record (r : Except Halt Record) : Op ε Unit := fun k =>
  match r with
  | .error h => halt h k
  | .ok r => .ok () (k.report r.level r.source r.text)

/-- Turns paging on. -/
def enablePaging : Op PagingError Unit := do
  onVm id Vm.enable
  record (← get).vm.enableRecord

end Kernel

end KernelCore
