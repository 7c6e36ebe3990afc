/-
# The life of a process

A process is created with an address space, a private data page and a stack, or not at all: when
one of them cannot be had, those that were go back.  From then on it is ready, running or blocked,
until it exits and everything it had goes back.

* `Kernel.create`, `Kernel.exit`: the two ends;
* `Kernel.block`, `Kernel.unblock`: waiting for something else than the processor.
-/
import KernelCore.Kernel.Scheduler

namespace KernelCore

namespace Kernel

/-! ## 1. Creation -/

/-- Process numbers stay below this. -/
def pidLimit : Nat := 2 ^ (32 : Nat)

/-- A user space with the private data page of a process. -/
def buildSpace : Op ProcessError AddressSpace :=
  onVm .ofPaging (Vm.createSpaceWith (.containing processDataStart))

/-- The heap with a new stack on which the first function returns to an address. -/
def allocStack (h : Heap) (target : UInt64) : Except (Stop HeapError) (Nat × Heap) := do
  let (stack, h) ← h.alloc processStackSize
  return (stack, { h with memory := h.memory.setWord (Process.returnSlot stack) target })

/-- A stack for a process.  If there is no room for it, the space of the process goes back. -/
def buildStack (space : AddressSpace) : Op ProcessError Nat := fun k =>
  match allocStack k.heap k.returnTarget with
  | .ok (stack, heap) => .ok stack { k with heap }
  | .error (.refused e) =>
    (do let _ ← onVm .ofPaging (Vm.destroySpace space); refuse (.ofHeap e) :
      Op ProcessError Nat) k
  | .error (.halted h) => halt h k

/-- The state with a ready process in a slot. -/
def install (k : Kernel) (slot : Fin maxProcesses) (p : Process) (name : String) : Kernel :=
  (k.mapProcesses (·.place slot { p with state := .ready })).report .info .process
    ("Created process " ++ toString p.pid ++ " (" ++ name ++ ")")

/-- Enters a process under the next number, and puts it at the end of the line. -/
def enroll (slot : Fin maxProcesses) (entry : UInt64) (name : String) (space : AddressSpace)
    (stack : Nat) : Op ProcessError Nat := fun k =>
  let pid := k.processes.nextPid
  if pidLimit ≤ pid + 1 then halt .addOverflow k
  else
    (do
      enqueue pid
      modify (·.install slot (.build pid name entry space stack) name)
      return pid : Op ProcessError Nat) (k.mapProcesses ({ · with nextPid := pid + 1 }))

/-- Creates a process that begins at `entry`; the result is its number. -/
def create (entry : UInt64) (name : String) : Op ProcessError Nat := fun k =>
  match k.processes.freeSlot? with
  | none => refuse .tableFull k
  | some slot =>
    if k.processes.ready.isFull then refuse .tableFull k
    else
      (do
        let space ← buildSpace
        let stack ← buildStack space
        enroll slot entry name space stack : Op ProcessError Nat) k

/-- Does the stack of a process still return to where it should? -/
def returnsHome (k : Kernel) (p : Process) : Bool :=
  k.heap.memory.word (Process.returnSlot p.stack) == k.returnTarget

/-! ## 2. Exit -/

/-- The state without a process: it is in no slot and not in line, nobody runs, and the kernel's
space is loaded. -/
def withdraw (k : Kernel) (pid : Nat) : Kernel :=
  { k with
    vm := k.vm.load k.vm.kernel.root
    processes := { k.processes.erase pid with
      ready := k.processes.ready.remove pid, current := none } }

/-- Gives back the frames and the stack of a process; the result is the number of frames. -/
def reclaim (p : Process) : Op ProcessError Nat := do
  let released ← onVm .ofPaging (Vm.destroySpace p.space)
  onHeap .ofHeap fun heap => do return ((), ← heap.free p.stack)
  return released

/-- Reports that a process is gone. -/
def reportExit (k : Kernel) (p : Process) (code : Int32) (released : Nat) : Kernel :=
  k.report .info .process
    ("Process " ++ toString p.pid ++ " (" ++ p.name ++ ") exited with status " ++
      toString code ++ ", " ++ toString released ++ " frames released")

/-- Ends the running process, which must be `pid`, and schedules. -/
def exit (pid : Nat) (code : Int32) : Op ProcessError Unit := fun k =>
  if k.processes.current ≠ some pid then refuse (.notCurrent pid) k
  else match k.processes.find? pid with
    | none => refuse (.noSuchProcess pid) k
    | some p =>
      (do
        let released ← reclaim { p with state := .terminated }
        modify (·.reportExit p code released)
        schedule : Op ProcessError Unit) (k.withdraw pid)

/-! ## 3. Waiting -/

/-- Makes the running process wait until it is unblocked, and schedules. -/
def block : Op ProcessError Unit := fun k =>
  match k.processes.current with
  | none => refuse (.notCurrent 0) k
  | some pid =>
    if (k.processes.find? pid).isNone then refuse (.noSuchProcess pid) k
    else
      schedule ((k.suspend pid .blocked).report .debug .process
        ("Process " ++ toString pid ++ " blocked"))

/-- Makes a blocked process ready again. -/
def unblock (pid : Nat) : Op ProcessError Unit := fun k =>
  match k.processes.find? pid with
  | none => refuse (.noSuchProcess pid) k
  | some p =>
    if p.state ≠ .blocked then refuse (.notReady pid) k
    else enqueue pid (k.mapProcesses (·.modify pid ({ · with state := .ready })))

end Kernel

end KernelCore
