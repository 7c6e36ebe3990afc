/-
# What the kernel knows, and its last words

`Kernel.dumpStats` writes the counts of every subsystem to the journal.  `Kernel.fatal` is the end:
the error goes to the journal, the counts after it, and the machine halts with the error's text.
-/
import KernelCore.Kernel.State

namespace KernelCore

namespace Kernel

/-- Writes to the journal that the kernel itself speaks. -/
def inform (text : String) : HaltOp Unit := modify (·.report .info .kernel text)

/-- A computation on the side that may halt. -/
def ofHalt {α : Type} : Except Halt α → HaltOp α
  | .ok a => return a
  | .error halt => throw halt

/-- The frame pool in words. -/
def describeFrames (s : FrameStats) : String :=
  "Frames: " ++ toString s.total ++ " total, " ++ toString s.used ++ " used, " ++
    toString s.free ++ " free"

/-- The heap in words. -/
def describeHeap (s : HeapStats) : String :=
  "Heap: " ++ toString s.total ++ " bytes, " ++ toString s.used ++ " used, " ++
    toString s.free ++ " free in " ++ toString s.freeBlocks ++ " of " ++ toString s.blocks ++
    " blocks (largest " ++ toString s.largestFree ++ ")"

/-- Who runs, in words. -/
def describeCurrent : Option Nat → String
  | some pid => "Some(" ++ toString pid ++ ")"
  | none => "None"

/-- The process table in words. -/
def describeTable (t : ProcessTable) : String :=
  "Processes: " ++ toString t.size ++ " live, current " ++ describeCurrent t.current ++
    ", uptime " ++ toString t.uptime ++ " ticks"

/-- A process in words. -/
def describeProcess (p : Process) : String :=
  "  PID " ++ toString p.pid ++ ": " ++ p.name ++ " " ++ p.state.label ++ ", " ++
    toString p.ticks ++ " ticks"

/-- Writes the counts of every subsystem to the journal. -/
def dumpStats : HaltOp Unit := do
  let k ← get
  inform (describeFrames k.vm.ram.pool.stats)
  inform (describeHeap (← ofHalt k.heap.stats))
  inform (describeTable k.processes)
  k.processes.live.forM fun p => inform (describeProcess p)

/-- Stops the machine because of an error. -/
def fatal {α : Type} (e : KernelError) : HaltOp α := do
  let text ← ofHalt e.message
  modify (·.report .error .kernel ("Fatal kernel error: " ++ text))
  dumpStats
  throw (.fatal text)

end Kernel

end KernelCore
