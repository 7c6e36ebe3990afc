/-
# Who runs next

Ready processes wait in line.  The running process gives up the processor when its quantum is spent
or when it yields, and goes to the end of the line; the one in front runs next.  When nobody waits,
the running process keeps the processor with a fresh quantum, and if there is none, the idle context
runs on the kernel's own space.

A switch copies the trap frame into the process that stops and the context of the next one into the
trap frame, so that the interrupt returns into the next one.

* `Kernel.schedule` picks the next process;
* `Kernel.countTick` charges a timer tick, and schedules when the quantum is spent.
-/
import KernelCore.Kernel.State

namespace KernelCore

namespace Kernel

/-! ## 1. Switching -/

/-- Resumes the idle context on the kernel's space. -/
def goIdle (k : Kernel) : Kernel :=
  { k with vm := k.vm.load k.vm.kernel.root, trap := k.processes.idle }

/-- Gives a process a fresh quantum. -/
def renewQuantum (pid : Nat) : Op ProcessError Unit := fun k =>
  if (k.processes.find? pid).isNone then refuse (.noSuchProcess pid) k
  else .ok () (k.mapProcesses (·.modify pid ({ · with quantum := quantumTicks })))

/-- Puts a process at the end of the line. -/
def enqueue (pid : Nat) : Op ProcessError Unit := fun k =>
  match k.processes.ready.push pid with
  | .error e => refuse e k
  | .ok ready => .ok () (k.mapProcesses ({ · with ready }))

/-- The state in which nobody runs, and the process that ran has the trap frame as its context and
is in the given state. -/
def suspend (k : Kernel) (pid : Nat) (state : ProcessState) : Kernel :=
  k.mapProcesses fun t =>
    { t.modify pid ({ · with context := k.trap, state }) with current := none }

/-- Takes the processor from the running process, if there is one, which goes to the end of the
line. -/
def preempt : Op ProcessError Unit := fun k =>
  match k.processes.current with
  | none => .ok () k
  | some pid =>
    if (k.processes.find? pid).isNone then refuse (.noSuchProcess pid) (k.suspend pid .ready)
    else enqueue pid (k.suspend pid .ready)

/-- The state in which a process has the processor: its registers are in the trap frame, and its
space is loaded. -/
def resume (k : Kernel) (p : Process) : Kernel :=
  { k with
    vm := k.vm.load p.space.root
    trap := p.context
    processes := { k.processes.modify p.pid
      ({ · with state := .running, quantum := quantumTicks }) with current := some p.pid } }

/-- Gives the processor to a process that was in front of the line, if it is ready. -/
def dispatchTo (pid : Nat) : Op ProcessError Unit := fun k =>
  match k.processes.find? pid with
  | none => refuse (.noSuchProcess pid) k
  | some p =>
    if p.state ≠ .ready then refuse (.notReady pid) k
    else .ok () ((k.resume p).report .trace .scheduler ("Switched to process " ++ toString pid))

/-- Gives the processor to the process in front of the line. -/
def dispatch : Op ProcessError Unit := fun k =>
  match k.processes.ready.pop? with
  | none => refuse .tableFull k
  | some (pid, ready) => dispatchTo pid (k.mapProcesses ({ · with ready }))

/-- Picks the process to run next, and makes the trap frame return into it. -/
def schedule : Op ProcessError Unit := fun k =>
  if k.processes.ready.isEmpty then
    match k.processes.current with
    | some pid => renewQuantum pid k
    | none => .ok () k.goIdle
  else (do preempt; dispatch : Op ProcessError Unit) k

/-! ## 2. Time -/

/-- Charges a tick to a process, and schedules when its quantum is spent. -/
def chargeTick (pid : Nat) : Op ProcessError Unit := fun k =>
  match k.processes.find? pid with
  | none => refuse (.noSuchProcess pid) k
  | some p =>
    if 2 ^ (64 : Nat) ≤ p.ticks + 1 then halt .addOverflow k
    else
      let charged := k.mapProcesses (·.modify pid Process.afterTick)
      if p.afterTick.quantum = 0 then schedule charged else .ok () charged

/-- Counts a timer tick, and charges it to the running process.  If nobody runs, the tick is the
occasion to pick somebody who waits. -/
def countTick : Op ProcessError Unit := fun k =>
  if 2 ^ (64 : Nat) ≤ k.processes.uptime + 1 then halt .addOverflow k
  else
    let counted := k.mapProcesses ({ · with uptime := k.processes.uptime + 1 })
    match k.processes.current with
    | some pid => chargeTick pid counted
    | none => if k.processes.ready.isEmpty then .ok () counted else schedule counted

end Kernel

end KernelCore
