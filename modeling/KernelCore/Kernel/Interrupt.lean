/-
# Interrupts

Two interrupts reach the kernel: the timer's, and the one by which a process makes a system call.
Each serves the trap frame in the state.  What is refused inside does not get out: an error that
means that the kernel has lost track stops the machine, and any other goes to the journal, and for
a system call into the result that the caller finds.
-/
import KernelCore.Kernel.Report
import KernelCore.Kernel.Syscall

namespace KernelCore

namespace Kernel

/-- Does an operation, and deals with its error unless that stops the machine. -/
def guarded (op : Op KernelError Unit) (handle : KernelError → HaltOp Unit) : HaltOp Unit :=
  fun k => match op k with
    | .ok () k => .ok () k
    | .error (.halted halt) k => .error halt k
    | .error (.refused e) k => (if e.isFatal then fatal e else handle e) k

/-- Serves the timer's interrupt. -/
def timerTick : HaltOp Unit :=
  guarded (onProcesses countTick) fun e => do
    let text ← ofHalt e.message
    modify (·.report .warn .kernel ("Timer tick: " ++ text))

/-- Serves the interrupt of a system call. -/
def syscall : HaltOp Unit := do
  let request := SyscallRequest.ofContext (← get).trap
  guarded (serve request) fun e => do
    let text ← ofHalt e.message
    modify (·.report .debug .dispatcher
      ("Syscall " ++ toString request.number.toNat ++ " failed: " ++ text))
    modify (·.leave (.ofInt e.status))

/-- Creates a process; its error is one of the kernel. -/
def spawn (entry : UInt64) (name : String) : Op KernelError Nat := onProcesses (create entry name)

end Kernel

end KernelCore
