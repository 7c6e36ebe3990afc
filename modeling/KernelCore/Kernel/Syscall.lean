/-
# System calls

A process asks the kernel for something by an interrupt: the number of the call is in `rax`, its
arguments are in `rdi`, `rsi` and `rdx`, and the result is left in `rax`.  There are five calls.
Those that let another process run do it with the result already in place, so that the caller
finds it when its turn comes again.

`Kernel.serve` does what a request asks for; it may be refused, and says so to its caller, which is
the interrupt and not the process.
-/
import KernelCore.Kernel.Lifecycle
import KernelCore.Kernel.UserBuffer

namespace KernelCore

/-! ## 1. Requests -/

/-- What a process can ask for. -/
inductive Syscall where
  /-- Print a greeting. -/
  | hello
  /-- Print bytes of the caller's memory. -/
  | write
  /-- Tell the caller's number. -/
  | getpid
  /-- Let somebody else run. -/
  | yield
  /-- End the caller. -/
  | exit
  deriving DecidableEq, Repr

namespace Syscall

/-- All calls, in the order of their numbers. -/
def all : List Syscall := [hello, write, getpid, yield, exit]

/-- The call of a number. -/
def ofNumber? (number : UInt64) : Option Syscall := all[number.toNat]?

/-- The number of a call. -/
def number : Syscall → UInt64
  | hello => 0
  | write => 1
  | getpid => 2
  | yield => 3
  | exit => 4

theorem ofNumber?_number (call : Syscall) : ofNumber? call.number = some call := by
  cases call <;> rfl

theorem ofNumber?_eq_none_iff (n : UInt64) : ofNumber? n = none ↔ all.length ≤ n.toNat :=
  List.getElem?_eq_none_iff

end Syscall

/-- A call as the registers tell it. -/
structure SyscallRequest where
  number : UInt64
  /-- The first argument. -/
  first : UInt64
  /-- The second argument. -/
  second : UInt64
  /-- The third argument. -/
  third : UInt64
  deriving DecidableEq, Repr

/-- The request in the registers of an interrupted process. -/
def SyscallRequest.ofContext (c : Context) : SyscallRequest := ⟨c.rax, c.rdi, c.rsi, c.rdx⟩

/-- The low half of a register, as a signed number. -/
def exitCode (register : UInt64) : Int32 := register.toUInt32.toInt32

namespace Kernel

/-! ## 2. The calls -/

/-- What `hello` prints. -/
def greeting : List UInt8 := "Hello from the kernel!\n".toUTF8.toList

/-- The argument is bad. -/
def invalidArgument {α : Type} : Op KernelError α := refuse (.syscall .invalidArgument)

/-- Leaves a result for the caller. -/
def leave (k : Kernel) (result : UInt64) : Kernel :=
  { k with trap := { k.trap with rax := result } }

/-- Does something to processes. -/
def onProcesses {α : Type} (op : Op ProcessError α) : Op KernelError α := fun k =>
  match op k with
  | .ok a k => .ok a k
  | .error stop k => .error (stop.mapError .process) k

/-- Does a check of a caller's argument. -/
def check {α : Type} (c : UserBuffer.Check α) : Op KernelError α := fun k =>
  match c with
  | .ok a => .ok a k
  | .error stop => .error (stop.mapError .syscall) k

/-- Prints the contents of a buffer, and leaves its length. -/
def printBuffer (space : AddressSpace) (buffer : UserBuffer) : Op KernelError Unit := fun k =>
  let (chunks, ending) := buffer.copyChunks k.vm space
  (do
    check ending
    modify (·.leave (.ofNat buffer.length)) : Op KernelError Unit) (k.print chunks.flatten)

/-- Prints bytes of the running process's memory. -/
def write (pointer length : UInt64) : Op KernelError Unit := fun k =>
  match k.processes.running? with
  | none => invalidArgument k
  | some p =>
    (do
      let buffer ← check (UserBuffer.validate k.vm p.space pointer length)
      printBuffer p.space buffer : Op KernelError Unit) k

/-- Ends the running process with the code that it gives. -/
def exitCurrent (code : Int32) : Op KernelError Unit := fun k =>
  match k.processes.current with
  | none => invalidArgument k
  | some pid =>
    onProcesses (exit pid code) (k.report .debug .handlers
      ("Process " ++ toString pid ++ " requested exit(" ++ toString code ++ ")"))

/-- Does a call. -/
def perform (request : SyscallRequest) : Syscall → Op KernelError Unit
  | .hello => fun k => .ok () ((k.print greeting).leave 0)
  | .write => write request.first request.second
  | .getpid => fun k => .ok () (k.leave (.ofNat (k.processes.current.getD 0)))
  | .yield => fun k => onProcesses schedule (k.leave 0)
  | .exit => exitCurrent (exitCode request.first)

/-- Does what a request asks for. -/
def serve (request : SyscallRequest) : Op KernelError Unit :=
  match Syscall.ofNumber? request.number with
  | none => refuse (.syscall (.unknownCall request.number.toNat))
  | some call => perform request call

end Kernel

end KernelCore
