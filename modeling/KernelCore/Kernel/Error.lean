/-
# What the kernel refuses

Every subsystem has errors of its own.  They come together here, where two questions about them
have an answer: does the machine have to stop, and if not, what does the caller of a system call
get to see?

* `KernelError.isFatal`: the error means that the kernel has lost track of what it owns;
* `KernelError.status`: the number that a system call leaves for its caller.
-/
import KernelCore.Process.Error

namespace KernelCore

/-- Why a system call is refused. -/
inductive SyscallError where
  /-- There is no call of that number. -/
  | unknownCall (number : Nat)
  /-- A bad pointer or length, or a call without a process that could have made it. -/
  | invalidArgument
  deriving DecidableEq, Repr

namespace SyscallError

/-- The error in words. -/
def message : SyscallError → String
  | .unknownCall number => "No syscall number " ++ toString number
  | .invalidArgument => "Invalid argument"

end SyscallError

/-- An error of the kernel, by the subsystem that it comes from. -/
inductive KernelError where
  | frame (error : FrameError)
  | paging (error : PagingError)
  | heap (error : HeapError)
  | process (error : ProcessError)
  | syscall (error : SyscallError)
  deriving DecidableEq

/-! ## Statuses -/

namespace Status

/-- Try again later: a table is full. -/
def again : Int := -11

/-- There is no memory. -/
def noMemory : Int := -12

/-- Something about the request is wrong. -/
def invalid : Int := -22

/-- There is no such call. -/
def noSuchCall : Int := -38

/-- A number is too large. -/
def overflow : Int := -75

end Status

namespace KernelError

/-- Does the error mean that the kernel has lost track? -/
def isFatal : KernelError → Bool
  | .frame e => e.isFatal
  | .paging e => e.isFatal
  | .heap e => e.isFatal
  | .process e => e.isFatal
  | .syscall _ => false

/-- The status of an error of paging. -/
def statusOfPaging : PagingError → Int
  | .outOfMemory => Status.noMemory
  | _ => Status.invalid

/-- The status of an error of the heap. -/
def statusOfHeap : HeapError → Int
  | .outOfMemory => Status.noMemory
  | .overflow => Status.overflow
  | .invalidFree _ => Status.invalid

/-- The status of an error of process management. -/
def statusOfProcess : ProcessError → Int
  | .outOfMemory => Status.noMemory
  | .tableFull => Status.again
  | .paging e => statusOfPaging e
  | .heap e => statusOfHeap e
  | .notCurrent _ | .noSuchProcess _ | .notReady _ => Status.invalid

/-- The status that the caller of a system call gets. -/
def status : KernelError → Int
  | .frame .outOfMemory => Status.noMemory
  | .frame _ => Status.invalid
  | .paging e => statusOfPaging e
  | .heap e => statusOfHeap e
  | .process e => statusOfProcess e
  | .syscall (.unknownCall _) => Status.noSuchCall
  | .syscall .invalidArgument => Status.invalid

/-- The error in words, behind the name of its subsystem. -/
def message : KernelError → Except Halt String
  | .frame e => do return "Frame allocator: " ++ (← e.message)
  | .paging e => do return "Virtual memory: " ++ (← e.message)
  | .heap e => .ok ("Heap: " ++ e.message)
  | .process e => do return "Processes: " ++ (← e.message)
  | .syscall e => .ok ("Syscall: " ++ e.message)

end KernelError

end KernelCore
