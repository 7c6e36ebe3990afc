/-
# What process management refuses
-/
import KernelCore.Heap.Basic
import KernelCore.Paging.Error

namespace KernelCore

/-- Why an operation on processes is refused. -/
inductive ProcessError where
  /-- There are as many processes as there can be. -/
  | tableFull
  /-- There is no memory for a new process. -/
  | outOfMemory
  /-- Only the running process may exit or block. -/
  | notCurrent (pid : Nat)
  | noSuchProcess (pid : Nat)
  /-- The process is not in the state in which it could be queued or dispatched. -/
  | notReady (pid : Nat)
  /-- The address space of the process could not be dealt with. -/
  | paging (error : PagingError)
  /-- The stack of the process could not be dealt with. -/
  | heap (error : HeapError)
  deriving DecidableEq

namespace ProcessError

/-- The error of paging, seen from here: running out of memory is running out here too. -/
def ofPaging : PagingError → ProcessError
  | .outOfMemory => .outOfMemory
  | e => .paging e

/-- The error of the heap, seen from here: running out of memory is running out here too. -/
def ofHeap : HeapError → ProcessError
  | .outOfMemory => .outOfMemory
  | e => .heap e

/-- A process that is queued in the wrong state means that the scheduler has lost track. -/
def isFatal : ProcessError → Bool
  | .tableFull => false
  | .outOfMemory => false
  | .notCurrent _ => false
  | .noSuchProcess _ => false
  | .notReady _ => true
  | .paging e => e.isFatal
  | .heap e => e.isFatal

/-- The error in words. -/
def message : ProcessError → Except Halt String
  | .tableFull => .ok "Process table is full"
  | .outOfMemory => .ok "Out of memory while creating a process"
  | .notCurrent pid => .ok ("Process " ++ toString pid ++ " is not running")
  | .noSuchProcess pid => .ok ("No process with PID " ++ toString pid)
  | .notReady pid => .ok ("Process " ++ toString pid ++ " was queued without being READY")
  | .paging e => e.message
  | .heap e => .ok e.message

end ProcessError

end KernelCore
