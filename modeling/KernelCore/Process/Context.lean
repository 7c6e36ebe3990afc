/-
# Saved registers

A context is all that the processor needs to go on where it was interrupted: fifteen general
registers, and the five that an interrupt saves by itself.  The frame that an interrupt leaves on
the stack, the *trap frame*, holds the same registers, so that suspending a process copies the trap
frame into the process, and resuming it copies the context back.

* `Context.start` is the context in which a process runs its first instruction;
* `Context.line` and `Context.block` show a context in one line and in a line per register.
-/
import KernelCore.Text.Hex

namespace KernelCore

/-- The flags register of a process that has not run yet: interrupts on. -/
def initialFlags : UInt64 := 0x202

/-- The segment that kernel code runs in. -/
def kernelCodeSelector : UInt64 := 0x08

/-- The segment that kernel data is in. -/
def kernelDataSelector : UInt64 := 0x10

/-- The registers of an interrupted computation. -/
structure Context where
  rax : UInt64 := 0
  rbx : UInt64 := 0
  rcx : UInt64 := 0
  rdx : UInt64 := 0
  rsi : UInt64 := 0
  rdi : UInt64 := 0
  r8 : UInt64 := 0
  r9 : UInt64 := 0
  r10 : UInt64 := 0
  r11 : UInt64 := 0
  r12 : UInt64 := 0
  r13 : UInt64 := 0
  r14 : UInt64 := 0
  r15 : UInt64 := 0
  rbp : UInt64 := 0
  /-- Where the computation goes on. -/
  rip : UInt64 := 0
  /-- The code segment. -/
  cs : UInt64 := 0
  rflags : UInt64 := 0
  /-- The top of its stack. -/
  rsp : UInt64 := 0
  /-- The stack segment. -/
  ss : UInt64 := 0
  deriving DecidableEq, Repr

namespace Context

/-- The context that begins at `entry`, in the kernel's segments, on the given stack. -/
def start (entry stack : UInt64) : Context :=
  { rip := entry, rsp := stack, rflags := initialFlags, cs := kernelCodeSelector,
    ss := kernelDataSelector }

/-! ## Registers in words -/

/-- The registers that are shown, by name: the segments are left out. -/
def shown (c : Context) : List (String × UInt64) :=
  [("rax", c.rax), ("rbx", c.rbx), ("rcx", c.rcx), ("rdx", c.rdx), ("rsi", c.rsi),
    ("rdi", c.rdi), ("r8", c.r8), ("r9", c.r9), ("r10", c.r10), ("r11", c.r11), ("r12", c.r12),
    ("r13", c.r13), ("r14", c.r14), ("r15", c.r15), ("rbp", c.rbp), ("rsp", c.rsp),
    ("rip", c.rip), ("rflags", c.rflags)]

/-- Each shown register as `name: value`, the values in hexadecimal of one width. -/
def fields (c : Context) : List String :=
  c.shown.map fun (name, value) => name ++ ": " ++ hexPadded 16 value.toNat

/-- The context in one line. -/
def line (c : Context) : String := "Context \x7b " ++ String.intercalate ", " c.fields ++ " \x7d"

/-- The context with a line per register. -/
def block (c : Context) : String :=
  "Context \x7b\n" ++ String.join (c.fields.map fun field => "    " ++ field ++ ",\n") ++ "\x7d"

end Context

end KernelCore
