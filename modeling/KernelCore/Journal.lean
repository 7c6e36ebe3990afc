/-
# The journal

The kernel reports what it does as records: a level, the part of the kernel that speaks, and a
text.  Records are data here; a configured verbosity says which of them a sink would print.
-/

namespace KernelCore

/-- How urgent a record is. -/
inductive Level where
  | error
  | warn
  | info
  | debug
  | trace
  deriving DecidableEq, Repr

/-- Position in the order of urgency, the most urgent first. -/
def Level.rank : Level → Nat
  | .error => 1
  | .warn => 2
  | .info => 3
  | .debug => 4
  | .trace => 5

/-- The level as it is printed. -/
def Level.label : Level → String
  | .error => "ERROR"
  | .warn => "WARN"
  | .info => "INFO"
  | .debug => "DEBUG"
  | .trace => "TRACE"

/-- How much is printed: nothing, or everything at least as urgent as a level. -/
inductive Verbosity where
  | off
  | upTo (level : Level)
  deriving DecidableEq, Repr

/-- Does a record of level `l` pass? -/
def Verbosity.enables : Verbosity → Level → Bool
  | .off, _ => false
  | .upTo max, l => l.rank ≤ max.rank

/-- The part of the kernel that a record comes from. -/
inductive Source where
  | frames
  | paging
  | process
  | scheduler
  | dispatcher
  | handlers
  | kernel
  deriving DecidableEq, Repr

/-- One line of the journal. -/
structure Record where
  level : Level
  source : Source
  text : String
  deriving DecidableEq, Repr

end KernelCore
