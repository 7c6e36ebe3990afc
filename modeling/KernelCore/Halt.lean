/-
# How an operation stops short

An operation of the kernel ends in one of three ways: it is done, it is *refused* with an error of
its subsystem, or the machine *halts*.  A refusal is an answer: the caller gets it and goes on.  A
halt is not: nothing runs after it.  The causes of a halt form one type for the whole kernel,
`Halt`; the causes of a refusal are a parameter of `Stop`.

Halts come from three places: machine words that leave their range, structures in memory that have
been overwritten, and errors that mean that the kernel has lost track of what it owns.
-/
import KernelCore.Text.Hex

namespace KernelCore

/-- Why the machine stops for good. -/
inductive Halt where
  /-- A sum leaves the 64-bit range. -/
  | addOverflow
  /-- A difference is negative. -/
  | subOverflow
  /-- A product leaves the 64-bit range. -/
  | mulOverflow
  /-- A physical address has more than 52 bits. -/
  | physicalAddress
  /-- A virtual address was advanced to `sum`, which is not canonical. -/
  | nonCanonical (sum : Nat)
  /-- A leaf entry was to be written with the huge-page bit. -/
  | hugeLeaf
  /-- A root entry has the huge-page bit. -/
  | hugeRootEntry
  /-- A block header was to be read from an address that is no multiple of eight. -/
  | misaligned (address : Nat)
  /-- The header at `address` carries neither of the two block tags. -/
  | blockTag (address tag : Nat)
  /-- The header at `address` claims a size that no block there can have. -/
  | blockSize (address size : Nat)
  /-- An error that the kernel cannot go on from, in its own words. -/
  | fatal (text : String)
  deriving DecidableEq, Repr

/-- The last words of the machine. -/
def Halt.message : Halt → String
  | .addOverflow => "attempt to add with overflow"
  | .subOverflow => "attempt to subtract with overflow"
  | .mulOverflow => "attempt to multiply with overflow"
  | .physicalAddress => "physical addresses must not have any bits in the range 52 to 64 set"
  | .nonCanonical sum =>
    "attempt to add resulted in non-canonical virtual address: VirtAddrNotValid(" ++ hex sum ++ ")"
  | .hugeLeaf => "assertion failed: !flags.contains(PageTableFlags::HUGE_PAGE)"
  | .hugeRootEntry => "level 4 entry has huge page bit set"
  | .misaligned address =>
    "misaligned pointer dereference: address must be a multiple of 0x8 but is " ++ hex address
  | .blockTag address tag =>
    "Heap corruption: block at " ++ hex address ++ " has tag " ++ hex tag
  | .blockSize address size =>
    "Heap corruption: block at " ++ hex address ++ " claims size " ++ hex size
  | .fatal text => text

/-- Why an operation did not end well: refused with an error, or halted. -/
inductive Stop (ε : Type) where
  | refused (error : ε)
  | halted (halt : Halt)
  deriving DecidableEq, Repr

namespace Stop

variable {ε ε' α : Type}

/-- The same stop, with the error seen from one subsystem further out. -/
def mapError (f : ε → ε') : Stop ε → Stop ε'
  | .refused error => .refused (f error)
  | .halted halt => .halted halt

/-- A computation that can only halt, among computations that can also be refused. -/
def ofHalt : Except Halt α → Except (Stop ε) α
  | .ok a => .ok a
  | .error halt => .error (.halted halt)

@[simp] theorem ofHalt_ok (a : α) : (ofHalt (.ok a) : Except (Stop ε) α) = .ok a := rfl

@[simp] theorem ofHalt_error (halt : Halt) :
    (ofHalt (.error halt) : Except (Stop ε) α) = .error (.halted halt) := rfl

end Stop

end KernelCore
