/-
# Buffers that a caller names

A pointer in a system call is never followed.  It is first checked against the address space of the
caller: the range must not be too long nor leave the addresses, and each page that it meets must be
in the caller's half and mapped.  Its bytes are then copied out through physical memory, in pieces.

* `UserBuffer.validate`: the check;
* `UserBuffer.copyChunks`: the bytes, in pieces of at most `copyChunk`.
-/
import KernelCore.Kernel.Error
import KernelCore.Paging.Copy

namespace KernelCore

/-- The longest range that a call accepts. -/
def maxWriteLength : Nat := 4096

/-- The longest piece of a copy. -/
def copyChunk : Nat := 256

/-- A range of the caller's addresses that was checked. -/
structure UserBuffer where
  start : VirtAddr
  length : Nat
  deriving DecidableEq

namespace UserBuffer

/-! ## 1. Checking a range -/

/-- A check that a caller's argument may fail. -/
abbrev Check := Except (Stop SyscallError)

/-- The argument is bad. -/
def invalid {α : Type} : Check α := .error (.refused .invalidArgument)

/-- May the caller use this page, and does it lead somewhere? -/
def checkPage (vm : Vm) (space : AddressSpace) (page : Page) : Check Unit :=
  if !space.accepts page then invalid
  else match vm.translate space page.start with
    | .error halt => .error (.halted halt)
    | .ok none => invalid
    | .ok (some _) => .ok ()

/-- Checks `n` consecutive pages.  The walk steps on before it deals with a page. -/
def checkPages (vm : Vm) (space : AddressSpace) : Nat → Page → Check Unit
  | 0, _ => .ok ()
  | n + 1, page =>
    match page.next with
    | .error halt => .error (.halted halt)
    | .ok none => checkPage vm space page
    | .ok (some next) => do
      checkPage vm space page
      checkPages vm space n next

/-- The buffer of `length` bytes from `pointer` on, if the caller may use it. -/
def validate (vm : Vm) (space : AddressSpace) (pointer length : UInt64) : Check UserBuffer :=
  let stop := pointer.toNat + length.toNat
  if pointer = 0 ∨ maxWriteLength < length.toNat ∨ 2 ^ (64 : Nat) ≤ stop then invalid
  else match VirtAddr.of? pointer.toNat with
    | none => invalid
    | some start =>
      if length = 0 then .ok ⟨start, 0⟩
      else match VirtAddr.of? (stop - 1) with
        | none => invalid
        | some last => do
          checkPages vm space (Vm.pageCount start last) (.containing start)
          return ⟨start, length.toNat⟩

/-! ## 2. Copying it out -/

/-- Copies `left` bytes from `offset` bytes behind `start` on, in pieces; the second part tells how
the copy ended. -/
def copyFrom (vm : Vm) (space : AddressSpace) (start : VirtAddr) (offset left : Nat) :
    List (List UInt8) × Check Unit :=
  if left = 0 then ([], .ok ())
  else
    let n := min copyChunk left
    match start.advance offset with
    | .error halt => ([], .error (.halted halt))
    | .ok a =>
      match vm.readBytes space a n with
      | (_, .error stop) => ([], .error (stop.mapError fun _ => .invalidArgument))
      | (bytes, .ok ()) =>
        let (chunks, ending) := copyFrom vm space start (offset + n) (left - n)
        (bytes :: chunks, ending)
termination_by left
decreasing_by
  simp only [copyChunk]
  omega

/-- The contents of a buffer, in pieces of at most `copyChunk` bytes. -/
def copyChunks (vm : Vm) (space : AddressSpace) (b : UserBuffer) :
    List (List UInt8) × Check Unit := copyFrom vm space b.start 0 b.length

end UserBuffer

end KernelCore
