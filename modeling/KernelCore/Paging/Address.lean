/-
# Virtual addresses and pages

A virtual address has 64 bits of which the upper seventeen are equal; such an address is called
canonical.  The canonical addresses form two halves with a gap between them, and the upper half is
the kernel's.  A page is a run of `pageSize` addresses; it is named by its number, address divided
by `pageSize`.

Arithmetic can leave the canonical range, and does so with a halt (`VirtAddr.advance`).  A walk
over pages steps from one to the next: past the last page of the lower half there is no next one,
and past the very last page the walk is at its end (`Page.next`).

Addresses, pages and the step of a walk over pages are those of the library that the kernel takes its page
tables from; that the step is made before the page is dealt with is the library's rule, too.
-/
import KernelCore.Halt
import KernelCore.Memory

namespace KernelCore

/-! ## 1. Addresses -/

/-- Is the number a canonical address? -/
def IsCanonical (a : Nat) : Prop :=
  a < 2 ^ (47 : Nat) ∨ (2 ^ (64 : Nat) - 2 ^ (47 : Nat) ≤ a ∧ a < 2 ^ (64 : Nat))

instance (a : Nat) : Decidable (IsCanonical a) := inferInstanceAs (Decidable (_ ∨ _))

/-- A canonical virtual address. -/
structure VirtAddr where
  val : Nat
  canonical : IsCanonical val
  deriving DecidableEq

namespace VirtAddr

/-- The address with a given number, if that is canonical. -/
def of? (a : Nat) : Option VirtAddr := if h : IsCanonical a then some ⟨a, h⟩ else none

/-- The address `n` bytes further on. -/
def advance (a : VirtAddr) (n : Nat) : Except Halt VirtAddr :=
  if 2 ^ (64 : Nat) ≤ a.val + n then .error .addOverflow
  else match of? (a.val + n) with
    | some b => .ok b
    | none => .error (.nonCanonical (a.val + n))

/-- The index of the address in a table of a level: nine bits, level 0 being the lowest. -/
def index (a : VirtAddr) (level : Nat) : Nat := a.val / (pageSize * 512 ^ level) % 512

/-- The offset of the address in its page. -/
def offset (a : VirtAddr) : Nat := a.val % pageSize

theorem of?_eq_some_iff {a : Nat} {v : VirtAddr} : of? a = some v ↔ v.val = a := by
  unfold of?
  split
  · next h =>
    constructor
    · rintro ⟨⟩; rfl
    · rintro rfl; rfl
  · next h =>
    constructor
    · rintro ⟨⟩
    · rintro rfl; exact absurd v.canonical h

theorem val_of_advance {a b : VirtAddr} {n : Nat} (h : a.advance n = .ok b) :
    b.val = a.val + n := by
  unfold advance at h
  split at h
  · cases h
  · split at h
    · next v hv => cases h; exact of?_eq_some_iff.mp hv
    · cases h

end VirtAddr

/-! ## 2. Pages -/

/-- A page of canonical addresses, by number. -/
structure Page where
  number : Nat
  canonical : number < 2 ^ (35 : Nat) ∨ (2 ^ (52 : Nat) - 2 ^ (35 : Nat) ≤ number ∧ number < 2 ^ (52 : Nat))
  deriving DecidableEq

namespace Page

/-- The page of an address. -/
def containing (a : VirtAddr) : Page :=
  ⟨a.val / pageSize, by
    have h := a.canonical
    simp only [IsCanonical] at h
    simp only [pageSize]
    omega⟩

/-- The first address of the page. -/
def start (p : Page) : VirtAddr :=
  ⟨p.number * pageSize, by
    have h := p.canonical
    simp only [IsCanonical, pageSize]
    omega⟩

/-- The index of the page in a table of a level: nine bits, level 0 being the lowest. -/
def index (p : Page) (level : Nat) : Nat := p.number / 512 ^ level % 512

/-- The first index of a root table that belongs to the upper half. -/
def upperHalfIndex : Nat := 256

/-- Is the page in the upper half, the kernel's? -/
def isUpper (p : Page) : Bool := upperHalfIndex ≤ p.index 3

/-- The page as it is shown: its first address. -/
def describe (p : Page) : String := hex p.start.val

/-- The page that a walk visits next; nothing after the very last page.  The page after the last
one of the lower half would not be canonical, which halts. -/
def next (p : Page) : Except Halt (Option Page) :=
  if p.number = 2 ^ (52 : Nat) - 1 then .ok none
  else do return some (containing (← p.start.advance pageSize))

@[simp] theorem containing_start (p : Page) : containing p.start = p := by
  cases p with
  | mk n h => simp [containing, start, pageSize]

end Page

end KernelCore
