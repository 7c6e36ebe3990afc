/-
# Address spaces as owned sets of frames

An address space is a record of the frames that belong to it: the root table, every table drawn
while mapping into it, and every frame that is mapped in it.  The record does not touch the tables
themselves.  The upper half that a user space shares with the kernel is no part of its record.

The mapped pages are kept in page order (`AddressSpace.insertPage`).
-/
import KernelCore.Paging.Address

namespace KernelCore

/-- Whose half of the addresses a space maps. -/
inductive SpaceKind where
  | kernel
  | user
  deriving DecidableEq, Repr

/-- The frames that belong to an address space. -/
structure AddressSpace where
  kind : SpaceKind
  /-- The frame of the root table. -/
  root : Nat
  /-- The frames of the other tables, in the order in which they were drawn. -/
  tables : List Nat
  /-- The mapped pages and their frames, in page order. -/
  pages : List (Page × Nat)
  deriving DecidableEq

namespace AddressSpace

/-- A space with a root table and nothing mapped. -/
def ofRoot (kind : SpaceKind) (root : Nat) : AddressSpace := ⟨kind, root, [], []⟩

/-- Is the page in the half that the space may map? -/
def accepts (s : AddressSpace) (page : Page) : Bool :=
  match s.kind with
  | .kernel => page.isUpper
  | .user => !page.isUpper

/-- The frame that is mapped at a page. -/
def frameAt? (s : AddressSpace) (page : Page) : Option Nat := s.pages.lookup page

/-- Pages with one more, in page order; an entry for the same page is replaced. -/
def insertPage (page : Page) (frame : Nat) : List (Page × Nat) → List (Page × Nat)
  | [] => [(page, frame)]
  | (p, f) :: rest =>
    if page = p then (page, frame) :: rest
    else if page.number < p.number then (page, frame) :: (p, f) :: rest
    else (p, f) :: insertPage page frame rest

/-- The space with a page mapped. -/
def addPage (s : AddressSpace) (page : Page) (frame : Nat) : AddressSpace :=
  { s with pages := insertPage page frame s.pages }

/-- The space with a page no longer mapped. -/
def removePage (s : AddressSpace) (page : Page) : AddressSpace :=
  { s with pages := s.pages.filter fun entry => entry.1 ≠ page }

/-- The space with one more table. -/
def addTable (s : AddressSpace) (frame : Nat) : AddressSpace :=
  { s with tables := s.tables ++ [frame] }

/-- All frames of the space: the root, the other tables, the mapped frames. -/
def ownedFrames (s : AddressSpace) : List Nat := s.root :: (s.tables ++ s.pages.map Prod.snd)

/-- How many pages are mapped. -/
def mappingCount (s : AddressSpace) : Nat := s.pages.length

/-- How many frames belong to the space. -/
def frameCount (s : AddressSpace) : Nat := 1 + s.tables.length + s.pages.length

theorem length_ownedFrames (s : AddressSpace) : s.ownedFrames.length = s.frameCount := by
  simp only [ownedFrames, frameCount, List.length_cons, List.length_append, List.length_map]
  omega

theorem lookup_cons_eq (page p : Page) (frame : Nat) (l : List (Page × Nat)) :
    ((p, frame) :: l).lookup page = if page = p then some frame else l.lookup page := by
  by_cases h : page = p
  · rw [if_pos h, h, List.lookup_cons_self]
  · rw [if_neg h, List.lookup_cons, show (page == p) = false by simpa using h]

theorem lookup_insertPage (page page' : Page) (frame : Nat) (l : List (Page × Nat)) :
    (insertPage page frame l).lookup page' =
      if page' = page then some frame else l.lookup page' := by
  induction l with
  | nil => rw [insertPage, lookup_cons_eq, List.lookup_nil]
  | cons e rest ih =>
    obtain ⟨p, f⟩ := e
    unfold insertPage
    split
    · next hp => subst hp; rw [lookup_cons_eq, lookup_cons_eq]; split <;> rfl
    · next hp =>
      split
      · rw [lookup_cons_eq]
      · rw [lookup_cons_eq, lookup_cons_eq, ih]
        by_cases h : page' = p
        · rw [if_pos h, if_neg (fun e => hp (e.symm.trans h)), if_pos h]
        · rw [if_neg h, if_neg h]

/-- Mapping a page sets what is found there, and nothing else. -/
theorem frameAt?_addPage (s : AddressSpace) (page page' : Page) (frame : Nat) :
    (s.addPage page frame).frameAt? page' =
      if page' = page then some frame else s.frameAt? page' :=
  lookup_insertPage page page' frame s.pages

/-- Removing a page leaves nothing there, and everything else as it was. -/
theorem frameAt?_removePage (s : AddressSpace) (page page' : Page) :
    (s.removePage page).frameAt? page' = if page' = page then none else s.frameAt? page' := by
  simp only [frameAt?, removePage]
  induction s.pages with
  | nil => simp [List.lookup_nil]
  | cons e rest ih =>
    obtain ⟨p, f⟩ := e
    by_cases hp : p = page
    · rw [List.filter_cons_of_neg (by simpa using hp), ih, lookup_cons_eq, hp]
      split <;> rfl
    · rw [List.filter_cons_of_pos (by simpa using hp), lookup_cons_eq, lookup_cons_eq, ih]
      by_cases h : page' = p
      · rw [if_pos h, if_neg (fun e => hp (h.symm.trans e)), if_pos h]
      · rw [if_neg h, if_neg h]

end AddressSpace

end KernelCore
