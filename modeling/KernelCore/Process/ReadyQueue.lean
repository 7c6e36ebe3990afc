/-
# The ready queue

The processes that wait for the processor wait in one line: the next to run stands in front, and a
process that becomes ready goes to the end.  There is room for as many as there can be processes.

The view is the list of process numbers, front first: `pids_of_push`, `pop?_eq_some_iff` and
`pids_remove` say what each operation does to it.
-/
import KernelCore.Process.Error

namespace KernelCore

/-- How many processes there can be. -/
def maxProcesses : Nat := 16

/-- The numbers of the processes that wait for the processor, the next one in front. -/
structure ReadyQueue where
  pids : List Nat
  length_le : pids.length ≤ maxProcesses
  deriving DecidableEq

namespace ReadyQueue

/-- Nobody waits. -/
def empty : ReadyQueue := ⟨[], Nat.zero_le _⟩

/-- How many wait. -/
def size (q : ReadyQueue) : Nat := q.pids.length

/-- Does nobody wait? -/
def isEmpty (q : ReadyQueue) : Bool := q.pids.isEmpty

/-- Is there no room for another one? -/
def isFull (q : ReadyQueue) : Bool := q.size == maxProcesses

/-- Puts a process at the end. -/
def push (q : ReadyQueue) (pid : Nat) : Except ProcessError ReadyQueue :=
  if h : q.pids.length < maxProcesses then
    .ok ⟨q.pids ++ [pid], by
      rw [List.length_append]
      exact h⟩
  else .error .tableFull

/-- Takes the process in front. -/
def pop? (q : ReadyQueue) : Option (Nat × ReadyQueue) :=
  match hq : q.pids with
  | [] => none
  | pid :: rest => some (pid, ⟨rest, by
      have := q.length_le
      rw [hq, List.length_cons] at this
      omega⟩)

/-- Does the process wait? -/
def contains (q : ReadyQueue) (pid : Nat) : Bool := q.pids.contains pid

/-- Takes a process out of the line, wherever it stands. -/
def remove (q : ReadyQueue) (pid : Nat) : ReadyQueue :=
  ⟨q.pids.erase pid, Nat.le_trans List.length_erase_le q.length_le⟩

@[ext] theorem ext_pids {q q' : ReadyQueue} (h : q.pids = q'.pids) : q = q' := by
  cases q; cases q'; cases h; rfl

@[simp] theorem pids_empty : empty.pids = [] := rfl

@[simp] theorem isEmpty_eq_true_iff (q : ReadyQueue) : q.isEmpty = true ↔ q.pids = [] :=
  List.isEmpty_iff

/-- A pushed process stands at the end, behind all others. -/
theorem pids_of_push {q q' : ReadyQueue} {pid : Nat} (h : q.push pid = .ok q') :
    q'.pids = q.pids ++ [pid] := by
  unfold push at h
  split at h
  · cases h; rfl
  · cases h

/-- There is room for one more unless the line is full. -/
theorem push_eq_error_iff (q : ReadyQueue) (pid : Nat) (e : ProcessError) :
    q.push pid = .error e ↔ e = .tableFull ∧ q.pids.length = maxProcesses := by
  have := q.length_le
  unfold push
  split
  · constructor
    · rintro ⟨⟩
    · rintro ⟨-, h⟩; omega
  · constructor
    · rintro ⟨⟩; exact ⟨rfl, by omega⟩
    · rintro ⟨rfl, -⟩; rfl

/-- The process in front is the first of the list, and the rest stays in line. -/
theorem pop?_eq_some_iff (q q' : ReadyQueue) (pid : Nat) :
    q.pop? = some (pid, q') ↔ q.pids = pid :: q'.pids := by
  obtain ⟨pids, hp⟩ := q
  cases pids with
  | nil => simp [pop?]
  | cons p rest =>
    simp only [pop?, Option.some.injEq, Prod.mk.injEq, List.cons.injEq]
    constructor
    · rintro ⟨rfl, rfl⟩; exact ⟨rfl, rfl⟩
    · rintro ⟨rfl, h⟩; exact ⟨rfl, ext_pids h⟩

theorem pop?_eq_none_iff (q : ReadyQueue) : q.pop? = none ↔ q.pids = [] := by
  obtain ⟨pids, hp⟩ := q
  cases pids <;> simp [pop?]

/-- Removing takes out the first occurrence, and nothing else moves. -/
@[simp] theorem pids_remove (q : ReadyQueue) (pid : Nat) :
    (q.remove pid).pids = q.pids.erase pid := rfl

end ReadyQueue

end KernelCore
