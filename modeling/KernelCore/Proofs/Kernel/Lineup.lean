/-
# Who runs, and who stands in line

Of all that a kernel is, its scheduler decides about two things: which process has the processor, and in
which order the others wait for it (`ProcessTable.lineup`).  Every operation on processes comes to a
rearrangement of these two, whatever else it does:

* `lineup_schedule`: picking the next process serves the line from the front, `Lineup.next`;
* `lineup_block`, `lineup_exit`: whoever blocks or ends has no place any more, and the next is picked;
* `lineup_unblock`, `Comes.lineup`: whoever becomes ready, or comes, stands at the end;
* `lineup_countTick`: on an idle machine a tick is the occasion to pick somebody.

A process that has no place in the lineup is blocked (`Consistent.isBlocked`), so that the lineup and the
numbers of the processes say the state of each.
-/
import KernelCore.Proofs.Kernel.Lifecycle

namespace KernelCore

/-! ## 1. Lineups -/

/-- Who has the processor, and who waits for it, in order. -/
structure Lineup where
  line : List Nat
  current : Option Nat

namespace Lineup

/-- **The next one**: the first of the line gets the processor, and whoever had it goes to the end.  When
nobody waits, everything stays as it is. -/
def next (l : Lineup) : Lineup :=
  match l.line with
  | [] => l
  | pid :: rest => ⟨rest ++ l.current.toList, some pid⟩

/-- One more, behind all others. -/
def join (l : Lineup) (pid : Nat) : Lineup := { l with line := l.line ++ [pid] }

/-- Nobody runs. -/
def vacate (l : Lineup) : Lineup := { l with current := none }

/-- Someone has left the line. -/
def leave (l : Lineup) (pid : Nat) : Lineup := { l with line := l.line.erase pid }

end Lineup

namespace ProcessTable

variable {t : ProcessTable} {p : Process} {pid : Nat}

/-- Who has the processor, and who waits for it. -/
def lineup (t : ProcessTable) : Lineup := ⟨t.ready.pids, t.current⟩

/-- **Whoever has no place in the lineup is blocked.** -/
theorem Consistent.isBlocked (hc : t.Consistent) (hp : t.find? pid = some p) (hline : pid ∉ t.lineup.line)
    (hcur : t.lineup.current ≠ some pid) : p.state = .blocked := by
  rcases hc.listed hp with hready | hrunning | hblocked
  · exact absurd ((hc.waits_iff pid).mpr ⟨p, hp, hready⟩) hline
  · exact absurd ((hc.runs_iff pid).mpr ⟨p, hp, hrunning⟩) hcur
  · exact hblocked

end ProcessTable

/-! ## 2. What operations do to the lineup -/

namespace Kernel

variable {k k' : Kernel}

theorem lineup_enqueue (pid : Nat) (k : Kernel) : Outcome (enqueue pid k)
    (fun _ k' => k'.processes.lineup = k.processes.lineup.join pid) fun _ _ => True := by
  unfold enqueue
  split
  · exact True.intro
  · next ready hpush =>
    simp [Outcome, mapProcesses, ProcessTable.lineup, Lineup.join, ReadyQueue.pids_of_push hpush]

theorem lineup_preempt (k : Kernel) : Outcome (preempt k)
    (fun _ k' => k'.processes.lineup = ⟨k.processes.ready.pids ++ k.processes.current.toList, none⟩)
    fun _ _ => True := by
  unfold preempt
  cases hcur : k.processes.current with
  | none => simp [Outcome, ProcessTable.lineup, hcur]
  | some pid =>
    dsimp only
    split
    · exact True.intro
    · exact lineup_enqueue pid (k.suspend pid .ready)

theorem lineup_dispatch (k : Kernel) : Outcome (dispatch k)
    (fun _ k' => ∃ pid rest, k.processes.ready.pids = pid :: rest ∧ k'.processes.lineup = ⟨rest, some pid⟩)
    fun _ _ => True := by
  unfold dispatch
  split
  · exact True.intro
  · next pid ready hpop =>
    unfold dispatchTo
    split
    · exact True.intro
    · next p hp =>
      split
      · exact True.intro
      · have hpid : p.pid = pid := ProcessTable.pid_of_find? hp
        exact ⟨pid, ready.pids, (ReadyQueue.pop?_eq_some_iff _ _ _).mp hpop,
          congrArg (Lineup.mk ready.pids) (congrArg some hpid)⟩

/-- **Picking the next process** serves the line from the front. -/
theorem lineup_schedule (k : Kernel) : Outcome (schedule k)
    (fun _ k' => k'.processes.lineup = k.processes.lineup.next) fun _ _ => True := by
  unfold schedule
  split
  · next hempty =>
    have hnil : k.processes.ready.pids = [] := (ReadyQueue.isEmpty_eq_true_iff _).mp hempty
    have hnext : k.processes.lineup.next = k.processes.lineup := by
      simp [Lineup.next, ProcessTable.lineup, hnil]
    rw [hnext]
    cases hcur : k.processes.current with
    | none => exact rfl
    | some pid =>
      unfold renewQuantum
      dsimp only
      split
      · exact True.intro
      · exact rfl
  · next hwaits =>
    refine (lineup_preempt k).bind fun _ k₁ h₁ => (lineup_dispatch k₁).mono ?_ fun _ _ h => h
    rintro _ k₂ ⟨pid, rest, hline, h₂⟩
    cases hpids : k.processes.ready.pids with
    | nil => exact absurd ((ReadyQueue.isEmpty_eq_true_iff _).mpr hpids) hwaits
    | cons first others =>
      have hline₁ : k₁.processes.ready.pids = first :: (others ++ k.processes.current.toList) := by
        rw [← List.cons_append, ← hpids]
        exact congrArg Lineup.line h₁
      cases hline₁.symm.trans hline
      rw [h₂]
      simp [Lineup.next, ProcessTable.lineup, hpids]

/-- **Whoever blocks** gives the processor to the next one. -/
theorem lineup_block (k : Kernel) : Outcome (block k)
    (fun _ k' => k'.processes.lineup = k.processes.lineup.vacate.next) fun _ _ => True := by
  unfold block
  split
  · exact True.intro
  · next pid _ =>
    split
    · exact True.intro
    · exact lineup_schedule ((k.suspend pid .blocked).report .debug .process
        ("Process " ++ toString pid ++ " blocked"))

/-- **Whoever is unblocked** goes to the end of the line. -/
theorem lineup_unblock (pid : Nat) (k : Kernel) : Outcome (unblock pid k)
    (fun _ k' => k'.processes.lineup = k.processes.lineup.join pid) fun _ _ => True := by
  unfold unblock
  split
  · exact True.intro
  · split
    · exact True.intro
    · exact lineup_enqueue pid (k.mapProcesses (·.modify pid ({ · with state := .ready })))

/-- **Whoever ends** gives the processor to the next one. -/
theorem lineup_exit (pid : Nat) (code : Int32) (k : Kernel) : Outcome (exit pid code k)
    (fun _ k' => k'.processes.lineup = ((k.processes.lineup.leave pid).vacate).next) fun _ _ => True := by
  unfold exit
  split
  · exact True.intro
  · split
    · exact True.intro
    · next p _ =>
      refine ((sameProcesses_reclaim { p with state := .terminated } (k.withdraw pid)).mono
        (fun _ _ h => h) fun _ _ _ => True.intro).bind fun released k₁ h₁ => ?_
      refine Outcome.bind (P := fun _ k₂ => k₂ = k₁.reportExit p code released) rfl fun _ k₂ h₂ => ?_
      refine (lineup_schedule k₂).mono (fun _ k₃ h₃ => ?_) fun _ _ h => h
      rw [h₃, h₂, reportExit, report, h₁.processes]
      rfl

/-- **A tick on an idle machine** gives the processor to the first of the line. -/
theorem lineup_countTick (hidle : k.processes.current = none) : Outcome (countTick k)
    (fun _ k' => k'.processes.lineup = k.processes.lineup.next) fun _ _ => True := by
  unfold countTick
  split
  · exact True.intro
  · simp only [hidle]
    split
    · next hempty =>
      have hnil : k.processes.ready.pids = [] := (ReadyQueue.isEmpty_eq_true_iff _).mp hempty
      simp [Outcome, mapProcesses, Lineup.next, ProcessTable.lineup, hnil]
    · exact lineup_schedule (k.mapProcesses ({ · with uptime := k.processes.uptime + 1 }))

/-- **Whoever comes** goes to the end of the line. -/
theorem Comes.lineup {entry : UInt64} {name : String} {p : Process} (h : k.Comes k' entry name p) :
    k'.processes.lineup = k.processes.lineup.join p.pid := by
  obtain ⟨slot, ready, -, hready, hprocesses⟩ := h.table
  rw [hprocesses]
  exact congrArg (Lineup.mk · k.processes.current) hready

end Kernel

end KernelCore
