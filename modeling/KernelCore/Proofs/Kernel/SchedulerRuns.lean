/-
# Every run of the scheduler

The operations on processes, in any order and with any arguments, each on any trap frame, done or
refused: these are the runs of the scheduler, `Kernel.Runs`.  A run keeps the list of the numbers
that it has given out.  A halt ends the run.

* `Stage`: a run so far, with who stands where; each operation that its caller may ask for leads to the next
  one (`Stage.exists_schedule`, `Stage.exists_exit`);
* `settled_of_runs`: every kernel that a run leads to is settled, because each operation keeps it so;
* `orderly_of_runs`: so the states of the processes, the line, the running process and the loaded
  space agree (`Kernel.Orderly`), and the next operation can only fail for a reason that its caller
  gave (`Kernel.Dependable`).
-/
import KernelCore.Proofs.Kernel.Provisions

namespace KernelCore

/-! ## 1. Runs -/

/-- The operations on processes. -/
inductive SchedulerCall where
  | create (entry : UInt64) (name : String)
  | schedule
  | tick
  | yield
  | block
  | unblock (pid : Nat)
  | exit (pid : Nat) (code : Int32)

/-- The operation; the result is the number of a process that it created. -/
def SchedulerCall.run : SchedulerCall → Kernel.Op ProcessError (Option Nat)
  | .create entry name => do return some (← Kernel.create entry name)
  | .schedule => do Kernel.schedule; return none
  | .tick => do Kernel.countTick; return none
  | .yield => do Kernel.schedule; return none
  | .block => do Kernel.block; return none
  | .unblock pid => do Kernel.unblock pid; return none
  | .exit pid code => do Kernel.exit pid code; return none

namespace Kernel

/-- The kernels that operations on processes lead to from a first one, with the numbers of the
processes that were created on the way, in order. -/
inductive Runs (k₀ : Kernel) : List Nat → Kernel → Prop where
  | start : Runs k₀ [] k₀
  | done {created : List Nat} {k k' : Kernel} {call : SchedulerCall} {frame : Context}
      {pid? : Option Nat} : Runs k₀ created k → call.run { k with trap := frame } = .ok pid? k' →
      Runs k₀ (created ++ pid?.toList) k'
  | refused {created : List Nat} {k k' : Kernel} {call : SchedulerCall} {frame : Context}
      {e : ProcessError} : Runs k₀ created k →
      call.run { k with trap := frame } = .error (.refused e) k' → Runs k₀ created k'

variable {k₀ k k' : Kernel} {created : List Nat} {call : SchedulerCall}

/-- What one operation does: it settles the kernel, and a number that it gives out is the next. -/
structure Advances (k k' : Kernel) (pid? : Option Nat) : Prop where
  settled : k'.Settled
  root : k'.vm.kernel.root = k.vm.kernel.root
  loaded : k'.vm.activeRoot = none → k.vm.activeRoot = none
  next : (pid? = none ∧ k'.processes.nextPid = k.processes.nextPid) ∨
    (pid? = some k.processes.nextPid ∧ k'.processes.nextPid = k.processes.nextPid + 1)

theorem Advances.of_follows (hs : k'.Settled) (hf : k.Follows k') : k.Advances k' none :=
  ⟨hs, hf.root, hf.loaded, Or.inl ⟨rfl, hf.nextPid.symm⟩⟩

/-- An operation that creates nobody. -/
theorem advances_unit {op : Op ProcessError Unit} {refused : ProcessError → Kernel → Prop}
    (h : Outcome (op k) (fun _ k' => k'.Settled ∧ k.Follows k') refused) :
    Outcome ((do op; return none : Op ProcessError (Option Nat)) k)
      (fun pid? k' => k.Advances k' pid?) refused :=
  h.bind fun _ _ h => .of_follows h.1 h.2

/-- An operation that always succeeds. -/
theorem advances_ok {op : Op ProcessError Unit} {refused : ProcessError → Kernel → Prop}
    (h : ∃ k', op k = .ok () k' ∧ k'.Settled ∧ k.Reschedules k') :
    Outcome ((do op; return none : Op ProcessError (Option Nat)) k)
      (fun pid? k' => k.Advances k' pid?) refused :=
  let ⟨_, hok, hs, hr⟩ := h
  advances_unit (.of_ok hok ⟨hs, hr.follows⟩)

/-- **One operation** settles the kernel, whether it is done or refused.  That there is no room is
said only of a new process, and only if every slot is taken. -/
theorem advances_run (hs : k.Settled) (call : SchedulerCall) :
    Outcome (call.run k) (fun pid? k' => k.Advances k' pid?) fun e k' => k.Advances k' none ∧
      (e = .tableFull → (∃ entry name, call = .create entry name) ∧
        k.processes.freeSlot? = none) := by
  have hsame : k.Advances k none := .of_follows hs (Follows.refl k)
  cases call with
  | create entry name =>
    refine Outcome.bind ((settled_create hs entry name).mono (fun _ _ h => h) fun e k' h => ?_)
      fun pid k' h => ?_
    · exact ⟨.of_follows (hs.of_sameProcesses h.1) h.1.follows, fun he => ⟨⟨entry, name, rfl⟩, h.2 he⟩⟩
    · obtain ⟨rfl, hnext, hs', hvm⟩ := h
      exact ⟨hs', by rw [hvm.1], by rw [hvm.2]; exact id, Or.inr ⟨rfl, hnext⟩⟩
  | schedule => exact advances_ok hs.exists_schedule
  | yield => exact advances_ok hs.exists_schedule
  | tick =>
    rcases countTick_cases hs with ⟨-, hhalt⟩ | hok
    · exact advances_unit (.of_halted hhalt)
    · exact advances_ok hok
  | block =>
    rcases block_cases hs with ⟨-, he⟩ | hok
    · exact advances_unit (.of_refused he ⟨hsame, fun h => by cases h⟩)
    · exact advances_ok hok
  | unblock pid =>
    rcases unblock_cases hs pid with ⟨-, he⟩ | ⟨-, -, -, he⟩ | hok
    · exact advances_unit (.of_refused he ⟨hsame, fun h => by cases h⟩)
    · exact advances_unit (.of_refused he ⟨hsame, fun h => by cases h⟩)
    · exact advances_ok hok
  | exit pid code =>
    exact advances_unit ((settled_exit hs pid code).mono (fun _ _ h => h) fun e k' h =>
      ⟨.of_follows h.1 h.2.1, fun he => absurd he h.2.2⟩)

/-! ## 2. Runs that go through -/

/-- **A stage of a run**: the run so far, which processes there are, and who stands where. -/
structure Stage (k₀ : Kernel) (base : Nat) (created members : List Nat) (l : Lineup) (k : Kernel) : Prop where
  runs : Runs k₀ created k
  inOrder : k.InOrder base
  members : (k.processes.holdings.map Holding.pid).Perm members
  lineup : k.processes.lineup = l

/-- An operation that is done, on the trap frame as it is. -/
theorem Runs.step {pid? : Option Nat} (hr : Runs k₀ created k) (hok : call.run k = .ok pid? k') :
    Runs k₀ (created ++ pid?.toList) k' :=
  @Runs.done k₀ created k k' call k.trap pid? hr hok

/-- The next process is created. -/
theorem Runs.create {n : Nat} {entry : UInt64} {name : String} (hr : Runs k₀ (List.range' 1 n) k)
    (hok : create entry name k = .ok (n + 1) k') : Runs k₀ (List.range' 1 (n + 1)) k' := by
  have hrun : SchedulerCall.run (.create entry name) k = .ok (some (n + 1)) k' := bind_of_ok hok
  rw [List.range'_1_concat, Nat.add_comm 1 n]
  exact hr.step hrun

namespace Stage

variable {base pid : Nat} {members : List Nat} {l l' : Lineup}

/-- An operation that hands the processor on. -/
theorem reschedule (h : Stage k₀ base created members l k) (hok : call.run k = .ok none k') (hs : k'.Settled)
    (hr : k.Reschedules k') (hl : k'.processes.lineup = l') : Stage k₀ base created members l' k' := by
  refine ⟨?_, ⟨hs, h.inOrder.balanced.reschedule hr⟩, ?_, hl⟩
  · have hruns := h.runs.step hok
    rwa [Option.toList_none, List.append_nil] at hruns
  · rw [hr.holdings]
    exact h.members

/-- The next process can always be picked. -/
theorem exists_schedule (h : Stage k₀ base created members l k) :
    ∃ k', Stage k₀ base created members l.next k' := by
  obtain ⟨k', hok, hs, hr⟩ := h.inOrder.settled.exists_schedule
  have hl := (lineup_schedule k).of_eq_ok hok
  have hrun : SchedulerCall.run .schedule k = .ok none k' := bind_of_ok hok
  exact ⟨k', h.reschedule hrun hs hr (h.lineup ▸ hl)⟩

/-- Whoever runs can block. -/
theorem exists_block (h : Stage k₀ base created members l k) (hcur : l.current = some pid) :
    ∃ k', Stage k₀ base created members l.vacate.next k' := by
  have hcur : k.processes.current = some pid := (congrArg Lineup.current h.lineup).trans hcur
  rcases block_cases h.inOrder.settled with ⟨hnone, -⟩ | ⟨k', hok, hs, hr⟩
  · rw [hnone] at hcur
    cases hcur
  · have hl := (lineup_block k).of_eq_ok hok
    have hrun : SchedulerCall.run .block k = .ok none k' := bind_of_ok hok
    exact ⟨k', h.reschedule hrun hs hr (h.lineup ▸ hl)⟩

/-- Whoever has no place in the lineup is blocked. -/
theorem isBlocked (h : Stage k₀ base created members l k) (pid : Nat) (hpid : pid ∈ members)
    (hline : pid ∉ l.line) (hcur : l.current ≠ some pid) :
    ∃ p, k.processes.find? pid = some p ∧ p.state = .blocked := by
  have hc := h.inOrder.settled.consistent
  obtain ⟨_, hin, rfl⟩ := List.mem_map.mp (h.members.mem_iff.mpr hpid)
  obtain ⟨p, hp, rfl⟩ := List.mem_map.mp hin
  have hp := ProcessTable.find?_of_mem hc.distinct hp
  rw [← h.lineup] at hline hcur
  exact ⟨p, hp, hc.isBlocked hp hline hcur⟩

/-- Whoever is not among the members is not in the table. -/
theorem find?_eq_none (h : Stage k₀ base created members l k) (pid : Nat) (hpid : pid ∉ members) :
    k.processes.find? pid = none := by
  refine ProcessTable.find?_eq_none_iff.mpr fun p hp he => hpid (h.members.mem_iff.mp ?_)
  exact List.mem_map.mpr ⟨p.holding, List.mem_map_of_mem hp, he⟩

/-- Whoever is blocked can be unblocked. -/
theorem exists_unblock (h : Stage k₀ base created members l k) (pid : Nat) (hpid : pid ∈ members)
    (hline : pid ∉ l.line) (hcur : l.current ≠ some pid) :
    ∃ k', Stage k₀ base created members (l.join pid) k' := by
  obtain ⟨p, hp, hstate⟩ := h.isBlocked pid hpid hline hcur
  rcases unblock_cases h.inOrder.settled pid with ⟨hnone, -⟩ | ⟨q, hq, hne, -⟩ | ⟨k', hok, hs, hr⟩
  · rw [hp] at hnone
    cases hnone
  · rw [hp] at hq
    cases hq
    exact absurd hstate hne
  · have hl := (lineup_unblock pid k).of_eq_ok hok
    have hrun : SchedulerCall.run (.unblock pid) k = .ok none k' := bind_of_ok hok
    exact ⟨k', h.reschedule hrun hs hr (h.lineup ▸ hl)⟩

/-- Whoever runs can exit. -/
theorem exists_exit (h : Stage k₀ base created members l k) (pid : Nat) (hcur : l.current = some pid)
    (code : Int32) :
    ∃ k', Stage k₀ base created (members.erase pid) (l.leave pid).vacate.next k' := by
  have hcur : k.processes.current = some pid := (congrArg Lineup.current h.lineup).trans hcur
  obtain ⟨k', p, hok, hs, hb, -, rfl, hperm⟩ :=
    Kernel.exists_exit h.inOrder.settled h.inOrder.balanced hcur code
  have hl := (lineup_exit p.pid code k).of_eq_ok hok
  have hrun : SchedulerCall.run (.exit p.pid code) k = .ok none k' := bind_of_ok hok
  have hruns := h.runs.step hrun
  rw [Option.toList_none, List.append_nil] at hruns
  have hmembers := (hperm.map Holding.pid).symm.trans h.members
  exact ⟨k', hruns, ⟨hs, hb⟩, (List.cons_perm_iff_perm_erase.mp hmembers).2, h.lineup ▸ hl⟩

end Stage

/-! ## 3. What holds of every run -/

/-- What holds at the start of a run and after each operation. -/
structure RunInvariant (created : List Nat) (k : Kernel) : Prop where
  settled : k.Settled
  numbers : created = List.range' 1 created.length
  next : k.processes.nextPid = created.length + 1

theorem RunInvariant.advance (h : RunInvariant created k) (frame : Context) {pid? : Option Nat}
    (ha : { k with trap := frame }.Advances k' pid?) : RunInvariant (created ++ pid?.toList) k' := by
  rcases ha.next with ⟨rfl, hnext⟩ | ⟨rfl, hnext⟩
  · rw [Option.toList_none, List.append_nil]
    exact ⟨ha.settled, h.numbers, hnext.trans h.next⟩
  · refine ⟨ha.settled, ?_, ?_⟩
    · rw [Option.toList_some, List.length_append, List.length_singleton, List.range'_concat,
        ← h.numbers, h.next]
      simp [Nat.add_comm]
    · rw [hnext, Option.toList_some, List.length_append, List.length_singleton]
      exact congrArg (· + 1) h.next

/-- **Every run** leads to a settled kernel, gives out the numbers from one on, and keeps a root
table loaded once there is one. -/
theorem settled_of_runs (h₀ : RunInvariant created k) {created' : List Nat}
    (hr : Runs k created' k') :
    RunInvariant (created ++ created') k' ∧ k'.vm.kernel.root = k.vm.kernel.root ∧
      (k'.vm.activeRoot = none → k.vm.activeRoot = none) := by
  induction hr with
  | start => exact ⟨by simpa using h₀, rfl, id⟩
  | @done created₁ k₁ k₂ call frame pid? _ hok ih =>
    obtain ⟨hinv, hroot, hloaded⟩ := ih
    have ha := (advances_run (hinv.settled.trap frame) call).of_eq_ok hok
    refine ⟨?_, ha.root.trans hroot, fun hn => hloaded (ha.loaded hn)⟩
    rw [← List.append_assoc]
    exact hinv.advance frame ha
  | @refused created₁ k₁ k₂ call frame e _ he ih =>
    obtain ⟨hinv, hroot, hloaded⟩ := ih
    have ha := ((advances_run (hinv.settled.trap frame) call).of_eq_refused he).1
    refine ⟨?_, ha.root.trans hroot, fun hn => hloaded (ha.loaded hn)⟩
    simpa using hinv.advance frame ha

/-- **The records of the scheduler agree.**  `created` are the numbers that have been given out. -/
structure Orderly (k : Kernel) (created : List Nat) : Prop where
  numbers : created = List.range' 1 created.length
  given : ∀ p ∈ k.processes.live, p.pid ∈ created
  distinct : (k.processes.live.map Process.pid).Nodup
  listed : ∀ p ∈ k.processes.live, p.state = .ready ∨ p.state = .running ∨ p.state = .blocked
  line : k.processes.ready.pids.Nodup
  waits : ∀ pid, pid ∈ k.processes.ready.pids ↔
    ∃ p ∈ k.processes.live, p.pid = pid ∧ p.state = .ready
  running : (k.processes.live.filter fun p => p.state = .running).map Process.pid =
    k.processes.current.toList
  quantum : ∀ p ∈ k.processes.live, p.state = .running → 1 ≤ p.quantum ∧ p.quantum ≤ quantumTicks
  loaded : ∀ p ∈ k.processes.live, p.state = .running → k.vm.activeRoot = some p.space.root
  idle : k.processes.current = none →
    k.vm.activeRoot = none ∨ k.vm.activeRoot = some k.vm.kernel.root

/-- **The scheduler can be relied on.**  Whatever the trap frame is: scheduling succeeds, so does a
timer tick as long as ticks can be counted, unblocking fails only for a number that no blocked
process has, and there is always room in line. -/
structure Dependable (k : Kernel) : Prop where
  schedule : ∀ frame, ∃ k', Kernel.schedule { k with trap := frame } = .ok () k'
  tick : ∀ frame, k.processes.uptime + 1 < 2 ^ 64 →
    ∃ k', countTick { k with trap := frame } = .ok () k'
  tick_not_refused : ∀ frame e k', countTick { k with trap := frame } ≠ .error (.refused e) k'
  unblock : ∀ pid frame, (∃ k', Kernel.unblock pid { k with trap := frame } = .ok () k') ∨
    Kernel.unblock pid { k with trap := frame } =
        .error (.refused (.noSuchProcess pid)) { k with trap := frame } ∧
      (∀ p ∈ k.processes.live, p.pid ≠ pid) ∨
    Kernel.unblock pid { k with trap := frame } =
        .error (.refused (.notReady pid)) { k with trap := frame } ∧
      ∃ p ∈ k.processes.live, p.pid = pid ∧ p.state ≠ .blocked
  room : ∀ (call : SchedulerCall) frame k',
    call.run { k with trap := frame } = .error (.refused .tableFull) k' →
      (∃ entry name, call = .create entry name) ∧
        ∀ slot : Fin maxProcesses, (k.processes.slots.get slot).isSome

theorem RunInvariant.orderly (h : RunInvariant created k) : k.Orderly created := by
  have hc := h.settled.consistent
  have hfind : ∀ {p : Process} {pid : Nat}, k.processes.find? pid = some p ↔
      p ∈ k.processes.live ∧ p.pid = pid := ProcessTable.find?_eq_some_iff hc.distinct
  have hcurrent : ∀ p ∈ k.processes.live, p.state = .running →
      k.processes.current = some p.pid ∧ k.processes.find? p.pid = some p := fun p hp hrun =>
    have hp := ProcessTable.find?_of_mem hc.distinct hp
    ⟨(hc.runs_iff p.pid).mpr ⟨p, hp, hrun⟩, hp⟩
  refine ⟨h.numbers, ?_, hc.distinct, ?_, hc.line, ?_, hc.running_eq, ?_, ?_, h.settled.idle⟩
  · intro p hp
    have hnumber := hc.numbered (ProcessTable.find?_of_mem hc.distinct hp)
    rw [h.numbers, List.mem_range'_1]
    rw [h.next] at hnumber
    omega
  · intro p hp
    exact hc.listed (ProcessTable.find?_of_mem hc.distinct hp)
  · intro pid
    rw [hc.waits_iff]
    simp only [hfind, and_assoc]
  · intro p hp hrun
    obtain ⟨hcur, hp⟩ := hcurrent p hp hrun
    exact h.settled.quantum hcur hp
  · intro p hp hrun
    obtain ⟨hcur, hp⟩ := hcurrent p hp hrun
    exact h.settled.loaded hcur hp

theorem Settled.dependable (hs : k.Settled) : k.Dependable := by
  refine ⟨?_, ?_, ?_, ?_, ?_⟩
  · intro frame
    obtain ⟨k', hok, -⟩ := (hs.trap frame).exists_schedule
    exact ⟨k', hok⟩
  · intro frame hu
    obtain ⟨k', hok, -⟩ := exists_countTick (hs.trap frame) hu
    exact ⟨k', hok⟩
  · intro frame e k' he
    rcases countTick_cases (hs.trap frame) with ⟨-, hhalt⟩ | ⟨k'', hok, -⟩
    · rw [hhalt] at he
      cases he
    · rw [hok] at he
      cases he
  · intro pid frame
    rcases unblock_cases (hs.trap frame) pid with ⟨hnone, he⟩ | ⟨p, hp, hstate, he⟩ | ⟨k', hok, -⟩
    · exact Or.inr (Or.inl ⟨he, ProcessTable.find?_eq_none_iff.mp hnone⟩)
    · exact Or.inr (Or.inr ⟨he, p, ProcessTable.mem_live_of_find? hp, ProcessTable.pid_of_find? hp,
        hstate⟩)
    · exact Or.inl ⟨k', hok⟩
  · intro call frame k' he
    obtain ⟨hcall, hslot⟩ := ((advances_run (hs.trap frame) call).of_eq_refused he).2 rfl
    exact ⟨hcall, (ProcessTable.freeSlot?_eq_none_iff _).mp hslot⟩

/-- **Every run of the scheduler.**  From an empty process table on, with the kernel's space loaded
or none: after any operations the records agree, the scheduler can be relied on, and a root table
stays loaded once there is one. -/
theorem orderly_of_runs {idle : Context} (hprocesses : k₀.processes = .empty idle)
    (hroot : k₀.vm.activeRoot = none ∨ k₀.vm.activeRoot = some k₀.vm.kernel.root)
    (hr : Runs k₀ created k) :
    k.Orderly created ∧ k.Dependable ∧ k.vm.kernel.root = k₀.vm.kernel.root ∧
      ∀ created' later, Runs k created' later → later.vm.activeRoot = none →
        k.vm.activeRoot = none := by
  have h₀ : RunInvariant [] k₀ := by
    refine ⟨Settled.of_idle ?_ ?_ hroot, rfl, ?_⟩
    · rw [hprocesses]
      exact ProcessTable.Consistent.empty idle
    · rw [hprocesses]
      rfl
    · rw [hprocesses]
      rfl
  obtain ⟨h, hroot', -⟩ := settled_of_runs h₀ hr
  rw [List.nil_append] at h
  exact ⟨h.orderly, h.settled.dependable, hroot', fun _ _ hr' => (settled_of_runs h hr').2.2⟩

/-- On a machine with room for four processes, all four are created, the first two block, the first is
unblocked, and the third exits.  Then the first waits, the second is blocked, and the fourth runs. -/
theorem orderly_smallMachine : ∃ k₀ k, (k₀.processes = .empty {} ∧
    (k₀.vm.activeRoot = none ∨ k₀.vm.activeRoot = some k₀.vm.kernel.root) ∧ Runs k₀ [1, 2, 3, 4] k) ∧
      k.Orderly [1, 2, 3, 4] ∧ k.Dependable ∧ k.processes.current = some 4 ∧ k.processes.ready.pids = [1] ∧
        (∃ p, k.processes.find? 2 = some p ∧ p.state = .blocked) ∧ k.processes.find? 3 = none := by
  obtain ⟨heap, k₀, hheap, hboot, hprovided, hfilled⟩ := exists_smallMachine
  obtain ⟨hvm, -, hprocesses⟩ := eq_of_boot hboot
  obtain ⟨-, -, hactive⟩ := Vm.eq_of_boot hvm
  obtain ⟨k₄, hp₄, hf₄, hr₄⟩ := hprovided.exists_filled (P := fun n k => Runs k₀ (List.range' 1 n) k) 0x1000
    "worker" (fun hr hcreate => hr.create hcreate) hfilled .start
  have h₄ : Stage k₀ _ [1, 2, 3, 4] [1, 2, 3, 4] ⟨[1, 2, 3, 4], none⟩ k₄ :=
    ⟨hr₄, hp₄.inOrder, hf₄.members, hf₄.lineup⟩
  obtain ⟨k₅, h₅⟩ := h₄.exists_schedule
  obtain ⟨k₆, h₆⟩ := h₅.exists_block rfl
  obtain ⟨k₇, h₇⟩ := h₆.exists_block rfl
  obtain ⟨k₈, h₈⟩ := h₇.exists_unblock 1 (by decide) (by decide) (by decide)
  obtain ⟨k, h⟩ := h₈.exists_exit 3 rfl 0
  obtain ⟨horderly, hdependable, -⟩ := orderly_of_runs hprocesses (Or.inl hactive) h.runs
  refine ⟨k₀, k, ⟨hprocesses, Or.inl hactive, h.runs⟩, horderly, hdependable, congrArg Lineup.current h.lineup,
    congrArg Lineup.line h.lineup, h.isBlocked 2 (by decide) (by decide) (by decide), ?_⟩
  exact h.find?_eq_none 3 (by decide)

end Kernel

end KernelCore
