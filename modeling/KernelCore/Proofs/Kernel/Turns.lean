/-
# Whoever waits gets a turn

The line of ready processes is served from the front and grows at its end, and every timer tick takes
from the turn of whoever runs.  So a process that waits comes closer to the processor with every
tick, whatever else is done in between, done or refused.

The measure is the ticks that are left of the turn, and a full turn for each process further in
front: `Moves.rank` says that no operation lets it grow, and that a tick lowers it.

* `Stays`, `Switches`: the two things that can happen to the line;
* `moves_run`: one of them is what an operation on processes does;
* `runs_within_turns`: so a process runs before its measure is used up, and no other overtakes it.
-/
import KernelCore.Proofs.Kernel.Courses
import KernelCore.Proofs.Kernel.SchedulerRuns

namespace KernelCore

namespace ProcessTable

variable {t t' : ProcessTable} {p : Process} {pid i n : Nat}

/-! ## 1. Turns -/

/-- **A table between two operations.**  Its records agree, and the running process has some of its
turn left. -/
structure Paced (t : ProcessTable) : Prop where
  consistent : t.Consistent
  quantum : ∀ {pid p}, t.current = some pid → t.find? pid = some p →
    1 ≤ p.quantum ∧ p.quantum ≤ quantumTicks

/-- The ticks that are left of the turn of the running process.  If nobody runs, the next tick is the
last without anybody. -/
def turn (t : ProcessTable) : Nat :=
  match t.running? with
  | some p => p.quantum
  | none => 1

theorem turn_of_current (hcur : t.current = some pid) (hp : t.find? pid = some p) :
    t.turn = p.quantum := by
  unfold turn running?
  rw [hcur, Option.bind_some, hp]

theorem turn_of_idle (hcur : t.current = none) : t.turn = 1 := by
  unfold turn running?
  rw [hcur, Option.bind_none]

theorem Paced.of_current (hc : t.Consistent) (hcur : t.current = some pid)
    (hp : t.find? pid = some p) (hquantum : 1 ≤ p.quantum ∧ p.quantum ≤ quantumTicks) :
    t.Paced := by
  refine ⟨hc, ?_⟩
  intro q r hq hr
  rw [hcur] at hq
  cases hq
  rw [hp] at hr
  cases hr
  exact hquantum

theorem Paced.of_idle (hc : t.Consistent) (hcur : t.current = none) : t.Paced := by
  refine ⟨hc, ?_⟩
  intro q r hq
  rw [hcur] at hq
  cases hq

/-- There is something left of every turn, and at most a full one. -/
theorem Paced.turn_bounds (h : t.Paced) : 1 ≤ t.turn ∧ t.turn ≤ quantumTicks := by
  cases hcur : t.current with
  | none =>
    rw [turn_of_idle hcur]
    exact ⟨Nat.le_refl _, Kernel.one_le_quantumTicks⟩
  | some pid =>
    obtain ⟨p, hp, -⟩ := h.consistent.exists_current hcur
    rw [turn_of_current hcur hp]
    exact h.quantum hcur hp

/-- A change that leaves alone who runs, and that process, leaves the turn alone. -/
theorem turn_congr (hcur : t'.current = t.current)
    (hfind : ∀ q, t.current = some q → t'.find? q = t.find? q) : t'.turn = t.turn := by
  have hrun : t'.running? = t.running? := by
    unfold running?
    rw [hcur]
    cases h : t.current with
    | none => rfl
    | some q => exact hfind q h
  unfold turn
  rw [hrun]

theorem Paced.congr (h : t.Paced) (hc : t'.Consistent) (hcur : t'.current = t.current)
    (hfind : ∀ q, t.current = some q → t'.find? q = t.find? q) : t'.Paced := by
  refine ⟨hc, fun {q r} hq hr => ?_⟩
  rw [hcur] at hq
  exact h.quantum hq (hfind q hq ▸ hr)

/-! ## 2. How the line moves -/

/-- **Nobody's turn came.**  The line may have grown at its end; whoever ran goes on, or nobody runs. -/
structure Stays (t t' : ProcessTable) : Prop where
  line : ∃ added, t'.ready.pids = t.ready.pids ++ added
  current : t'.current = t.current ∨ t'.current = none

/-- **A switch.**  The first of the line, who did not run, runs; all others stand one place further in
front, in the same order, and the line may have grown at its end. -/
def Switches (t t' : ProcessTable) : Prop :=
  ∃ next rest added, t.ready.pids = next :: rest ∧ t'.ready.pids = rest ++ added ∧
    t'.current = some next ∧ t.current ≠ some next

/-- What an operation of `n` ticks does: there is a switch, or the line stays and the ticks are taken
from the turn.  When nobody waits, a turn may also begin anew. -/
structure Moves (t t' : ProcessTable) (n : Nat) : Prop where
  paced : t'.Paced
  line : t.Switches t' ∨ t.Stays t' ∧ (t.ready.pids ≠ [] → t'.turn + n ≤ t.turn)

theorem Moves.refl (h : t.Paced) : t.Moves t 0 :=
  ⟨h, Or.inr ⟨⟨⟨[], (List.append_nil _).symm⟩, Or.inl rfl⟩, fun _ => Nat.le_refl _⟩⟩

/-- Somebody joins the line, and nothing else happens. -/
theorem Moves.of_added (h : t.Paced) (hc : t'.Consistent)
    (hline : t'.ready.pids = t.ready.pids ++ [pid]) (hcur : t'.current = t.current)
    (hfind : ∀ q, t.current = some q → t'.find? q = t.find? q) : t.Moves t' 0 :=
  ⟨h.congr hc hcur hfind, Or.inr ⟨⟨⟨[pid], hline⟩, Or.inl hcur⟩,
    fun _ => Nat.le_of_eq (turn_congr hcur hfind)⟩⟩

/-- Nobody runs any more, and nothing else happens to the line. -/
theorem Moves.of_stopped (h : t.Paced) (hc : t'.Consistent) (hline : t'.ready.pids = t.ready.pids)
    (hcur : t'.current = none) : t.Moves t' 0 := by
  refine ⟨.of_idle hc hcur, Or.inr ⟨⟨⟨[], ?_⟩, Or.inr hcur⟩, fun _ => ?_⟩⟩
  · rw [hline, List.append_nil]
  · rw [turn_of_idle hcur]
    exact h.turn_bounds.1

/-- What happens to the process at a place of the line: it keeps the place, or there is a switch, and
it comes one place further in front or, from the first place, to the processor. -/
def Nears (t t' : ProcessTable) (pid i : Nat) : Prop :=
  (t.Stays t' ∧ t'.ready.pids[i]? = some pid) ∨
    (t.Switches t' ∧ ((i = 0 ∧ t'.current = some pid) ∨
      ∃ j, i = j + 1 ∧ t'.ready.pids[j]? = some pid))

/-- An index of a list is one of a longer list with the same beginning. -/
theorem getElem?_of_append {l l' added : List Nat} (hl : l' = l ++ added) (hi : l[i]? = some pid) :
    l'[i]? = some pid := by
  rw [hl, List.getElem?_append_left (List.getElem?_eq_some_iff.mp hi).1, hi]

theorem Moves.nears (h : t.Moves t' n) (hi : t.ready.pids[i]? = some pid) : t.Nears t' pid i := by
  rcases h.line with ⟨next, rest, added, hline, hline', hcur, hne⟩ | ⟨hstays, -⟩
  · refine Or.inr ⟨⟨next, rest, added, hline, hline', hcur, hne⟩, ?_⟩
    rw [hline] at hi
    cases i with
    | zero =>
      rw [List.getElem?_cons_zero] at hi
      exact Or.inl ⟨rfl, hcur.trans hi⟩
    | succ j =>
      rw [List.getElem?_cons_succ] at hi
      exact Or.inr ⟨j, rfl, getElem?_of_append hline' hi⟩
  · obtain ⟨added, hline⟩ := hstays.line
    exact Or.inl ⟨hstays, getElem?_of_append hline hi⟩

/-- **The measure never grows, and a tick lowers it**: what is left of the turn, and a full turn for
each process further in front. -/
theorem Moves.rank (h : t.Moves t' n) (hp : t.Paced) (hn : n ≤ 1)
    (hi : t.ready.pids[i]? = some pid) : t'.current = some pid ∨
      ∃ j, j ≤ i ∧ t'.ready.pids[j]? = some pid ∧
        t'.turn + quantumTicks * j + n ≤ t.turn + quantumTicks * i := by
  have hpos := hp.turn_bounds.1
  have hfull := h.paced.turn_bounds.2
  have hnears := h.nears hi
  rcases h.line with hswitch | ⟨⟨⟨added, hline⟩, -⟩, hturn⟩
  · rcases hnears with ⟨⟨⟨added, hline⟩, -⟩, -⟩ | ⟨-, ⟨-, hcur⟩ | ⟨j, rfl, hj⟩⟩
    · obtain ⟨next, rest, added', hfront, hline', hcur, -⟩ := hswitch
      -- the first of the line cannot both run and wait
      obtain ⟨q, hq, hrun⟩ := h.paced.consistent.exists_current hcur
      refine absurd ?_ (h.paced.consistent.not_mem_ready hq (by simp [hrun]))
      rw [hline, hfront]
      exact List.mem_cons_self
    · exact Or.inl hcur
    · refine Or.inr ⟨j, Nat.le_succ j, hj, ?_⟩
      rw [Nat.mul_succ]
      omega
  · have hwaits : t.ready.pids ≠ [] := by
      intro hnil
      rw [hnil] at hi
      cases hi
    have := hturn hwaits
    exact Or.inr ⟨i, Nat.le_refl i, getElem?_of_append hline hi, by omega⟩

end ProcessTable

/-! ## 3. One operation -/

namespace Kernel

variable {k k' : Kernel} {t : ProcessTable} {p : Process} {pid : Nat}

theorem Settled.paced (hs : k.Settled) : k.processes.Paced := ⟨hs.consistent, hs.quantum⟩

/-- When nobody waits, picking the next process changes nothing but the turn. -/
theorem exists_schedule_of_nil (hc : k.processes.Consistent) (hline : k.processes.ready.pids = []) :
    ∃ k', schedule k = .ok () k' ∧ k'.processes.Paced ∧ k'.processes.ready = k.processes.ready ∧
      k'.processes.current = k.processes.current ∧
        k'.processes.uptime = k.processes.uptime := by
  unfold schedule
  rw [if_pos ((ReadyQueue.isEmpty_eq_true_iff _).mpr hline)]
  cases hcur : k.processes.current with
  | none => exact ⟨k.goIdle, rfl, .of_idle hc hcur, rfl, hcur, rfl⟩
  | some pid =>
    obtain ⟨p, hp, -⟩ := hc.exists_current hcur
    let renew : Process → Process := ({ · with quantum := quantumTicks })
    have hticks : p.ticks ≤ k.processes.uptime := hc.ticks_le hp
    refine ⟨_, renewQuantum_eq hp, .of_current (p := renew p) ?_ hcur ?_ ?_, rfl, hcur, rfl⟩
    · exact hc.modify_of_state_eq (f := renew) hp (fun _ => rfl) rfl hticks (Nat.le_refl _)
    · exact ProcessTable.find?_modify_self (f := renew) (fun _ => rfl) hp
    · exact ⟨one_le_quantumTicks, Nat.le_refl _⟩

/-- When somebody waits, the first of the line runs next, and whoever ran goes to its end. -/
theorem exists_schedule_of_cons (hc : k.processes.Consistent) {rest : List Nat}
    (hline : k.processes.ready.pids = pid :: rest) :
    ∃ k', schedule k = .ok () k' ∧ k'.processes.Paced ∧
      k'.processes.ready.pids = rest ++ k.processes.current.toList ∧
        k'.processes.current = some pid ∧ k'.processes.uptime = k.processes.uptime := by
  have hne : k.processes.ready.isEmpty ≠ true := by
    rw [ne_eq, ReadyQueue.isEmpty_eq_true_iff, hline]
    exact List.cons_ne_nil _ _
  obtain ⟨k₁, hpreempt, hc₁, hnone, -, hline₁, huptime⟩ := exists_preempt hc
  rw [hline, List.cons_append] at hline₁
  obtain ⟨k₂, hdispatch, hs, -⟩ := exists_dispatch hc₁ hnone (by rw [hline₁]; exact List.cons_ne_nil _ _)
  obtain ⟨p, ready, -, rfl, hready, heq⟩ := exists_dispatch_eq hc₁ hline₁
  rw [heq] at hdispatch
  cases hdispatch
  refine ⟨_, ?_, hs.paced, hready, rfl, huptime⟩
  unfold schedule
  rw [if_neg hne]
  exact (bind_of_ok hpreempt).trans heq

/-- **Picking the next process** after a change that left the line alone and stopped at most the
process that ran. -/
theorem moves_schedule (hc : t.Consistent) (hc' : k.processes.Consistent)
    (hline : k.processes.ready.pids = t.ready.pids)
    (hcur : k.processes.current = t.current ∨ k.processes.current = none) (n : Nat) :
    ∃ k', schedule k = .ok () k' ∧ t.Moves k'.processes n ∧
      k'.processes.uptime = k.processes.uptime := by
  cases hpids : t.ready.pids with
  | nil =>
    obtain ⟨k', hok, hp, hready, hcur', huptime⟩ := exists_schedule_of_nil hc' (hline.trans hpids)
    refine ⟨k', hok, ⟨hp, Or.inr ⟨⟨⟨[], ?_⟩, ?_⟩, fun h => absurd hpids h⟩⟩, huptime⟩
    · rw [hready, hline, List.append_nil]
    · rwa [hcur']
  | cons next rest =>
    obtain ⟨k', hok, hp, hline', hcur', huptime⟩ := exists_schedule_of_cons hc' (hline.trans hpids)
    refine ⟨k', hok, ⟨hp, Or.inl ⟨next, rest, _, hpids, hline', hcur', ?_⟩⟩, huptime⟩
    intro hrunning
    obtain ⟨p, hp, hrun⟩ := hc.exists_current hrunning
    refine hc.not_mem_ready hp (by simp [hrun]) ?_
    rw [hpids]
    exact List.mem_cons_self

/-- A tick is charged to the process that runs, and the turn that it ends goes to the next. -/
theorem moves_chargeTick (h : k.processes.Paced) (hcur : k.processes.current = some pid)
    (hu : k.processes.uptime + 1 < 2 ^ 64) :
    ∃ k', chargeTick pid (k.mapProcesses ({ · with uptime := k.processes.uptime + 1 })) = .ok () k' ∧
      k.processes.Moves k'.processes 1 ∧ k'.processes.uptime = k.processes.uptime + 1 := by
  obtain ⟨p, hp, -⟩ := h.consistent.exists_current hcur
  have hticks := h.consistent.ticks_le hp
  let charged := (k.mapProcesses ({ · with uptime := k.processes.uptime + 1 })).mapProcesses
    (·.modify pid Process.afterTick)
  have hc : charged.processes.Consistent :=
    h.consistent.modify_of_state_eq (f := Process.afterTick) hp (fun _ => rfl) rfl
      (Nat.succ_le_succ hticks) (Nat.le_succ _)
  have hfind : charged.processes.find? pid = some p.afterTick :=
    ProcessTable.find?_modify_self (f := Process.afterTick) (fun _ => rfl) hp
  have hquantum := h.quantum hcur hp
  have hless : p.afterTick.quantum = p.quantum - 1 := rfl
  unfold chargeTick
  rw [show (k.mapProcesses ({ · with uptime := k.processes.uptime + 1 })).processes.find? pid = some p
    from hp]
  simp only
  rw [if_neg (by omega)]
  split
  · exact moves_schedule h.consistent hc rfl (Or.inl rfl) 1
  · next hleft =>
    refine ⟨charged, rfl, ⟨.of_current hc hcur hfind (by omega),
      Or.inr ⟨⟨⟨[], ?_⟩, Or.inl rfl⟩, ?_⟩⟩, rfl⟩
    · exact (List.append_nil _).symm
    · intro _
      have hturn : charged.processes.turn = p.afterTick.quantum :=
        ProcessTable.turn_of_current hcur hfind
      rw [hturn, ProcessTable.turn_of_current hcur hp]
      omega

/-- **A tick** is taken from the turn, or there is a switch. -/
theorem moves_countTick (h : k.processes.Paced) (hu : k.processes.uptime + 1 < 2 ^ 64) :
    ∃ k', countTick k = .ok () k' ∧ k.processes.Moves k'.processes 1 ∧
      k'.processes.uptime = k.processes.uptime + 1 := by
  unfold countTick
  rw [if_neg (Nat.not_le_of_lt hu)]
  simp only
  cases hcur : k.processes.current with
  | some pid => exact moves_chargeTick h hcur hu
  | none =>
    let counted := k.mapProcesses ({ · with uptime := k.processes.uptime + 1 })
    have hc : counted.processes.Consistent := h.consistent.tick (Nat.le_succ _)
    dsimp only
    split
    · next hempty =>
      have hline : k.processes.ready.pids = [] := (ReadyQueue.isEmpty_eq_true_iff _).mp hempty
      exact ⟨counted, rfl, ⟨.of_idle hc hcur, Or.inr ⟨⟨⟨[], (List.append_nil _).symm⟩, Or.inl rfl⟩,
        fun hne => absurd hline hne⟩⟩, rfl⟩
    · exact moves_schedule (k := counted) h.consistent hc rfl (Or.inl rfl) 1

theorem outcome_countTick (h : k.processes.Paced) :
    Outcome (countTick k) (fun _ k' => k.processes.Moves k'.processes 1) fun _ _ => False := by
  rcases Nat.lt_or_ge (k.processes.uptime + 1) (2 ^ 64) with hu | hu
  · obtain ⟨k', hok, hm, -⟩ := moves_countTick h hu
    exact .of_ok hok hm
  · unfold countTick
    rw [if_pos hu]
    exact True.intro

theorem moves_block (h : k.processes.Paced) :
    Outcome (block k) (fun _ k' => k.processes.Moves k'.processes 0)
      fun _ k' => k.processes.Moves k'.processes 0 := by
  unfold block
  cases hcur : k.processes.current with
  | none => exact .refl h
  | some pid =>
    obtain ⟨p, hp, -⟩ := h.consistent.exists_current hcur
    let stop : Process → Process := ({ · with context := k.trap, state := .blocked })
    have hc := h.consistent.suspend (f := stop) hcur hp (fun _ => rfl) rfl rfl
    simp only [hp, Option.isNone_some, Bool.false_eq_true, if_false]
    obtain ⟨k', hok, hm, -⟩ := moves_schedule (k := (k.suspend pid .blocked).report .debug .process
      ("Process " ++ toString pid ++ " blocked")) h.consistent hc rfl (Or.inr rfl) 0
    exact .of_ok hok hm

theorem moves_unblock (h : k.processes.Paced) (pid : Nat) :
    Outcome (unblock pid k) (fun _ k' => k.processes.Moves k'.processes 0)
      fun _ k' => k.processes.Moves k'.processes 0 := by
  have hc := h.consistent
  unfold unblock
  cases hp : k.processes.find? pid with
  | none => exact .refl h
  | some p =>
    simp only
    split
    · exact .refl h
    · next hstate =>
      have hstate : p.state = .blocked := not_not.mp hstate
      have hne : p.state ≠ .ready := by simp [hstate]
      let wake : Process → Process := ({ · with state := .ready })
      obtain ⟨ready, hpush, hready⟩ :=
        ProcessTable.Consistent.exists_push (hc.length_ready_lt hp hne) pid
      have hnot : k.processes.current ≠ some pid :=
        hc.current_ne_of_state_ne hp (by simp [hstate])
      have hc' := hc.push k.processes.current (f := wake) hp hne (fun _ => rfl) rfl rfl
        hready (fun _ _ => Iff.rfl) hnot
      refine .of_ok (enqueue_eq hpush) (.of_added h hc' hready rfl fun q hq => ?_)
      exact ProcessTable.find?_modify_of_ne (f := wake) (fun _ => rfl) fun e => hnot (e ▸ hq)

/-- A new process stands in line behind the others. -/
theorem moves_enroll (h : k.processes.Paced) {slot : Fin maxProcesses}
    (hslot : k.processes.slots.get slot = none) (entry : UInt64) (name : String) (space : AddressSpace)
    (stack : Nat) : Outcome (enroll slot entry name space stack k)
      (fun _ k' => k.processes.Moves k'.processes 0) fun _ _ => False := by
  have hc := h.consistent
  unfold enroll
  dsimp only
  split
  · exact True.intro
  · let p : Process := { Process.build k.processes.nextPid name entry space stack with state := .ready }
    obtain ⟨ready, hpush, hready⟩ :=
      ProcessTable.Consistent.exists_push (hc.length_ready_lt_of_free hslot) k.processes.nextPid
    have hc' := hc.place (p := p) hslot rfl rfl rfl hready
    refine Outcome.bind (P := fun _ k' => k' =
        { k with processes := { k.processes with nextPid := k.processes.nextPid + 1, ready } }) ?_ ?_
    · exact Outcome.of_ok (enqueue_eq hpush) rfl
    · rintro _ _ rfl
      refine .of_added h hc' hready rfl fun q hq => ?_
      have hfresh := hc.find?_nextPid
      have hne : q ≠ p.pid := by
        rintro rfl
        exact hc.current_ne_nextPid hq
      exact (ProcessTable.find?_place hslot hfresh).trans (if_neg hne)

theorem moves_create (h : k.processes.Paced) (entry : UInt64) (name : String) :
    Outcome (create entry name k) (fun _ k' => k.processes.Moves k'.processes 0)
      fun _ k' => k.processes.Moves k'.processes 0 := by
  have hsame : ∀ {k' : Kernel}, k.SameProcesses k' → k.processes.Moves k'.processes 0 := by
    intro k' h'
    rw [h'.processes]
    exact .refl h
  unfold create
  cases hslot : k.processes.freeSlot? with
  | none => exact .refl h
  | some slot =>
    simp only
    split
    · exact .refl h
    · refine ((sameProcesses_buildSpace k).mono (fun _ _ h => h) fun _ _ h => hsame h.1).bind
        fun space k₁ h₁ => ?_
      refine ((sameProcesses_buildStack space k₁).mono (fun _ _ h => h₁.trans h)
        fun _ _ h => hsame (h₁.trans h.1)).bind fun stack k₂ h₂ => ?_
      have hnone := ProcessTable.isNone_of_freeSlot? hslot
      rw [← h₂.processes] at hnone h ⊢
      exact (moves_enroll h hnone entry name space stack).mono (fun _ _ h => h) fun _ _ h => h.elim

/-- An exit hands the processor on; if what the process had cannot be given back, nobody runs. -/
theorem moves_exit (h : k.processes.Paced) (pid : Nat) (code : Int32) :
    Outcome (exit pid code k) (fun _ k' => k.processes.Moves k'.processes 0)
      fun _ k' => k.processes.Moves k'.processes 0 := by
  unfold exit
  split
  · exact .refl h
  · next hcur =>
    have hcur : k.processes.current = some pid := not_not.mp hcur
    obtain ⟨p, hp, hrun⟩ := h.consistent.exists_current hcur
    rw [hp]
    have hgone : (k.withdraw pid).processes.Consistent := h.consistent.erase hcur
    have hline : (k.withdraw pid).processes.ready.pids = k.processes.ready.pids :=
      List.erase_of_not_mem (h.consistent.not_mem_ready hp (by simp [hrun]))
    refine Outcome.bind ((sameProcesses_reclaim { p with state := .terminated } (k.withdraw pid)).mono
      (fun _ _ h => h) fun _ k₁ h₁ => ?_) fun released k₁ h₁ => ?_
    · rw [h₁.1.processes]
      exact .of_stopped h hgone hline rfl
    refine Outcome.bind (P := fun _ k' => (k.withdraw pid).SameProcesses k') ⟨h₁.processes, h₁.vm⟩
      fun _ k₂ h₂ => ?_
    obtain ⟨k', hok, hm, -⟩ := moves_schedule (t := k.processes) (k := k₂) h.consistent
      (h₂.processes ▸ hgone) (by rw [h₂.processes, hline]) (Or.inr (by rw [h₂.processes]; rfl)) 0
    exact .of_ok hok hm

/-- A kernel without memory or processes. -/
def withoutMemory : Kernel :=
  { vm := ⟨⟨.zero, ⟨1, 0, 0, .full⟩⟩, .ofRoot .kernel 0, none, false⟩, heap := .empty .zero
    processes := .empty {}, trap := {}, console := [], journal := [], returnTarget := 0 }

end Kernel

/-- How many timer ticks an operation counts. -/
def SchedulerCall.ticks : SchedulerCall → Nat
  | .tick => 1
  | _ => 0

theorem SchedulerCall.ticks_le (call : SchedulerCall) : call.ticks ≤ 1 := by
  cases call with
  | tick => exact Nat.le_refl 1
  | _ => exact Nat.zero_le 1

/-- **One operation moves the line**, whether it is done or refused. -/
theorem Kernel.moves_run {k : Kernel} (h : k.processes.Paced) (call : SchedulerCall) :
    Outcome (call.run k) (fun _ k' => k.processes.Moves k'.processes call.ticks)
      fun _ k' => k.processes.Moves k'.processes call.ticks := by
  have hschedule : Outcome (schedule k) (fun _ k' => k.processes.Moves k'.processes 0)
      fun _ k' => k.processes.Moves k'.processes 0 :=
    let ⟨_, hok, hm, _⟩ := moves_schedule h.consistent h.consistent rfl (Or.inl rfl) 0
    .of_ok hok hm
  cases call with
  | create entry name => exact (moves_create h entry name).bind fun _ _ h => h
  | schedule => exact hschedule.bind fun _ _ h => h
  | yield => exact hschedule.bind fun _ _ h => h
  | tick =>
    exact ((outcome_countTick h).mono (fun _ _ h => h) fun _ _ h => h.elim).bind fun _ _ h => h
  | block => exact (moves_block h).bind fun _ _ h => h
  | unblock pid => exact (moves_unblock h pid).bind fun _ _ h => h
  | exit pid code => exact (moves_exit h pid code).bind fun _ _ h => h

/-! ## 4. Runs of a table -/

namespace ProcessTable

variable {t t₁ t₂ : ProcessTable} {pid i : Nat} {steps : List (SchedulerCall × ProcessTable)}

/-- **An operation takes a table to another**: done or refused, in a kernel that has the table and
whatever else. -/
def Becomes (t : ProcessTable) (call : SchedulerCall) (t' : ProcessTable) : Prop :=
  ∃ k k' : Kernel, k.processes = t ∧ k'.processes = t' ∧
    ((∃ pid?, call.run k = .ok pid? k') ∨ ∃ e, call.run k = .error (.refused e) k')

/-- **A run of a table**: operations in any order, each with the table that it leaves, and the table
in the end.  Between two of them, everything but the table may change. -/
inductive Passes : ProcessTable → List (SchedulerCall × ProcessTable) → ProcessTable → Prop where
  | nil {t : ProcessTable} : Passes t [] t
  | cons {t t₁ t₂ : ProcessTable} {call : SchedulerCall} {steps : List (SchedulerCall × ProcessTable)} :
      t.Becomes call t₁ → Passes t₁ steps t₂ → Passes t ((call, t₁) :: steps) t₂

/-- How many timer ticks a run counts. -/
def ticksIn : List (SchedulerCall × ProcessTable) → Nat
  | [] => 0
  | (call, _) :: steps => call.ticks + ticksIn steps

theorem Becomes.moves {call : SchedulerCall} (h : t.Becomes call t₁) (hp : t.Paced) :
    t.Moves t₁ call.ticks := by
  obtain ⟨k, k', rfl, rfl, ⟨pid?, hok⟩ | ⟨e, he⟩⟩ := h
  · exact (Kernel.moves_run hp call).of_eq_ok hok
  · exact (Kernel.moves_run hp call).of_eq_refused he

theorem Paced.empty (idle : Context) : (ProcessTable.empty idle).Paced :=
  .of_idle (.empty idle) rfl

/-- A run leads from a table between two operations to another one. -/
theorem Passes.paced (h : Passes t steps t₁) (hp : t.Paced) : t₁.Paced := by
  induction h with
  | nil => exact hp
  | cons hstep _ ih => exact ih (hstep.moves hp).paced

theorem Passes.append {steps' : List (SchedulerCall × ProcessTable)} (h : Passes t steps t₁)
    (h' : Passes t₁ steps' t₂) : Passes t (steps ++ steps') t₂ := by
  induction h with
  | nil => exact h'
  | cons hstep _ ih => exact .cons hstep (ih h')

/-- **A run uses up the measure** of a process that waits, unless it runs at some point. -/
theorem Passes.rank (h : Passes t steps t₁) (hp : t.Paced) (hi : t.ready.pids[i]? = some pid) :
    (∃ step ∈ steps, step.2.current = some pid) ∨ ∃ j, j ≤ i ∧ t₁.ready.pids[j]? = some pid ∧
      t₁.turn + quantumTicks * j + ticksIn steps ≤ t.turn + quantumTicks * i := by
  induction h generalizing i with
  | nil => exact Or.inr ⟨i, Nat.le_refl i, hi, Nat.le_refl _⟩
  | @cons t t₁ t₂ call steps hstep _ ih =>
    have hm := hstep.moves hp
    rcases hm.rank hp call.ticks_le hi with hcur | ⟨j, hj, hwaits, hrank⟩
    · exact Or.inl ⟨(call, t₁), List.mem_cons_self, hcur⟩
    rcases ih hm.paced hwaits with ⟨step, hmem, hcur⟩ | ⟨l, hl, hwaits', hrank'⟩
    · exact Or.inl ⟨step, List.mem_cons_of_mem _ hmem, hcur⟩
    · refine Or.inr ⟨l, Nat.le_trans hl hj, hwaits', ?_⟩
      have : ticksIn ((call, t₁) :: steps) = call.ticks + ticksIn steps := rfl
      omega

/-- **Nobody starves.**  Take a process at place `i` of the line, and any operations from there on.
With as many ticks among them as are left of the turn, and a full turn for each of the `i` processes
in front, the process has run.  As long as it has not, it waits, and the next operation leaves it in
its place or moves it up by one, with a switch; the order of those who wait never changes. -/
theorem runs_within_turns {idle : Context} {before : List (SchedulerCall × ProcessTable)}
    (hr : Passes (.empty idle) before t) (hi : t.ready.pids[i]? = some pid)
    (hs : Passes t steps t₁) :
    (t.turn + quantumTicks * i ≤ ticksIn steps → ∃ step ∈ steps, step.2.current = some pid) ∧
      ((∀ step ∈ steps, step.2.current ≠ some pid) → ∃ j, j ≤ i ∧ t₁.ready.pids[j]? = some pid ∧
        ∀ call t₂, t₁.Becomes call t₂ → t₁.Nears t₂ pid j) := by
  have hp := hr.paced (.empty idle)
  have hp₁ := hs.paced hp
  have hrank := hs.rank hp hi
  constructor
  · intro hticks
    rcases hrank with hran | ⟨j, -, -, hrank⟩
    · exact hran
    · have := hp₁.turn_bounds.1
      omega
  · intro hnot
    rcases hrank with ⟨step, hmem, hcur⟩ | ⟨j, hj, hwaits, -⟩
    · exact absurd hcur (hnot step hmem)
    · exact ⟨j, hj, hwaits, fun call t₂ hstep => (hstep.moves hp₁).nears hwaits⟩

/-! ## 5. Ticks alone -/

/-- **Time can always go on**, as long as ticks can be counted. -/
theorem Paced.exists_ticks (n : Nat) (hp : t.Paced) (hu : t.uptime + n < 2 ^ 64) :
    ∃ steps t₁, Passes t steps t₁ ∧ ticksIn steps = n := by
  induction n generalizing t with
  | zero => exact ⟨[], t, .nil, rfl⟩
  | succ n ih =>
    let k : Kernel := { Kernel.withoutMemory with processes := t }
    obtain ⟨k', hok, hm, huptime⟩ := Kernel.moves_countTick (k := k) hp
      (Nat.lt_of_le_of_lt (Nat.add_le_add_left (Nat.le_add_left 1 n) t.uptime) hu)
    have huptime : k'.processes.uptime = t.uptime + 1 := huptime
    obtain ⟨steps, t₁, hs, hticks⟩ := ih hm.paced (by omega)
    have hstep : t.Becomes .tick k'.processes := ⟨k, k', rfl, rfl, Or.inl ⟨none, bind_of_ok hok⟩⟩
    refine ⟨(.tick, k'.processes) :: steps, t₁, .cons hstep hs, ?_⟩
    rw [ticksIn, hticks]
    exact Nat.add_comm 1 n

/-- A process can be created in a table with a free slot, on a machine that has room. -/
theorem Paced.exists_create (hp : t.Paced) (hcur : t.current = none) {slot : Fin maxProcesses}
    (hslot : t.freeSlot? = some slot) (hnumber : t.nextPid + 1 < Kernel.pidLimit) :
    ∃ call p ready, t.Becomes call { t.place slot p with ready, nextPid := t.nextPid + 1 } ∧
      ready.pids = t.ready.pids ++ [t.nextPid] := by
  obtain ⟨htotal, hfresh⟩ := World.fresh_sixFrames
  obtain ⟨heap, -, hroom⟩ := Heap.exists_hasRoom (n := 1) (by decide) (by decide)
  let k : Kernel :=
    { Kernel.withoutMemory with
      vm := ⟨⟨.zero, .ofMap World.sixFrames⟩, .ofRoot .kernel 0, none, false⟩, heap, processes := t }
  have hs : k.Settled := .of_idle hp.consistent hcur (Or.inl rfl)
  have hsupply := hfresh.supplies (show 0 + 5 ≤ (FramePool.ofMap World.sixFrames).total by omega)
  obtain ⟨k', p, hcreate, hcomes⟩ :=
    Kernel.exists_create hs hslot hnumber hfresh.total_le hsupply hroom.exists_alloc 0x1000 "init"
  obtain ⟨slot', ready, hslot', hready, hprocesses⟩ := hcomes.table
  cases hslot.symm.trans hslot'
  rw [hcomes.pid_eq] at hready hprocesses
  exact ⟨.create 0x1000 "init", p, ready, ⟨k, k', rfl, hprocesses, Or.inl ⟨_, bind_of_ok hcreate⟩⟩,
    hready⟩

/-- **As many processes as there are slots** can be created one after the other, and wait in the order of
their numbers. -/
theorem exists_waiting (idle : Context) (n : Nat) (hn : n ≤ maxProcesses) : ∃ before t,
    Passes (.empty idle) before t ∧ t.ready.pids = List.range' 1 n ∧ t.current = none ∧ t.uptime = 0 ∧
      t.nextPid = n + 1 ∧ t.live.length = n := by
  induction n with
  | zero => exact ⟨[], _, .nil, rfl, rfl, rfl, rfl, by simp⟩
  | succ n ih =>
    obtain ⟨before, t, hr, hline, hidle, huptime, hnext, hlive⟩ := ih (Nat.le_of_succ_le hn)
    have hp := hr.paced (.empty idle)
    obtain ⟨slot, hslot⟩ := exists_freeSlot?_of_lt (t := t) (by omega)
    have hle : n + 1 + 1 ≤ maxProcesses + 1 := Nat.succ_le_succ hn
    have hnumber : t.nextPid + 1 < Kernel.pidLimit := by
      rw [hnext]
      exact Nat.lt_of_le_of_lt hle (by decide)
    obtain ⟨call, p, ready, hstep, hready⟩ := hp.exists_create hidle hslot hnumber
    have hline' : ready.pids = List.range' 1 (n + 1) := by
      rw [hready, hline, hnext, List.range'_1_concat, Nat.add_comm]
    obtain ⟨pre, post, hbefore, hafter⟩ := exists_live_place (isNone_of_freeSlot? hslot) p
    have hlive' : (t.place slot p).live.length = n + 1 := by
      rw [hafter, ← hlive, hbefore]
      simp only [List.length_append, List.length_cons, Nat.add_assoc]
    exact ⟨_, _, hr.append (.cons hstep .nil), hline', hidle, huptime, congrArg (· + 1) hnext, hlive'⟩

/-- Of two processes on an idle machine the second has run after six ticks. -/
theorem runs_after_six_ticks : ∃ before t steps t₁, Passes (.empty {}) before t ∧
    t.ready.pids[1]? = some 2 ∧ Passes t steps t₁ ∧ t.turn + quantumTicks * 1 = 6 ∧
      ticksIn steps = 6 ∧ ∃ step ∈ steps, step.2.current = some 2 := by
  have h₀ := Paced.empty {}
  have hslot : (ProcessTable.empty {}).freeSlot? = some ⟨0, by decide⟩ := by decide
  obtain ⟨call₁, p₁, ready₁, hstep₁, hready₁⟩ := h₀.exists_create rfl hslot (by decide)
  have h₁ := (hstep₁.moves h₀).paced
  have hslot : ((ProcessTable.empty {}).place ⟨0, by decide⟩ p₁).freeSlot? =
      some ⟨1, by decide⟩ := rfl
  obtain ⟨call₂, p₂, ready₂, hstep₂, hready₂⟩ :=
    h₁.exists_create rfl hslot (show 2 + 1 < Kernel.pidLimit by decide)
  have h₂ := (hstep₂.moves h₁).paced
  obtain ⟨steps, t₁, hs, hticks⟩ := h₂.exists_ticks 6 (show 0 + 6 < 2 ^ 64 by decide)
  have hr := Passes.cons hstep₁ (.cons hstep₂ .nil)
  have hline : ready₂.pids = [1, 2] := by
    rw [hready₂, show ready₁.pids = [1] from hready₁]
    rfl
  have hwaits : ready₂.pids[1]? = some 2 := by
    rw [hline]
    rfl
  exact ⟨_, _, steps, t₁, hr, hwaits, hs, rfl, hticks,
    (runs_within_turns hr hwaits hs).1 (Nat.le_of_eq hticks.symm)⟩

end ProcessTable

end KernelCore
