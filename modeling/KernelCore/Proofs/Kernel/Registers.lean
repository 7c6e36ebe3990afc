/-
# Switches cannot be seen

A process has its registers in the trap frame while it runs, and in its record while it does not:
`Kernel.registers?` looks in the right place.  A switch moves the registers of two processes from one
place to the other, and that is all that it does to anybody's.

* `registers_schedule`, `registers_block` and their like: no operation of the scheduler changes
  anybody's registers;
* `registers_exit`, `begins_create`: one process loses its registers, one gets its first ones;
* `answers_serve`: a request changes the registers of the process that made it and of nobody else;
* `transparent_of_proceeds`: so whoever gives up the processor finds its registers again, whatever
  happens until it runs again.
-/
import KernelCore.Proofs.Kernel.Courses
import Mathlib.Logic.Function.Basic

namespace KernelCore

/-- The trap frame with which the running process gives up the processor in a call: to a request, the
answer is there already. -/
def KernelCall.parting : KernelCall → Context → Context
  | .syscall, frame => { frame with rax := 0 }
  | _, frame => frame

theorem KernelCall.parting_of_ne {call : KernelCall} (h : call ≠ .syscall) (frame : Context) :
    call.parting frame = frame := by
  cases call <;> first | rfl | exact absurd rfl h

namespace Kernel

variable {k k' k'' : Kernel} {p : Process} {pid : Nat} {base : Nat}

/-! ## 1. Where the registers are -/

/-- The registers of a process, wherever they are. -/
def registers? (k : Kernel) (pid : Nat) : Option Context :=
  (k.processes.find? pid).map fun p => if k.processes.current = some pid then k.trap else p.context

theorem registers?_of_current (hcur : k.processes.current = some pid)
    (hp : k.processes.find? pid = some p) : k.registers? pid = some k.trap := by
  unfold registers?
  rw [hp, Option.map_some, if_pos hcur]

theorem registers?_of_ne (hcur : k.processes.current ≠ some pid) :
    k.registers? pid = (k.processes.find? pid).map Process.context := by
  unfold registers?
  simp only [if_neg hcur]

theorem find?_of_registers? {c : Context} (h : k.registers? pid = some c) :
    ∃ p, k.processes.find? pid = some p := by
  obtain ⟨p, hp, -⟩ := Option.map_eq_some_iff.mp h
  exact ⟨p, hp⟩

/-- The registers are read off the processes and the trap frame. -/
theorem registers?_congr (hprocesses : k'.processes = k.processes) (htrap : k'.trap = k.trap) :
    k'.registers? = k.registers? := by
  unfold registers?
  rw [hprocesses, htrap]

/-- Whoever does not run has its registers in its record. -/
theorem registers?_congr_of_ne (hprocesses : k'.processes = k.processes)
    (hcur : k.processes.current ≠ some pid) : k'.registers? pid = k.registers? pid := by
  rw [registers?_of_ne (hprocesses ▸ hcur), registers?_of_ne hcur, hprocesses]

/-- A process changes in something else. -/
theorem registers?_modify {f : Process → Process} (hf : ∀ p, (f p).pid = p.pid)
    (hcontext : ∀ p, (f p).context = p.context) (k : Kernel) (pid : Nat) :
    (k.mapProcesses (·.modify pid f)).registers? = k.registers? := by
  funext q
  have hfind : (k.mapProcesses (·.modify pid f)).processes.find? q =
      (k.processes.find? q).map fun p => if p.pid = pid then f p else p := ProcessTable.find?_modify hf
  unfold registers?
  rw [hfind, Option.map_map]
  congr 1
  funext p
  by_cases hp : p.pid = pid
  · simp only [Function.comp_apply, if_pos hp, hcontext]
    rfl
  · simp only [Function.comp_apply, if_neg hp]
    rfl

/-! ## 2. Switching -/

/-- The registers of the running process go into its record. -/
theorem registers_suspend (hcur : k.processes.current = some pid) (state : ProcessState) :
    (k.suspend pid state).registers? = k.registers? := by
  let f : Process → Process := ({ · with context := k.trap, state })
  funext q
  have hfind : (k.suspend pid state).processes.find? q =
      (k.processes.find? q).map fun p => if p.pid = pid then f p else p :=
    ProcessTable.find?_modify (f := f) fun _ => rfl
  have hnone : (k.suspend pid state).processes.current ≠ some q := nofun
  rw [registers?_of_ne hnone, hfind, Option.map_map]
  cases hq : k.processes.find? q with
  | none =>
    unfold registers?
    rw [hq]
    rfl
  | some p =>
    have hpid := ProcessTable.pid_of_find? hq
    by_cases h : q = pid
    · subst h
      rw [registers?_of_current hcur hq]
      simp only [Option.map_some, Function.comp_apply, if_pos hpid, f]
    · rw [registers?_of_ne (ProcessTable.Consistent.current_ne hcur h), hq]
      simp only [Option.map_some, Function.comp_apply, if_neg (hpid ▸ h)]

/-- The registers of the next process go into the trap frame. -/
theorem registers_resume (hcur : k.processes.current = none)
    (hp : k.processes.find? p.pid = some p) : (k.resume p).registers? = k.registers? := by
  let f : Process → Process := ({ · with state := .running, quantum := quantumTicks })
  funext q
  have hfind : (k.resume p).processes.find? q = (k.processes.modify p.pid f).find? q := rfl
  have hnone : k.processes.current ≠ some q := by rw [hcur]; exact nofun
  rw [registers?_of_ne hnone]
  by_cases h : q = p.pid
  · subst h
    have hfp : (k.resume p).processes.find? p.pid = some (f p) :=
      ProcessTable.find?_modify_self (f := f) (fun _ => rfl) hp
    have hrun : (k.resume p).processes.current = some p.pid := rfl
    rw [registers?_of_current hrun hfp, hp]
    rfl
  · have hrun : (k.resume p).processes.current ≠ some q := fun he => h (Option.some.inj he).symm
    rw [registers?_of_ne hrun, hfind, ProcessTable.find?_modify_of_ne (f := f) (fun _ => rfl) h]

/-- An operation that changes nobody's registers. -/
def Transfers {α : Type} (op : Op ProcessError α) (k : Kernel) : Prop :=
  Outcome (op k) (fun _ k' => k'.registers? = k.registers?) fun _ _ => True

theorem registers_enqueue (pid : Nat) (k : Kernel) : Transfers (enqueue pid) k := by
  unfold Transfers enqueue
  split
  · exact True.intro
  · exact rfl

theorem registers_preempt (k : Kernel) : Outcome (preempt k)
    (fun _ k' => k'.registers? = k.registers? ∧ k'.processes.current = none) fun _ _ => True := by
  unfold preempt
  split
  · next hcur => exact ⟨rfl, hcur⟩
  · next pid hcur =>
    split
    · exact True.intro
    · unfold enqueue
      split
      · exact True.intro
      · exact ⟨registers_suspend hcur .ready, rfl⟩

theorem registers_dispatch (hcur : k.processes.current = none) : Transfers dispatch k := by
  unfold Transfers dispatch dispatchTo
  split
  · exact True.intro
  · next pid ready hpop =>
    split
    · exact True.intro
    · next p hp =>
      have hpid := ProcessTable.pid_of_find? hp
      split
      · exact True.intro
      · exact registers_resume (k := k.mapProcesses ({ · with ready })) hcur (hpid ▸ hp)

theorem registers_schedule (k : Kernel) : Transfers schedule k := by
  unfold Transfers schedule
  split
  · split
    · next pid hcur =>
      unfold renewQuantum
      split
      · exact True.intro
      · let f : Process → Process := ({ · with quantum := quantumTicks })
        exact registers?_modify (f := f) (fun _ => rfl) (fun _ => rfl) k pid
    · next hcur =>
      funext q
      exact registers?_congr_of_ne rfl (by rw [hcur]; exact nofun)
  · refine (registers_preempt k).bind fun _ k₁ h₁ => ?_
    exact (registers_dispatch h₁.2).mono (fun _ _ h => h.trans h₁.1) fun _ _ h => h

theorem registers_countTick (k : Kernel) : Transfers countTick k := by
  unfold Transfers countTick
  split
  · exact True.intro
  · let counted := k.mapProcesses ({ · with uptime := k.processes.uptime + 1 })
    dsimp only
    split
    · next pid hcur =>
      unfold chargeTick
      split
      · exact True.intro
      · split
        · exact True.intro
        · have hcharged : (counted.mapProcesses (·.modify pid Process.afterTick)).registers? =
              k.registers? :=
            registers?_modify (f := Process.afterTick) (fun _ => rfl) (fun _ => rfl) counted pid
          dsimp only
          split
          · exact (registers_schedule _).mono (fun _ _ h => h.trans hcharged) fun _ _ h => h
          · exact hcharged
    · split
      · exact rfl
      · exact registers_schedule counted

theorem registers_block (k : Kernel) : Transfers block k := by
  unfold Transfers block
  split
  · exact True.intro
  · next pid hcur =>
    split
    · exact True.intro
    · refine (registers_schedule _).mono (fun _ _ h => h.trans ?_) fun _ _ h => h
      exact registers_suspend hcur .blocked

theorem registers_unblock (pid : Nat) (k : Kernel) : Transfers (unblock pid) k := by
  unfold Transfers unblock
  split
  · exact True.intro
  · split
    · exact True.intro
    · let f : Process → Process := ({ · with state := .ready })
      refine (registers_enqueue pid _).mono (fun _ _ h => h.trans ?_) fun _ _ h => h
      exact registers?_modify (f := f) (fun _ => rfl) (fun _ => rfl) k pid

/-! ## 3. Coming and going -/

/-- An operation on memory is nothing to the registers. -/
theorem registers_onVm {α ε : Type} (g : PagingError → ε) (op : Vm.Op α) (k : Kernel) :
    Outcome (onVm g op k) (fun _ k' => k'.processes = k.processes ∧ k'.trap = k.trap)
      fun _ k' => k'.processes = k.processes ∧ k'.trap = k.trap := by
  refine Outcome.onVm ?_
  match op k.vm with
  | .ok _ _ => exact ⟨rfl, rfl⟩
  | .error (.refused _) _ => exact ⟨rfl, rfl⟩
  | .error (.halted _) _ => exact True.intro

theorem registers_buildStack (space : AddressSpace) (k : Kernel) : Outcome (buildStack space k)
    (fun _ k' => k'.processes = k.processes ∧ k'.trap = k.trap)
      fun _ k' => k'.processes = k.processes ∧ k'.trap = k.trap := by
  unfold buildStack
  split
  · exact ⟨rfl, rfl⟩
  · exact (registers_onVm _ _ k).bind fun _ k' h => h
  · exact True.intro

/-- Whoever comes has the registers that it begins with. -/
theorem registers_install {slot : Fin maxProcesses} (hslot : k.processes.slots.get slot = none)
    (hnew : k.processes.find? p.pid = none) (hcur : k.processes.current ≠ some p.pid) (name : String) :
    (k.install slot p name).registers? = Function.update k.registers? p.pid (some p.context) := by
  funext q
  have hfind : (k.install slot p name).processes.find? q =
      if q = p.pid then some { p with state := .ready } else k.processes.find? q :=
    ProcessTable.find?_place hslot hnew
  have hsame : (k.install slot p name).processes.current = k.processes.current := rfl
  by_cases hq : q = p.pid
  · subst hq
    rw [Function.update_self, registers?_of_ne (hsame ▸ hcur), hfind, if_pos rfl]
    rfl
  · rw [Function.update_of_ne hq]
    unfold registers?
    rw [hfind, if_neg hq]
    rfl

/-- A process came, and has the registers with which it begins at `entry` on its stack. -/
structure Begins (k k' : Kernel) (entry : UInt64) (pid : Nat) : Prop where
  fresh : k.processes.find? pid = none
  current : k'.processes.current = k.processes.current
  registers : ∃ p, k'.processes.find? pid = some p ∧ k'.registers? =
    Function.update k.registers? pid (some (.start entry (.ofNat (Process.returnSlot p.stack))))

theorem begins_enroll (hc : k.processes.Consistent) {slot : Fin maxProcesses}
    (hslot : k.processes.slots.get slot = none) (entry : UInt64) (name : String) (space : AddressSpace)
    (stack : Nat) : Outcome (enroll slot entry name space stack k)
      (fun pid k' => k.Begins k' entry pid) fun _ k' => k'.registers? = k.registers? := by
  have hnew : k.processes.find? k.processes.nextPid = none := hc.find?_nextPid
  have hcur : k.processes.current ≠ some k.processes.nextPid := by
    intro hcur
    obtain ⟨r, hr, -⟩ := hc.exists_current hcur
    rw [hnew] at hr
    cases hr
  unfold enroll
  dsimp only
  split
  · exact True.intro
  · let p := Process.build k.processes.nextPid name entry space stack
    refine Outcome.bind (P := fun _ k₁ => ∃ ready, k₁ = { k with processes :=
        { k.processes with nextPid := k.processes.nextPid + 1, ready } }) ?_ ?_
    · unfold enqueue
      split
      · exact rfl
      · exact ⟨_, rfl⟩
    · rintro _ _ ⟨ready, rfl⟩
      refine ⟨hnew, rfl, { p with state := .ready }, ?_, ?_⟩
      · exact (ProcessTable.find?_place (p := { p with state := .ready }) hslot hnew).trans (if_pos rfl)
      · exact registers_install (p := p) (k := { k with processes :=
          { k.processes with nextPid := k.processes.nextPid + 1, ready } }) hslot hnew hcur name

/-- **A new process** gets the registers with which it begins; nobody else's change. -/
theorem begins_create (hc : k.processes.Consistent) (entry : UInt64) (name : String) :
    Outcome (create entry name k) (fun pid k' => k.Begins k' entry pid)
      fun _ k' => k'.registers? = k.registers? := by
  unfold create
  split
  · exact rfl
  · next slot hslot =>
    have hnone := ProcessTable.isNone_of_freeSlot? hslot
    split
    · exact rfl
    · refine ((registers_onVm _ _ k).mono (fun _ _ h => h) ?_).bind fun space k₁ h₁ => ?_
      · exact fun _ _ h => registers?_congr h.1 h.2
      refine Outcome.bind (P := fun _ k₂ => k₂.processes = k.processes ∧ k₂.trap = k.trap)
        ((registers_buildStack space k₁).mono ?_ ?_) fun stack k₂ h₂ => ?_
      · exact fun _ _ h => ⟨h.1.trans h₁.1, h.2.trans h₁.2⟩
      · exact fun _ _ h => registers?_congr (h.1.trans h₁.1) (h.2.trans h₁.2)
      have hsame := registers?_congr h₂.1 h₂.2
      rw [← h₂.1] at hc hnone
      refine (begins_enroll hc hnone entry name space stack).mono ?_ fun _ _ h => h.trans hsame
      rintro pid k₃ ⟨hfresh, hcur, p, hp, hregisters⟩
      exact ⟨h₂.1 ▸ hfresh, hcur.trans (by rw [h₂.1]), p, hp, hsame ▸ hregisters⟩

/-- A process that is withdrawn has no registers any more. -/
theorem registers_withdraw (hcur : k.processes.current = some pid) :
    (k.withdraw pid).registers? = Function.update k.registers? pid none := by
  funext q
  have hfind : (k.withdraw pid).processes.find? q = if q = pid then none else k.processes.find? q :=
    ProcessTable.find?_erase
  have hnone : (k.withdraw pid).processes.current ≠ some q := nofun
  rw [registers?_of_ne hnone, hfind]
  by_cases hq : q = pid
  · rw [if_pos hq, hq, Function.update_self]
    rfl
  · rw [if_neg hq, Function.update_of_ne hq,
      registers?_of_ne (ProcessTable.Consistent.current_ne hcur hq)]

theorem registers_reclaim (p : Process) (k : Kernel) : Transfers (reclaim p) k := by
  refine ((registers_onVm _ _ k).mono (fun _ _ h => h) fun _ _ _ => True.intro).bind
    fun released k₁ h₁ => ?_
  refine Outcome.bind (P := fun _ k' => k'.registers? = k₁.registers?) (Outcome.onHeap ?_ ?_) ?_
  · exact fun _ _ _ => rfl
  · exact fun _ _ => True.intro
  · exact fun _ k₂ h₂ => h₂.trans (registers?_congr h₁.1 h₁.2)

/-- **An exit** takes the registers of the process that ends, and leaves everybody else's alone. -/
theorem registers_exit (pid : Nat) (code : Int32) (k : Kernel) : Outcome (exit pid code k)
    (fun _ k' => k'.registers? = Function.update k.registers? pid none) fun _ _ => True := by
  unfold exit
  split
  · exact True.intro
  · next hcur =>
    split
    · exact True.intro
    · next p _ =>
      refine (registers_reclaim _ (k.withdraw pid)).bind fun released k₁ h₁ => ?_
      have hsaid : Outcome ((modify (·.reportExit p code released) : Op ProcessError Unit) k₁)
          (fun _ k' => k'.registers? = k₁.registers?) fun _ _ => True := by exact rfl
      refine hsaid.bind fun _ k₂ h₂ => ?_
      refine (registers_schedule k₂).mono (fun _ _ h => ?_) fun _ _ h => h
      calc _ = k₂.registers? := h
        _ = k₁.registers? := h₂
        _ = (k.withdraw pid).registers? := h₁
        _ = Function.update k.registers? pid none := registers_withdraw (not_not.mp hcur)

/-! ## 4. Requests -/

/-- What serving a request does to the registers. -/
inductive Answers (k k' : Kernel) : Prop where
  /-- The caller finds a result, and goes on. -/
  | left (result : UInt64) (processes : k'.processes = k.processes)
      (trap : k'.trap = { k.trap with rax := result })
  /-- Somebody else may run, and the caller will find that all is well. -/
  | yielded (rax : k.trap.rax = Syscall.yield.number)
      (registers : k'.registers? = (k.leave 0).registers?)
  /-- The caller is gone. -/
  | exited (pid : Nat) (current : k.processes.current = some pid)
      (registers : k'.registers? = Function.update k.registers? pid none)

theorem answers_exitCurrent (h : k.InOrder base) (code : Int32) : Outcome (exitCurrent code k)
    (fun _ k' => k.Answers k') fun _ k' => k'.processes = k.processes ∧ k'.trap = k.trap := by
  rcases exitCurrent_cases h code with ⟨-, he⟩ | ⟨pid, text, k', hcur, hexit, hok, -⟩
  · exact .of_refused he ⟨rfl, rfl⟩
  · have hregisters := (registers_exit pid code (k.report .debug .handlers text)).of_eq_ok hexit
    exact .of_ok hok (.exited pid hcur hregisters)

/-- **A request** changes the registers of the process that made it. -/
theorem answers_serve (h : k.InOrder base) : Outcome (serve (.ofContext k.trap) k)
    (fun _ k' => k.Answers k') fun _ k' => k'.processes = k.processes ∧ k'.trap = k.trap := by
  unfold serve
  cases hcall : Syscall.ofNumber? (SyscallRequest.ofContext k.trap).number with
  | none => exact ⟨rfl, rfl⟩
  | some call =>
    cases call with
    | hello => exact .left 0 rfl rfl
    | write =>
      exact outcome_write _ _ (fun _ => ⟨rfl, rfl⟩) fun _ result => .left result rfl rfl
    | getpid => exact .left _ rfl rfl
    | yield =>
      have hleft : k.Quiet (k.leave 0) := ⟨rfl, rfl, rfl⟩
      obtain ⟨k', hok, -⟩ := (h.quiet hleft).settled.exists_schedule
      have hregisters := (registers_schedule (k.leave 0)).of_eq_ok hok
      exact .of_ok (onProcesses_of_ok hok) (.yielded (Syscall.eq_number hcall) hregisters)
    | exit => exact answers_exitCurrent h _

theorem answers_syscall (h : k.InOrder base) (hok : syscall k = .ok () k') : k.Answers k' := by
  rcases syscall_cases hok with hdone | ⟨e, k₁, text, hrefused, rfl⟩
  · exact (answers_serve h).of_eq_ok hdone
  · obtain ⟨hprocesses, htrap⟩ := (answers_serve h).of_eq_refused hrefused
    exact .left (.ofInt e.status) hprocesses (congrArg ({ · with rax := .ofInt e.status }) htrap)

/-! ## 5. Every call -/

/-- **What a call leaves to whom.**  Whoever does not run keeps its registers.  Whoever runs and is
there afterwards keeps them too, up to the answer to its request. -/
structure Hands (call : KernelCall) (k k' : Kernel) : Prop where
  others : ∀ {pid c}, k.processes.current ≠ some pid → k.registers? pid = some c →
    k'.registers? pid = some c
  caller : ∀ {pid p}, k.processes.current = some pid → k'.processes.find? pid = some p →
    (k'.registers? pid = some (call.parting k.trap) ∧
        (call = .syscall → k.trap.rax = Syscall.yield.number)) ∨
      call = .syscall ∧ k'.processes.current = some pid ∧
        ∃ result, k'.trap = { k.trap with rax := result }

theorem Hands.of_eq {call : KernelCall} (hs : k.Settled) (hcall : call ≠ .syscall)
    (hregisters : k'.registers? = k.registers?) : Hands call k k' := by
  constructor
  · intro pid c _ h
    rw [hregisters]
    exact h
  · intro pid p hcur _
    obtain ⟨r, hr, -⟩ := hs.consistent.exists_current hcur
    refine Or.inl ⟨?_, fun h => absurd h hcall⟩
    rw [hregisters, registers?_of_current hcur hr, call.parting_of_ne hcall]

theorem Begins.registers?_of_find? {entry : UInt64} {q : Nat} (hb : k.Begins k' entry pid)
    (hq : k.processes.find? q = some p) : k'.registers? q = k.registers? q := by
  obtain ⟨hfresh, -, r, -, hregisters⟩ := hb
  have hne : q ≠ pid := by
    rintro rfl
    rw [hfresh] at hq
    cases hq
  rw [hregisters, Function.update_of_ne hne]

theorem Hands.of_begins {call : KernelCall} {entry : UInt64} (hs : k.Settled) (hcall : call ≠ .syscall)
    (hb : k.Begins k' entry pid) : Hands call k k' := by
  constructor
  · intro q c _ h
    obtain ⟨p, hp⟩ := find?_of_registers? h
    rw [hb.registers?_of_find? hp]
    exact h
  · intro q p hcur _
    obtain ⟨r, hr, -⟩ := hs.consistent.exists_current hcur
    refine Or.inl ⟨?_, fun h => absurd h hcall⟩
    rw [hb.registers?_of_find? hr, registers?_of_current hcur hr, call.parting_of_ne hcall]

theorem Hands.of_answers (hs : k.Settled) (ha : k.Answers k') : Hands .syscall k k' := by
  cases ha with
  | left result hprocesses htrap =>
    constructor
    · intro pid c hcur h
      rw [registers?_congr_of_ne hprocesses hcur]
      exact h
    · intro pid p hcur _
      exact Or.inr ⟨rfl, by rw [hprocesses]; exact hcur, result, htrap⟩
  | yielded hrax hregisters =>
    have hleft : (k.leave 0).processes = k.processes := rfl
    constructor
    · intro pid c hcur h
      rw [hregisters, registers?_congr_of_ne hleft hcur]
      exact h
    · intro pid p hcur _
      obtain ⟨r, hr, -⟩ := hs.consistent.exists_current hcur
      refine Or.inl ⟨?_, fun _ => hrax⟩
      rw [hregisters, registers?_of_current (k := k.leave 0) hcur hr]
      rfl
  | exited pid hcur hregisters =>
    constructor
    · intro q c hq h
      have hne : q ≠ pid := by
        rintro rfl
        exact hq hcur
      rw [hregisters, Function.update_of_ne hne]
      exact h
    · intro q p hq hp
      -- The process that ended is not there any more.
      obtain rfl : pid = q := Option.some.inj (hcur.symm.trans hq)
      have hgone : k'.registers? pid = none := by rw [hregisters, Function.update_self]
      unfold registers? at hgone
      rw [hp] at hgone
      cases hgone

/-- **Every call** hands the registers on. -/
theorem hands_of_leads {call : KernelCall} (h : k.InOrder base) (hl : call.Leads k k') :
    Hands call k k' := by
  have hs := h.settled
  have hsame : ∀ {call}, call ≠ .syscall → Hands call k k := fun hcall => .of_eq hs hcall rfl
  cases call with
  | spawn entry name =>
    refine of_leads hl (Outcome.bind (outcome_onProcesses
      ((begins_create hs.consistent entry name).mono (fun _ _ h => h) ?_)) fun pid k' hb => ?_)
    · exact fun _ k' hregisters => .of_eq hs nofun hregisters
    · exact Hands.of_begins hs nofun hb
  | timerTick => exact .of_eq hs nofun ((registers_countTick k).of_eq_ok (countTick_of_leads hs hl))
  | syscall => exact .of_answers hs (answers_syscall h (eq_of_ofHaltOp hl))
  | block =>
    refine of_leads hl (outcome_onProcesses ?_)
    rcases block_cases hs with ⟨-, he⟩ | ⟨k', hok, -⟩
    · exact .of_refused he (hsame nofun)
    · exact .of_ok hok (.of_eq hs nofun ((registers_block k).of_eq_ok hok))
  | unblock pid =>
    refine of_leads hl (outcome_onProcesses ?_)
    rcases unblock_cases hs pid with ⟨-, he⟩ | ⟨-, -, -, he⟩ | ⟨k', hok, -⟩
    · exact .of_refused he (hsame nofun)
    · exact .of_refused he (hsame nofun)
    · exact .of_ok hok (.of_eq hs nofun ((registers_unblock pid k).of_eq_ok hok))
  | mapRegion start length =>
    have hkept : ∀ {k'}, k'.processes = k.processes ∧ k'.trap = k.trap →
        Hands (.mapRegion start length) k k' := fun h => .of_eq hs nofun (registers?_congr h.1 h.2)
    refine of_leads hl (((registers_onVm _ _ k).mono (fun _ _ h => h) ?_).bind fun _ k' h => ?_)
    · exact fun _ _ h => hkept h
    · exact hkept h

/-! ## 6. Every course -/

/-- **Switches are transparent.**
* Whoever stays on the processor finds its registers as they were, except for the answer to its own
  request.
* Whoever gives the processor up, to be preempted, to yield or to block, and gets it back later finds
  the registers with which it parted, whatever happened meanwhile.
* Whoever runs for the first time begins at its entry on its own stack. -/
structure Transparent (k : Kernel) : Prop where
  stays : ∀ {call k' pid}, KernelCall.Leads call k k' → k.processes.current = some pid →
    k'.processes.current = some pid →
      k'.trap = k.trap ∨ call = .syscall ∧ ∃ result, k'.trap = { k.trap with rax := result }
  resumes : ∀ {call k₁ pid p k₂ call' k₃}, KernelCall.Leads call k k₁ →
    k.processes.current = some pid → k₁.processes.current ≠ some pid →
      k₁.processes.find? pid = some p → Course (fun l => l.processes.current ≠ some pid) k₁ k₂ →
        KernelCall.Leads call' k₂ k₃ → k₃.processes.current = some pid →
          k₃.trap = call.parting k.trap ∧ (call = .syscall → k.trap.rax = Syscall.yield.number)
  begins : ∀ {entry name pid k₁ k₂ call' k₃}, spawn entry name k = .ok pid k₁ →
    Course (fun l => l.processes.current ≠ some pid) k₁ k₂ →
      KernelCall.Leads call' k₂ k₃ → k₃.processes.current = some pid →
        ∃ p, k₁.processes.find? pid = some p ∧
          k₃.trap = .start entry (.ofNat (Process.returnSlot p.stack))

/-- Whoever runs has its registers in the trap frame. -/
theorem trap_of_registers? {c : Context} (hcur : k.processes.current = some pid)
    (h : k.registers? pid = some c) : k.trap = c := by
  obtain ⟨p, hp⟩ := find?_of_registers? h
  rw [registers?_of_current hcur hp] at h
  exact Option.some.inj h

/-- Registers that a process left are there until it runs. -/
theorem registers_of_course {c : Context} (h₀ : k.InOrder base)
    (hcur : k.processes.current ≠ some pid) (hregisters : k.registers? pid = some c)
    (hc : Course (fun l => l.processes.current ≠ some pid) k k') :
    k'.processes.current ≠ some pid ∧ k'.registers? pid = some c := by
  induction hc with
  | start => exact ⟨hcur, hregisters⟩
  | meanwhile _ hm ih =>
    refine ⟨hm.processes ▸ ih.1, ?_⟩
    rw [registers?_congr_of_ne hm.processes ih.1]
    exact ih.2
  | step hc hl hne ih => exact ⟨hne, (hands_of_leads (inOrder_of_course h₀ hc) hl).others ih.1 ih.2⟩

/-- The registers that a process left are those with which it runs again. -/
theorem trap_of_course {c : Context} {call : KernelCall} (h₀ : k.InOrder base)
    (hcur : k.processes.current ≠ some pid) (hregisters : k.registers? pid = some c)
    (hc : Course (fun l => l.processes.current ≠ some pid) k k') (hl : call.Leads k' k'')
    (hagain : k''.processes.current = some pid) : k''.trap = c := by
  obtain ⟨hne, hkept⟩ := registers_of_course h₀ hcur hregisters hc
  exact trap_of_registers? hagain ((hands_of_leads (inOrder_of_course h₀ hc) hl).others hne hkept)

theorem InOrder.transparent (h : k.InOrder base) : k.Transparent := by
  refine ⟨?_, ?_, ?_⟩
  · intro call k' pid hl hcur hstays
    obtain ⟨p, hp, -⟩ := (h.leads hl).settled.consistent.exists_current hstays
    rcases (hands_of_leads h hl).caller hcur hp with ⟨hregisters, -⟩ | ⟨hcall, -, hresult⟩
    · have htrap := trap_of_registers? hstays hregisters
      by_cases hcall : call = .syscall
      · subst hcall
        exact Or.inr ⟨rfl, 0, htrap⟩
      · rw [call.parting_of_ne hcall] at htrap
        exact Or.inl htrap
    · exact Or.inr ⟨hcall, hresult⟩
  · intro call k₁ pid p k₂ call' k₃ hl hcur hleft hp hc hl' hagain
    rcases (hands_of_leads h hl).caller hcur hp with ⟨hregisters, hrax⟩ | ⟨-, hstays, -⟩
    · exact ⟨trap_of_course (h.leads hl) hleft hregisters hc hl' hagain, hrax⟩
    · exact absurd hstays hleft
  · intro entry name pid k₁ k₂ call' k₃ hspawn hc hl' hagain
    have hb := (outcome_onProcesses (begins_create h.settled.consistent entry name)).of_eq_ok hspawn
    have h₁ : k₁.InOrder base := (inOrder_spawn h entry name).of_eq_ok hspawn
    have hne : k₁.processes.current ≠ some pid := by
      rw [hb.current]
      intro hcur
      obtain ⟨r, hr, -⟩ := h.settled.consistent.exists_current hcur
      rw [hb.fresh] at hr
      cases hr
    obtain ⟨p, hp, hregisters⟩ := hb.registers
    refine ⟨p, hp, trap_of_course h₁ hne ?_ hc hl' hagain⟩
    rw [hregisters, Function.update_self]

/-- **Switches are transparent on every course of the kernel.** -/
theorem transparent_of_proceeds {map : MemoryMap} {bootRoot : Option Nat} {k₀ : Kernel}
    (hb : Booted map bootRoot k₀) (hc : Proceeds k₀ k) : k.Transparent :=
  (inOrder_of_course hb.inOrder.2 hc).transparent

/-- A process that blocks while nobody waits, and is unblocked then, runs again with the next tick. -/
theorem exists_return (h : k.InOrder base) (hcur : k.processes.current = some pid)
    (hline : k.processes.ready.pids = []) (hu : k.processes.uptime + 1 < 2 ^ 64) :
    ∃ k₁ p k₂ k₃, KernelCall.block.Leads k k₁ ∧ k₁.processes.current ≠ some pid ∧
      k₁.processes.find? pid = some p ∧ Course (fun l => l.processes.current ≠ some pid) k₁ k₂ ∧
        KernelCall.timerTick.Leads k₂ k₃ ∧ k₃.processes.current = some pid := by
  obtain ⟨p, hp, -⟩ := h.settled.consistent.exists_current hcur
  let f : Process → Process := ({ · with context := k.trap, state := .blocked })
  let waiting := (k.suspend pid .blocked).report .debug .process
    ("Process " ++ toString pid ++ " blocked")
  have hblock : block k = .ok () waiting.goIdle := by
    have hempty : waiting.processes.ready.isEmpty = true :=
      (ReadyQueue.isEmpty_eq_true_iff _).mpr hline
    unfold block
    rw [hcur]
    simp only [hp, Option.isNone_some, Bool.false_eq_true, if_false]
    unfold schedule
    exact if_pos hempty
  have hleads : KernelCall.block.Leads k waiting.goIdle := Or.inl (onProcesses_of_ok hblock)
  have h₁ := h.leads hleads
  have hfind : waiting.goIdle.processes.find? pid = some (f p) :=
    ProcessTable.find?_modify_self (f := f) (fun _ => rfl) hp
  have hnone : waiting.goIdle.processes.current ≠ some pid := nofun
  have hempty : waiting.goIdle.processes.ready.pids = [] := hline
  obtain ⟨ready, hpush, hready⟩ := ProcessTable.Consistent.exists_push
    (t := waiting.goIdle.processes) (by rw [hempty]; decide) pid
  obtain ⟨k₂, hunblock, hcur₂, hline₂, huptime₂⟩ : ∃ k₂, unblock pid waiting.goIdle = .ok () k₂ ∧
      k₂.processes.current = none ∧ k₂.processes.ready = ready ∧
        k₂.processes.uptime = k.processes.uptime := by
    unfold unblock
    rw [hfind]
    exact ⟨_, enqueue_eq hpush, rfl, rfl, rfl⟩
  have hleads₂ : (KernelCall.unblock pid).Leads waiting.goIdle k₂ := Or.inl (onProcesses_of_ok hunblock)
  rw [hempty, ← hline₂] at hready
  obtain ⟨k₃, htick, hcur₃, -⟩ := exists_countTick_of_idle (h₁.leads hleads₂).settled.consistent hcur₂
    hready (by rw [huptime₂]; exact hu)
  refine ⟨_, f p, k₂, k₃, hleads, hnone, hfind, Course.start.step hleads₂ ?_,
    Or.inl (ofHaltOp_of_ok (timerTick_of_countTick htick)), hcur₃⟩
  rw [hcur₂]
  exact nofun

/-- On a machine of six frames a process runs, whose code changes two registers; it blocks, the idle
context runs, and when it runs again both are as they were. -/
theorem transparent_sixFrames : ∃ k₀ k, (Booted World.sixFrames none k₀ ∧ Proceeds k₀ k) ∧
    k.Transparent ∧ k.processes.current = some 1 ∧ k.trap = { rbx := 5, rip := 0x1234 } ∧
      ∃ k₁ k₂ k₃, KernelCall.block.Leads k k₁ ∧ k₁.processes.current ≠ some 1 ∧ Proceeds k₁ k₂ ∧
        KernelCall.timerTick.Leads k₂ k₃ ∧ k₃.processes.current = some 1 ∧
          k₃.trap = { rbx := 5, rip := 0x1234 } := by
  obtain ⟨k₀, k, hb, hc, hcur, hline, huptime⟩ := exists_running
  let touched : Kernel := { k with trap := { rbx := 5, rip := 0x1234 } }
  have hc' : Proceeds k₀ touched := hc.meanwhile (k.meddles_trap _)
  have h := inOrder_of_course hb.inOrder.2 hc'
  have ht := transparent_of_proceeds hb hc'
  obtain ⟨k₁, p, k₂, k₃, hl, hleft, hp, hwait, htick, hagain⟩ :=
    exists_return h hcur hline (show k.processes.uptime + 1 < 2 ^ 64 by rw [huptime]; decide)
  refine ⟨k₀, touched, ⟨hb, hc'⟩, ht, hcur, rfl, k₁, k₂, k₃, hl, hleft, hwait.mono fun _ _ => True.intro,
    htick, hagain, ?_⟩
  exact (ht.resumes hl hcur hleft hp hwait htick hagain).1

end Kernel

end KernelCore
