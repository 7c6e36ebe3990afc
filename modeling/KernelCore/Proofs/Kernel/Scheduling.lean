/-
# The scheduler keeps its records

The kernel's operations on processes keep the process table consistent (`ProcessTable.Consistent`)
and keep the right address space loaded.  `Kernel.Settled` says both of a kernel between two
operations; within an operation, while the processor changes hands, only the first half holds.

* `exists_schedule`: picking the next process always succeeds, and settles the kernel;
* `countTick_cases`, `block_cases`, `unblock_cases`: so do a timer tick, blocking and unblocking;
* `settled_create`, `settled_exit`: a process comes or goes, or the attempt is refused, and the kernel
  is settled either way.

What all operations leave alone is `Kernel.Follows`: the kernel's root table, the numbers that have
been given out, and that a root table is loaded if one was.  Those that only hand the processor on
leave alone everything that anybody owns, too (`Kernel.Reschedules`).
-/
import KernelCore.Kernel.Lifecycle
import KernelCore.Proofs.Outcome
import KernelCore.Proofs.Process.Holdings
import Mathlib.Algebra.Group.Nat.Defs

namespace KernelCore

/-! ## 1. What virtual memory leaves alone -/

namespace Vm

/-- The kernel's space and what is loaded are the same. -/
def SameSpaces (vm vm' : Vm) : Prop := vm'.kernel = vm.kernel ∧ vm'.activeRoot = vm.activeRoot

/-- The operation changes nothing but physical memory. -/
def Still {α : Type} (op : Op α) : Prop :=
  ∀ vm, Outcome (op vm) (fun _ vm' => vm.SameSpaces vm') fun _ vm' => vm.SameSpaces vm'

theorem still_createSpace : Still createSpace := by
  intro vm
  unfold createSpace
  split
  · exact ⟨rfl, rfl⟩
  · exact ⟨rfl, rfl⟩

theorem still_takeFrame : Still takeFrame := by
  intro vm
  unfold takeFrame
  split
  · exact ⟨rfl, rfl⟩
  · exact ⟨rfl, rfl⟩

theorem still_giveFrame (frame : Nat) : Still (giveFrame frame) := by
  intro vm
  unfold giveFrame
  split
  · exact ⟨rfl, rfl⟩
  · exact ⟨rfl, rfl⟩

theorem still_destroySpace (space : AddressSpace) : Still (destroySpace space) := by
  intro vm
  unfold destroySpace
  split
  · exact ⟨rfl, rfl⟩
  · dsimp only
    split
    · exact ⟨rfl, rfl⟩
    · exact ⟨rfl, rfl⟩

/-- Two operations that change nothing but physical memory do so in sequence. -/
theorem Still.bind {α β : Type} {op : Op α} {f : α → Op β} (h : Still op) (hf : ∀ a, Still (f a)) :
    Still (op >>= f) := by
  intro vm
  refine (h vm).bind fun a vm' hvm => (hf a vm').mono ?_ ?_
  · exact fun _ _ h => ⟨h.1.trans hvm.1, h.2.trans hvm.2⟩
  · exact fun _ _ h => ⟨h.1.trans hvm.1, h.2.trans hvm.2⟩

theorem still_refuse {α : Type} (e : PagingError) : Still (refuse e : Op α) :=
  fun _ => ⟨rfl, rfl⟩

/-- An operation of the mapper on a space of the caller changes nothing else but physical memory. -/
theorem sameSpaces_onSpace {α : Type} (op : Mapper α) (vm : Vm) (space : AddressSpace) :
    Outcome (onSpace op (vm, space)) (fun _ s => vm.SameSpaces s.1) fun _ s => vm.SameSpaces s.1 := by
  refine Outcome.onSpace ?_
  match op (vm.ram, space) with
  | .ok _ _ => exact ⟨rfl, rfl⟩
  | .error (.refused _) _ => exact ⟨rfl, rfl⟩
  | .error (.halted _) _ => exact True.intro

theorem sameSpaces_besideSpace {α : Type} {op : Op α} (h : Still op) {vm vm' : Vm}
    (hvm : vm.SameSpaces vm') (space : AddressSpace) :
    Outcome (onVm op (vm', space)) (fun _ s => vm.SameSpaces s.1) fun _ s => vm.SameSpaces s.1 := by
  refine Outcome.besideSpace ((h vm').mono ?_ ?_)
  · exact fun _ _ h => ⟨h.1.trans hvm.1, h.2.trans hvm.2⟩
  · exact fun _ _ h => ⟨h.1.trans hvm.1, h.2.trans hvm.2⟩

theorem sameSpaces_mapUserPage (page : Page) (frame : Nat) (vm : Vm) (space : AddressSpace) :
    Outcome (mapUserPage page frame (vm, space)) (fun _ s => vm.SameSpaces s.1)
      fun _ s => vm.SameSpaces s.1 := by
  have hmap := sameSpaces_onSpace (Mapper.map page frame .userData) vm space
  unfold mapUserPage
  unfold map
  match onSpace (Mapper.map page frame .userData) (vm, space), hmap with
  | .ok _ s, h => exact h
  | .error (.refused e) (vm', space'), h =>
    refine (sameSpaces_besideSpace (still_giveFrame frame) h space').bind ?_
    exact fun _ s hs => sameSpaces_besideSpace (still_refuse e) hs s.2
  | .error (.halted _) _, _ => exact True.intro

theorem still_furnish (page : Page) (space : AddressSpace) : Still (furnish page space) := by
  intro vm
  have hmap : Outcome ((onVm takeFrame >>= mapUserPage page) (vm, space))
      (fun _ s => vm.SameSpaces s.1) fun _ s => vm.SameSpaces s.1 := by
    refine (sameSpaces_besideSpace still_takeFrame ⟨rfl, rfl⟩ space).bind fun frame s hs => ?_
    refine (sameSpaces_mapUserPage page frame s.1 s.2).mono ?_ ?_
    · exact fun _ _ h => ⟨h.1.trans hs.1, h.2.trans hs.2⟩
    · exact fun _ _ h => ⟨h.1.trans hs.1, h.2.trans hs.2⟩
  unfold furnish
  match (onVm takeFrame >>= mapUserPage page) (vm, space), hmap with
  | .ok _ (vm', space'), h => exact h
  | .error (.refused e) (vm', space'), h =>
    have hback := (still_destroySpace space').bind fun _ => still_refuse (α := AddressSpace) e
    refine (hback vm').mono ?_ ?_
    · exact fun _ _ h' => ⟨h'.1.trans h.1, h'.2.trans h.2⟩
    · exact fun _ _ h' => ⟨h'.1.trans h.1, h'.2.trans h.2⟩
  | .error (.halted _) _, _ => exact True.intro

theorem still_createSpaceWith (page : Page) : Still (createSpaceWith page) :=
  still_createSpace.bind fun space => still_furnish page space

end Vm

/-! ## 2. Settled kernels -/

namespace Kernel

variable {k k' k'' : Kernel} {p : Process} {pid : Nat}

/-- **A kernel between two operations.**  Its process table is consistent, the running process has
some of its turn left, and its space is loaded; if nobody runs, the kernel's own space is loaded, or
none was yet. -/
structure Settled (k : Kernel) : Prop where
  consistent : k.processes.Consistent
  quantum : ∀ {pid p}, k.processes.current = some pid → k.processes.find? pid = some p →
    1 ≤ p.quantum ∧ p.quantum ≤ quantumTicks
  loaded : ∀ {pid p}, k.processes.current = some pid → k.processes.find? pid = some p →
    k.vm.activeRoot = some p.space.root
  idle : k.processes.current = none →
    k.vm.activeRoot = none ∨ k.vm.activeRoot = some k.vm.kernel.root

/-- What no operation takes back: the kernel's root table, the numbers that have been given out, and
that a root table is loaded. -/
structure Follows (k k' : Kernel) : Prop where
  root : k'.vm.kernel.root = k.vm.kernel.root
  nextPid : k.processes.nextPid = k'.processes.nextPid
  loaded : k'.vm.activeRoot = none → k.vm.activeRoot = none

theorem Follows.refl (k : Kernel) : k.Follows k := ⟨rfl, rfl, id⟩

theorem Follows.trans (h : k.Follows k') (h' : k'.Follows k'') : k.Follows k'' :=
  ⟨h'.root.trans h.root, h.nextPid.trans h'.nextPid, fun hn => h.loaded (h'.loaded hn)⟩

/-- What handing the processor on leaves alone: physical memory, the kernel's space, the heap, and
what the processes have. -/
structure Reschedules (k k' : Kernel) : Prop where
  ram : k'.vm.ram = k.vm.ram
  kernel : k'.vm.kernel = k.vm.kernel
  heap : k'.heap = k.heap
  holdings : k'.processes.holdings = k.processes.holdings
  nextPid : k.processes.nextPid = k'.processes.nextPid
  loaded : k'.vm.activeRoot = none → k.vm.activeRoot = none

theorem Reschedules.follows (h : k.Reschedules k') : k.Follows k' :=
  ⟨by rw [h.kernel], h.nextPid, h.loaded⟩

theorem Reschedules.trans (h : k.Reschedules k') (h' : k'.Reschedules k'') : k.Reschedules k'' :=
  ⟨h'.ram.trans h.ram, h'.kernel.trans h.kernel, h'.heap.trans h.heap,
    h'.holdings.trans h.holdings, h.nextPid.trans h'.nextPid, fun hn => h.loaded (h'.loaded hn)⟩

/-- A kernel in which a process runs is settled if it is right about that process. -/
theorem Settled.of_current (hc : k.processes.Consistent) (hcur : k.processes.current = some pid)
    (hp : k.processes.find? pid = some p) (hquantum : 1 ≤ p.quantum ∧ p.quantum ≤ quantumTicks)
    (hloaded : k.vm.activeRoot = some p.space.root) : k.Settled := by
  refine ⟨hc, ?_, ?_, ?_⟩
  · intro q r hq hr
    rw [hcur] at hq
    cases hq
    rw [hp] at hr
    cases hr
    exact hquantum
  · intro q r hq hr
    rw [hcur] at hq
    cases hq
    rw [hp] at hr
    cases hr
    exact hloaded
  · intro h
    rw [hcur] at h
    cases h

/-- A kernel in which nobody runs is settled if its own space is loaded, or none. -/
theorem Settled.of_idle (hc : k.processes.Consistent) (hcur : k.processes.current = none)
    (hroot : k.vm.activeRoot = none ∨ k.vm.activeRoot = some k.vm.kernel.root) : k.Settled := by
  refine ⟨hc, ?_, ?_, fun _ => hroot⟩
  · intro q r hq
    rw [hcur] at hq
    cases hq
  · intro q r hq
    rw [hcur] at hq
    cases hq

/-- A change that leaves alone who runs, that process and what is loaded keeps a kernel settled. -/
theorem Settled.congr (hs : k.Settled) (hc : k'.processes.Consistent)
    (hcur : k'.processes.current = k.processes.current)
    (hfind : ∀ q, k.processes.current = some q → k'.processes.find? q = k.processes.find? q)
    (hroot : k'.vm.kernel.root = k.vm.kernel.root) (hactive : k'.vm.activeRoot = k.vm.activeRoot) :
    k'.Settled := by
  refine ⟨hc, ?_, ?_, ?_⟩
  · intro q r hq hr
    rw [hcur] at hq
    exact hs.quantum hq (hfind q hq ▸ hr)
  · intro q r hq hr
    rw [hcur] at hq
    rw [hactive]
    exact hs.loaded hq (hfind q hq ▸ hr)
  · intro h
    rw [hroot, hactive]
    exact hs.idle (hcur ▸ h)

/-- The trap frame is not the scheduler's. -/
theorem Settled.trap (hs : k.Settled) (frame : Context) : { k with trap := frame }.Settled :=
  ⟨hs.consistent, hs.quantum, hs.loaded, hs.idle⟩

/-! ## 3. Switching -/

/-- Putting a process in line, when there is room. -/
theorem enqueue_eq {ready : ReadyQueue} (h : k.processes.ready.push pid = .ok ready) :
    enqueue pid k = .ok () (k.mapProcesses ({ · with ready })) := by
  unfold enqueue
  rw [h]

/-- Whoever runs is put in line behind the others, and nobody runs. -/
theorem exists_preempt (hc : k.processes.Consistent) : ∃ k', preempt k = .ok () k' ∧
    k'.processes.Consistent ∧ k'.processes.current = none ∧ k.Reschedules k' ∧
      k'.processes.ready.pids = k.processes.ready.pids ++ k.processes.current.toList ∧
        k'.processes.uptime = k.processes.uptime := by
  unfold preempt
  cases hcur : k.processes.current with
  | none => exact ⟨k, rfl, hc, hcur, ⟨rfl, rfl, rfl, rfl, rfl, id⟩, (List.append_nil _).symm, rfl⟩
  | some pid =>
    obtain ⟨p, hp, hrun⟩ := hc.exists_current hcur
    have hne : p.state ≠ .ready := by simp [hrun]
    let g : Process → Process := ({ · with context := k.trap, state := .ready })
    obtain ⟨ready, hpush, hready⟩ :=
      ProcessTable.Consistent.exists_push (hc.length_ready_lt hp hne) pid
    have henqueue := enqueue_eq (k := k.suspend pid .ready) hpush
    simp only [hp, Option.isNone_some, Bool.false_eq_true, if_false]
    refine ⟨_, henqueue, ?_, rfl, ⟨rfl, rfl, rfl, ?_, rfl, id⟩, hready, rfl⟩
    · refine hc.push none (f := g) hp hne (fun _ => rfl) rfl rfl hready ?_ (by simp)
      intro q hq
      simp [ProcessTable.Consistent.current_ne hcur hq]
    · exact ProcessTable.holdings_modify (f := g) (fun _ => rfl) _ pid

theorem one_le_quantumTicks : 1 ≤ quantumTicks := by decide

/-- What handing the processor to the process in front of the line does. -/
theorem exists_dispatch_eq (hc : k.processes.Consistent) {rest : List Nat}
    (hline : k.processes.ready.pids = pid :: rest) : ∃ p ready, k.processes.find? pid = some p ∧
      p.pid = pid ∧ ready.pids = rest ∧
        dispatch k = .ok () (((k.mapProcesses ({ · with ready })).resume p).report .trace .scheduler
          ("Switched to process " ++ toString pid)) := by
  obtain ⟨p, hp, hstate⟩ := (hc.waits_iff pid).mp (by rw [hline]; exact List.mem_cons_self)
  obtain ⟨ready, hpop, hrest⟩ : ∃ ready, k.processes.ready.pop? = some (pid, ready) ∧
      ready.pids = rest := by
    cases hpop : k.processes.ready.pop? with
    | none =>
      rw [(ReadyQueue.pop?_eq_none_iff _).mp hpop] at hline
      cases hline
    | some r =>
      have hready := (ReadyQueue.pop?_eq_some_iff _ _ _).mp hpop
      rw [hline] at hready
      cases hready
      exact ⟨r.2, rfl, rfl⟩
  refine ⟨p, ready, hp, ProcessTable.pid_of_find? hp, hrest, ?_⟩
  unfold dispatch
  rw [hpop]
  show dispatchTo pid (k.mapProcesses ({ · with ready })) = _
  unfold dispatchTo
  rw [show (k.mapProcesses ({ · with ready })).processes.find? pid = some p from hp]
  simp only
  rw [if_neg (by simp [hstate])]

/-- The process in front of the line gets the processor, and the kernel is settled. -/
theorem exists_dispatch (hc : k.processes.Consistent) (hnone : k.processes.current = none)
    (hline : k.processes.ready.pids ≠ []) :
    ∃ k', dispatch k = .ok () k' ∧ k'.Settled ∧ k.Reschedules k' := by
  obtain ⟨pid, rest, hline⟩ := List.exists_cons_of_ne_nil hline
  obtain ⟨p, ready, hp, rfl, hrest, hdispatch⟩ := exists_dispatch_eq hc hline
  let g : Process → Process := ({ · with state := .running, quantum := quantumTicks })
  refine ⟨_, hdispatch, Settled.of_current (p := g p) ?_ rfl ?_ ⟨one_le_quantumTicks, Nat.le_refl _⟩
    rfl, rfl, rfl, rfl, ?_, rfl, fun h => by cases h⟩
  · exact hc.dispatch (f := g) hnone (hrest ▸ hline) hp (fun _ => rfl) rfl rfl
  · exact ProcessTable.find?_modify_self (f := g) (fun _ => rfl) hp
  · exact ProcessTable.holdings_modify (f := g) (fun _ => rfl) _ p.pid

/-- What a fresh turn for a process does. -/
theorem renewQuantum_eq (hp : k.processes.find? pid = some p) : renewQuantum pid k =
    .ok () (k.mapProcesses (·.modify pid ({ · with quantum := quantumTicks }))) := by
  unfold renewQuantum
  rw [hp]
  rfl

/-- The running process may go on: it gets a fresh turn. -/
theorem exists_renewQuantum (hc : k.processes.Consistent) (hcur : k.processes.current = some pid)
    (hp : k.processes.find? pid = some p) (hloaded : k.vm.activeRoot = some p.space.root) :
    ∃ k', renewQuantum pid k = .ok () k' ∧ k'.Settled ∧ k.Reschedules k' := by
  let g : Process → Process := ({ · with quantum := quantumTicks })
  refine ⟨_, renewQuantum_eq hp, Settled.of_current (p := g p) ?_ hcur ?_ ⟨one_le_quantumTicks, Nat.le_refl _⟩
    hloaded, rfl, rfl, rfl, ?_, rfl, id⟩
  · have hticks : p.ticks ≤ k.processes.uptime := hc.ticks_le hp
    exact hc.modify_of_state_eq (f := g) hp (fun _ => rfl) rfl hticks (Nat.le_refl _)
  · exact ProcessTable.find?_modify_self (f := g) (fun _ => rfl) hp
  · exact ProcessTable.holdings_modify (f := g) (fun _ => rfl) _ pid

/-- **Picking the next process always succeeds**, if the space of the process that runs is loaded. -/
theorem exists_schedule (hc : k.processes.Consistent)
    (hloaded : ∀ {pid p}, k.processes.current = some pid → k.processes.find? pid = some p →
      k.vm.activeRoot = some p.space.root) :
    ∃ k', schedule k = .ok () k' ∧ k'.Settled ∧ k.Reschedules k' := by
  unfold schedule
  split
  · cases hcur : k.processes.current with
    | some pid =>
      obtain ⟨p, hp, -⟩ := hc.exists_current hcur
      exact exists_renewQuantum hc hcur hp (hloaded hcur hp)
    | none =>
      exact ⟨_, rfl, Settled.of_idle hc hcur (Or.inr rfl), rfl, rfl, rfl, rfl, rfl,
        fun h => by cases h⟩
  · next hline =>
    have hline : k.processes.ready.pids ≠ [] := by
      simpa [ReadyQueue.isEmpty_eq_true_iff] using hline
    obtain ⟨k₁, hpre, hc₁, hnone, hr₁, hline₁, -⟩ := exists_preempt hc
    have hline₁ : k₁.processes.ready.pids ≠ [] := by
      rw [hline₁]
      exact List.append_ne_nil_of_left_ne_nil hline _
    obtain ⟨k₂, hdis, hs₂, hr₂⟩ := exists_dispatch hc₁ hnone hline₁
    exact ⟨k₂, (bind_of_ok hpre).trans hdis, hs₂, hr₁.trans hr₂⟩

theorem Settled.exists_schedule (hs : k.Settled) :
    ∃ k', schedule k = .ok () k' ∧ k'.Settled ∧ k.Reschedules k' :=
  Kernel.exists_schedule hs.consistent hs.loaded

/-! ## 4. Time and waiting -/

/-- Charging a tick to the running process. -/
theorem exists_chargeTick (hs : k.Settled) (hcur : k.processes.current = some pid)
    (hu : k.processes.uptime + 1 < 2 ^ 64) :
    ∃ k', chargeTick pid (k.mapProcesses ({ · with uptime := k.processes.uptime + 1 })) = .ok () k' ∧
      k'.Settled ∧ k.Reschedules k' := by
  obtain ⟨p, hp, -⟩ := hs.consistent.exists_current hcur
  have hticks : p.ticks ≤ k.processes.uptime := hs.consistent.ticks_le hp
  let counted := k.mapProcesses ({ · with uptime := k.processes.uptime + 1 })
  let charged := counted.mapProcesses (·.modify pid Process.afterTick)
  have hc : charged.processes.Consistent :=
    hs.consistent.modify_of_state_eq (f := Process.afterTick) hp (fun _ => rfl) rfl
      (Nat.succ_le_succ hticks) (Nat.le_succ _)
  have hfind : charged.processes.find? pid = some p.afterTick :=
    ProcessTable.find?_modify_self (f := Process.afterTick) (fun _ => rfl) hp
  have hloaded : charged.vm.activeRoot = some p.space.root := hs.loaded hcur hp
  have hquantum : p.quantum ≤ quantumTicks := (hs.quantum hcur hp).2
  have hsame : k.Reschedules charged := by
    refine ⟨rfl, rfl, rfl, ?_, rfl, id⟩
    exact ProcessTable.holdings_modify (f := Process.afterTick) (fun _ => rfl) _ pid
  unfold chargeTick
  rw [show counted.processes.find? pid = some p from hp]
  simp only
  rw [if_neg (by omega)]
  split
  · obtain ⟨k', hok, hs', hr'⟩ := exists_schedule (k := charged) hc fun {q r} hq hr => by
      rw [show charged.processes.current = some pid from hcur] at hq
      cases hq
      rw [hfind] at hr
      cases hr
      exact hloaded
    exact ⟨k', hok, hs', hsame.trans hr'⟩
  · next hne =>
    have hturn : 1 ≤ p.afterTick.quantum ∧ p.afterTick.quantum ≤ quantumTicks := by
      simp only [Process.afterTick] at hne ⊢
      omega
    exact ⟨charged, rfl, Settled.of_current hc hcur hfind hturn hloaded, hsame⟩

/-- **A timer tick always succeeds**, as long as ticks can be counted. -/
theorem exists_countTick (hs : k.Settled) (hu : k.processes.uptime + 1 < 2 ^ 64) :
    ∃ k', countTick k = .ok () k' ∧ k'.Settled ∧ k.Reschedules k' := by
  let counted := k.mapProcesses ({ · with uptime := k.processes.uptime + 1 })
  have hsame : k.Reschedules counted := ⟨rfl, rfl, rfl, rfl, rfl, id⟩
  have hc : counted.processes.Consistent := hs.consistent.tick (Nat.le_succ _)
  unfold countTick
  rw [if_neg (by omega)]
  simp only
  cases hcur : k.processes.current with
  | some pid => exact exists_chargeTick hs hcur hu
  | none =>
    have hs' : counted.Settled := Settled.of_idle hc hcur (hs.idle hcur)
    dsimp only
    split
    · exact ⟨counted, rfl, hs', hsame⟩
    · obtain ⟨k', hok, hs', hr'⟩ := hs'.exists_schedule
      exact ⟨k', hok, hs', hsame.trans hr'⟩

/-- A tick halts the machine when it cannot be counted, and succeeds otherwise. -/
theorem countTick_cases (hs : k.Settled) :
    (2 ^ 64 ≤ k.processes.uptime + 1 ∧ countTick k = .error (.halted .addOverflow) k) ∨
      ∃ k', countTick k = .ok () k' ∧ k'.Settled ∧ k.Reschedules k' := by
  rcases Nat.lt_or_ge (k.processes.uptime + 1) (2 ^ 64) with hu | hu
  · exact Or.inr (exists_countTick hs hu)
  · refine Or.inl ⟨hu, ?_⟩
    unfold countTick
    rw [if_pos hu]
    rfl

/-- **The running process can always block**; if nobody runs, nothing happens. -/
theorem block_cases (hs : k.Settled) :
    (k.processes.current = none ∧ block k = .error (.refused (.notCurrent 0)) k) ∨
      ∃ k', block k = .ok () k' ∧ k'.Settled ∧ k.Reschedules k' := by
  unfold block
  cases hcur : k.processes.current with
  | none => exact Or.inl ⟨rfl, rfl⟩
  | some pid =>
    obtain ⟨p, hp, -⟩ := hs.consistent.exists_current hcur
    let g : Process → Process := ({ · with context := k.trap, state := .blocked })
    have hc := hs.consistent.suspend (f := g) hcur hp (fun _ => rfl) rfl rfl
    simp only [hp, Option.isNone_some, Bool.false_eq_true, if_false]
    let waiting := (k.suspend pid .blocked).report .debug .process
      ("Process " ++ toString pid ++ " blocked")
    have hsame : k.Reschedules waiting :=
      ⟨rfl, rfl, rfl, ProcessTable.holdings_modify (f := g) (fun _ => rfl) _ pid, rfl, id⟩
    obtain ⟨k', hok, hs', hr'⟩ := exists_schedule (k := waiting) hc fun {q r} hq => by cases hq
    exact Or.inr ⟨k', hok, hs', hsame.trans hr'⟩

/-- **A blocked process can always be unblocked**; for any other number nothing happens. -/
theorem unblock_cases (hs : k.Settled) (pid : Nat) :
    (k.processes.find? pid = none ∧ unblock pid k = .error (.refused (.noSuchProcess pid)) k) ∨
      (∃ p, k.processes.find? pid = some p ∧ p.state ≠ .blocked ∧
        unblock pid k = .error (.refused (.notReady pid)) k) ∨
      ∃ k', unblock pid k = .ok () k' ∧ k'.Settled ∧ k.Reschedules k' := by
  have hc := hs.consistent
  unfold unblock
  cases hp : k.processes.find? pid with
  | none => exact Or.inl ⟨rfl, rfl⟩
  | some p =>
    refine Or.inr ?_
    simp only
    split
    · next hstate => exact Or.inl ⟨p, rfl, hstate, rfl⟩
    · next hstate =>
      have hstate : p.state = .blocked := not_not.mp hstate
      have hne : p.state ≠ .ready := by simp [hstate]
      let g : Process → Process := ({ · with state := .ready })
      obtain ⟨ready, hpush, hready⟩ :=
        ProcessTable.Consistent.exists_push (hc.length_ready_lt hp hne) pid
      have hnot : k.processes.current ≠ some pid :=
        hc.current_ne_of_state_ne hp (by simp [hstate])
      have hfind : ∀ q, k.processes.current = some q →
          (k.processes.modify pid g).find? q = k.processes.find? q := fun q hq =>
        ProcessTable.find?_modify_of_ne (fun _ => rfl) fun e => hnot (e ▸ hq)
      have hc' := hc.push k.processes.current (f := g) hp hne (fun _ => rfl) rfl rfl
        hready (fun _ _ => Iff.rfl) hnot
      exact Or.inr ⟨_, enqueue_eq hpush, hs.congr hc' rfl hfind rfl rfl, rfl, rfl, rfl,
        ProcessTable.holdings_modify (f := g) (fun _ => rfl) _ pid, rfl, id⟩

/-! ## 5. Coming and going -/

/-- An operation on virtual memory, the heap and what was said leaves the processes alone. -/
structure SameProcesses (k k' : Kernel) : Prop where
  processes : k'.processes = k.processes
  vm : k.vm.SameSpaces k'.vm

theorem SameProcesses.refl (k : Kernel) : k.SameProcesses k := ⟨rfl, rfl, rfl⟩

theorem SameProcesses.trans (h : k.SameProcesses k') (h' : k'.SameProcesses k'') :
    k.SameProcesses k'' :=
  ⟨h'.processes.trans h.processes, h'.vm.1.trans h.vm.1, h'.vm.2.trans h.vm.2⟩

theorem SameProcesses.follows (h : k.SameProcesses k') : k.Follows k' :=
  ⟨by rw [h.vm.1], by rw [h.processes], by rw [h.vm.2]; exact id⟩

theorem Settled.of_sameProcesses (hs : k.Settled) (h : k.SameProcesses k') : k'.Settled :=
  hs.congr (h.processes ▸ hs.consistent) (by rw [h.processes]) (fun _ _ => by rw [h.processes])
    (by rw [h.vm.1]) h.vm.2

/-- An operation that changes nothing but physical memory, on the kernel's. -/
theorem sameProcesses_onVm {α ε : Type} {g : PagingError → ε} {op : Vm.Op α} (h : Vm.Still op)
    (k : Kernel) : Outcome (onVm g op k) (fun _ k' => k.SameProcesses k')
      fun e k' => k.SameProcesses k' ∧ ∃ e', e = g e' :=
  Outcome.onVm ((h k.vm).mono (fun _ _ hvm => ⟨rfl, hvm⟩) fun e _ hvm => ⟨⟨rfl, hvm⟩, e, rfl⟩)

theorem ofPaging_ne_tableFull (e : PagingError) : ProcessError.ofPaging e ≠ .tableFull := by
  cases e <;> simp [ProcessError.ofPaging]

theorem ofHeap_ne_tableFull (e : HeapError) : ProcessError.ofHeap e ≠ .tableFull := by
  cases e <;> simp [ProcessError.ofHeap]

theorem sameProcesses_buildSpace (k : Kernel) : Outcome (buildSpace k)
    (fun _ k' => k.SameProcesses k') fun e k' => k.SameProcesses k' ∧ e ≠ .tableFull := by
  refine (sameProcesses_onVm (Vm.still_createSpaceWith _) k).mono (fun _ _ h => h) ?_
  rintro _ k' ⟨h, e, rfl⟩
  exact ⟨h, ofPaging_ne_tableFull e⟩

theorem sameProcesses_buildStack (space : AddressSpace) (k : Kernel) : Outcome (buildStack space k)
    (fun _ k' => k.SameProcesses k') fun e k' => k.SameProcesses k' ∧ e ≠ .tableFull := by
  unfold buildStack
  split
  · exact ⟨rfl, rfl, rfl⟩
  · next e _ =>
    have hback := sameProcesses_onVm (g := ProcessError.ofPaging) (Vm.still_destroySpace space) k
    refine (hback.mono (fun _ _ h => h) ?_).bind fun _ k' h => ?_
    · rintro _ k' ⟨h, e', rfl⟩
      exact ⟨h, ofPaging_ne_tableFull e'⟩
    · exact ⟨h, ofHeap_ne_tableFull e⟩
  · exact True.intro

/-- A process came, under the next number, and the kernel is settled. -/
structure Enrolled (k k' : Kernel) (h : Holding) : Prop where
  settled : k'.Settled
  number : h.pid = k.processes.nextPid
  next : k'.processes.nextPid = h.pid + 1
  holdings : k'.processes.holdings.Perm (h :: k.processes.holdings)
  vm : k'.vm = k.vm
  heap : k'.heap = k.heap

/-- A new process is entered under the next number and put in line. -/
theorem enrolled_enroll (hs : k.Settled) {slot : Fin maxProcesses}
    (hslot : k.processes.slots.get slot = none) (entry : UInt64) (name : String) (space : AddressSpace)
    (stack : Nat) : Outcome (enroll slot entry name space stack k)
      (fun pid k' => k.Enrolled k' ⟨pid, space, stack⟩) fun _ _ => False := by
  have hc := hs.consistent
  unfold enroll
  dsimp only
  split
  · exact True.intro
  · let p : Process := { Process.build k.processes.nextPid name entry space stack with state := .ready }
    obtain ⟨ready, hpush, hready⟩ :=
      ProcessTable.Consistent.exists_push (hc.length_ready_lt_of_free hslot) k.processes.nextPid
    have hc' := hc.place (p := p) hslot rfl rfl rfl hready
    have hfresh : k.processes.find? p.pid = none := hc.find?_nextPid
    refine Outcome.bind (P := fun _ k' => k' =
        { k with processes := { k.processes with nextPid := k.processes.nextPid + 1, ready } }) ?_ ?_
    · exact Outcome.of_ok (enqueue_eq hpush) rfl
    · rintro _ _ rfl
      refine ⟨hs.congr hc' rfl ?_ rfl rfl, rfl, rfl, ProcessTable.holdings_place hslot p, rfl, rfl⟩
      intro q hq
      have hne : q ≠ p.pid := by
        rintro rfl
        exact hc.current_ne_nextPid hq
      exact (ProcessTable.find?_place hslot hfresh).trans (if_neg hne)

/-- **Creating a process** settles the kernel with one process more, under the next number, or leaves
the processes alone.  There is no room only if there is no slot. -/
theorem settled_create (hs : k.Settled) (entry : UInt64) (name : String) :
    Outcome (create entry name k)
      (fun pid k' => pid = k.processes.nextPid ∧ k'.processes.nextPid = pid + 1 ∧ k'.Settled ∧
        k.vm.SameSpaces k'.vm)
      fun e k' => k.SameProcesses k' ∧ (e = .tableFull → k.processes.freeSlot? = none) := by
  unfold create
  cases hslot : k.processes.freeSlot? with
  | none => exact ⟨SameProcesses.refl k, fun _ => rfl⟩
  | some slot =>
    have hnone := ProcessTable.isNone_of_freeSlot? hslot
    have hroom := hs.consistent.length_ready_lt_of_free hnone
    have hfull : k.processes.ready.isFull = false := by
      unfold ReadyQueue.isFull ReadyQueue.size
      simpa using Nat.ne_of_lt hroom
    simp only [hfull, Bool.false_eq_true, if_false]
    refine ((sameProcesses_buildSpace k).mono (fun _ _ h => h) ?_).bind fun space k₁ h₁ => ?_
    · exact fun e k' h => ⟨h.1, fun he => absurd he h.2⟩
    refine ((sameProcesses_buildStack space k₁).mono (fun _ _ h => h₁.trans h) ?_).bind
      fun stack k₂ h₂ => ?_
    · exact fun e k' h => ⟨h₁.trans h.1, fun he => absurd he h.2⟩
    rw [← h₂.processes] at hnone
    refine (enrolled_enroll (hs.of_sameProcesses h₂) hnone entry name space stack).mono
      (fun pid k₃ h₃ => ⟨?_, h₃.next, h₃.settled, ?_⟩) fun _ _ h => h.elim
    · rw [← h₂.processes]
      exact h₃.number
    · rw [h₃.vm]
      exact h₂.vm

/-- Giving back what a process had leaves the processes alone. -/
theorem sameProcesses_reclaim (p : Process) (k : Kernel) : Outcome (reclaim p k)
    (fun _ k' => k.SameProcesses k') fun e k' => k.SameProcesses k' ∧ e ≠ .tableFull := by
  refine ((sameProcesses_onVm (Vm.still_destroySpace p.space) k).mono (fun _ _ h => h) ?_).bind
    fun released k₁ h₁ => ?_
  · rintro _ k' ⟨h, e, rfl⟩
    exact ⟨h, ofPaging_ne_tableFull e⟩
  refine Outcome.bind (P := fun _ k' => k.SameProcesses k') (Outcome.onHeap ?_ ?_) ?_
  · exact fun _ heap _ => ⟨h₁.processes, h₁.vm⟩
  · exact fun e _ => ⟨h₁, ofHeap_ne_tableFull e⟩
  · exact fun _ k' h => h

/-- **An exit** ends the running process and settles the kernel; if what the process had cannot all
be given back, nobody runs then.  Any other process cannot exit. -/
theorem settled_exit (hs : k.Settled) (pid : Nat) (code : Int32) :
    Outcome (exit pid code k) (fun _ k' => k'.Settled ∧ k.Follows k')
      fun e k' => k'.Settled ∧ k.Follows k' ∧ e ≠ .tableFull := by
  unfold exit
  split
  · exact ⟨hs, Follows.refl k, by simp⟩
  · next hcur =>
    have hcur : k.processes.current = some pid := not_not.mp hcur
    obtain ⟨p, hp, -⟩ := hs.consistent.exists_current hcur
    rw [hp]
    have hgone : (k.withdraw pid).Settled :=
      Settled.of_idle (hs.consistent.erase hcur) rfl (Or.inr rfl)
    have hfollows : k.Follows (k.withdraw pid) := ⟨rfl, rfl, fun h => by cases h⟩
    refine Outcome.bind ((sameProcesses_reclaim { p with state := .terminated } (k.withdraw pid)).mono
      (fun _ _ h => h)
      fun _ k' h => ⟨hgone.of_sameProcesses h.1, hfollows.trans h.1.follows, h.2⟩)
      fun released k₁ h₁ => ?_
    refine Outcome.bind (P := fun _ k' => (k.withdraw pid).SameProcesses k') ⟨h₁.processes, h₁.vm⟩
      fun _ k₂ h₂ => ?_
    obtain ⟨k', hok, hs', hr'⟩ := (hgone.of_sameProcesses h₂).exists_schedule
    exact Outcome.of_ok hok ⟨hs', hfollows.trans (h₂.follows.trans hr'.follows)⟩

end Kernel

end KernelCore
