/-
# Every run of the kernel keeps its accounts

Requests to start a process, timer interrupts, system calls with anything in the registers, waiting
and waking up, and mappings for the kernel itself, in any order, each done or refused: these are the
runs of a kernel, `Kernel.Reaches`.  A halt ends the run.

* `inOrder_run`: each of them keeps a kernel in order, that is, settled and balanced;
* `InOrder.exists_timerTick`, `InOrder.exists_exit`, `InOrder.exists_refused`: what some of them come to in a
  kernel that is in order;
* `accounted_of_reaches`: so from booting on, the frames that are used and the blocks that are in use
  on the heap are at all times those of the kernel's space and of the live processes, and no others.
-/
import KernelCore.Kernel.Interrupt
import KernelCore.Proofs.Kernel.Provisions

namespace KernelCore

/-! ## 1. Runs -/

/-- What can happen to a kernel. -/
inductive KernelCall where
  | spawn (entry : UInt64) (name : String)
  | timerTick
  | syscall
  | block
  | unblock (pid : Nat)
  | mapRegion (start : VirtAddr) (length : Nat)

namespace Kernel

/-- An operation that can only halt, among those that may also be refused. -/
def ofHaltOp (op : HaltOp Unit) : Op KernelError Unit := fun k =>
  match op k with
  | .ok () k => .ok () k
  | .error halt k => .error (.halted halt) k

end Kernel

/-- What the kernel does. -/
def KernelCall.run : KernelCall → Kernel.Op KernelError Unit
  | .spawn entry name => do let _ ← Kernel.spawn entry name
  | .timerTick => Kernel.ofHaltOp Kernel.timerTick
  | .syscall => Kernel.ofHaltOp Kernel.syscall
  | .block => Kernel.onProcesses Kernel.block
  | .unblock pid => Kernel.onProcesses (Kernel.unblock pid)
  | .mapRegion start length => do let _ ← Kernel.onVm .paging (Vm.mapKernelRegion start length)

namespace Kernel

/-- The kernels that calls lead to from a first one, each call on any trap frame. -/
inductive Reaches (k₀ : Kernel) : Kernel → Prop where
  | start : Reaches k₀ k₀
  | done {k k' : Kernel} {call : KernelCall} {frame : Context} : Reaches k₀ k →
      call.run { k with trap := frame } = .ok () k' → Reaches k₀ k'
  | refused {k k' : Kernel} {call : KernelCall} {frame : Context} {e : KernelError} : Reaches k₀ k →
      call.run { k with trap := frame } = .error (.refused e) k' → Reaches k₀ k'

variable {k₀ k k' k'' : Kernel} {base : Nat}

/-! ## 2. Each call keeps a kernel in order -/

/-- Only the trap frame and what was said may have changed. -/
structure Quiet (k k' : Kernel) : Prop where
  vm : k'.vm = k.vm
  heap : k'.heap = k.heap
  processes : k'.processes = k.processes

theorem Quiet.refl (k : Kernel) : k.Quiet k := ⟨rfl, rfl, rfl⟩

theorem InOrder.quiet (h : k.InOrder base) (hq : k.Quiet k') : k'.InOrder base := by
  refine ⟨h.settled.of_sameProcesses ⟨hq.processes, ?_⟩, ?_, ?_⟩
  · rw [hq.vm]
    exact ⟨rfl, rfl⟩
  · rw [owned, hq.vm, hq.processes]
    exact h.balanced.frames
  · rw [hq.heap, hq.processes]
    exact h.balanced.heap

theorem InOrder.trap (h : k.InOrder base) (frame : Context) :
    { k with trap := frame }.InOrder base := h.quiet ⟨rfl, rfl, rfl⟩

theorem onProcesses_of_ok {α : Type} {op : Op ProcessError α} {a : α} (hok : op k = .ok a k') :
    onProcesses op k = .ok a k' := by
  unfold onProcesses
  rw [hok]

/-- An operation on processes, as one of the kernel. -/
theorem outcome_onProcesses {α : Type} {op : Op ProcessError α} {P : α → Kernel → Prop}
    {Q : Kernel → Prop} (h : Outcome (op k) P fun _ k' => Q k') :
    Outcome (onProcesses op k) P fun _ k' => Q k' := by
  unfold onProcesses
  match op k, h with
  | .ok _ _, h => exact h
  | .error (.refused _) _, h => exact h
  | .error (.halted _) _, _ => exact True.intro

/-- An operation that always hands the processor on. -/
theorem inOrder_ok {op : Op ProcessError Unit} {Q : KernelError → Kernel → Prop}
    (h : k.InOrder base) (hok : ∃ k', op k = .ok () k' ∧ k'.Settled ∧ k.Reschedules k') :
    Outcome (onProcesses op k) (fun _ k' => k'.InOrder base) Q := by
  obtain ⟨k', hok, hs, hr⟩ := hok
  exact .of_ok (onProcesses_of_ok hok) ⟨hs, h.balanced.reschedule hr⟩

/-- An operation that is refused before it has done anything. -/
theorem inOrder_refused {op : Op ProcessError Unit} {P : Unit → Kernel → Prop} {e : ProcessError}
    (h : k.InOrder base) (he : op k = .error (.refused e) k) :
    Outcome (onProcesses op k) P fun _ k' => k'.InOrder base :=
  outcome_onProcesses (.of_refused he h)

theorem inOrder_spawn (h : k.InOrder base) (entry : UInt64) (name : String) :
    Outcome (spawn entry name k) (fun _ k' => k'.InOrder base) fun _ k' => k'.InOrder base := by
  refine outcome_onProcesses (((settled_create h.settled entry name).and
    (balanced_create h.settled h.balanced entry name)).mono ?_ ?_)
  · exact fun _ _ h' => ⟨h'.1.2.2.1, h'.2⟩
  · exact fun _ _ h' => ⟨h.settled.of_sameProcesses h'.1.1, h'.2⟩

theorem inOrder_schedule (h : k.InOrder base) : Outcome (onProcesses schedule k)
    (fun _ k' => k'.InOrder base) fun _ k' => k'.InOrder base :=
  inOrder_ok h h.settled.exists_schedule

theorem inOrder_countTick (h : k.InOrder base) : Outcome (onProcesses countTick k)
    (fun _ k' => k'.InOrder base) fun _ k' => k'.InOrder base := by
  rcases countTick_cases h.settled with ⟨-, hhalt⟩ | hok
  · exact outcome_onProcesses (.of_halted hhalt)
  · exact inOrder_ok h hok

theorem inOrder_block (h : k.InOrder base) : Outcome (onProcesses block k)
    (fun _ k' => k'.InOrder base) fun _ k' => k'.InOrder base := by
  rcases block_cases h.settled with ⟨-, he⟩ | hok
  · exact inOrder_refused h he
  · exact inOrder_ok h hok

theorem inOrder_unblock (h : k.InOrder base) (pid : Nat) : Outcome (onProcesses (unblock pid) k)
    (fun _ k' => k'.InOrder base) fun _ k' => k'.InOrder base := by
  rcases unblock_cases h.settled pid with ⟨-, he⟩ | ⟨-, -, -, he⟩ | hok
  · exact inOrder_refused h he
  · exact inOrder_refused h he
  · exact inOrder_ok h hok

theorem Quiet.frugal (h : k.Quiet k') : k.Frugal k' :=
  ⟨by rw [h.vm], by rw [h.vm], by rw [h.processes]; exact fun _ hin => hin⟩

/-- **The end of the running process** always succeeds; when nobody runs there is nobody to end. -/
theorem exitCurrent_cases (h : k.InOrder base) (code : Int32) :
    (k.processes.current = none ∧
        exitCurrent code k = .error (.refused (.syscall .invalidArgument)) k) ∨
      ∃ pid text k', k.processes.current = some pid ∧
        exit pid code (k.report .debug .handlers text) = .ok () k' ∧
          exitCurrent code k = .ok () k' ∧ k'.InOrder base ∧ k.Frugal k' := by
  unfold exitCurrent
  cases hcur : k.processes.current with
  | none => exact Or.inl ⟨rfl, rfl⟩
  | some pid =>
    let said := k.report .debug .handlers
      ("Process " ++ toString pid ++ " requested exit(" ++ toString code ++ ")")
    have hquiet : k.Quiet said := ⟨rfl, rfl, rfl⟩
    have hsaid := h.quiet hquiet
    obtain ⟨k', -, hok, hs, hb, hf, -⟩ := exists_exit hsaid.settled hsaid.balanced hcur code
    exact Or.inr ⟨pid, _, k', rfl, hok, onProcesses_of_ok hok, ⟨hs, hb⟩, hquiet.frugal.trans hf⟩

theorem inOrder_exitCurrent (h : k.InOrder base) (code : Int32) : Outcome (exitCurrent code k)
    (fun _ k' => k'.InOrder base) fun _ k' => k'.InOrder base := by
  rcases exitCurrent_cases h code with ⟨-, he⟩ | ⟨-, -, k', -, -, hok, hin, -⟩
  · exact .of_refused he h
  · exact .of_ok hok hin

/-- Mapping for the kernel's own use takes frames, and they belong to its space. -/
theorem inOrder_mapKernelRegion (h : k.InOrder base) (start : VirtAddr) (length : Nat) :
    Outcome (onVm KernelError.paging (Vm.mapKernelRegion start length) k)
      (fun _ k' => k'.InOrder base) fun _ k' => k'.InOrder base := by
  have hkept : ∀ vm, Vm.KernelBooks base k.processes.ownedFrames k.vm vm →
      { k with vm }.InOrder base := fun vm hvm =>
    ⟨h.settled.congr h.settled.consistent rfl (fun _ _ => rfl) hvm.root hvm.active,
      hvm.holds, h.balanced.heap⟩
  refine Outcome.onVm ((Vm.kernelBooks_mapKernelRegion start length h.balanced.frames).mono ?_ ?_)
  · exact fun _ vm => hkept vm
  · exact fun _ vm => hkept vm

/-! ## 3. System calls -/

/-- A check of an argument does nothing else. -/
theorem outcome_check {α : Type} (c : UserBuffer.Check α) {P : Kernel → Prop} (h : P k) :
    Outcome (check c k) (fun _ k' => P k') fun _ k' => P k' := by
  match c with
  | .ok _ => exact h
  | .error (.refused _) => exact h
  | .error (.halted _) => exact True.intro

/-- All that writing does is to print bytes and to leave a result; a refusal leaves none. -/
theorem outcome_write (pointer length : UInt64) {P Q : Kernel → Prop}
    (hprint : ∀ bytes, P (k.print bytes)) (hleave : ∀ bytes result, Q ((k.print bytes).leave result)) :
    Outcome (write pointer length k) (fun _ k' => Q k') fun _ k' => P k' := by
  have hsame : P k := by
    have hnothing := hprint []
    rw [print, List.append_nil] at hnothing
    exact hnothing
  unfold write
  cases k.processes.running? with
  | none => exact hsame
  | some p =>
    refine Outcome.bind (P := fun _ k₁ => k₁ = k) ?_ fun buffer k₁ h₁ => ?_
    · exact (outcome_check (P := fun k₁ => P k₁ ∧ k₁ = k) _ ⟨hsame, rfl⟩).mono
        (fun _ _ h => h.2) fun _ _ h => h.1
    · subst h₁
      let printed := k₁.print (buffer.copyChunks k₁.vm p.space).1.flatten
      refine Outcome.bind (P := fun _ k₂ => k₂ = printed) ?_ fun _ k₂ h₂ => ?_
      · exact (outcome_check (P := fun k₂ => P k₂ ∧ k₂ = printed) _ ⟨hprint _, rfl⟩).mono
          (fun _ _ h => h.2) fun _ _ h => h.1
      · subst h₂
        exact hleave _ _

/-- Printing and checking move nothing. -/
theorem quiet_write (pointer length : UInt64) (k : Kernel) : Outcome (write pointer length k)
    (fun _ k' => k.Quiet k') fun _ k' => k.Quiet k' :=
  outcome_write pointer length (fun _ => ⟨rfl, rfl, rfl⟩) fun _ _ => ⟨rfl, rfl, rfl⟩

/-- **Serving a request** keeps the kernel in order. -/
theorem inOrder_serve (h : k.InOrder base) (request : SyscallRequest) : Outcome (serve request k)
    (fun _ k' => k'.InOrder base) fun _ k' => k'.InOrder base := by
  unfold serve
  cases Syscall.ofNumber? request.number with
  | none => exact h
  | some call =>
    cases call with
    | hello => exact h.quiet ⟨rfl, rfl, rfl⟩
    | write =>
      refine (quiet_write request.first request.second k).mono ?_ ?_
      · exact fun _ _ hq => h.quiet hq
      · exact fun _ _ hq => h.quiet hq
    | getpid => exact h.quiet ⟨rfl, rfl, rfl⟩
    | yield => exact inOrder_schedule (k := k.leave 0) (h.quiet ⟨rfl, rfl, rfl⟩)
    | exit => exact inOrder_exitCurrent h (exitCode request.first)

/-! ## 4. Interrupts -/

/-- A computation on the side changes nothing. -/
theorem eq_of_ofHalt_ok {α : Type} {r : Except Halt α} {a : α} (hok : ofHalt r k = .ok a k') :
    k' = k := by
  cases r with
  | ok a => cases hok; rfl
  | error halt => cases hok

/-- A fatal error ends the run. -/
theorem fatal_ne_ok {α : Type} (e : KernelError) (a : α) : fatal e k ≠ .ok a k' := by
  intro hok
  obtain ⟨_, _, -, hok⟩ := exists_of_bind_ok hok
  obtain ⟨_, _, -, hok⟩ := exists_of_bind_ok hok
  obtain ⟨_, _, -, hok⟩ := exists_of_bind_ok hok
  cases hok

/-- An operation whose errors go no further is done, or its error is dealt with. -/
theorem guarded_cases {op : Op KernelError Unit} {handle : KernelError → HaltOp Unit}
    (hok : guarded op handle k = .ok () k') : op k = .ok () k' ∨
      ∃ e k₁, op k = .error (.refused e) k₁ ∧ handle e k₁ = .ok () k' := by
  unfold guarded at hok
  match hop : op k, hok with
  | .ok () k₁, hok =>
    cases hok
    exact Or.inl rfl
  | .error (.refused e) k₁, hok =>
    dsimp only at hok
    split at hok
    · exact absurd hok (fatal_ne_ok e ())
    · exact Or.inr ⟨e, k₁, rfl, hok⟩
  | .error (.halted _) _, hok => cases hok

/-- A tick is counted, or the kernel says why not. -/
theorem timerTick_cases (hok : timerTick k = .ok () k') : onProcesses countTick k = .ok () k' ∨
    ∃ e k₁ text, onProcesses countTick k = .error (.refused e) k₁ ∧
      k' = k₁.report .warn .kernel text := by
  rcases guarded_cases hok with hdone | ⟨e, k₁, hrefused, hhandled⟩
  · exact Or.inl hdone
  · obtain ⟨text, k₂, hmessage, hsaid⟩ := exists_of_bind_ok hhandled
    obtain rfl := eq_of_ofHalt_ok hmessage
    cases hsaid
    exact Or.inr ⟨e, _, _, hrefused, rfl⟩

/-- A request is served, or its caller finds a status. -/
theorem syscall_cases (hok : syscall k = .ok () k') : serve (.ofContext k.trap) k = .ok () k' ∨
    ∃ e k₁ text, serve (.ofContext k.trap) k = .error (.refused e) k₁ ∧
      k' = (k₁.report .debug .dispatcher text).leave (.ofInt e.status) := by
  obtain ⟨_, _, hget, hok⟩ := exists_of_bind_ok hok
  cases hget
  rcases guarded_cases hok with hdone | ⟨e, k₁, hrefused, hhandled⟩
  · exact Or.inl hdone
  · obtain ⟨text, k₂, hmessage, hsaid⟩ := exists_of_bind_ok hhandled
    obtain rfl := eq_of_ofHalt_ok hmessage
    cases hsaid
    exact Or.inr ⟨e, _, _, hrefused, rfl⟩

theorem inOrder_timerTick (h : k.InOrder base) (hok : timerTick k = .ok () k') :
    k'.InOrder base := by
  rcases timerTick_cases hok with hdone | ⟨e, k₁, text, hrefused, rfl⟩
  · exact (inOrder_countTick h).of_eq_ok hdone
  · exact ((inOrder_countTick h).of_eq_refused hrefused).quiet ⟨rfl, rfl, rfl⟩

theorem inOrder_syscall (h : k.InOrder base) (hok : syscall k = .ok () k') : k'.InOrder base := by
  rcases syscall_cases hok with hdone | ⟨e, k₁, text, hrefused, rfl⟩
  · exact (inOrder_serve h _).of_eq_ok hdone
  · exact ((inOrder_serve h _).of_eq_refused hrefused).quiet ⟨rfl, rfl, rfl⟩

theorem outcome_ofHaltOp {op : HaltOp Unit} {P : Kernel → Prop} {Q : KernelError → Kernel → Prop}
    (h : ∀ k', op k = .ok () k' → P k') : Outcome (ofHaltOp op k) (fun _ k' => P k') Q := by
  unfold ofHaltOp
  match hop : op k with
  | .ok () k' => exact h k' hop
  | .error halt k' => exact True.intro

/-! ## 5. Calls that go through -/

theorem ofHaltOp_of_ok {op : HaltOp Unit} (hok : op k = .ok () k') : ofHaltOp op k = .ok () k' := by
  unfold ofHaltOp
  rw [hok]

theorem guarded_of_ok {op : Op KernelError Unit} (handle : KernelError → HaltOp Unit)
    (hok : op k = .ok () k') : guarded op handle k = .ok () k' := by
  unfold guarded
  rw [hok]

theorem timerTick_of_countTick (hok : countTick k = .ok () k') : timerTick k = .ok () k' :=
  guarded_of_ok _ (onProcesses_of_ok hok)

/-- The interrupt of a request whose service is done. -/
theorem syscall_of_ok (hok : serve (.ofContext k.trap) k = .ok () k') : syscall k = .ok () k' := by
  show guarded (serve (.ofContext k.trap)) _ k = _
  exact guarded_of_ok _ hok

/-- A call that is done, on the trap frame as it is. -/
theorem Reaches.step {call : KernelCall} (hr : Reaches k₀ k) (hok : call.run k = .ok () k') : Reaches k₀ k' :=
  @Reaches.done k₀ k k' call k.trap hr hok

/-- A call that is refused, on the trap frame as it is. -/
theorem Reaches.refuse {call : KernelCall} {e : KernelError} (hr : Reaches k₀ k)
    (he : call.run k = .error (.refused e) k') : Reaches k₀ k' :=
  @Reaches.refused k₀ k k' call k.trap e hr he

theorem Reaches.trans (hr : Reaches k₀ k) (hr' : Reaches k k') : Reaches k₀ k' := by
  induction hr' with
  | start => exact hr
  | done _ hok ih => exact ih.done hok
  | refused _ he ih => exact ih.refused he

/-- A request to start a process that can be created. -/
theorem Reaches.spawn {pid : Nat} {entry : UInt64} {name : String} (hr : Reaches k₀ k)
    (hok : create entry name k = .ok pid k') : Reaches k₀ k' :=
  have hrun : KernelCall.run (.spawn entry name) k = .ok () k' := bind_of_ok (onProcesses_of_ok hok)
  hr.step hrun

/-- A timer interrupt gives the idle processor to the first of the line. -/
theorem InOrder.exists_timerTick (h : k.InOrder base) (hidle : k.processes.current = none)
    (hu : k.processes.uptime + 1 < 2 ^ 64) : ∃ k', KernelCall.run .timerTick k = .ok () k' ∧
      k'.InOrder base ∧ k.Reschedules k' ∧ k'.processes.lineup = k.processes.lineup.next := by
  obtain ⟨k', hok, hs, hr⟩ := exists_countTick h.settled hu
  exact ⟨k', ofHaltOp_of_ok (timerTick_of_countTick hok), ⟨hs, h.balanced.reschedule hr⟩, hr,
    (lineup_countTick hidle).of_eq_ok hok⟩

/-- A running process that asks to end is gone, and the next one runs. -/
theorem InOrder.exists_exit {pid : Nat} (h : k.InOrder base) (hcur : k.processes.current = some pid)
    (hrequest : k.trap.rax = Syscall.exit.number) : ∃ (k' : Kernel) (p : Process),
      KernelCall.run .syscall k = .ok () k' ∧ p.pid = pid ∧
        k.processes.holdings.Perm (p.holding :: k'.processes.holdings) ∧
          k'.processes.lineup = (k.processes.lineup.leave pid).vacate.next := by
  let said := k.report .debug .handlers
    ("Process " ++ toString pid ++ " requested exit(" ++ toString (exitCode k.trap.rdi) ++ ")")
  have hsaid : said.InOrder base := h.quiet ⟨rfl, rfl, rfl⟩
  obtain ⟨k', p, hok, -, -, -, hpid, hperm⟩ :=
    Kernel.exists_exit hsaid.settled hsaid.balanced hcur (exitCode k.trap.rdi)
  have hserve : serve (.ofContext k.trap) k = .ok () k' := by
    unfold serve
    simp only [SyscallRequest.ofContext, hrequest, Syscall.ofNumber?_number, perform]
    unfold exitCurrent
    simp only [hcur]
    exact onProcesses_of_ok hok
  exact ⟨k', p, ofHaltOp_of_ok (syscall_of_ok hserve), hpid, hperm,
    (lineup_exit pid (exitCode k.trap.rdi) said).of_eq_ok hok⟩

/-- Without the frames for a space a request to start a process is refused, and the table stays. -/
theorem InOrder.exists_refused (h : k.InOrder base) (hroom : k.processes.live.length < maxProcesses)
    (hshort : ¬k.vm.ram.pool.Supplies 5) (entry : UInt64) (name : String) : ∃ k',
      KernelCall.run (.spawn entry name) k = .error (.refused (.process .outOfMemory)) k' ∧
        k'.InOrder base ∧ k'.processes = k.processes := by
  obtain ⟨hs, hb⟩ := h
  obtain ⟨slot, hslot⟩ := ProcessTable.exists_freeSlot?_of_lt hroom
  obtain ⟨k', he⟩ := create_eq_error_of_frames hs hb hslot hshort entry name
  have hfails := (comes_create hs hb entry name).of_eq_refused he
  have hspawn : spawn entry name k = .error (.refused (.process .outOfMemory)) k' := by
    unfold spawn onProcesses
    rw [he]
    rfl
  refine ⟨k', bind_of_error hspawn, (inOrder_spawn ⟨hs, hb⟩ entry name).of_eq_refused hspawn, ?_⟩
  rw [hfails.rest]

/-! ## 6. What holds of every run -/

/-- **One call** keeps the kernel in order, whether it is done or refused. -/
theorem inOrder_run (h : k.InOrder base) (call : KernelCall) : Outcome (call.run k)
    (fun _ k' => k'.InOrder base) fun _ k' => k'.InOrder base := by
  cases call with
  | spawn entry name => exact (inOrder_spawn h entry name).bind fun _ _ h => h
  | timerTick => exact outcome_ofHaltOp fun _ => inOrder_timerTick h
  | syscall => exact outcome_ofHaltOp fun _ => inOrder_syscall h
  | block => exact inOrder_block h
  | unblock pid => exact inOrder_unblock h pid
  | mapRegion start length => exact (inOrder_mapKernelRegion h start length).bind fun _ _ h => h

theorem inOrder_of_reaches (h₀ : k₀.InOrder base) (hr : Reaches k₀ k) : k.InOrder base := by
  induction hr with
  | start => exact h₀
  | @done k k' call frame _ hok ih => exact (inOrder_run (ih.trap frame) call).of_eq_ok hok
  | @refused k k' call frame e _ he ih => exact (inOrder_run (ih.trap frame) call).of_eq_refused he

/-- **The accounts of a kernel.**  `base` frames were used before it booted. -/
structure Accounted (k : Kernel) (base : Nat) : Prop where
  distinct : (k.vm.kernel.ownedFrames ++ k.processes.live.flatMap (·.space.ownedFrames)).Nodup
  used : ∀ frame ∈ k.vm.kernel.ownedFrames ++ k.processes.live.flatMap (·.space.ownedFrames),
    k.vm.ram.pool.isUsed frame = true
  count : k.vm.ram.pool.used = base + k.ownedFrames
  stackDistinct : (k.processes.live.map Process.stack).Nodup
  inUse : k.heap.limit < 2 ^ 64 → ∃ blocks, k.heap.blocks = .ok blocks ∧
    (k.processes.live.map Process.stack).Perm ((blocks.filter Block.used).map Block.payload) ∧
    ∀ b ∈ blocks, b.used = true → processStackSize ≤ b.capacity
  /-- A heap that does not end inside the addresses has no block to give. -/
  nobody : 2 ^ 64 ≤ k.heap.limit → k.processes.live = []

theorem InOrder.accounted (h : k.InOrder base) : k.Accounted base := by
  have hframes := h.balanced.frames
  refine ⟨hframes.nodup, fun _ => hframes.isUsed, ?_, ?_, ?_, ?_⟩
  · rw [hframes.used_eq, length_owned]
  · have hstacks := h.balanced.nodup_stacks
    rw [← ProcessTable.stackAddresses_eq] at hstacks
    exact hstacks
  · intro hlt
    rcases h.balanced.heap with ⟨hge, -⟩ | ⟨blocks, hs⟩
    · exact absurd hlt (Nat.not_lt_of_le hge)
    · exact ⟨blocks, hs.tiled.blocks_eq, hs.perm, hs.room⟩
  · intro hge
    rcases h.balanced.heap with ⟨-, hnone⟩ | ⟨blocks, hs⟩
    · exact List.map_eq_nil_iff.mp hnone
    · exact absurd hs.tiled.limit_lt (Nat.not_lt_of_le hge)

/-- **Every run of the kernel keeps its accounts.**  From booting on, whatever is asked for and
whatever is refused: every frame that was taken belongs to one space, every block in use on the heap
is the stack of one live process, and nothing else is used. -/
theorem accounted_of_reaches {memory memory' : Memory} {map : MemoryMap} {bootRoot : Option Nat}
    {heap : Heap} {start size : Nat} {idle trap : Context} {target : UInt64}
    (hheap : Heap.ofRange memory' start size = .ok heap)
    (hboot : boot memory map bootRoot heap idle trap target = .ok k₀) (hr : Reaches k₀ k) :
    k.Accounted (FramePool.ofMap map).used :=
  (inOrder_of_reaches (inOrder_boot hheap hboot) hr).accounted

/-- A machine with room for four processes starts four and refuses the fifth, for which two frames are left;
the first runs and exits.  Three are left then, with their spaces and their stacks. -/
theorem accounted_smallMachine : ∃ heap k₀ k₁ k₂ k,
    (Heap.ofRange .zero 4096 (4 * Heap.stackBlockSize) = .ok heap ∧
      boot .zero smallMachine none heap {} {} = .ok k₀ ∧ Reaches k₀ k) ∧
    k.Accounted (FramePool.ofMap smallMachine).used ∧
    (Reaches k₀ k₁ ∧ k₁.processes.live.length = 4 ∧ k₁.vm.ram.pool.free = 2 ∧
      KernelCall.run (.spawn 0x1000 "late") k₁ = .error (.refused (.process .outOfMemory)) k₂) ∧
    (Reaches k₂ k ∧ k.processes.live.length = 3 ∧ k.processes.current = some 2) := by
  obtain ⟨heap, k₀, hheap, hboot, hprovided, hfilled⟩ := exists_smallMachine
  obtain ⟨k₁, hp₁, hf₁, hr₁⟩ := hprovided.exists_filled (P := fun _ k => Reaches k₀ k) 0x1000 "worker"
    (fun hr hcreate => hr.spawn hcreate) hfilled .start
  have hfour : k₁.processes.live.length = 4 := hf₁.length_live
  have hshort : ¬k₁.vm.ram.pool.Supplies 5 := by
    rw [hp₁.regular.supplies_iff, hp₁.frames]
    decide
  obtain ⟨k₂, hrefused, hin₂, htable₂⟩ :=
    hp₁.inOrder.exists_refused (by rw [hfour]; decide) hshort 0x1000 "late"
  obtain ⟨k₃, htick, hin₃, hr₃, hl₃⟩ := hin₂.exists_timerTick (by rw [htable₂]; exact hf₁.idle)
    (by rw [htable₂, hf₁.uptime]; decide)
  rw [htable₂, hf₁.lineup] at hl₃
  -- The request of the first process is in the frame of its interrupt.
  let asked : Kernel := { k₃ with trap := { k₃.trap with rax := Syscall.exit.number } }
  have hasked : asked.InOrder _ := hin₃.trap { k₃.trap with rax := Syscall.exit.number }
  obtain ⟨k, p, hexit, -, hperm, hl⟩ := hasked.exists_exit (congrArg Lineup.current hl₃) rfl
  have hl₃ : asked.processes.lineup = ⟨[2, 3, 4], some 1⟩ := hl₃
  rw [hl₃] at hl
  have hr : Reaches k₂ k := (Reaches.start.step htick).done hexit
  have hthree : k.processes.live.length = 3 := by
    have hholdings : asked.processes.holdings = k₁.processes.holdings :=
      hr₃.holdings.trans (congrArg ProcessTable.holdings htable₂)
    have hlength := hperm.length_eq
    rw [hholdings, List.length_cons, ProcessTable.length_holdings, ProcessTable.length_holdings,
      hfour] at hlength
    omega
  have hreaches : Reaches k₀ k := (hr₁.refuse hrefused).trans hr
  exact ⟨heap, k₀, k₁, k₂, k, ⟨hheap, hboot, hreaches⟩, accounted_of_reaches hheap hboot hreaches,
    ⟨hr₁, hfour, hp₁.frames, hrefused⟩, hr, hthree, congrArg Lineup.current hl⟩

end Kernel

end KernelCore
