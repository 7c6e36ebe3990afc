/-
# The kernel and the code that it runs

Between two calls of the kernel other code runs.  It changes the registers as it likes, and memory
too; what it has to leave alone is memory that is not its own, the page tables and the headers of the
heap's blocks (`Kernel.Meddles`).  A *course* of a kernel is what calls and such code come to, in any
order, each call done or refused: `Kernel.Course`.  A halt ends the course.

* `inOrder_of_course`: on every course from booting on the kernel has lost track of nothing;
* `countTick_of_leads`: a timer's interrupt that leads somewhere has counted its tick;
* `exists_running`: a machine on which a process runs.
-/
import KernelCore.Proofs.Kernel.Accounts
import KernelCore.Proofs.Paging.Refinement

namespace KernelCore

/-! ## 1. Courses -/

/-- Each number is that of one call. -/
theorem Syscall.eq_number {n : UInt64} {call : Syscall} (h : ofNumber? n = some call) :
    n = call.number := by
  have hlt : n.toNat < all.length := (List.getElem?_eq_some_iff.mp h).1
  have heq : all[n.toNat]? = all[call.number.toNat]? := h.trans (ofNumber?_number call).symm
  exact UInt64.toNat_inj.mp ((List.getElem?_inj hlt (by decide)).mp heq)

theorem Syscall.number_injective : Function.Injective number := by
  intro call call' h
  have hcall := ofNumber?_number call
  rw [h, ofNumber?_number call'] at hcall
  exact (Option.some.inj hcall).symm

/-- The call leads from one state to another, whether it is done or refused. -/
def KernelCall.Leads (call : KernelCall) (k k' : Kernel) : Prop :=
  call.run k = .ok () k' ∨ ∃ e, call.run k = .error (.refused e) k'

/-- The frames that hold tables of a process's space. -/
def ProcessTable.tableFrames (t : ProcessTable) : List Nat :=
  t.holdings.flatMap (·.space.tableFrames)

namespace Kernel

/-- **What the code that runs may do**: change the trap frame, and memory that holds neither a page
table nor the header of a block. -/
structure Meddles (k k' : Kernel) : Prop where
  processes : k'.processes = k.processes
  spaces : k.vm.SameSpaces k'.vm
  pool : k'.vm.ram.pool = k.vm.ram.pool
  start : k'.heap.start = k.heap.start
  size : k'.heap.size = k.heap.size
  tables : ∀ t ∈ k.vm.kernel.tableFrames ++ k.processes.tableFrames,
    k.vm.ram.memory.SameFrame k'.vm.ram.memory t
  headers : ∀ blocks, k.heap.blocks = .ok blocks →
    ∀ b ∈ blocks, k.heap.memory.AgreeOn k'.heap.memory b.address b.payload

/-- **The kernels that calls and other code lead to**, all of them after a call of the given kind. -/
inductive Course (along : Kernel → Prop) (k₀ : Kernel) : Kernel → Prop where
  | start : Course along k₀ k₀
  | meanwhile {k k' : Kernel} : Course along k₀ k → k.Meddles k' → Course along k₀ k'
  | step {k k' : Kernel} {call : KernelCall} : Course along k₀ k → call.Leads k k' → along k' →
      Course along k₀ k'

/-- The kernels that calls and other code lead to. -/
abbrev Proceeds : Kernel → Kernel → Prop := Course fun _ => True

/-- The kernel has booted on a machine, and may have turned paging on. -/
inductive Booted (map : MemoryMap) (bootRoot : Option Nat) : Kernel → Prop where
  | fresh {memory memory' : Memory} {heap : Heap} {start size : Nat} {idle trap : Context}
      {target : UInt64} {k : Kernel} : Heap.ofRange memory' start size = .ok heap →
      boot memory map bootRoot heap idle trap target = .ok k → Booted map bootRoot k
  | enabled {k k' : Kernel} : Booted map bootRoot k → enablePaging k = .ok () k' →
      Booted map bootRoot k'

variable {k₀ k k' k'' : Kernel} {base pid : Nat} {map : MemoryMap} {bootRoot : Option Nat}
  {along : Kernel → Prop} {call : KernelCall}

theorem Course.mono {along' : Kernel → Prop} (h : Course along k₀ k)
    (hle : ∀ k, along k → along' k) : Course along' k₀ k := by
  induction h with
  | start => exact .start
  | meanwhile _ hm ih => exact ih.meanwhile hm
  | step _ hl ha ih => exact ih.step hl (hle _ ha)

/-! ## 2. Nothing gets lost on the way -/

/-- Registers are nobody's memory. -/
theorem meddles_trap (k : Kernel) (frame : Context) : k.Meddles { k with trap := frame } :=
  ⟨rfl, ⟨rfl, rfl⟩, rfl, rfl, rfl, fun _ _ => .refl _ _, fun _ _ _ _ _ _ _ => rfl⟩

theorem InOrder.meddle (h : k.InOrder base) (hm : k.Meddles k') : k'.InOrder base := by
  refine ⟨h.settled.of_sameProcesses ⟨hm.processes, hm.spaces⟩, ?_, ?_⟩
  · rw [owned, hm.pool, hm.spaces.1, hm.processes]
    exact h.balanced.frames
  · rw [hm.processes]
    exact h.balanced.heap.congr hm.start hm.size hm.headers

/-- What a call leaves, done or refused, holds where it leads. -/
theorem of_leads {P : Kernel → Prop} (hl : call.Leads k k')
    (h : Outcome (call.run k) (fun _ k' => P k') fun _ k' => P k') : P k' := by
  rcases hl with hok | ⟨e, he⟩
  · exact h.of_eq_ok hok
  · exact h.of_eq_refused he

theorem InOrder.leads (h : k.InOrder base) (hl : call.Leads k k') : k'.InOrder base :=
  of_leads hl (inOrder_run h call)

/-- What turning paging on does. -/
theorem eq_of_enablePaging (hok : enablePaging k = .ok () k') : ∃ r : Record, k' =
    { k with vm := { k.vm.load k.vm.kernel.root with enabled := true } }.report r.level r.source r.text := by
  obtain ⟨_, k₁, hon, hrecord⟩ := exists_of_bind_ok hok
  obtain ⟨k₂, k₃, hget, hrecord⟩ := exists_of_bind_ok hrecord
  cases hget
  have hk₁ : k₁ = { k with vm := { k.vm.load k.vm.kernel.root with enabled := true } } := by
    unfold onVm Vm.enable at hon
    split at hon
    · next hen =>
      split at hen
      · cases hen
      · cases hen
        cases hon
        rfl
    · cases hon
  subst hk₁
  unfold record at hrecord
  split at hrecord
  · cases hrecord
  · cases hrecord
    exact ⟨_, rfl⟩

/-- A kernel that has booted has no processes, and is in order. -/
theorem Booted.inOrder (h : Booted map bootRoot k) :
    (∃ idle, k.processes = .empty idle) ∧ k.InOrder (FramePool.ofMap map).used := by
  induction h with
  | @fresh memory memory' heap start size idle trap target k hheap hboot =>
    exact ⟨⟨idle, (eq_of_boot hboot).2.2⟩, inOrder_boot hheap hboot⟩
  | @enabled k k' _ hok ih =>
    obtain ⟨⟨idle, hidle⟩, h⟩ := ih
    obtain ⟨r, rfl⟩ := eq_of_enablePaging hok
    have hnone : k.processes.current = none := by rw [hidle]; rfl
    exact ⟨⟨idle, hidle⟩, .of_idle h.settled.consistent hnone (Or.inr rfl), h.balanced.frames,
      h.balanced.heap⟩

theorem inOrder_of_course (h₀ : k₀.InOrder base) (hc : Course along k₀ k) : k.InOrder base := by
  induction hc with
  | start => exact h₀
  | meanwhile _ hm ih => exact ih.meddle hm
  | step _ hl _ ih => exact ih.leads hl

/-! ## 3. What a call that leads somewhere has done -/

theorem eq_of_ofHaltOp {op : HaltOp Unit}
    (hl : ofHaltOp op k = .ok () k' ∨ ∃ e, ofHaltOp op k = .error (.refused e) k') :
    op k = .ok () k' := by
  unfold ofHaltOp at hl
  split at hl
  · next hop =>
    rcases hl with hok | ⟨_, he⟩
    · cases hok
      exact hop
    · cases he
  · rcases hl with hok | ⟨_, he⟩
    · cases hok
    · cases he

/-- A timer interrupt has counted the tick. -/
theorem countTick_of_leads (hs : k.Settled) (hl : KernelCall.timerTick.Leads k k') :
    countTick k = .ok () k' := by
  have hcount : Outcome (onProcesses countTick k) (fun _ k' => countTick k = .ok () k') fun _ _ => False := by
    rcases countTick_cases hs with ⟨-, hhalt⟩ | ⟨k₁, hok, -⟩
    · exact outcome_onProcesses (.of_halted hhalt)
    · exact outcome_onProcesses (.of_ok hok hok)
  rcases timerTick_cases (eq_of_ofHaltOp hl) with hok | ⟨e, k₁, _, hrefused, -⟩
  · exact hcount.of_eq_ok hok
  · exact (hcount.of_eq_refused hrefused).elim

/-! ## 4. A machine on which a process runs -/

/-- When nobody runs, a tick gives the processor to the process in front of the line. -/
theorem exists_countTick_of_idle {rest : List Nat} (hc : k.processes.Consistent)
    (hcur : k.processes.current = none) (hline : k.processes.ready.pids = pid :: rest)
    (hu : k.processes.uptime + 1 < 2 ^ 64) : ∃ k', countTick k = .ok () k' ∧
      k'.processes.current = some pid ∧ k'.processes.ready.pids = rest ∧
        k'.processes.uptime = k.processes.uptime + 1 := by
  let counted := k.mapProcesses ({ · with uptime := k.processes.uptime + 1 })
  have hidle : k.processes.ready.isEmpty = false := by
    unfold ReadyQueue.isEmpty
    rw [hline]
    rfl
  obtain ⟨p, ready, -, rfl, hrest, hdispatch⟩ :=
    exists_dispatch_eq (k := counted) (hc.tick (Nat.le_succ _)) hline
  have hpreempt : preempt counted = .ok () counted := by
    unfold preempt
    rw [show counted.processes.current = none from hcur]
  refine ⟨_, Eq.trans ?_ hdispatch, rfl, hrest, rfl⟩
  unfold countTick
  rw [if_neg (Nat.not_le_of_lt hu)]
  simp only [hcur, hidle, Bool.false_eq_true, if_false]
  unfold schedule
  rw [if_neg (by rw [show counted.processes.ready.isEmpty = false from hidle]; exact nofun)]
  exact bind_of_ok hpreempt

/-- A kernel that has booted on six frames, with room for a stack. -/
structure OnSixFrames (k : Kernel) : Prop where
  booted : Booted World.sixFrames none k
  processes : k.processes = .empty {}
  total : k.vm.ram.pool.total = 6
  /-- The root of the kernel's space is all that was taken. -/
  fresh : k.vm.ram.pool.Fresh 1
  limit : k.heap.limit < 2 ^ 64
  room : ∃ r, k.heap.alloc processStackSize = .ok r

theorem exists_booted : ∃ k : Kernel, k.OnSixFrames := by
  obtain ⟨htotal, hfresh⟩ := World.fresh_sixFrames
  obtain ⟨pool, hroot, htotal', hfresh'⟩ := hfresh.exists_allocate (by omega)
  obtain ⟨heap, hheap, hroom⟩ := Heap.exists_hasRoom (n := 1) (by decide) (by decide)
  obtain ⟨k, hboot⟩ := exists_boot World.sixFrames heap {} {} (FramePool.eq_of_allocate hroot).1
  obtain ⟨hvm, rfl, hprocesses⟩ := eq_of_boot hboot
  have hpool : k.vm.ram.pool = pool :=
    (Prod.mk.inj (Except.ok.inj ((Vm.eq_of_boot hvm).1.symm.trans hroot))).2
  refine ⟨k, .fresh hheap hboot, hprocesses, ?_, ?_, hroom.limit_lt, hroom.exists_alloc⟩
  · rw [hpool, htotal', htotal]
  · rw [hpool]
    exact hfresh'

/-- The first process on it. -/
theorem OnSixFrames.exists_create (hk : k.OnSixFrames) : ∃ k' p,
    create 0x1000 "init" k = .ok 1 k' ∧ k.Comes k' 0x1000 "init" p := by
  have h₀ := hk.booted.inOrder.2
  have htotal := hk.total
  have hslot : k.processes.freeSlot? = some ⟨0, by decide⟩ := by
    rw [hk.processes]
    decide
  have hnext : k.processes.nextPid = 1 := by
    rw [hk.processes]
    rfl
  have hnumber : k.processes.nextPid + 1 < pidLimit := by
    rw [hnext]
    decide
  obtain ⟨k', p, hcreate, hcomes⟩ := Kernel.exists_create h₀.settled hslot hnumber hk.fresh.total_le
    (hk.fresh.supplies (by omega)) hk.room 0x1000 "init"
  rw [hnext] at hcreate
  exact ⟨k', p, hcreate, hcomes⟩

/-- The first process gets the processor with the next tick. -/
theorem Comes.exists_countTick {k₁ : Kernel} {p : Process} {entry : UInt64} {name : String}
    (hcomes : k.Comes k₁ entry name p) (hk : k.processes = .empty {}) (hc : k₁.processes.Consistent) :
    ∃ k₂, countTick k₁ = .ok () k₂ ∧ k₂.processes.current = some 1 ∧ k₂.processes.ready.pids = [] ∧
      k₂.processes.uptime = 1 := by
  obtain ⟨_, ready, -, hline, hprocesses⟩ := hcomes.table
  rw [hcomes.pid_eq, hk] at hline hprocesses
  have huptime : k₁.processes.uptime = 0 := by
    rw [hprocesses]
    rfl
  obtain ⟨k₂, htick, hcur, hrest, huptime'⟩ := exists_countTick_of_idle hc (by rw [hprocesses]; rfl)
    (show k₁.processes.ready.pids = [1] by rw [hprocesses]; exact hline) (by rw [huptime]; decide)
  exact ⟨k₂, htick, hcur, hrest, by rw [huptime', huptime]⟩

/-- **On a machine of six frames a process can be created, and runs.** -/
theorem exists_running : ∃ k₀ k, Booted World.sixFrames none k₀ ∧ Proceeds k₀ k ∧
    k.processes.current = some 1 ∧ k.processes.ready.pids = [] ∧ k.processes.uptime = 1 := by
  obtain ⟨k₀, hk⟩ := exists_booted
  obtain ⟨k₁, p, hcreate, hcomes⟩ := hk.exists_create
  have hspawn : (KernelCall.spawn 0x1000 "init").Leads k₀ k₁ :=
    Or.inl (bind_of_ok (onProcesses_of_ok hcreate))
  obtain ⟨k₂, htick, hrunning⟩ :=
    hcomes.exists_countTick hk.processes (hk.booted.inOrder.2.leads hspawn).settled.consistent
  have htick : KernelCall.timerTick.Leads k₁ k₂ :=
    Or.inl (ofHaltOp_of_ok (timerTick_of_countTick htick))
  exact ⟨k₀, k₂, hk.booted, (Course.start.step hspawn True.intro).step htick True.intro, hrunning⟩

end Kernel

end KernelCore
