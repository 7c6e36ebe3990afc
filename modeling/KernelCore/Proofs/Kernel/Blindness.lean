/-
# What is done without a look at memory

Scheduling, charging ticks, ending a process and reporting errors are done on the process table, the heap and
the pool.  None of it looks at physical memory or at what has been printed, and none of it changes them
(`Kernel.Blind`).  What is left is short: making a space writes tables, and a greeting or a `write` prints.

A kernel over another memory and another console is the kernel behind a veil (`Kernel.veil`); what is blind
does the same to both.

* `blind_schedule`, `blind_countTick`, `blind_exit`: what happens to processes;
* `blind_fatal`: the kernel's last words;
* `alike_create`: creating a process is blind but for its space.
-/
import KernelCore.Kernel.Interrupt
import KernelCore.Proofs.Kernel.Lifecycle
import KernelCore.Proofs.Paging.Twins

namespace KernelCore

namespace Kernel

variable {ε ε' α β : Type} {m n : Memory} {c d : List UInt8} {k l : Kernel}

/-! ## 1. Behind a veil -/

/-- The kernel over another memory and another console. -/
def veil (k : Kernel) (n : Memory) (d : List UInt8) : Kernel :=
  { k with vm := k.vm.withMemory n, console := d }

/-- One kernel over two memories and two consoles. -/
def Veiled (m n : Memory) (c d : List UInt8) (k l : Kernel) : Prop :=
  k.vm.ram.memory = m ∧ k.console = c ∧ l = k.veil n d

/-- **The operation is blind**: it looks neither at memory nor at the console, and changes neither. -/
def Blind (op : EStateM ε Kernel α) : Prop := ∀ m n c d k l, Veiled m n c d k l →
  Alike (op k) (op l) (fun _ => Veiled m n c d) (Veiled m n c d)

theorem Blind.bind {x : EStateM ε Kernel α} {f : α → EStateM ε Kernel β} (hx : Blind x)
    (hf : ∀ a, Blind (f a)) : Blind (x >>= f) :=
  fun m n c d k l h => (hx m n c d k l h).bind fun a k₁ l₁ h₁ => hf a m n c d k₁ l₁ h₁

/-- What is blind keeps memory and the console. -/
theorem Blind.keeps {op : EStateM ε Kernel α} (hop : Blind op) {a : α} {k' : Kernel} (hok : op k = .ok a k') :
    k'.vm.ram.memory = k.vm.ram.memory ∧ k'.console = k.console := by
  obtain ⟨-, -, hmemory, hconsole, -⟩ :=
    (hop _ k.vm.ram.memory _ k.console k k ⟨rfl, rfl, rfl⟩).exists_ok hok
  exact ⟨hmemory, hconsole⟩

theorem blind_pure (a : α) : Blind (pure a : EStateM ε Kernel α) := fun _ _ _ _ _ _ h => ⟨rfl, h⟩

theorem blind_throw (e : ε) : Blind (throw e : EStateM ε Kernel α) := fun _ _ _ _ _ _ h => ⟨rfl, h⟩

theorem blind_refuse (e : ε) : Blind (refuse e : Op ε α) := fun _ _ _ _ _ _ h => ⟨rfl, h⟩

/-- A change of the rest of the state. -/
theorem blind_modify {f : Kernel → Kernel} (hf : ∀ k n d,
    Veiled k.vm.ram.memory n k.console d (f k) (f (k.veil n d))) :
    Blind (modify f : EStateM ε Kernel PUnit) := by
  rintro m n c d k _ ⟨rfl, rfl, rfl⟩
  exact ⟨rfl, hf k n d⟩

theorem blind_report (level : Level) (source : Source) (text : String) :
    Blind (modify (·.report level source text) : EStateM ε Kernel PUnit) :=
  blind_modify fun _ _ _ => ⟨rfl, rfl, rfl⟩

/-- An operation of virtual memory that is blind. -/
theorem blind_onVm {op : Vm.Op α} (hop : Vm.Blind op) (f : PagingError → ε) : Blind (onVm f op) := by
  rintro m n c d k _ ⟨rfl, rfl, rfl⟩
  have hends := hop _ n k.vm _ ⟨rfl, rfl⟩
  unfold onVm
  dsimp only [veil]
  refine hends.elim ?_ ?_
  · rintro a vm _ ⟨hmemory, rfl⟩
    exact ⟨rfl, hmemory, rfl, rfl⟩
  · rintro stop vm _ ⟨hmemory, rfl⟩
    exact ⟨rfl, hmemory, rfl, rfl⟩

theorem blind_onHeap (f : HeapError → ε) (op : Heap → Except (Stop HeapError) (α × Heap)) :
    Blind (onHeap f op) := by
  rintro m n c d k _ ⟨rfl, rfl, rfl⟩
  unfold onHeap
  dsimp only [veil]
  cases op k.heap with
  | error stop => exact ⟨rfl, rfl, rfl, rfl⟩
  | ok r => exact ⟨rfl, rfl, rfl, rfl⟩

theorem Blind.onProcesses {op : Op ProcessError α} (hop : Blind op) : Blind (onProcesses op) := by
  intro m n c d k l h
  unfold Kernel.onProcesses
  exact (hop m n c d k l h).elim (fun _ _ _ h => ⟨rfl, h⟩) fun _ _ _ h => ⟨rfl, h⟩

/-! ## 2. Processes -/

theorem blind_enqueue (pid : Nat) : Blind (enqueue pid) := by
  rintro m n c d k _ ⟨rfl, rfl, rfl⟩
  unfold enqueue
  dsimp only [veil]
  cases k.processes.ready.push pid with
  | error e => exact ⟨rfl, rfl, rfl, rfl⟩
  | ok ready => exact ⟨rfl, rfl, rfl, rfl⟩

theorem blind_renewQuantum (pid : Nat) : Blind (renewQuantum pid) := by
  rintro m n c d k _ ⟨rfl, rfl, rfl⟩
  unfold renewQuantum
  exact .ite Iff.rfl (fun _ => ⟨rfl, rfl, rfl, rfl⟩) fun _ => ⟨rfl, rfl, rfl, rfl⟩

theorem blind_preempt : Blind preempt := by
  rintro m n c d k _ ⟨rfl, rfl, rfl⟩
  unfold preempt
  dsimp only [veil]
  cases k.processes.current with
  | none => exact ⟨rfl, rfl, rfl, rfl⟩
  | some pid =>
    refine .ite Iff.rfl (fun _ => ⟨rfl, rfl, rfl, rfl⟩) fun _ => ?_
    exact blind_enqueue pid _ n _ d _ _ ⟨rfl, rfl, rfl⟩

theorem blind_dispatchTo (pid : Nat) : Blind (dispatchTo pid) := by
  rintro m n c d k _ ⟨rfl, rfl, rfl⟩
  unfold dispatchTo
  dsimp only [veil]
  cases k.processes.find? pid with
  | none => exact ⟨rfl, rfl, rfl, rfl⟩
  | some p => exact .ite Iff.rfl (fun _ => ⟨rfl, rfl, rfl, rfl⟩) fun _ => ⟨rfl, rfl, rfl, rfl⟩

theorem blind_dispatch : Blind dispatch := by
  rintro m n c d k _ ⟨rfl, rfl, rfl⟩
  unfold dispatch
  dsimp only [veil]
  cases k.processes.ready.pop? with
  | none => exact ⟨rfl, rfl, rfl, rfl⟩
  | some r => exact blind_dispatchTo r.1 _ n _ d _ _ ⟨rfl, rfl, rfl⟩

theorem blind_schedule : Blind schedule := by
  rintro m n c d k _ ⟨rfl, rfl, rfl⟩
  unfold schedule
  refine .ite Iff.rfl (fun _ => ?_) fun _ => ?_
  · dsimp only [veil]
    cases k.processes.current with
    | none => exact ⟨rfl, rfl, rfl, rfl⟩
    | some pid => exact blind_renewQuantum pid _ n _ d _ _ ⟨rfl, rfl, rfl⟩
  · exact blind_preempt.bind (fun _ => blind_dispatch) _ n _ d _ _ ⟨rfl, rfl, rfl⟩

theorem blind_chargeTick (pid : Nat) : Blind (chargeTick pid) := by
  rintro m n c d k _ ⟨rfl, rfl, rfl⟩
  unfold chargeTick
  dsimp only [veil]
  cases k.processes.find? pid with
  | none => exact ⟨rfl, rfl, rfl, rfl⟩
  | some p =>
    refine .ite Iff.rfl (fun _ => ⟨rfl, rfl, rfl, rfl⟩) fun _ => ?_
    refine .ite Iff.rfl (fun _ => ?_) fun _ => ⟨rfl, rfl, rfl, rfl⟩
    exact blind_schedule _ n _ d _ _ ⟨rfl, rfl, rfl⟩

theorem blind_countTick : Blind countTick := by
  rintro m n c d k _ ⟨rfl, rfl, rfl⟩
  unfold countTick
  refine .ite Iff.rfl (fun _ => ⟨rfl, rfl, rfl, rfl⟩) fun _ => ?_
  dsimp only [veil]
  cases k.processes.current with
  | none =>
    refine .ite Iff.rfl (fun _ => ⟨rfl, rfl, rfl, rfl⟩) fun _ => ?_
    exact blind_schedule _ n _ d _ _ ⟨rfl, rfl, rfl⟩
  | some pid => exact blind_chargeTick pid _ n _ d _ _ ⟨rfl, rfl, rfl⟩

theorem blind_reclaim (p : Process) : Blind (reclaim p) :=
  (blind_onVm (Vm.blind_destroySpace p.space) _).bind fun released =>
    (blind_onHeap _ _).bind fun _ => blind_pure released

theorem blind_exit (pid : Nat) (code : Int32) : Blind (exit pid code) := by
  rintro m n c d k _ ⟨rfl, rfl, rfl⟩
  unfold exit
  refine .ite Iff.rfl (fun _ => ⟨rfl, rfl, rfl, rfl⟩) fun _ => ?_
  dsimp only [veil]
  cases k.processes.find? pid with
  | none => exact ⟨rfl, rfl, rfl, rfl⟩
  | some p =>
    refine ((blind_reclaim _).bind fun released => Blind.bind ?_ fun _ => blind_schedule) _ n _ d _ _
      ⟨rfl, rfl, rfl⟩
    exact blind_modify fun _ _ _ => ⟨rfl, rfl, rfl⟩

theorem blind_enroll (slot : Fin maxProcesses) (entry : UInt64) (name : String) (space : AddressSpace)
    (stack : Nat) : Blind (enroll slot entry name space stack) := by
  rintro m n c d k _ ⟨rfl, rfl, rfl⟩
  unfold enroll
  refine .ite Iff.rfl (fun _ => ⟨rfl, rfl, rfl, rfl⟩) fun _ => ?_
  refine ((blind_enqueue k.processes.nextPid).bind fun _ => Blind.bind ?_ fun _ => blind_pure _) _ n _ d _ _
    ⟨rfl, rfl, rfl⟩
  exact blind_modify fun _ _ _ => ⟨rfl, rfl, rfl⟩

theorem blind_buildStack (space : AddressSpace) : Blind (buildStack space) := by
  rintro m n c d k _ ⟨rfl, rfl, rfl⟩
  unfold buildStack
  dsimp only [veil]
  cases allocStack k.heap k.returnTarget with
  | ok r => exact ⟨rfl, rfl, rfl, rfl⟩
  | error stop =>
    cases stop with
    | refused e =>
      refine (blind_onVm (Vm.blind_destroySpace space) _).bind (fun _ => ?_) _ n _ d _ _ ⟨rfl, rfl, rfl⟩
      exact blind_refuse (ProcessError.ofHeap e)
    | halted h => exact ⟨rfl, rfl, rfl, rfl⟩

/-! ## 3. Last words -/

theorem blind_inform (text : String) : Blind (inform text) := blind_report _ _ _

theorem blind_ofHalt (r : Except Halt α) : Blind (ofHalt r) := by
  cases r with
  | ok a => exact blind_pure a
  | error halt => exact blind_throw halt

theorem blind_forM (f : α → HaltOp Unit) (hf : ∀ a, Blind (f a)) (xs : List α) : Blind (xs.forM f) := by
  induction xs with
  | nil => exact blind_pure _
  | cons x xs ih => exact (hf x).bind fun _ => ih

/-- The counts that are written down are not in memory. -/
theorem blind_dumpStats : Blind dumpStats := by
  rintro m n c d k _ ⟨rfl, rfl, rfl⟩
  have hrest : Blind (do
      inform (describeFrames k.vm.ram.pool.stats)
      inform (describeHeap (← ofHalt k.heap.stats))
      inform (describeTable k.processes)
      k.processes.live.forM fun p => inform (describeProcess p) : HaltOp Unit) := by
    refine (blind_inform _).bind fun _ => (blind_ofHalt _).bind fun _ => (blind_inform _).bind fun _ => ?_
    refine (blind_inform _).bind fun _ => ?_
    exact blind_forM _ (fun _ => blind_inform _) _
  exact hrest _ n _ d k _ ⟨rfl, rfl, rfl⟩

theorem blind_fatal (e : KernelError) : Blind (fatal e : HaltOp α) :=
  (blind_ofHalt _).bind fun _ => (blind_report _ _ _).bind fun _ =>
    blind_dumpStats.bind fun _ => blind_throw _

/-! ## 4. Creating a process -/

/-- **A process is created** alike, in two kernels that agree on the root of the kernel's space.  Afterwards
the tables of its space hold the same, and every other frame what it held. -/
theorem alike_create (hroot : k.vm.ram.memory.SameFrame n k.vm.kernel.root) (entry : UInt64) (name : String) :
    Alike (create entry name k) (create entry name (k.veil n d))
      (fun _ k' l' => ∃ space vm m₁ n₁, Vm.createSpaceWith dataPage k.vm = .ok space vm ∧
        Memory.Joint k.vm.ram.memory n space.tableFrames m₁ n₁ ∧ Veiled m₁ n₁ k.console d k' l')
      fun k' l' => ∃ tables m₁ n₁, Memory.Joint k.vm.ram.memory n tables m₁ n₁ ∧
        Veiled m₁ n₁ k.console d k' l' := by
  have hsame : ∃ tables m₁ n₁, Memory.Joint k.vm.ram.memory n tables m₁ n₁ ∧
      Veiled m₁ n₁ k.console d k (k.veil n d) := ⟨[], _, n, .start _ _, rfl, rfl, rfl⟩
  unfold create
  dsimp only [veil]
  cases k.processes.freeSlot? with
  | none => exact ⟨rfl, hsame⟩
  | some slot =>
    refine .ite Iff.rfl (fun _ => ⟨rfl, hsame⟩) fun _ => ?_
    have hspace : Alike (buildSpace k) (buildSpace (k.veil n d))
        (fun space k' l' => ∃ vm m₁ n₁, Vm.createSpaceWith dataPage k.vm = .ok space vm ∧
          Memory.Joint k.vm.ram.memory n space.tableFrames m₁ n₁ ∧ Veiled m₁ n₁ k.console d k' l')
        fun k' l' => ∃ tables m₁ n₁, Memory.Joint k.vm.ram.memory n tables m₁ n₁ ∧
          Veiled m₁ n₁ k.console d k' l' := by
      have hends := Vm.alike_createSpaceWith (show dataPage.isUpper = false by decide) hroot
      rcases hends.cases with ⟨space, vm, _, hr, hr', n₁, rfl, hjoint⟩ |
        ⟨stop, vm, _, hr, hr', tables, n₁, rfl, hjoint⟩
      · exact .of_ok (buildSpace_of_ok hr) (buildSpace_of_ok (k := k.veil n d) hr')
          ⟨vm, _, n₁, hr, hjoint, rfl, rfl, rfl⟩
      · exact .of_error (buildSpace_of_error hr) (buildSpace_of_error (k := k.veil n d) hr')
          ⟨tables, _, n₁, hjoint, rfl, rfl, rfl⟩
    refine hspace.bind fun space k₁ l₁ h₁ => ?_
    obtain ⟨vm, m₁, n₁, hcreated, hjoint, hveiled⟩ := h₁
    refine (((blind_buildStack space).bind fun stack => blind_enroll slot entry name space stack) m₁ n₁ _ d
      k₁ l₁ hveiled).mono ?_ ?_
    · exact fun _ _ _ h => ⟨space, vm, m₁, n₁, hcreated, hjoint, h⟩
    · exact fun _ _ h => ⟨_, m₁, n₁, hjoint, h⟩

end Kernel

end KernelCore
