/-
# How processes come and go

Creating a process and ending one are sequences of steps in different parts of the kernel.  This module
says what a sequence comes to in terms of its parts, so that whatever is known of a part can be used of
the whole:

* `comes_create`: a process comes with a space and a stack of its own (`Comes`), or none does, and at most
  frames were taken and given back (`Fails`);
* `exists_create`, `create_eq_error_of_frames`, `create_eq_error_of_heap`: when it comes, and when not;
* `exists_exit_eq`: the running process gives back its space and its stack, and somebody else is
  scheduled;
* `exists_exit`: so an exit always succeeds.

That the space of a process is not loaded when it is taken down comes from the kernel's own space being
loaded before (`Kernel.bereft`).
-/
import KernelCore.Proofs.Heap.Room
import KernelCore.Proofs.Kernel.Balance
import KernelCore.Proofs.Paging.Spaces

namespace KernelCore

namespace Kernel

variable {k k' k'' : Kernel} {base pid stack : Nat} {p : Process} {space : AddressSpace} {vm : Vm}
  {heap : Heap} {slot : Fin maxProcesses}

/-- The page of the data that every process has. -/
def dataPage : Page := .containing processDataStart

/-! ## 1. Coming -/

/-- **A process comes**: with a space of its own and a stack of its own, in the first free slot, under the
next number and at the end of the line. -/
structure Comes (k k' : Kernel) (entry : UInt64) (name : String) (p : Process) : Prop where
  space : Vm.createSpaceWith dataPage k.vm = .ok p.space k'.vm
  stack : allocStack k.heap k.returnTarget = .ok (p.stack, k'.heap)
  process : p = { Process.build k.processes.nextPid name entry p.space p.stack with state := .ready }
  table : ∃ slot ready, k.processes.freeSlot? = some slot ∧ ready.pids = k.processes.ready.pids ++ [p.pid] ∧
    k'.processes = { k.processes.place slot p with ready, nextPid := p.pid + 1 }
  trap : k'.trap = k.trap
  console : k'.console = k.console

/-- **No process comes.**  At most a space was taken, and went back. -/
structure Fails (k k' : Kernel) : Prop where
  rest : k' = { k with vm := k'.vm }
  vm : k'.vm = k.vm ∨ (∃ e, Vm.createSpaceWith dataPage k.vm = .error (.refused e) k'.vm) ∨
    ∃ space vm n, Vm.createSpaceWith dataPage k.vm = .ok space vm ∧ Vm.destroySpace space vm = .ok n k'.vm

theorem Comes.pid_eq {entry : UInt64} {name : String} (h : k.Comes k' entry name p) :
    p.pid = k.processes.nextPid := by
  rw [h.process]
  rfl

/-- What the process has comes to the rest. -/
theorem Comes.holdings {entry : UInt64} {name : String} (h : k.Comes k' entry name p) :
    k'.processes.holdings.Perm (p.holding :: k.processes.holdings) := by
  obtain ⟨slot, ready, hslot, -, hprocesses⟩ := h.table
  rw [hprocesses]
  exact ProcessTable.holdings_place (ProcessTable.isNone_of_freeSlot? hslot) p

theorem buildSpace_of_ok (hspace : Vm.createSpaceWith dataPage k.vm = .ok space vm) :
    buildSpace k = .ok space { k with vm } := by
  unfold buildSpace onVm
  rw [show Vm.createSpaceWith (.containing processDataStart) k.vm = .ok space vm from hspace]

theorem buildSpace_of_error {stop : Stop PagingError}
    (hspace : Vm.createSpaceWith dataPage k.vm = .error stop vm) :
    buildSpace k = .error (stop.mapError .ofPaging) { k with vm } := by
  unfold buildSpace onVm
  rw [show Vm.createSpaceWith (.containing processDataStart) k.vm = .error stop vm from hspace]

/-- A new space, which is not the one that is loaded. -/
theorem furnished_of_createSpaceWith (hs : k.Settled) (hb : k.Balanced base)
    (hspace : Vm.createSpaceWith dataPage k.vm = .ok space vm) :
    k.Furnished { k with vm } base space :=
  (furnished_buildSpace hs hb).of_eq_ok (buildSpace_of_ok hspace)

/-- A space that was taken can be given back. -/
theorem exists_destroySpace_of_create (hs : k.Settled) (hb : k.Balanced base)
    (hspace : Vm.createSpaceWith dataPage k.vm = .ok space vm) :
    ∃ n vm', Vm.destroySpace space vm = .ok n vm' := by
  have hf := furnished_of_createSpaceWith hs hb hspace
  obtain ⟨pool, hgone, -⟩ := Vm.exists_destroySpace hf.frames (hf.active_ne hs)
  exact ⟨_, _, hgone⟩

theorem comes_buildSpace (k : Kernel) : Outcome (buildSpace k)
    (fun space k₁ => Vm.createSpaceWith dataPage k.vm = .ok space k₁.vm ∧ k₁ = { k with vm := k₁.vm })
    fun _ k₁ => k.Fails k₁ := by
  match hspace : Vm.createSpaceWith dataPage k.vm with
  | .ok space vm => exact .of_ok (buildSpace_of_ok hspace) ⟨rfl, rfl⟩
  | .error (.refused e) vm =>
    exact .of_refused (buildSpace_of_error hspace) ⟨rfl, Or.inr (Or.inl ⟨e, hspace⟩)⟩
  | .error (.halted _) vm => exact .of_halted (buildSpace_of_error hspace)

theorem comes_buildStack (hs : k.Settled) (hb : k.Balanced base)
    (hspace : Vm.createSpaceWith dataPage k.vm = .ok space vm) : Outcome (buildStack space { k with vm })
      (fun stack k₁ => allocStack k.heap k.returnTarget = .ok (stack, k₁.heap) ∧
        k₁ = { k with vm, heap := k₁.heap })
      fun _ k₁ => k.Fails k₁ := by
  unfold buildStack
  dsimp only
  match hstack : allocStack k.heap k.returnTarget with
  | .ok (stack, heap) => exact ⟨rfl, rfl⟩
  | .error (.refused e) =>
    obtain ⟨n, vm', hgone⟩ := exists_destroySpace_of_create hs hb hspace
    have hback : onVm ProcessError.ofPaging (Vm.destroySpace space) { k with vm } =
        .ok n { k with vm := vm' } := by
      unfold onVm
      dsimp only
      rw [hgone]
    refine Outcome.bind (P := fun _ k₁ => k.Fails k₁) (.of_ok hback ⟨rfl, Or.inr (Or.inr ?_)⟩) fun _ _ h => h
    exact ⟨space, vm, n, hspace, hgone⟩
  | .error (.halted _) => exact True.intro

/-- **Creating a process**: it comes, or nothing stays of the attempt. -/
theorem comes_create (hs : k.Settled) (hb : k.Balanced base) (entry : UInt64) (name : String) :
    Outcome (create entry name k) (fun pid k' => ∃ p, p.pid = pid ∧ k.Comes k' entry name p)
      fun _ k' => k.Fails k' := by
  have hnothing : k.Fails k := ⟨rfl, Or.inl rfl⟩
  unfold create
  cases hslot : k.processes.freeSlot? with
  | none => exact hnothing
  | some slot =>
    dsimp only
    split
    · exact hnothing
    refine (comes_buildSpace k).bind fun space k₁ ⟨hspace, h₁⟩ => ?_
    rw [h₁]
    refine (comes_buildStack hs hb hspace).bind fun stack k₂ ⟨hstack, h₂⟩ => ?_
    rw [h₂]
    unfold enroll
    dsimp only
    split
    · exact True.intro
    obtain ⟨ready, hpush, hready⟩ := ProcessTable.Consistent.exists_push (t := k.processes)
      (hs.consistent.length_ready_lt_of_free (ProcessTable.isNone_of_freeSlot? hslot)) k.processes.nextPid
    refine Outcome.bind (P := fun _ k₃ => k₃ = { k with
      vm := k₁.vm, heap := k₂.heap, processes :=
        { k.processes with nextPid := k.processes.nextPid + 1, ready } }) ?_ ?_
    · exact .of_ok (enqueue_eq hpush) rfl
    · rintro _ _ rfl
      exact ⟨{ Process.build k.processes.nextPid name entry space stack with state := .ready }, rfl,
        hspace, hstack, rfl, ⟨slot, ready, hslot, hready, rfl⟩, rfl, rfl⟩

/-! ## 2. When a process comes -/

/-- Without a slot there is no process. -/
theorem create_of_full (hfull : k.processes.freeSlot? = none) (entry : UInt64) (name : String) :
    create entry name k = .error (.refused .tableFull) k := by
  unfold create
  rw [hfull]
  rfl

/-- If there is a slot, there is room in the line, and the steps are taken one after the other. -/
theorem create_eq (hc : k.processes.Consistent) (hslot : k.processes.freeSlot? = some slot)
    (entry : UInt64) (name : String) : create entry name k =
      (buildSpace >>= fun space => buildStack space >>= fun stack =>
        enroll slot entry name space stack) k := by
  have hlength := hc.length_ready_lt_of_free (ProcessTable.isNone_of_freeSlot? hslot)
  have hfull : k.processes.ready.isFull = false := by
    unfold ReadyQueue.isFull ReadyQueue.size
    simpa using Nat.ne_of_lt hlength
  unfold create
  rw [hslot]
  simp only [hfull, Bool.false_eq_true, if_false]

theorem allocStack_of_ok (hstack : k.heap.alloc processStackSize = .ok (stack, heap)) :
    allocStack k.heap k.returnTarget = .ok (stack, { heap with
      memory := heap.memory.setWord (Process.returnSlot stack) k.returnTarget }) := by
  unfold allocStack
  rw [hstack]
  rfl

/-- **A process is created** if there are a slot, a number, frames and a stack for it. -/
theorem exists_create (hs : k.Settled) (hslot : k.processes.freeSlot? = some slot)
    (hnumber : k.processes.nextPid + 1 < pidLimit) (htotal : k.vm.ram.pool.total ≤ maxFrames)
    (hsupply : k.vm.ram.pool.Supplies 5) (hroom : ∃ r, k.heap.alloc processStackSize = .ok r)
    (entry : UInt64) (name : String) : ∃ k' p,
      create entry name k = .ok k.processes.nextPid k' ∧ k.Comes k' entry name p := by
  obtain ⟨space, vm, hspace, -⟩ := Vm.exists_createSpaceWith
    (show dataPage.isUpper = false by decide) htotal hsupply
  obtain ⟨⟨stack, heap⟩, halloc⟩ := hroom
  have hstack := allocStack_of_ok halloc
  generalize { heap with memory := _ } = heap at hstack
  have hlength := hs.consistent.length_ready_lt_of_free (ProcessTable.isNone_of_freeSlot? hslot)
  obtain ⟨ready, hpush, hready⟩ :=
    ProcessTable.Consistent.exists_push (t := k.processes) hlength k.processes.nextPid
  have hbuild : buildStack space { k with vm } = .ok stack { k with vm, heap } := by
    unfold buildStack
    simp only [hstack]
  let numbered : Kernel := { k with vm, heap, processes :=
    { k.processes with nextPid := k.processes.nextPid + 1 } }
  have henqueue : enqueue k.processes.nextPid numbered =
      .ok () (numbered.mapProcesses ({ · with ready })) := enqueue_eq hpush
  let p : Process := { Process.build k.processes.nextPid name entry space stack with state := .ready }
  obtain ⟨k', henroll, hcomes⟩ : ∃ k', enroll slot entry name space stack { k with vm, heap } =
      .ok k.processes.nextPid k' ∧ k.Comes k' entry name p := by
    unfold enroll
    rw [if_neg (Nat.not_le_of_lt hnumber)]
    exact ⟨_, bind_of_ok henqueue, hspace, hstack, rfl, ⟨slot, ready, hslot, hready, rfl⟩, rfl, rfl⟩
  refine ⟨k', p, ?_, hcomes⟩
  rw [create_eq hs.consistent hslot]
  exact (bind_of_ok (buildSpace_of_ok hspace)).trans ((bind_of_ok hbuild).trans henroll)

/-- **Without the frames** for a space there is no process. -/
theorem create_eq_error_of_frames (hs : k.Settled) (hb : k.Balanced base)
    (hslot : k.processes.freeSlot? = some slot) (hshort : ¬k.vm.ram.pool.Supplies 5) (entry : UInt64)
    (name : String) : ∃ k', create entry name k = .error (.refused .outOfMemory) k' := by
  obtain ⟨vm, hspace⟩ := Vm.createSpaceWith_eq_error (show dataPage.isUpper = false by decide) hb.frames
    (fun _ => hs.active_mem) hshort
  rw [create_eq hs.consistent hslot]
  exact ⟨_, bind_of_error (buildSpace_of_error hspace)⟩

/-- **Without room for a stack** there is no process. -/
theorem create_eq_error_of_heap (hs : k.Settled) (hb : k.Balanced base)
    (hslot : k.processes.freeSlot? = some slot) (hsupply : k.vm.ram.pool.Supplies 5)
    (hshort : k.heap.alloc processStackSize = .error (.refused .outOfMemory)) (entry : UInt64)
    (name : String) : ∃ k', create entry name k = .error (.refused .outOfMemory) k' := by
  obtain ⟨space, vm, hspace, -⟩ := Vm.exists_createSpaceWith
    (show dataPage.isUpper = false by decide) hb.frames.total_le hsupply
  obtain ⟨n, vm', hgone⟩ := exists_destroySpace_of_create hs hb hspace
  have hbuild := buildSpace_of_ok hspace
  have hstack : buildStack space { k with vm } = .error (.refused .outOfMemory) { k with vm := vm' } := by
    have hback : onVm ProcessError.ofPaging (Vm.destroySpace space) { k with vm } =
        .ok n { k with vm := vm' } := by
      unfold onVm
      dsimp only
      rw [hgone]
    have hstack : allocStack k.heap k.returnTarget = .error (.refused .outOfMemory) := by
      unfold allocStack
      rw [hshort]
      rfl
    unfold buildStack
    simp only [hstack]
    exact bind_of_ok hback
  rw [create_eq hs.consistent hslot]
  exact ⟨_, (bind_of_ok hbuild).trans (bind_of_error hstack)⟩

/-! ## 3. Going -/

/-- The kernel without the running process, with another pool and another heap. -/
def bereft (k : Kernel) (p : Process) (pool : FramePool) (heap : Heap) : Kernel :=
  { k.withdraw p.pid with vm := { k.vm.load k.vm.kernel.root with ram := { k.vm.ram with pool } }, heap }

/-- Nothing is written and nobody gets anything: memory and the kernel's space are the same, and
whatever a process has it had. -/
structure Frugal (k k' : Kernel) : Prop where
  memory : k'.vm.ram.memory = k.vm.ram.memory
  kernel : k'.vm.kernel = k.vm.kernel
  holdings : k'.processes.holdings ⊆ k.processes.holdings

theorem Frugal.trans (h : k.Frugal k') (h' : k'.Frugal k'') : k.Frugal k'' :=
  ⟨h'.memory.trans h.memory, h'.kernel.trans h.kernel, fun _ hin => h.holdings (h'.holdings hin)⟩

theorem Reschedules.frugal (h : k.Reschedules k') : k.Frugal k' :=
  ⟨by rw [h.ram], h.kernel, by rw [h.holdings]; exact fun _ hin => hin⟩

/-- **A space that is not the kernel's can be taken down** while the kernel's is loaded. -/
theorem exists_destroySpace_of_owned {rest : List Nat}
    (h : k.vm.ram.pool.Holds base (space.ownedFrames ++ rest)) (hkernel : k.vm.kernel.root ∈ rest) :
    ∃ pool, Vm.destroySpace space (k.vm.load k.vm.kernel.root) = .ok space.ownedFrames.length
      { k.vm.load k.vm.kernel.root with ram := { k.vm.ram with pool } } ∧ pool.Holds base rest := by
  have hheld : (k.vm.load k.vm.kernel.root).ram.pool.Holds base (space.ownedFrames ++ rest) := h
  refine Vm.exists_destroySpace hheld fun hloaded => ?_
  have hsame : k.vm.kernel.root = space.root := Option.some.inj hloaded
  exact List.disjoint_of_nodup_append h.nodup List.mem_cons_self (hsame ▸ hkernel)

/-- Nobody runs in it, and it is settled. -/
theorem settled_bereft (hs : k.Settled) (hcur : k.processes.current = some p.pid) (pool : FramePool)
    (heap : Heap) : (k.bereft p pool heap).Settled :=
  .of_idle (hs.consistent.erase hcur) rfl (Or.inr rfl)

/-- **What ending the running process comes to**: its space is taken down while the kernel's is loaded, its
stack goes back to the heap, and the next process is picked. -/
theorem exists_exit_eq (hs : k.Settled) (hb : k.Balanced base) (hcur : k.processes.current = some pid)
    (code : Int32) : ∃ p n pool heap, k.processes.find? pid = some p ∧
      Vm.destroySpace p.space (k.vm.load k.vm.kernel.root) = .ok n (k.bereft p pool heap).vm ∧
        k.heap.free p.stack = .ok heap ∧ (k.bereft p pool heap).Balanced base ∧
          exit pid code k = schedule ((k.bereft p pool heap).reportExit p code n) := by
  obtain ⟨p, hp, -⟩ := hs.consistent.exists_current hcur
  obtain rfl := ProcessTable.pid_of_find? hp
  have hholdings := ProcessTable.holdings_erase hs.consistent.distinct hp
  have hframes : k.owned.Perm (p.space.ownedFrames ++
      (k.vm.kernel.ownedFrames ++ (k.processes.erase p.pid).ownedFrames)) := by
    rw [owned, ProcessTable.ownedFrames_eq, ProcessTable.ownedFrames_eq]
    exact ((hholdings.flatMap_right (·.space.ownedFrames)).append_left _).trans
      (List.perm_append_comm_assoc _ _ _)
  have hstacks : k.processes.stackAddresses.Perm (p.stack :: (k.processes.erase p.pid).stackAddresses) := by
    rw [ProcessTable.stackAddresses_eq, ProcessTable.stackAddresses_eq]
    exact hholdings.map Holding.stack
  obtain ⟨pool, hgone, hpool⟩ := exists_destroySpace_of_owned (hb.frames.perm hframes)
    (List.mem_append_left _ List.mem_cons_self)
  obtain ⟨heap, hfree, hheap⟩ := (hb.heap.perm hstacks).exists_free
  have hvm : onVm ProcessError.ofPaging (Vm.destroySpace p.space) (k.withdraw p.pid) =
      .ok p.space.ownedFrames.length { k.withdraw p.pid with vm := (k.bereft p pool heap).vm } := by
    unfold onVm
    rw [show Vm.destroySpace p.space (k.withdraw p.pid).vm = _ from hgone]
    rfl
  have hreclaim : reclaim { p with state := .terminated } (k.withdraw p.pid) =
      .ok p.space.ownedFrames.length (k.bereft p pool heap) := by
    refine (bind_of_ok hvm).trans (bind_of_ok (a := ()) ?_)
    unfold onHeap
    simp only [withdraw, hfree]
    rfl
  refine ⟨p, _, pool, heap, hp, hgone, hfree, ⟨hpool, hheap⟩, ?_⟩
  unfold exit
  rw [if_neg (by simp [hcur]), hp]
  exact bind_of_ok hreclaim

/-- **An exit of the running process always succeeds**, and everything that the process had goes
back. -/
theorem exists_exit (hs : k.Settled) (hb : k.Balanced base) (hcur : k.processes.current = some pid)
    (code : Int32) : ∃ (k' : Kernel) (p : Process), exit pid code k = .ok () k' ∧ k'.Settled ∧
      k'.Balanced base ∧ k.Frugal k' ∧ p.pid = pid ∧
        k.processes.holdings.Perm (p.holding :: k'.processes.holdings) := by
  obtain ⟨p, n, pool, heap, hp, -, -, hb₁, hexit⟩ := exists_exit_eq hs hb hcur code
  obtain rfl := ProcessTable.pid_of_find? hp
  have hs₁ := settled_bereft hs hcur pool heap
  have hholdings := ProcessTable.holdings_erase hs.consistent.distinct hp
  have hfrugal : k.Frugal ((k.bereft p pool heap).reportExit p code n) :=
    ⟨rfl, rfl, fun _ hin => hholdings.mem_iff.mpr (List.mem_cons_of_mem _ hin)⟩
  have hsame : (k.bereft p pool heap).SameProcesses ((k.bereft p pool heap).reportExit p code n) :=
    ⟨rfl, rfl, rfl⟩
  obtain ⟨k', hok, hs', hr⟩ := (hs₁.of_sameProcesses hsame).exists_schedule
  have hb' : ((k.bereft p pool heap).reportExit p code n).Balanced base := ⟨hb₁.frames, hb₁.heap⟩
  refine ⟨k', p, hexit.trans hok, hs', hb'.reschedule hr, hfrugal.trans hr.frugal, rfl, ?_⟩
  rw [hr.holdings]
  exact hholdings

/-- Only the running process can be ended. -/
theorem exit_of_ne (hne : k.processes.current ≠ some pid) (code : Int32) :
    exit pid code k = .error (.refused (.notCurrent pid)) k := by
  unfold exit
  rw [if_pos hne]
  rfl

end Kernel

end KernelCore
