/-
# What calls do to what there is

Whatever is asked of the kernel, and whatever becomes of it, it comes to one of five things
(`Kernel.Effect`): the processor is handed on, a process comes, none comes, a process goes, or the kernel's
own space grows.  Which of them it is does not depend on the account that is kept, so the list is made once
(`effect_of_leads`), and an account needs one case for each.

* `Effect.trades`: frames are taken from the pool and given back one at a time, and so the records of the
  pool go on agreeing (`regular_of_proceeds`);
* `Effect.holds`: whoever is none of the owners keeps his frames;
* `Effect.lasts`, `lasts_of_proceeds`: what a process has, it has until it ends, the block of its stack
  included, and no number is given twice.
-/
import KernelCore.Proofs.Frame.Supply
import KernelCore.Proofs.Kernel.Courses
import KernelCore.Proofs.Paging.Turnover

namespace KernelCore

namespace Kernel

variable {k₀ k k' k'' : Kernel} {base : Nat} {others : List Nat} {map : MemoryMap} {bootRoot : Option Nat}
  {call : KernelCall} {along : Kernel → Prop} {p : Process} {pid : Nat}

/-! ## 1. What a call comes to -/

/-- **A process goes**: its space is taken down while the kernel's is loaded, and its stack goes back to the
heap. -/
structure Goes (k k' : Kernel) (p : Process) : Prop where
  space : ∃ n pool, Vm.destroySpace p.space (k.vm.load k.vm.kernel.root) =
    .ok n { k.vm.load k.vm.kernel.root with ram := { k.vm.ram with pool } } ∧
      k'.vm.ram = { k.vm.ram with pool }
  kernel : k'.vm.kernel = k.vm.kernel
  stack : k.heap.free p.stack = .ok k'.heap
  holdings : k.processes.holdings.Perm (p.holding :: k'.processes.holdings)
  nextPid : k'.processes.nextPid = k.processes.nextPid

/-- **The kernel's own space grows**, as far as it gets. -/
structure Grows (k k' : Kernel) : Prop where
  vm : ∃ start length, (∃ n, Vm.mapKernelRegion start length k.vm = .ok n k'.vm) ∨
    ∃ e, Vm.mapKernelRegion start length k.vm = .error (.refused e) k'.vm
  heap : k'.heap = k.heap
  processes : k'.processes = k.processes

/-- **What a call comes to.** -/
inductive Effect (k k' : Kernel) : Prop where
  | still : k.Reschedules k' → Effect k k'
  | comes {entry : UInt64} {name : String} {p : Process} : k.Comes k' entry name p → Effect k k'
  | fails : k.Fails k' → Effect k k'
  | goes {p : Process} : k.Goes k' p → Effect k k'
  | grows : k.Grows k' → Effect k k'

theorem Quiet.reschedules (h : k.Quiet k') : k.Reschedules k' :=
  ⟨by rw [h.vm], by rw [h.vm], h.heap, by rw [h.processes], by rw [h.processes], by rw [h.vm]; exact id⟩

theorem Effect.of_quiet (h : k.Quiet k') : k.Effect k' := .still h.reschedules

/-- An exit that is done has let the running process go. -/
theorem exists_goes_of_exit (hs : k.Settled) (hb : k.Balanced base) (hcur : k.processes.current = some pid)
    {code : Int32} (hok : exit pid code k = .ok () k') :
    ∃ p, k.processes.find? pid = some p ∧ k.Goes k' p := by
  obtain ⟨p, n, pool, heap, hp, hgone, hfree, hb₁, hexit⟩ := exists_exit_eq hs hb hcur code
  obtain rfl := ProcessTable.pid_of_find? hp
  have hs₁ : ((k.bereft p pool heap).reportExit p code n).Settled := .of_sameProcesses
    (settled_bereft hs hcur pool heap) ⟨rfl, rfl, rfl⟩
  obtain ⟨k₁, hok₁, -, hr⟩ := hs₁.exists_schedule
  cases (hexit.symm.trans hok).symm.trans hok₁
  refine ⟨p, hp, ⟨n, pool, hgone, hr.ram⟩, hr.kernel, ?_, ?_, hr.nextPid.symm⟩
  · rw [hr.heap]
    exact hfree
  · rw [hr.holdings]
    exact ProcessTable.holdings_erase hs.consistent.distinct hp

/-- **What serving a request comes to.**  One that is refused has no effect. -/
theorem effect_serve (h : k.InOrder base) (request : SyscallRequest) : Outcome (serve request k)
    (fun _ k' => k.Effect k') fun _ k' => k.Quiet k' := by
  unfold serve
  cases Syscall.ofNumber? request.number with
  | none => exact Quiet.refl k
  | some call =>
    cases call with
    | hello => exact .of_quiet ⟨rfl, rfl, rfl⟩
    | write =>
      exact (quiet_write request.first request.second k).mono (fun _ _ hq => .of_quiet hq) fun _ _ hq => hq
    | getpid => exact .of_quiet ⟨rfl, rfl, rfl⟩
    | yield =>
      have hleft : k.Quiet (k.leave 0) := ⟨rfl, rfl, rfl⟩
      obtain ⟨k', hok, -, hr⟩ := (h.quiet hleft).settled.exists_schedule
      exact .of_ok (onProcesses_of_ok hok) (.still (hleft.reschedules.trans hr))
    | exit =>
      rcases exitCurrent_cases h (exitCode request.first) with
        ⟨-, he⟩ | ⟨pid, text, k', hcur, hexit, hok, -, -⟩
      · exact .of_refused he (Quiet.refl k)
      · have hsaid : (k.report .debug .handlers text).InOrder base := h.quiet ⟨rfl, rfl, rfl⟩
        obtain ⟨p, -, hgoes⟩ := exists_goes_of_exit hsaid.settled hsaid.balanced hcur hexit
        exact .of_ok hok (.goes ⟨hgoes.space, hgoes.kernel, hgoes.stack, hgoes.holdings, hgoes.nextPid⟩)

/-- **What a call comes to, done or refused.** -/
theorem effect_of_leads (h : k.InOrder base) (hl : call.Leads k k') : k.Effect k' := by
  have hs := h.settled
  cases call with
  | spawn entry name =>
    refine of_leads hl (Outcome.bind (outcome_onProcesses ((comes_create hs h.balanced entry name).mono ?_ ?_))
      fun _ _ h => h)
    · rintro _ _ ⟨p, -, hcomes⟩
      exact .comes hcomes
    · exact fun _ _ => .fails
  | timerTick =>
    have hok := countTick_of_leads hs hl
    rcases countTick_cases hs with ⟨-, hhalt⟩ | ⟨k₁, hok₁, -, hr⟩
    · cases hok.symm.trans hhalt
    · cases hok.symm.trans hok₁
      exact .still hr
  | syscall =>
    rcases syscall_cases (eq_of_ofHaltOp hl) with hdone | ⟨e, k₁, text, hrefused, rfl⟩
    · exact (effect_serve h _).of_eq_ok hdone
    · have hquiet : k.Quiet k₁ := (effect_serve h _).of_eq_refused hrefused
      exact .of_quiet ⟨hquiet.vm, hquiet.heap, hquiet.processes⟩
  | block =>
    refine of_leads hl (outcome_onProcesses ?_)
    rcases block_cases hs with ⟨-, he⟩ | ⟨k', hok, -, hr⟩
    · exact .of_refused he (.of_quiet (Quiet.refl k))
    · exact .of_ok hok (.still hr)
  | unblock pid =>
    refine of_leads hl (outcome_onProcesses ?_)
    rcases unblock_cases hs pid with ⟨-, he⟩ | ⟨-, -, -, he⟩ | ⟨k', hok, -, hr⟩
    · exact .of_refused he (.of_quiet (Quiet.refl k))
    · exact .of_refused he (.of_quiet (Quiet.refl k))
    · exact .of_ok hok (.still hr)
  | mapRegion start length =>
    refine of_leads hl (Outcome.bind (P := fun _ k' => k.Effect k') ?_ fun _ _ h => h)
    unfold onVm
    match hmap : Vm.mapKernelRegion start length k.vm with
    | .ok n vm => exact .grows ⟨⟨start, length, Or.inl ⟨n, hmap⟩⟩, rfl, rfl⟩
    | .error (.refused e) vm => exact .grows ⟨⟨start, length, Or.inr ⟨e, hmap⟩⟩, rfl, rfl⟩
    | .error (.halted _) vm => exact True.intro

/-! ## 2. Frames -/

/-- **Frames are taken and given back** one at a time, whatever a call comes to. -/
theorem Effect.trades (h : k.Effect k') : k.vm.ram.pool.Trades k'.vm.ram.pool := by
  have hsame : k.vm.ram.pool.Trades k.vm.ram.pool := .refl
  have hloaded : k.vm.ram.pool.Trades (k.vm.load k.vm.kernel.root).ram.pool := .refl
  have hcreate := Vm.trades_createSpaceWith dataPage hsame
  cases h with
  | still hr =>
    rw [hr.ram]
    exact .refl
  | comes hcomes => exact hcreate.of_eq_ok hcomes.space
  | fails hfails =>
    rcases hfails.vm with hvm | ⟨e, he⟩ | ⟨space, vm, n, hspace, hgone⟩
    · rw [hvm]
      exact hsame
    · exact hcreate.of_eq_refused he
    · exact (Vm.trades_destroySpace space (hcreate.of_eq_ok hspace)).of_eq_ok hgone
  | @goes p hgoes =>
    obtain ⟨n, pool, hgone, hram⟩ := hgoes.space
    rw [hram]
    exact (Vm.trades_destroySpace p.space hloaded).of_eq_ok hgone
  | grows hgrows =>
    obtain ⟨start, length, hends⟩ := hgrows.vm
    exact (Vm.trades_mapKernelRegion start length hsame).of_ends hends

/-- The records of the pool agree when the kernel has booted. -/
theorem Booted.regular (h : Booted map bootRoot k) : k.vm.ram.pool.Regular := by
  induction h with
  | fresh _ hboot => exact (FramePool.Regular.ofMap map).of_allocate (Vm.eq_of_boot (eq_of_boot hboot).1).1
  | enabled _ hok ih =>
    obtain ⟨r, rfl⟩ := eq_of_enablePaging hok
    exact ih

/-- **Frames are taken and given back** one at a time along a course. -/
theorem trades_of_course (h₀ : k₀.InOrder base) (hc : Course along k₀ k) :
    k₀.vm.ram.pool.Trades k.vm.ram.pool := by
  induction hc with
  | start => exact .refl
  | meanwhile _ hm ih =>
    rw [hm.pool]
    exact ih
  | step hc hl _ ih => exact ih.trans (effect_of_leads (inOrder_of_course h₀ hc) hl).trades

/-- **From booting on the records of the pool agree.** -/
theorem regular_of_proceeds (hb : Booted map bootRoot k₀) (hc : Proceeds k₀ k) : k.vm.ram.pool.Regular :=
  (trades_of_course hb.inOrder.2 hc).regular hb.regular

/-- What is owned depends on what the processes have, and not on their order. -/
theorem owned_perm_of_holdings {frames : List Nat} (hkernel : k'.vm.kernel = k.vm.kernel)
    (h : (k'.processes.holdings.flatMap (·.space.ownedFrames)).Perm
      (frames ++ k.processes.holdings.flatMap (·.space.ownedFrames))) :
    k'.owned.Perm (frames ++ k.owned) := by
  rw [owned, owned, hkernel, ProcessTable.ownedFrames_eq, ProcessTable.ownedFrames_eq]
  exact (h.append_left _).trans (List.perm_append_comm_assoc _ _ _)

theorem Comes.sameSpaces {entry : UInt64} {name : String} (h : k.Comes k' entry name p) :
    k.vm.SameSpaces k'.vm :=
  (Vm.still_createSpaceWith dataPage k.vm).of_eq_ok h.space

theorem Comes.owned_perm {entry : UInt64} {name : String} (h : k.Comes k' entry name p) :
    k'.owned.Perm (p.space.ownedFrames ++ k.owned) :=
  owned_perm_of_holdings h.sameSpaces.1 (h.holdings.flatMap_right (·.space.ownedFrames))

theorem Goes.owned_perm (h : k.Goes k' p) : k.owned.Perm (p.space.ownedFrames ++ k'.owned) :=
  owned_perm_of_holdings h.kernel.symm (h.holdings.flatMap_right (·.space.ownedFrames))

theorem Fails.sameSpaces (h : k.Fails k') : k.vm.SameSpaces k'.vm := by
  have hstill := Vm.still_createSpaceWith dataPage k.vm
  rcases h.vm with hsame | ⟨e, he⟩ | ⟨space, vm, n, hspace, hgone⟩
  · rw [hsame]
    exact ⟨rfl, rfl⟩
  · exact hstill.of_eq_refused he
  · have h₁ := hstill.of_eq_ok hspace
    have h₂ := (Vm.still_destroySpace space vm).of_eq_ok hgone
    exact ⟨h₂.1.trans h₁.1, h₂.2.trans h₁.2⟩

theorem Fails.processes_eq (h : k.Fails k') : k'.processes = k.processes := by
  rw [h.rest]

/-- **The frames of an attempt went back**, whoever owns what. -/
theorem Fails.holds {held : List Nat} (hf : k.Fails k') (h : k.vm.ram.pool.Holds base held)
    (hactive : ∀ root, k.vm.activeRoot = some root → root ∈ held) : k'.vm.ram.pool.Holds base held := by
  have hcreate := Vm.holds_createSpaceWith dataPage h hactive
  rcases hf.vm with hsame | ⟨e, he⟩ | ⟨space, vm, n, hspace, hgone⟩
  · rw [hsame]
    exact h
  · exact hcreate.of_eq_refused he
  · have hheld := hcreate.of_eq_ok hspace
    have hstill := (Vm.still_createSpaceWith dataPage k.vm).of_eq_ok hspace
    have hne : vm.activeRoot ≠ some space.root := fun hloaded =>
      List.disjoint_of_nodup_append hheld.nodup List.mem_cons_self (hactive _ (hstill.2 ▸ hloaded))
    obtain ⟨pool, hgone', hpool⟩ := Vm.exists_destroySpace hheld hne
    rw [(EStateM.Result.ok.inj (hgone.symm.trans hgone')).2]
    exact hpool

/-- **Others keep their frames**, whatever a call comes to. -/
theorem Effect.holds (he : k.Effect k') (hs : k.Settled) (h : k.vm.ram.pool.Holds base (k.owned ++ others)) :
    k'.vm.ram.pool.Holds base (k'.owned ++ others) := by
  have hactive : ∀ root, k.vm.activeRoot = some root → root ∈ k.owned ++ others := fun root hroot =>
    List.mem_append_left _ (hs.active_mem hroot)
  cases he with
  | still hr =>
    rw [hr.ram, owned, hr.kernel, ProcessTable.ownedFrames_eq, hr.holdings, ← ProcessTable.ownedFrames_eq]
    exact h
  | comes hcomes =>
    have hheld := (Vm.holds_createSpaceWith dataPage h hactive).of_eq_ok hcomes.space
    refine hheld.perm ?_
    rw [← List.append_assoc]
    exact (hcomes.owned_perm.append_right _).symm
  | fails hfails =>
    rw [owned, hfails.sameSpaces.1, hfails.processes_eq]
    exact hfails.holds h hactive
  | goes hgoes =>
    have hheld := h.perm ((hgoes.owned_perm.append_right _).trans (.of_eq (List.append_assoc _ _ _)))
    have hkernel : k.vm.kernel.root ∈ k'.owned ++ others := by
      rw [← hgoes.kernel]
      exact List.mem_append_left _ (List.mem_append_left _ List.mem_cons_self)
    obtain ⟨n, pool, hgone, hram⟩ := hgoes.space
    obtain ⟨pool', hgone', hpool⟩ := exists_destroySpace_of_owned hheld hkernel
    cases hgone.symm.trans hgone'
    rw [hram]
    exact hpool
  | grows hgrows =>
    obtain ⟨start, length, hends⟩ := hgrows.vm
    have hbooks := (Vm.kernelBooks_mapKernelRegion start length
      (h.perm (.of_eq (List.append_assoc _ _ _)))).of_ends hends
    rw [owned, hgrows.processes]
    exact hbooks.holds.perm (.of_eq (List.append_assoc _ _ _).symm)

/-- **Others keep their frames along a course.** -/
theorem Course.holds (hc : Course along k₀ k) (h₀ : k₀.InOrder base)
    (h : k₀.vm.ram.pool.Holds 0 (k₀.owned ++ others)) : k.vm.ram.pool.Holds 0 (k.owned ++ others) := by
  induction hc with
  | start => exact h
  | meanwhile _ hm ih =>
    rw [hm.pool, owned, hm.spaces.1, hm.processes]
    exact ih
  | step hc hl _ ih =>
    have hin := inOrder_of_course h₀ hc
    exact (effect_of_leads hin hl).holds hin.settled ih

/-! ## 3. What a process has -/

/-- A stack that came is a block of its own, besides those that were in use. -/
theorem Comes.exists_block {entry : UInt64} {name : String} (hcomes : k.Comes k' entry name p)
    (hb : k.Balanced base) : ∃ c : Block, c.payload = p.stack ∧ processStackSize ≤ c.capacity ∧
      ¬k.heap.InUse c ∧ (∀ b, k'.heap.InUse b ↔ b = c ∨ k.heap.InUse b) ∧ k.heap.Confined k'.heap := by
  rcases hb.heap with ⟨hge, -⟩ | ⟨bs, hs⟩
  · exact absurd hcomes.stack (Heap.allocStack_ne_ok hge _ _)
  · obtain ⟨bs', c, hadm, hpay, hroom⟩ := Heap.admits_of_allocStack hs.tiled hcomes.stack
    obtain ⟨hnew, hiff⟩ := hadm.inUse_iff hs.tiled
    exact ⟨c, hpay, hroom, hnew, hiff, hadm.confined⟩

/-- A stack that went was a block, and all others are in use as before. -/
theorem Goes.exists_block (hgoes : k.Goes k' p) (hb : k.Balanced base) : ∃ c : Block, c.payload = p.stack ∧
    k.heap.InUse c ∧ (∀ b, k'.heap.InUse b ↔ k.heap.InUse b ∧ b.payload ≠ p.stack) ∧
      k.heap.Confined k'.heap := by
  have hin : p.stack ∈ k.processes.stackAddresses := by
    rw [ProcessTable.stackAddresses_eq]
    exact List.mem_map.mpr ⟨p.holding, hgoes.holdings.mem_iff.mpr List.mem_cons_self, rfl⟩
  rcases hb.heap with ⟨-, hnone⟩ | ⟨bs, hs⟩
  · rw [hnone] at hin
    cases hin
  · obtain ⟨heap, bs', c, hok, hrel, hpay⟩ := hs.exists_free hin
    cases hgoes.stack.symm.trans hok
    obtain ⟨hc, hiff⟩ := hrel.inUse_iff hs.tiled
    exact ⟨c, hpay, hc, hpay ▸ hiff, hrel.confined⟩

/-- **What was there lasts** as long as its owner: numbers are not given twice, and who had his number
before has what he had then, with the block of his stack. -/
structure Lasts (k k' : Kernel) : Prop where
  nextPid : k.processes.nextPid ≤ k'.processes.nextPid
  start : k'.heap.start = k.heap.start
  size : k'.heap.size = k.heap.size
  holdings : ∀ h ∈ k'.processes.holdings, h.pid < k.processes.nextPid → h ∈ k.processes.holdings
  blocks : ∀ h ∈ k'.processes.holdings, h.pid < k.processes.nextPid → ∀ b : Block, b.payload = h.stack →
    k.heap.InUse b → k'.heap.InUse b

theorem Lasts.refl (k : Kernel) : k.Lasts k :=
  ⟨Nat.le_refl _, rfl, rfl, fun _ hin _ => hin, fun _ _ _ _ _ hb => hb⟩

theorem Lasts.trans (h : k.Lasts k') (h' : k'.Lasts k'') : k.Lasts k'' := by
  refine ⟨h.nextPid.trans h'.nextPid, h'.start.trans h.start, h'.size.trans h.size, ?_, ?_⟩
  · intro holding hin hold
    exact h.holdings holding (h'.holdings holding hin (hold.trans_le h.nextPid)) hold
  · intro holding hin hold b hpayload hb
    have hbetween := hold.trans_le h.nextPid
    exact h'.blocks holding hin hbetween b hpayload
      (h.blocks holding (h'.holdings holding hin hbetween) hold b hpayload hb)

/-- The heap and what the processes have are the same. -/
theorem Lasts.of_eq (hheap : k'.heap = k.heap) (hholdings : k'.processes.holdings = k.processes.holdings)
    (hnext : k'.processes.nextPid = k.processes.nextPid) : k.Lasts k' := by
  refine ⟨hnext.ge, by rw [hheap], by rw [hheap], ?_, ?_⟩
  · rw [hholdings]
    exact fun _ hin _ => hin
  · rw [hheap]
    exact fun _ _ _ _ _ hb => hb

/-- Code that spares the headers leaves every block where it is. -/
theorem Meddles.lasts (hm : k.Meddles k') (hb : k.Balanced base) : k.Lasts k' := by
  refine ⟨by rw [hm.processes], hm.start, hm.size, ?_, ?_⟩
  · rw [hm.processes]
    exact fun _ hin _ => hin
  · rintro h - - b - ⟨bs, hblocks, hin⟩
    rcases hb.heap with ⟨hge, -⟩ | ⟨bs', hs⟩
    · rw [Heap.blocks_of_le hge] at hblocks
      cases hblocks
    · cases hblocks.symm.trans hs.tiled.blocks_eq
      exact (hs.tiled.congr hm.start hm.size (hm.headers bs hblocks)).inUse_iff.mpr hin

/-- **What was there lasts**, whatever a call comes to. -/
theorem Effect.lasts (he : k.Effect k') (hb : k.Balanced base) : k.Lasts k' := by
  cases he with
  | still hr => exact .of_eq hr.heap hr.holdings hr.nextPid.symm
  | comes hcomes =>
    obtain ⟨c, -, -, -, hiff, hconfined⟩ := hcomes.exists_block hb
    obtain ⟨slot, ready, -, -, hprocesses⟩ := hcomes.table
    refine ⟨?_, hconfined.start_eq, hconfined.size_eq, fun h hin hold => ?_, fun _ _ _ b _ hblock => ?_⟩
    · rw [hprocesses, ← hcomes.pid_eq]
      exact Nat.le_succ _
    · refine (List.mem_cons.mp (hcomes.holdings.mem_iff.mp hin)).resolve_left ?_
      rintro rfl
      exact Nat.ne_of_lt hold hcomes.pid_eq
    · exact (hiff b).mpr (Or.inr hblock)
  | fails hfails => exact .of_eq (by rw [hfails.rest]) (by rw [hfails.rest]) (by rw [hfails.rest])
  | @goes p hgoes =>
    obtain ⟨c, -, -, hiff, hconfined⟩ := hgoes.exists_block hb
    have hstacks := hb.nodup_stacks.perm (hgoes.holdings.map Holding.stack)
    refine ⟨hgoes.nextPid.ge, hconfined.start_eq, hconfined.size_eq, fun h hin _ => ?_,
      fun h hin _ b hpayload hblock => (hiff b).mpr ⟨hblock, fun heq => ?_⟩⟩
    · exact hgoes.holdings.mem_iff.mpr (List.mem_cons_of_mem _ hin)
    · refine (List.nodup_cons.mp hstacks).1 (List.mem_map.mpr ⟨h, hin, ?_⟩)
      exact hpayload.symm.trans heq
  | grows hgrows => exact .of_eq hgrows.heap (by rw [hgrows.processes]) (by rw [hgrows.processes])

/-- **What was there lasts along a course.** -/
theorem lasts_of_course (h₀ : k₀.InOrder base) (hc : Course along k₀ k) : k₀.Lasts k := by
  induction hc with
  | start => exact .refl _
  | meanwhile hc hm ih => exact ih.trans (hm.lasts (inOrder_of_course h₀ hc).balanced)
  | step hc hl _ ih =>
    have hin := inOrder_of_course h₀ hc
    exact ih.trans ((effect_of_leads hin hl).lasts hin.balanced)

end Kernel

end KernelCore
