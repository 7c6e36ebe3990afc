/-
# A process ends, and nothing stays of it

An exit of the running process always succeeds (`exists_exit_eq`).  What is left to say is what the kernel is
like afterwards (`Departs`): exactly the frames of the process's space and the block of its stack are free,
nobody else has anything less or more, and whoever was in front of the line runs.

When processes come and go, the pool and the heap change with every one of them, and frames and blocks are
given out again in another order.  But what is taken at any time is what the live processes and the kernel
have, besides what was never theirs; so when the same processes are live again, the same frames are used, and
the heap has the same blocks, whatever happened in between (`restored_of_proceeds`).  For the frames that is
the account (`Course.holds`); for the heap it is that each block stays where it is while its owner lives
(`Lasts`), and that the blocks in use determine the free ones between them (`Heap.Tiled.unique`).
-/
import KernelCore.Proofs.Kernel.Effects

namespace KernelCore

namespace Kernel

variable {k₀ k k' : Kernel} {base pid : Nat} {map : MemoryMap} {bootRoot : Option Nat} {p : Process}

/-! ## 1. What an exit leaves -/

/-- The process as it is when it gets the processor. -/
def dispatched (p : Process) : Process := { p with state := .running, quantum := quantumTicks }

/-- **Who runs next**, and what the table is then: without the process that ended, and otherwise as it was but
for the process that was in front of the line, which has its registers in the trap frame and its space
loaded.  If there is none, nobody runs, with the idle context and the kernel's space. -/
def HandsOver (k k' : Kernel) (pid : Nat) : List Nat → Prop
  | [] => k'.processes = { k.processes.erase pid with ready := .empty, current := none } ∧
      k'.trap = k.processes.idle ∧ k'.vm.activeRoot = some k.vm.kernel.root
  | next :: rest => ∃ q ready, k.processes.find? next = some q ∧ ready.pids = rest ∧
      k'.processes = { (k.processes.erase pid).modify next dispatched with ready, current := some next } ∧
        k'.processes.find? next = some (dispatched q) ∧ k'.trap = q.context ∧
          k'.vm.activeRoot = some q.space.root

/-- **A process has ended**, and what it had is free. -/
structure Departs (k k' : Kernel) (p : Process) : Prop where
  gone : k'.processes.find? p.pid = none
  line : p.pid ∉ k'.processes.ready.pids
  used : ∀ f, k'.vm.ram.pool.isUsed f = true ↔
    k.vm.ram.pool.isUsed f = true ∧ f ∉ p.space.ownedFrames
  block : ∃ c : Block, c.payload = p.stack ∧ k.heap.InUse c
  blocks : ∀ b, k'.heap.InUse b ↔ k.heap.InUse b ∧ b.payload ≠ p.stack
  memory : k'.vm.ram.memory = k.vm.ram.memory
  kernel : k'.vm.kernel = k.vm.kernel
  others : ∀ q, q ≠ p.pid → k.processes.ready.pids.head? ≠ some q →
    k'.processes.find? q = k.processes.find? q
  next : k.HandsOver k' p.pid k.processes.ready.pids

/-- What an exit does to the processes: one is gone, and somebody else runs. -/
theorem exists_schedule_bereft (hs : k.Settled)
    (hcur : k.processes.current = some p.pid) (code : Int32) (n : Nat) (pool : FramePool) (heap : Heap) :
    ∃ k', schedule ((k.bereft p pool heap).reportExit p code n) = .ok () k' ∧
      k'.processes.find? p.pid = none ∧ (∀ q, q ≠ p.pid → k.processes.ready.pids.head? ≠ some q →
        k'.processes.find? q = k.processes.find? q) ∧ k.HandsOver k' p.pid k.processes.ready.pids := by
  let k₁ := (k.bereft p pool heap).reportExit p code n
  have hs₁ : k₁.Settled := .of_sameProcesses (settled_bereft hs hcur pool heap) ⟨rfl, rfl, rfl⟩
  obtain ⟨r, hr, hrun⟩ := hs.consistent.exists_current hcur
  have hout : p.pid ∉ k.processes.ready.pids := hs.consistent.not_mem_ready hr (by simp [hrun])
  have hline₁ : k₁.processes.ready.pids = k.processes.ready.pids :=
    (ReadyQueue.pids_remove k.processes.ready p.pid).trans (List.erase_of_not_mem hout)
  have hfind₁ : ∀ q, q ≠ p.pid → k₁.processes.find? q = k.processes.find? q := fun q hq =>
    (ProcessTable.find?_erase (t := k.processes)).trans (if_neg hq)
  have hnone₁ : k₁.processes.find? p.pid = none :=
    (ProcessTable.find?_erase (t := k.processes)).trans (if_pos rfl)
  cases hline : k.processes.ready.pids with
  | nil =>
    rw [hline] at hline₁
    have hempty : k₁.processes.ready.isEmpty = true := ReadyQueue.isEmpty_eq_true_iff _ |>.mpr hline₁
    have hready : k.processes.ready.remove p.pid = .empty := ReadyQueue.ext_pids hline₁
    refine ⟨k₁.goIdle, ?_, hnone₁, fun q hq _ => hfind₁ q hq, ?_, rfl, rfl⟩
    · unfold schedule
      rw [if_pos hempty]
      rfl
    · rw [← hready]
      rfl
  | cons next rest =>
    rw [hline] at hline₁ hout
    have hne : next ≠ p.pid := fun he => hout (he ▸ List.mem_cons_self)
    have hnonempty : k₁.processes.ready.isEmpty ≠ true := fun hempty => by
      rw [(ReadyQueue.isEmpty_eq_true_iff _).mp hempty] at hline₁
      cases hline₁
    obtain ⟨q, ready, hq, rfl, hrest, hdispatch⟩ := exists_dispatch_eq hs₁.consistent hline₁
    have hmodified := ProcessTable.find?_modify_self (f := dispatched) (fun _ => rfl) hq
    have hschedule : schedule k₁ = dispatch k₁ := by
      unfold schedule
      rw [if_neg hnonempty]
      exact bind_of_ok rfl
    refine ⟨_, hschedule.trans hdispatch, ?_, ?_, q, ready, (hfind₁ _ hne).symm.trans hq, hrest, rfl,
      hmodified, rfl, rfl⟩
    · exact (ProcessTable.find?_modify_of_ne (f := dispatched) (fun _ => rfl) hne.symm).trans hnone₁
    · intro other hother hhead
      refine (ProcessTable.find?_modify_of_ne (f := dispatched) (fun _ => rfl) ?_).trans
        (hfind₁ other hother)
      exact fun he => hhead (congrArg some he.symm)

/-- **An exit of the running process succeeds**, and the process has ended. -/
theorem exists_departs (h : k.InOrder base) (hr : k.vm.ram.pool.Regular)
    (hcur : k.processes.current = some pid) (code : Int32) :
    ∃ p k', k.processes.find? pid = some p ∧ exit pid code k = .ok () k' ∧ k.Departs k' p := by
  obtain ⟨p, n, pool, heap, hp, hgone, hfree, hb₁, hexit⟩ := exists_exit_eq h.settled h.balanced hcur code
  obtain rfl := ProcessTable.pid_of_find? hp
  obtain ⟨k', hok, hnone, hothers, hnext⟩ := exists_schedule_bereft h.settled hcur code n pool heap
  obtain ⟨q, hq, hgoes⟩ := exists_goes_of_exit h.settled h.balanced hcur (hexit.trans hok)
  cases hp.symm.trans hq
  have hs₁ : ((k.bereft p pool heap).reportExit p code n).Settled :=
    .of_sameProcesses (settled_bereft h.settled hcur pool heap) ⟨rfl, rfl, rfl⟩
  obtain ⟨k₁, hok₁, hs', -⟩ := hs₁.exists_schedule
  cases hok.symm.trans hok₁
  have htrades := (Effect.goes hgoes).trades
  obtain ⟨rest, hheld⟩ := h.balanced.frames.exists_rest hr.counted
  have hheld' := (Effect.goes hgoes).holds h.settled hheld
  have hbefore := hheld.perm ((hgoes.owned_perm.append_right _).trans (.of_eq (List.append_assoc _ _ _)))
  obtain ⟨c, hpay, hc, hblocks, -⟩ := hgoes.exists_block h.balanced
  refine ⟨p, k', hp, hexit.trans hok, hnone, fun hin => ?_, fun f => ?_, ⟨c, hpay, hc⟩, hblocks, ?_,
    hgoes.kernel, hothers, hnext⟩
  · obtain ⟨r, hr, -⟩ := (hs'.consistent.waits_iff p.pid).mp hin
    rw [hnone] at hr
    cases hr
  · exact hbefore.isUsed_iff_of_released hheld' hr.counted (htrades.counted hr.counted) htrades.total
  · obtain ⟨_, _, -, hram⟩ := hgoes.space
    rw [hram]

/-! ## 2. What comes and goes leaves nothing -/

/-- Who is there with a number has it from before. -/
theorem Lasts.mem_holdings_iff (h : k.Lasts k') (hs : k.Settled) (hs' : k'.Settled)
    (hlive : ∀ pid, (k'.processes.find? pid).isSome ↔ (k.processes.find? pid).isSome) (a : Holding) :
    a ∈ k'.processes.holdings ↔ a ∈ k.processes.holdings := by
  have hold : ∀ b ∈ k'.processes.holdings, b ∈ k.processes.holdings := by
    intro b hb
    obtain ⟨p, hp, rfl⟩ := List.mem_map.mp hb
    have hfound := ProcessTable.find?_of_mem hs'.consistent.distinct hp
    obtain ⟨q, hq⟩ := Option.isSome_iff_exists.mp ((hlive p.pid).mp (Option.isSome_of_mem hfound))
    exact h.holdings _ hb (hs.consistent.numbered hq).2
  refine ⟨hold a, fun ha => ?_⟩
  obtain ⟨p, hp, rfl⟩ := List.mem_map.mp ha
  have hfound := ProcessTable.find?_of_mem hs.consistent.distinct hp
  obtain ⟨q, hq⟩ := Option.isSome_iff_exists.mp ((hlive p.pid).mpr (Option.isSome_of_mem hfound))
  have hq' := List.mem_map_of_mem (f := Process.holding) (ProcessTable.mem_live_of_find? hq)
  obtain ⟨r, hr, hsame⟩ := List.mem_map.mp (hold _ hq')
  -- Both have the number of `p`, and numbers are distinct.
  have hnumber : r.pid = p.pid :=
    (congrArg Holding.pid hsame).trans (ProcessTable.pid_of_find? hq)
  have hrp : r = p := by
    have hr' := ProcessTable.find?_of_mem hs.consistent.distinct hr
    rw [hnumber, hfound] at hr'
    exact (Option.some.inj hr').symm
  rw [← hrp, hsame]
  exact hq'

/-- The owned frames are the kernel's and those of the processes. -/
theorem mem_owned_iff {f : Nat} : f ∈ k.owned ↔
    f ∈ k.vm.kernel.ownedFrames ∨ ∃ a ∈ k.processes.holdings, f ∈ a.space.ownedFrames := by
  rw [owned, ProcessTable.ownedFrames_eq, List.mem_append, List.mem_flatMap]

/-- **The used frames are restored** when the same processes are live again, and the kernel has what it
had. -/
theorem isUsed_restored (h : k.InOrder base) (hr : k.vm.ram.pool.Regular) (hc : Proceeds k k')
    (hlive : ∀ a, a ∈ k'.processes.holdings ↔ a ∈ k.processes.holdings)
    (hkernel : k'.vm.kernel.ownedFrames = k.vm.kernel.ownedFrames) (f : Nat) :
    k'.vm.ram.pool.isUsed f = k.vm.ram.pool.isUsed f := by
  obtain ⟨rest, hheld⟩ := h.balanced.frames.exists_rest hr.counted
  have htrades := trades_of_course h hc
  have howned : f ∈ k'.owned ↔ f ∈ k.owned := by
    simp only [mem_owned_iff, hlive, hkernel]
  rw [Bool.eq_iff_iff, hheld.isUsed_iff hr.counted,
    (hc.holds h hheld).isUsed_iff (htrades.counted hr.counted), htrades.total, List.mem_append,
    List.mem_append, howned]

/-- **The blocks are restored** when the same processes are live again. -/
theorem blocks_restored (h : k.InOrder base) (hc : Proceeds k k')
    (hlive : ∀ a, a ∈ k'.processes.holdings ↔ a ∈ k.processes.holdings) :
    k'.heap.blocks = k.heap.blocks := by
  have hlasts := lasts_of_course h hc
  have hlimit : k'.heap.limit = k.heap.limit := by
    rw [Heap.limit, Heap.limit, hlasts.start, hlasts.size]
  have h' := inOrder_of_course h hc
  rcases h.balanced.heap with ⟨hge, -⟩ | ⟨bs, hs⟩
  · rw [Heap.blocks_of_le hge, Heap.blocks_of_le (hlimit ▸ hge)]
  rcases h'.balanced.heap with ⟨hge, -⟩ | ⟨bs', hs'⟩
  · exact absurd hs.tiled.limit_lt (Nat.not_lt_of_le (hlimit ▸ hge))
  rw [ProcessTable.stackAddresses_eq] at hs hs'
  -- A block of before is the stack of somebody who is still there.
  have hkeep : ∀ a ∈ k.processes.holdings, ∀ b : Block, b.payload = a.stack →
      k.heap.InUse b → k'.heap.InUse b := by
    intro a ha b hpayload hb
    obtain ⟨p, hp, rfl⟩ := List.mem_map.mp ha
    have hfound := ProcessTable.find?_of_mem h.settled.consistent.distinct hp
    exact hlasts.blocks _ ((hlive _).mpr ha) (h.settled.consistent.numbered hfound).2 b hpayload hb
  have hused : ∀ b, k'.heap.InUse b ↔ k.heap.InUse b := by
    refine fun b => ⟨fun hb => ?_, fun hb => ?_⟩
    · obtain ⟨a, ha, hstack⟩ := List.mem_map.mp (hs'.mem_iff.mpr ⟨b, hb, rfl⟩)
      have hold := (hlive a).mp ha
      obtain ⟨c, hc, hpayload⟩ := hs.mem_iff.mp (List.mem_map_of_mem (f := Holding.stack) hold)
      have hc' := hs'.tiled.inUse_iff.mp (hkeep a hold c hpayload hc)
      have hsame := hs'.tiled.eq_of_payload_eq (List.mem_of_mem_filter hc')
        (List.mem_of_mem_filter (hs'.tiled.inUse_iff.mp hb)) (hpayload.trans hstack)
      exact hsame ▸ hc
    · obtain ⟨a, ha, hstack⟩ := List.mem_map.mp (hs.mem_iff.mpr ⟨b, hb, rfl⟩)
      exact hkeep a ha b hstack.symm hb
  rw [hs'.tiled.blocks_eq, hs.tiled.blocks_eq,
    hs.tiled.unique hs'.tiled hlasts.start hlasts.size hused]

/-! ## 3. Coming and going, from booting on -/

/-- **Processes leave nothing.**  The running process can end, and what it had is free; nobody else can; and
when the same processes are live again, and the kernel's space has what it had, the same frames are used, and
the heap has the same blocks. -/
structure LeavesNothing (k : Kernel) : Prop where
  departs : ∀ pid code, k.processes.current = some pid →
    ∃ p k', k.processes.find? pid = some p ∧ exit pid code k = .ok () k' ∧ k.Departs k' p
  stays : ∀ pid code, k.processes.current ≠ some pid →
    exit pid code k = .error (.refused (.notCurrent pid)) k
  restored : ∀ k', Proceeds k k' →
    (∀ pid, (k'.processes.find? pid).isSome ↔ (k.processes.find? pid).isSome) →
    k'.vm.kernel.ownedFrames = k.vm.kernel.ownedFrames →
      (∀ f, k'.vm.ram.pool.isUsed f = k.vm.ram.pool.isUsed f) ∧ k'.heap.blocks = k.heap.blocks

/-- **From booting on**, processes leave nothing, whatever has been asked of the kernel and whatever code has
run on it. -/
theorem leavesNothing_of_proceeds (hb : Booted map bootRoot k₀) (hc : Proceeds k₀ k) : k.LeavesNothing := by
  have h := inOrder_of_course hb.inOrder.2 hc
  have hr := regular_of_proceeds hb hc
  refine ⟨fun pid code hcur => exists_departs h hr hcur code, fun pid code hne => exit_of_ne hne code, ?_⟩
  intro k' hc' hlive hkernel
  have hsame := (lasts_of_course h hc').mem_holdings_iff h.settled (inOrder_of_course h hc').settled hlive
  exact ⟨isUsed_restored h hr hc' hsame hkernel, blocks_restored h hc' hsame⟩

/-- On a machine of six frames a process runs, and ends. -/
theorem leavesNothing_sixFrames : ∃ k₀ k k', (Booted World.sixFrames none k₀ ∧ Proceeds k₀ k) ∧
    k.LeavesNothing ∧ k.processes.current = some 1 ∧ exit 1 0 k = .ok () k' ∧
      k'.processes.find? 1 = none := by
  obtain ⟨k₀, k, hb, hc, hcur, -⟩ := exists_running
  have hleaves := leavesNothing_of_proceeds hb hc
  obtain ⟨p, k', hp, hok, hdeparts⟩ := hleaves.departs 1 0 hcur
  have hgone := hdeparts.gone
  rw [ProcessTable.pid_of_find? hp] at hgone
  exact ⟨k₀, k, k', ⟨hb, hc⟩, hleaves, hcur, hok, hgone⟩

end Kernel

end KernelCore
