/-
# A process is created, or nothing has happened

Whether a process can be created is a matter of three counts: of slots, of free frames, and of the bytes of
the largest free block (`Affords`).  If they suffice it is created, with five frames and a block that nobody
had (`Created`), and if not, everything is as it was (`Undone`), wherever the attempt failed.

The counts are exact because each part is: a pool supplies as many frames as it counts, and a heap serves any
request up to its statistic.  Nothing stays of an attempt because what it took is what it gives back, and it
writes only to frames that it took.  These were free, so what addresses show is the same as long as it does
not depend on free frames (`Rests`): nobody's does if the boot loader left no tables, and otherwise nothing
does that the memory map keeps from the pool.

* `create_cases`: the counts decide;
* `Fails.undone`: nothing stays;
* `creates_of_proceeds`: both, from booting on.
-/
import KernelCore.Proofs.Kernel.Effects
import KernelCore.Proofs.Kernel.Linking

namespace KernelCore

/-- There is a first free slot if there is one. -/
theorem ProcessTable.exists_freeSlot?_iff (t : ProcessTable) :
    (∃ slot, t.freeSlot? = some slot) ↔ ∃ slot : Fin maxProcesses, t.slots.get slot = none := by
  constructor
  · rintro ⟨slot, hslot⟩
    exact ⟨slot, isNone_of_freeSlot? hslot⟩
  · rintro ⟨slot, hslot⟩
    refine Option.ne_none_iff_exists'.mp fun hnone => ?_
    have hsome : (t.slots.get slot).isSome := (t.freeSlot?_eq_none_iff).mp hnone slot
    rw [hslot] at hsome
    cases hsome

namespace Kernel

variable {k₀ k k' : Kernel} {base pid : Nat} {map : MemoryMap} {bootRoot : Option Nat} {p : Process}
  {entry : UInt64} {name : String} {seen : AddressSpace → VirtAddr → Prop} {bs : List Block}

/-! ## 1. What decides -/

/-- **There is what a process needs**: a slot, frames for its space, and room for its stack. -/
structure Affords (k : Kernel) (room : Nat) : Prop where
  slot : ∃ slot : Fin maxProcesses, k.processes.slots.get slot = none
  frames : 5 ≤ k.vm.ram.pool.free
  stack : processStackSize ≤ room

/-- **The counts decide**: a process is created, or the counts say what is missing. -/
theorem create_cases (h : k.InOrder base) (hr : k.vm.ram.pool.Regular) (ht : k.heap.Tiled bs)
    (hnumber : k.processes.nextPid + 1 < pidLimit) (entry : UInt64) (name : String) :
    (k.Affords (Heap.statsOf k.heap.size bs).largestFree ∧
        ∃ k', create entry name k = .ok k.processes.nextPid k') ∨
      ((∀ slot : Fin maxProcesses, (k.processes.slots.get slot).isSome) ∧
        ∃ k', create entry name k = .error (.refused .tableFull) k') ∨
      ((∃ slot : Fin maxProcesses, k.processes.slots.get slot = none) ∧
        ¬k.Affords (Heap.statsOf k.heap.size bs).largestFree ∧
        ∃ k', create entry name k = .error (.refused .outOfMemory) k') := by
  cases hslot : k.processes.freeSlot? with
  | none =>
    have hfull := (k.processes.freeSlot?_eq_none_iff).mp hslot
    exact Or.inr (Or.inl ⟨hfull, _, create_of_full hslot entry name⟩)
  | some slot =>
    have hfree := k.processes.exists_freeSlot?_iff.mp ⟨slot, hslot⟩
    by_cases hsupply : k.vm.ram.pool.Supplies 5
    · have hframes := hr.supplies_iff.mp hsupply
      rcases Nat.lt_or_ge (Heap.statsOf k.heap.size bs).largestFree processStackSize with hlt | hroom
      · refine Or.inr (Or.inr ⟨hfree, fun ha => Nat.not_le_of_lt hlt ha.stack, ?_⟩)
        have hshort := ht.alloc_eq_error (hlt.trans_le (Nat.le_max_left _ _))
        exact create_eq_error_of_heap h.settled h.balanced hslot hsupply hshort entry name
      · refine Or.inl ⟨⟨hfree, hframes, hroom⟩, ?_⟩
        have hserved := ht.exists_alloc_iff.mpr (Nat.max_le.mpr ⟨hroom, Nat.le_trans (by decide) hroom⟩)
        obtain ⟨k', p, hok, -⟩ := exists_create h.settled hslot hnumber hr.counted.total_le hsupply hserved
          entry name
        exact ⟨k', hok⟩
    · refine Or.inr (Or.inr ⟨hfree, fun ha => hsupply (hr.supplies_iff.mpr ha.frames), ?_⟩)
      exact create_eq_error_of_frames h.settled h.balanced hslot hsupply entry name

/-! ## 2. What a new process has -/

/-- **A process was created**: in the first free slot, under the next number and at the end of the line, with
five frames and one block that nobody had. -/
structure Created (k k' : Kernel) (entry : UInt64) (name : String) (p : Process) : Prop where
  process : p = { Process.build k.processes.nextPid name entry p.space p.stack with state := .ready }
  table : ∃ slot ready, k.processes.freeSlot? = some slot ∧
    ready.pids = k.processes.ready.pids ++ [p.pid] ∧
      k'.processes = { k.processes.place slot p with ready, nextPid := p.pid + 1 }
  distinct : p.space.ownedFrames.Nodup
  count : p.space.ownedFrames.length = 5
  unused : ∀ f ∈ p.space.ownedFrames, k.vm.ram.pool.isUsed f = false
  used : ∀ f, k'.vm.ram.pool.isUsed f = true ↔
    k.vm.ram.pool.isUsed f = true ∨ f ∈ p.space.ownedFrames
  block : ∃ c : Block, c.payload = p.stack ∧ processStackSize ≤ c.capacity ∧ ¬k.heap.InUse c ∧
    ∀ b, k'.heap.InUse b ↔ b = c ∨ k.heap.InUse b
  spaces : k.vm.SameSpaces k'.vm

/-- What is loaded is one of the used frames. -/
theorem InOrder.active_mem_usedFrames (h : k.InOrder base) {root : Nat}
    (hroot : k.vm.activeRoot = some root) : root ∈ k.vm.ram.pool.usedFrames :=
  FramePool.mem_usedFrames.mpr (h.balanced.frames.used root (h.settled.active_mem hroot))

/-- What the process has comes to the used frames. -/
theorem Comes.holds (hcomes : k.Comes k' entry name p) (h : k.InOrder base) (hr : k.vm.ram.pool.Regular) :
    k'.vm.ram.pool.Holds 0 (p.space.ownedFrames ++ k.vm.ram.pool.usedFrames) :=
  (Vm.holds_createSpaceWith dataPage hr.counted.holds fun _ => h.active_mem_usedFrames).of_eq_ok hcomes.space

/-- It was free. -/
theorem Comes.unused (hcomes : k.Comes k' entry name p) (h : k.InOrder base) (hr : k.vm.ram.pool.Regular) :
    ∀ f ∈ p.space.ownedFrames, k.vm.ram.pool.isUsed f = false := by
  have hheld := hcomes.holds h hr
  refine fun f hf => Bool.eq_false_iff.mpr fun hused => ?_
  rcases FramePool.isUsed_iff_mem.mp hused with hle | hin
  · have := (hheld.used f (List.mem_append_left _ hf)).1
    have := (Effect.comes hcomes).trades.total
    omega
  · exact (List.nodup_append.mp hheld.nodup).2.2 f hf f hin rfl

theorem Comes.created (hcomes : k.Comes k' entry name p) (h : k.InOrder base)
    (hr : k.vm.ram.pool.Regular) (hsupply : k.vm.ram.pool.Supplies 5) : k.Created k' entry name p := by
  have htrades := (Effect.comes hcomes).trades
  have hheld := hcomes.holds h hr
  obtain ⟨space, vm, hspace, hcount⟩ := Vm.exists_createSpaceWith (show dataPage.isUpper = false by decide)
    hr.counted.total_le hsupply
  obtain ⟨rfl, -⟩ := EStateM.Result.ok.inj (hspace.symm.trans hcomes.space)
  obtain ⟨c, hpay, hroom, hnew, hiff, -⟩ := hcomes.exists_block h.balanced
  refine ⟨hcomes.process, hcomes.table, (List.nodup_append.mp hheld.nodup).1, ?_, hcomes.unused h hr,
    fun f => ?_, ⟨c, hpay, hroom, hnew, hiff⟩, hcomes.sameSpaces⟩
  · rw [AddressSpace.length_ownedFrames]
    exact hcount
  · rw [hheld.isUsed_iff (htrades.counted hr.counted), htrades.total, FramePool.isUsed_iff_mem,
      List.mem_append, or_assoc, or_comm (a := f ∈ _)]

/-! ## 3. What stays of an attempt -/

/-- **Everything is as it was**, except for what free frames hold. -/
structure Undone (k k' : Kernel) (seen : AddressSpace → VirtAddr → Prop) : Prop where
  /-- The processes, the heap, the trap frame, the console and the journal. -/
  rest : k' = { k with vm := k'.vm }
  spaces : k.vm.SameSpaces k'.vm
  used : ∀ f, k'.vm.ram.pool.isUsed f = k.vm.ram.pool.isUsed f
  memory : ∀ f, k.vm.ram.pool.isUsed f = true → k.vm.ram.memory.SameFrame k'.vm.ram.memory f
  views : ∀ s ∈ k.spaces, k.vm.SameView (seen s) s k'.vm

/-- The address depends on used frames only, which is a question only if the boot loader left tables. -/
def Rests (k : Kernel) (bootRoot : Option Nat) (s : AddressSpace) (a : VirtAddr) : Prop :=
  bootRoot = none ∨ k.vm.ram.memory.Guarded (fun f => k.vm.ram.pool.isUsed f = true) s.root a

/-- Only frames that were taken are written to. -/
theorem Fails.spares {others : List Nat} (hf : k.Fails k') (h : k.vm.ram.pool.Holds base others)
    (hkernel : k.vm.kernel.root ∈ others) :
    Vm.Spares (Vm.Beside k.vm.ram.pool.total others) k.vm k'.vm := by
  have hlodges := Vm.lodges_createSpaceWith dataPage rfl h hkernel
  rcases hf.vm with hsame | ⟨e, he⟩ | ⟨space, vm, n, hspace, hgone⟩
  · rw [hsame]
    exact .refl _ _
  · exact hlodges.of_eq_refused he
  · exact ((hlodges.of_eq_ok hspace).1.destroySpace space).of_eq_ok hgone

/-- **Nothing stays** of an attempt that failed. -/
theorem Fails.undone (hf : k.Fails k') (h : k.InOrder base) (hr : k.vm.ram.pool.Regular)
    (hseen : ∀ s ∈ k.spaces, ∀ a, seen s a →
      k.vm.ram.memory.Guarded (fun f => k.vm.ram.pool.isUsed f = true) s.root a) : k.Undone k' seen := by
  have htrades := (Effect.fails hf).trades
  have hheld := hr.counted.holds
  have hkernel : k.vm.kernel.root ∈ k.vm.ram.pool.usedFrames := FramePool.mem_usedFrames.mpr
    (h.balanced.frames.used _ (List.mem_append_left _ List.mem_cons_self))
  have hmemory : ∀ f, k.vm.ram.pool.isUsed f = true → k.vm.ram.memory.SameFrame k'.vm.ram.memory f :=
    fun f hused => (hf.spares hheld hkernel).memory f (FramePool.isUsed_iff_mem.mp hused).symm
  refine ⟨hf.rest, hf.sameSpaces, fun f => ?_, hmemory, fun s hs => ?_⟩
  · have hback := hf.holds hheld fun _ => h.active_mem_usedFrames
    rw [Bool.eq_iff_iff, hback.isUsed_iff (htrades.counted hr.counted), htrades.total,
      FramePool.isUsed_iff_mem]
  · exact (Vm.SameView.of_guarded hmemory).mono (hseen s hs)

/-! ## 4. All or nothing -/

/-- **A process is created exactly if there is what it needs**, and if it is not, nothing has happened.
`room` is the largest request that the heap would serve. -/
structure Creates (k : Kernel) (room : Nat) (seen : AddressSpace → VirtAddr → Prop) (entry : UInt64)
    (name : String) : Prop where
  succeeds_iff : (∃ pid k', create entry name k = .ok pid k') ↔ k.Affords room
  full : (∀ slot : Fin maxProcesses, (k.processes.slots.get slot).isSome) →
    ∃ k', create entry name k = .error (.refused .tableFull) k'
  short : (∃ slot : Fin maxProcesses, k.processes.slots.get slot = none) → ¬k.Affords room →
    ∃ k', create entry name k = .error (.refused .outOfMemory) k'
  created : ∀ pid k', create entry name k = .ok pid k' →
    ∃ p, p.pid = pid ∧ k.Created k' entry name p
  undone : ∀ stop k', create entry name k = .error stop k' → k.Undone k' seen

theorem InOrder.creates (h : k.InOrder base) (hr : k.vm.ram.pool.Regular) (ht : k.heap.Tiled bs)
    (hnumber : k.processes.nextPid + 1 < pidLimit)
    (hseen : ∀ s ∈ k.spaces, ∀ a, seen s a →
      k.vm.ram.memory.Guarded (fun f => k.vm.ram.pool.isUsed f = true) s.root a)
    (entry : UInt64) (name : String) :
    k.Creates (Heap.statsOf k.heap.size bs).largestFree seen entry name := by
  have hcases := create_cases h hr ht hnumber entry name
  have hoccupied : (∀ slot : Fin maxProcesses, (k.processes.slots.get slot).isSome) →
      ¬∃ slot : Fin maxProcesses, k.processes.slots.get slot = none := by
    rintro hfull ⟨slot, hslot⟩
    have hsome := hfull slot
    rw [hslot] at hsome
    cases hsome
  have houtcome := comes_create h.settled h.balanced entry name
  constructor
  · constructor
    · rintro ⟨pid, k', hok⟩
      rcases hcases with ⟨ha, -⟩ | ⟨-, k₁, he⟩ | ⟨-, -, k₁, he⟩
      · exact ha
      · cases hok.symm.trans he
      · cases hok.symm.trans he
    · intro ha
      rcases hcases with ⟨-, k', hok⟩ | ⟨hfull, -⟩ | ⟨-, hnot, -⟩
      · exact ⟨_, k', hok⟩
      · exact absurd ha.slot (hoccupied hfull)
      · exact absurd ha hnot
  · intro hfull
    rcases hcases with ⟨ha, -⟩ | ⟨-, he⟩ | ⟨hfree, -⟩
    · exact absurd ha.slot (hoccupied hfull)
    · exact he
    · exact absurd hfree (hoccupied hfull)
  · intro hfree hnot
    rcases hcases with ⟨ha, -⟩ | ⟨hfull, -⟩ | ⟨-, -, he⟩
    · exact absurd ha hnot
    · exact absurd hfree (hoccupied hfull)
    · exact he
  · intro pid k' hok
    obtain ⟨p, hpid, hcomes⟩ := houtcome.of_eq_ok hok
    rcases hcases with ⟨ha, -⟩ | ⟨-, k₁, he⟩ | ⟨-, -, k₁, he⟩
    · exact ⟨p, hpid, hcomes.created h hr (hr.supplies_iff.mpr ha.frames)⟩
    · cases hok.symm.trans he
    · cases hok.symm.trans he
  · intro stop k' herror
    rcases hcases with ⟨-, k₁, hok⟩ | ⟨-, k₁, he⟩ | ⟨-, -, k₁, he⟩
    · cases herror.symm.trans hok
    · cases herror.symm.trans he
      exact (houtcome.of_eq_refused he).undone h hr hseen
    · cases herror.symm.trans he
      exact (houtcome.of_eq_refused he).undone h hr hseen

/-- What addresses show rests on used frames, unless the boot loader's tables do not. -/
theorem guarded_of_rests (hb : Booted map bootRoot k₀) (hc : Proceeds k₀ k) {s : AddressSpace}
    (hs : s ∈ k.spaces) {a : VirtAddr} (ha : k.Rests bootRoot s a) :
    k.vm.ram.memory.Guarded (fun f => k.vm.ram.pool.isUsed f = true) s.root a := by
  rcases ha with rfl | ha
  · exact (guarded_of_proceeds hb hc s hs a).mono
      fun f hf => (inOrder_of_course hb.inOrder.2 hc).balanced.frames.isUsed hf
  · exact ha

/-- **From booting on**, whatever has been asked of the kernel and whatever code has run on it: creating a
process succeeds exactly if there is a slot, there are five free frames, and the heap's statistic allows for
a stack; without a slot the table is full, and otherwise there is not enough memory.  Whatever is not created
has changed nothing. -/
theorem creates_of_proceeds (hb : Booted map bootRoot k₀) (hc : Proceeds k₀ k)
    (hnumber : k.processes.nextPid + 1 < pidLimit) (hlimit : k.heap.limit < 2 ^ 64) (entry : UInt64)
    (name : String) : ∃ stats, k.heap.stats = .ok stats ∧
      k.Creates stats.largestFree (k.Rests bootRoot) entry name := by
  have h := inOrder_of_course hb.inOrder.2 hc
  rcases h.balanced.heap with ⟨hge, -⟩ | ⟨bs, hs⟩
  · exact absurd hlimit (Nat.not_lt_of_le hge)
  · refine ⟨_, hs.tiled.stats_eq, h.creates (regular_of_proceeds hb hc) hs.tiled hnumber ?_ entry name⟩
    exact fun s hs a ha => guarded_of_rests hb hc hs ha

/-- On six frames, five of which are left after booting, a first process can be created. -/
theorem creates_sixFrames : ∃ k stats, (Booted World.sixFrames none k ∧ Proceeds k k ∧
      k.processes.nextPid + 1 < pidLimit ∧ k.heap.limit < 2 ^ 64) ∧ k.heap.stats = .ok stats ∧
    k.Creates stats.largestFree (k.Rests none) 0x1000 "init" ∧ k.Affords stats.largestFree := by
  obtain ⟨k, hk⟩ := exists_booted
  have hnumber : k.processes.nextPid + 1 < pidLimit := by
    rw [hk.processes]
    decide
  obtain ⟨stats, hstats, hcreates⟩ :=
    creates_of_proceeds hk.booted .start hnumber hk.limit 0x1000 "init"
  obtain ⟨k', p, hok, -⟩ := hk.exists_create
  exact ⟨k, stats, ⟨hk.booted, .start, hnumber, hk.limit⟩, hstats, hcreates,
    hcreates.succeeds_iff.mp ⟨1, k', hok⟩⟩

end Kernel

end KernelCore
