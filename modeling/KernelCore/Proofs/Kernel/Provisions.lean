/-
# How many processes can be created

A process takes five frames, a block of the heap, a slot of the table and a number.  A kernel that has all
of them for `n` processes is provided for `n` (`Kernel.Provided`), and what one creation takes is what one
process less needs:

* `Heap.HasRoom.of_allocStack`: a stack is cut from the heap, and the room for the others is left;
* `Provided.exists_create`: a kernel that is provided for one more process creates it, and is provided for
  the rest, with the same frames to spare;
* `Provided.exists_filled`: so all processes that it is provided for can be created one after the other;
* `provided_boot`: a kernel that has booted is provided for as many as its memory and its heap have room for.
-/
import KernelCore.Proofs.Frame.Supply
import KernelCore.Proofs.Kernel.Lineup
import KernelCore.Proofs.Paging.Turnover

namespace KernelCore

/-! ## 1. Room for stacks -/

namespace Heap

variable {h h' : Heap} {target : UInt64} {stack n need : Nat} {b : Block}

/-- Bytes of the block that a stack needs. -/
def stackBlockSize : Nat := processStackSize + headerSize

theorem blockSizeFor?_stack : blockSizeFor? processStackSize = some stackBlockSize := by decide

/-- **Room for `n` stacks** in one free block. -/
def HasRoom (h : Heap) (n : Nat) : Prop :=
  ∃ bs, h.Tiled bs ∧ (n ≠ 0 → ∃ b ∈ bs, b.used = false ∧ n * stackBlockSize ≤ b.size)

theorem HasRoom.limit_lt (hr : h.HasRoom n) : h.limit < 2 ^ 64 := by
  obtain ⟨bs, ht, -⟩ := hr
  exact ht.limit_lt

/-- **A cut leaves the room for the others**: the block that has it is larger than what is cut off, or it is
another block. -/
theorem exists_free_carved {pre post : List Block} {f : Block} (hf : f ∈ pre ++ b :: post)
    (hfree : f.used = false) (hn : n ≠ 0) (hmin : minBlock ≤ need) (hsize : (n + 1) * need ≤ f.size) :
    ∃ g ∈ pre ++ b.carved need ++ post, g.used = false ∧ n * need ≤ g.size := by
  have hle : n * need ≤ f.size := Nat.le_trans (Nat.mul_le_mul_right _ (Nat.le_succ n)) hsize
  rw [List.append_assoc]
  rcases List.mem_append.mp hf with hpre | hrest
  · exact ⟨f, List.mem_append_left _ hpre, hfree, hle⟩
  · rcases List.mem_cons.mp hrest with rfl | hpost
    · have hrest : n * need ≤ f.size - need := by
        rw [Nat.succ_mul] at hsize
        exact Nat.le_sub_of_add_le hsize
      have hone : need ≤ n * need := Nat.le_mul_of_pos_left _ (Nat.pos_of_ne_zero hn)
      have hcut : (⟨f.address + need, f.size - need, false⟩ : Block) ∈ f.carved need := by
        unfold Block.carved
        rw [if_pos (by omega)]
        simp
      exact ⟨_, List.mem_append_right _ (List.mem_append_left _ hcut), rfl, hrest⟩
    · exact ⟨f, List.mem_append_right _ (List.mem_append_right _ hpost), hfree, hle⟩

/-- Where there is room, a stack can be had. -/
theorem HasRoom.exists_alloc (hr : h.HasRoom (n + 1)) : ∃ r, h.alloc processStackSize = .ok r := by
  obtain ⟨bs, ht, hroom⟩ := hr
  obtain ⟨b, hb, hfree, hsize⟩ := hroom (Nat.succ_ne_zero n)
  refine ht.exists_alloc_iff.mpr ((le_largestFree_iff (by decide)).mpr ⟨b, hb, hfree, ?_⟩)
  simp only [stackBlockSize, processStackSize, headerSize, Block.capacity] at hsize ⊢
  omega

/-- **A new stack leaves the room for the others.** -/
theorem HasRoom.of_allocStack (hr : h.HasRoom (n + 1))
    (hok : Kernel.allocStack h target = .ok (stack, h')) : h'.HasRoom n := by
  obtain ⟨bs, ht, hroom⟩ := hr
  obtain ⟨f, hf, hfree, hsize⟩ := hroom (Nat.succ_ne_zero n)
  unfold Kernel.allocStack at hok
  cases ha : h.alloc processStackSize with
  | error stop =>
    rw [ha] at hok
    cases hok
  | ok r =>
    rw [ha] at hok
    cases hok
    obtain ⟨pre, b, post, need, rfl, -, hneed, hblock, -, hstack, ht', -⟩ := tiled_of_alloc ht ha
    obtain rfl : need = stackBlockSize := Option.some.inj (hblock.symm.trans blockSizeFor?_stack)
    obtain ⟨c, hcons, -, hpay, hend, -⟩ := exists_used_carved hneed
    have hc : c ∈ b.carved stackBlockSize := by
      rw [hcons]
      exact List.mem_cons_self
    have hin := List.mem_append_left post (List.mem_append_right pre hc)
    have hinside : r.1 + processStackSize ≤ c.next := by
      simp only [stackBlockSize, headerSize, Block.payload] at hend hstack
      omega
    have hstored := (ht'.store hin (m := r.2.memory.setWord (Process.returnSlot r.1) target) fun x hx =>
      byte_returnSlot_of_outside _ target hinside (hstack ▸ hpay ▸ hx)).1
    exact ⟨_, hstored, fun hn => exists_free_carved hf hfree hn (by decide) hsize⟩

/-- A heap over an aligned range is all of it. -/
theorem ofRange_of_aligned (memory : Memory) {start size : Nat} (hlt : start + heapAlign < 2 ^ 64)
    (hstart : start % heapAlign = 0) (hsize : size % heapAlign = 0) (hmin : minBlock ≤ size) :
    ofRange memory start size = .ok ((Heap.mk start size memory).setHeader start size freeTag) := by
  have haligned : alignUp start heapAlign = start := by
    simp only [alignUp, heapAlign] at hstart ⊢
    omega
  have husable : alignDown (size - (start - start)) heapAlign = size := by
    simp only [alignDown, heapAlign] at hsize ⊢
    omega
  unfold ofRange
  rw [if_neg (Nat.not_le_of_lt hlt), haligned]
  dsimp only
  rw [husable, if_pos hmin]

/-- **A heap of which nothing is in use** has all its room in one piece. -/
theorem exists_hasRoom (hpos : 0 < n) (hn : n ≤ maxProcesses) :
    ∃ heap, ofRange .zero 4096 (n * stackBlockSize) = .ok heap ∧ heap.HasRoom n := by
  have hsize : n * stackBlockSize = n * 16400 := rfl
  simp only [maxProcesses] at hn
  have hheap : ofRange .zero 4096 (n * stackBlockSize) =
      .ok ((Heap.mk 4096 (n * stackBlockSize) .zero).setHeader 4096 (n * stackBlockSize) freeTag) :=
    ofRange_of_aligned .zero (by decide) (by decide) (by rw [hsize, heapAlign]; omega)
      (by rw [hsize, minBlock, headerSize, heapAlign]; omega)
  have hlimit := limit_lt_of_ofRange hheap (by omega)
  obtain ⟨bs, ht, hunused, -⟩ := tiled_of_ofRange hheap hlimit
  have hwhole := ht.eq_singleton hunused (by simp only [limit, start_setHeader, size_setHeader]; omega)
  refine ⟨_, hheap, bs, ht, fun _ => ⟨_, by rw [hwhole]; exact List.mem_singleton_self _, rfl, ?_⟩⟩
  rw [size_setHeader]

end Heap

/-! ## 2. Provisions -/

namespace Kernel

variable {k k' : Kernel} {base spare n i : Nat} {p : Process} {entry : UInt64} {name : String}

/-- **Provided for `n` processes**, with `spare` frames besides. -/
structure Provided (k : Kernel) (base spare n : Nat) : Prop where
  inOrder : k.InOrder base
  regular : k.vm.ram.pool.Regular
  frames : k.vm.ram.pool.free = 5 * n + spare
  room : k.heap.HasRoom n
  slots : k.processes.live.length + n ≤ maxProcesses
  numbers : k.processes.nextPid + n < pidLimit

/-- The space of a new process has five frames: its root, three tables and the data page. -/
theorem Comes.ownedFrames (h : k.Comes k' entry name p) (htotal : k.vm.ram.pool.total ≤ maxFrames)
    (hsupply : k.vm.ram.pool.Supplies 5) : k'.ownedFrames = k.ownedFrames + 5 := by
  obtain ⟨space, vm, hspace, hcount⟩ := Vm.exists_createSpaceWith
    (show dataPage.isUpper = false by decide) htotal hsupply
  obtain ⟨rfl, -⟩ := EStateM.Result.ok.inj (h.space.symm.trans hspace)
  have hkernel := (Vm.still_createSpaceWith dataPage k.vm).of_eq_ok h.space
  have hframes := (h.holdings.flatMap_right (·.space.ownedFrames)).length_eq
  rw [← ProcessTable.ownedFrames_eq, ProcessTable.length_ownedFrames, List.flatMap_cons, List.length_append,
    ← ProcessTable.ownedFrames_eq, ProcessTable.length_ownedFrames] at hframes
  have hfive : p.holding.space.ownedFrames.length = 5 := (AddressSpace.length_ownedFrames _).trans hcount
  unfold Kernel.ownedFrames
  rw [hkernel.1, hframes]
  omega

/-- **A process can be created** where there are provisions for one, and the provisions for the others are
left. -/
theorem Provided.exists_create (h : k.Provided base spare (n + 1)) (entry : UInt64) (name : String) :
    ∃ k' p, create entry name k = .ok k.processes.nextPid k' ∧ k.Comes k' entry name p ∧
      k'.Provided base spare n := by
  obtain ⟨hs, hb⟩ := h.inOrder
  have hslots := h.slots
  have hnumbers := h.numbers
  have htotal := hb.frames.total_le
  have hsupply : k.vm.ram.pool.Supplies 5 := h.regular.supplies_iff.mpr (by rw [h.frames]; omega)
  obtain ⟨slot, hslot⟩ := ProcessTable.exists_freeSlot?_of_lt (t := k.processes) (by omega)
  obtain ⟨k', p, hcreate, hcomes⟩ := Kernel.exists_create hs hslot (by omega) htotal hsupply
    h.room.exists_alloc entry name
  have hs' := ((settled_create hs entry name).of_eq_ok hcreate).2.2.1
  have hb' := (balanced_create hs hb entry name).of_eq_ok hcreate
  have htrades := (Vm.trades_createSpaceWith dataPage .refl).of_eq_ok hcomes.space
  have hlive := hcomes.holdings.length_eq
  have hnext : k'.processes.nextPid = p.pid + 1 := by
    obtain ⟨_, _, -, -, hprocesses⟩ := hcomes.table
    rw [hprocesses]
  refine ⟨k', p, hcreate, hcomes, ⟨hs', hb'⟩, htrades.regular h.regular, ?_,
    h.room.of_allocStack hcomes.stack, ?_, ?_⟩
  · have hcount := hb.frames.count
    have hcount' := hb'.frames.count
    have howned := hcomes.ownedFrames htotal hsupply
    rw [length_owned] at hcount hcount'
    rw [htrades.total] at hcount'
    have := h.frames
    omega
  · rw [List.length_cons, ProcessTable.length_holdings, ProcessTable.length_holdings] at hlive
    omega
  · rw [hnext, hcomes.pid_eq]
    omega

/-- **The table after `n` creations** and nothing else. -/
structure Filled (k : Kernel) (n : Nat) : Prop where
  lineup : k.processes.lineup = ⟨List.range' 1 n, none⟩
  members : (k.processes.holdings.map Holding.pid).Perm (List.range' 1 n)
  nextPid : k.processes.nextPid = n + 1
  uptime : k.processes.uptime = 0

theorem Filled.of_empty {idle : Context} (h : k.processes = .empty idle) : k.Filled 0 := by
  refine ⟨?_, ?_, ?_, ?_⟩
  · rw [h]
    rfl
  · rw [h, ProcessTable.holdings, ProcessTable.live_empty]
    exact .refl _
  · rw [h]
    rfl
  · rw [h]
    rfl

theorem Filled.comes (h : k.Filled n) (hcomes : k.Comes k' entry name p) : k'.Filled (n + 1) := by
  have hpid : p.pid = n + 1 := hcomes.pid_eq.trans h.nextPid
  have hrange : List.range' 1 (n + 1) = List.range' 1 n ++ [n + 1] := by
    rw [List.range'_1_concat, Nat.add_comm 1 n]
  obtain ⟨_, _, -, -, hprocesses⟩ := hcomes.table
  refine ⟨?_, ?_, ?_, ?_⟩
  · rw [hcomes.lineup, h.lineup, hpid, hrange]
    rfl
  · rw [hrange, ← hpid]
    exact ((hcomes.holdings.map Holding.pid).trans (h.members.cons _)).trans
      (List.perm_append_singleton _ _).symm
  · rw [hprocesses, hpid]
  · rw [hprocesses]
    exact h.uptime

theorem Filled.length_live (h : k.Filled n) : k.processes.live.length = n := by
  have hlength := h.members.length_eq
  rwa [List.length_map, ProcessTable.length_holdings, List.length_range'] at hlength

theorem Filled.idle (h : k.Filled n) : k.processes.current = none := congrArg Lineup.current h.lineup

/-- **All processes that a kernel is provided for can be created**, one after the other.  What creations
keep holds in the end. -/
theorem Provided.exists_filled {P : Nat → Kernel → Prop} (entry : UInt64) (name : String)
    (hstep : ∀ {i k k'}, P i k → create entry name k = .ok (i + 1) k' → P (i + 1) k') :
    ∀ {n i : Nat} {k : Kernel}, k.Provided base spare n → k.Filled i → P i k →
      ∃ k', k'.Provided base spare 0 ∧ k'.Filled (i + n) ∧ P (i + n) k'
  | 0, _, k, hp, hf, h => ⟨k, hp, hf, h⟩
  | n + 1, i, k, hp, hf, h => by
    obtain ⟨k₁, p, hcreate, hcomes, hp₁⟩ := hp.exists_create entry name
    rw [hf.nextPid] at hcreate
    obtain ⟨k', hp', hf', h'⟩ := exists_filled entry name hstep hp₁ (hf.comes hcomes) (hstep h hcreate)
    rw [Nat.add_right_comm, Nat.add_assoc] at hf' h'
    exact ⟨k', hp', hf', h'⟩

/-! ## 3. Booting -/

/-- What a kernel consists of when it has booted. -/
theorem eq_of_boot {memory : Memory} {map : MemoryMap} {bootRoot : Option Nat} {heap : Heap}
    {idle trap : Context} {target : UInt64}
    (hboot : boot memory map bootRoot heap idle trap target = .ok k) :
    Vm.boot ⟨memory, .ofMap map⟩ bootRoot = .ok k.vm ∧ k.heap = heap ∧ k.processes = .empty idle := by
  unfold boot at hboot
  split at hboot
  · cases hboot
  · next vm hvm =>
    match hrecord : Stop.ofHalt (ε := PagingError) vm.bootRecord, hboot with
    | .ok record, hboot =>
      cases hboot
      exact ⟨hvm, rfl, rfl⟩
    | .error stop, hboot => cases hboot

/-- A kernel is in order when it has booted. -/
theorem inOrder_boot {memory memory' : Memory} {map : MemoryMap} {bootRoot : Option Nat}
    {heap : Heap} {start size : Nat} {idle trap : Context} {target : UInt64}
    (hheap : Heap.ofRange memory' start size = .ok heap)
    (hboot : boot memory map bootRoot heap idle trap target = .ok k) :
    k.InOrder (FramePool.ofMap map).used := by
  obtain ⟨hvm, rfl, hprocesses⟩ := eq_of_boot hboot
  obtain ⟨hroot, hkernel, hactive⟩ := Vm.eq_of_boot hvm
  refine ⟨Settled.of_idle ?_ ?_ (Or.inl hactive), ?_, ?_⟩
  · rw [hprocesses]
    exact ProcessTable.Consistent.empty idle
  · rw [hprocesses]
    rfl
  · rw [owned, hkernel, hprocesses]
    exact (FramePool.Holds.ofMap map).of_allocate hroot
  · rw [hprocesses]
    exact Heap.stacked_ofRange hheap

/-- **A kernel boots** on every machine with a free frame. -/
theorem exists_boot (map : MemoryMap) (heap : Heap) (idle trap : Context)
    (hfree : (FramePool.ofMap map).free ≠ 0) : ∃ k, boot .zero map none heap idle trap = .ok k := by
  obtain ⟨root, pool, hroot⟩ := (FramePool.Regular.ofMap map).exists_allocate hfree
  have hlt : root < maxFrames :=
    ((FramePool.Holds.ofMap map).of_allocate hroot).lt_maxFrames List.mem_cons_self
  have haddress : Frame.address root = .ok (root * pageSize) :=
    Frame.address_of_lt (Nat.lt_trans hlt (by decide))
  unfold boot Vm.boot Vm.bootRecord Frame.describe
  rw [hroot]
  simp only [AddressSpace.ofRoot, haddress]
  exact ⟨_, rfl⟩

/-- **What a kernel is provided for when it has booted**: its own root takes one frame. -/
theorem provided_boot {memory memory' : Memory} {map : MemoryMap} {bootRoot : Option Nat}
    {heap : Heap} {start size : Nat} {idle trap : Context} {target : UInt64}
    (hheap : Heap.ofRange memory' start size = .ok heap)
    (hboot : boot memory map bootRoot heap idle trap target = .ok k) (hroom : heap.HasRoom n)
    (hfree : (FramePool.ofMap map).free = 5 * n + spare + 1) (hslots : n ≤ maxProcesses) :
    k.Provided (FramePool.ofMap map).used spare n ∧ k.Filled 0 := by
  have hin := inOrder_boot hheap hboot
  obtain ⟨hvm, rfl, hprocesses⟩ := eq_of_boot hboot
  obtain ⟨hroot, -⟩ := Vm.eq_of_boot hvm
  refine ⟨⟨hin, (FramePool.Regular.ofMap map).of_allocate hroot, ?_, hroom, ?_, ?_⟩, .of_empty hprocesses⟩
  · obtain ⟨-, -, -, hpool⟩ := FramePool.eq_of_allocate hroot
    rw [hpool]
    exact congrArg (· - 1) hfree
  · rw [hprocesses, ProcessTable.live_empty, List.length_nil, Nat.zero_add]
    exact hslots
  · have hlt : 1 + maxProcesses < pidLimit := by decide
    rw [hprocesses]
    exact Nat.lt_of_le_of_lt (Nat.add_le_add_left hslots 1) hlt

/-- A machine with room for four processes: the kernel's root takes one of its frames, and two are to
spare. -/
def smallMachine : MemoryMap := [⟨0, 23 * 4096, .usable⟩]

theorem exists_smallMachine : ∃ heap k, Heap.ofRange .zero 4096 (4 * Heap.stackBlockSize) = .ok heap ∧
    boot .zero smallMachine none heap {} {} = .ok k ∧
      k.Provided (FramePool.ofMap smallMachine).used 2 4 ∧ k.Filled 0 := by
  have hfree : (FramePool.ofMap smallMachine).free = 23 := by decide +kernel
  obtain ⟨heap, hheap, hroom⟩ := Heap.exists_hasRoom (n := 4) (by decide) (by decide)
  obtain ⟨k, hboot⟩ := exists_boot smallMachine heap {} {} (by rw [hfree]; decide)
  exact ⟨heap, k, hheap, hboot, provided_boot hheap hboot hroom hfree (by decide)⟩

end Kernel

end KernelCore
