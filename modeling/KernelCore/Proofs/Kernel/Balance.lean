/-
# Nothing is lost

What was taken has an owner.  Each frame that was taken from the pool belongs to the kernel's space
or to the space of one process, and each block in use on the heap is the stack of one process:
`Kernel.Balanced`.

* `balanced_create`: what a new process gets is taken, and goes back if the process cannot be;
* `Balanced.reschedule`: handing the processor on moves nothing;
* `Settled.active_mem`: the root that is loaded is always one that somebody owns, so that a space that
  was just taken is not loaded when it is taken down.
-/
import KernelCore.Proofs.Heap.Room
import KernelCore.Proofs.Kernel.Scheduling
import KernelCore.Proofs.Paging.Accounting

namespace KernelCore

/-! ## 1. Stacks on the heap -/

namespace Heap

variable {h h' : Heap} {stack : Nat} {target : UInt64} {held : List Nat} {bs : List Block}

/-- The blocks in use have the stacks for payloads, and each has room for one. -/
structure StacksIn (h : Heap) (held : List Nat) (bs : List Block) : Prop where
  tiled : h.Tiled bs
  perm : held.Perm ((bs.filter Block.used).map Block.payload)
  room : ∀ b ∈ bs, b.used = true → processStackSize ≤ b.capacity

/-- **The stacks are what is in use on the heap.**  A heap that does not end inside the addresses
serves nobody. -/
def Stacked (h : Heap) (held : List Nat) : Prop :=
  (2 ^ 64 ≤ h.limit ∧ held = []) ∨ ∃ bs, h.StacksIn held bs

/-- On a fresh heap there is no stack. -/
theorem stacked_ofRange {memory : Memory} {start size : Nat}
    (hok : ofRange memory start size = .ok h) : h.Stacked [] := by
  rcases Nat.lt_or_ge h.limit (2 ^ 64) with hlt | hge
  · obtain ⟨bs, ht, hfree, -⟩ := tiled_of_ofRange hok hlt
    refine Or.inr ⟨bs, ht, ?_, ?_⟩
    · rw [filter_used_of_free hfree]
      exact List.Perm.refl _
    · intro b hb hu
      rw [hfree b hb] at hu
      cases hu
  · exact Or.inl ⟨hge, rfl⟩

theorem Stacked.perm {held' : List Nat} (hs : h.Stacked held) (hp : held.Perm held') :
    h.Stacked held' := by
  rcases hs with ⟨hge, rfl⟩ | ⟨bs, hs⟩
  · exact Or.inl ⟨hge, List.nil_perm.mp hp⟩
  · exact Or.inr ⟨bs, hs.tiled, hp.symm.trans hs.perm, hs.room⟩

/-- Writes that spare the headers leave the stacks what is in use. -/
theorem Stacked.congr (hs : h.Stacked held) (hstart : h'.start = h.start) (hsize : h'.size = h.size)
    (hm : ∀ blocks, h.blocks = .ok blocks →
      ∀ b ∈ blocks, h.memory.AgreeOn h'.memory b.address b.payload) : h'.Stacked held := by
  have hlimit : h'.limit = h.limit := by rw [limit, limit, hstart, hsize]
  rcases hs with ⟨hge, hnil⟩ | ⟨bs, hs⟩
  · exact Or.inl ⟨hlimit ▸ hge, hnil⟩
  · have ht := hs.tiled.congr hstart hsize (hm bs hs.tiled.blocks_eq)
    exact Or.inr ⟨bs, ht, hs.perm, hs.room⟩

/-- A heap that does not end inside the addresses has no blocks to show. -/
theorem blocks_of_le (hge : 2 ^ 64 ≤ h.limit) : h.blocks = .error .addOverflow := by
  unfold blocks checkedLimit
  rw [if_pos hge]
  rfl

/-- A heap that does not end inside the addresses cannot be asked for anything. -/
theorem alloc_ne_ok (hge : 2 ^ 64 ≤ h.limit) (n : Nat) (r : Nat × Heap) : h.alloc n ≠ .ok r := by
  intro hok
  unfold alloc at hok
  split at hok
  · cases hok
  · rw [checkedLimit, if_pos hge] at hok
    cases hok

/-- The block of a new stack. -/
theorem StacksIn.house {bs' : List Block} {c : Block} (hs : h.StacksIn held bs)
    (hadm : h.Admits h' bs bs' c) (hroom : processStackSize ≤ c.capacity) :
    h'.StacksIn (c.payload :: held) bs' := by
  refine ⟨hadm.tiled, ?_, ?_⟩
  · exact (hs.perm.cons _).trans (hadm.perm.map Block.payload).symm
  · intro b hb hu
    have hmem := hadm.perm.mem_iff.mp (List.mem_filter.mpr ⟨hb, hu⟩)
    rcases List.mem_cons.mp hmem with rfl | hold
    · exact hroom
    · exact hs.room b (List.mem_of_mem_filter hold) hu

/-- The address on a new stack lies inside its block. -/
theorem byte_returnSlot_of_outside (m : Memory) (target : UInt64) {z x : Nat}
    (hend : stack + processStackSize ≤ z) (hx : x < stack ∨ z ≤ x) :
    (m.setWord (Process.returnSlot stack) target).byte x = m.byte x := by
  refine Memory.byte_setWord_of_outside _ _ _ _ ?_
  simp only [Process.returnSlot, processStackSize] at hend ⊢
  omega

/-- **A new stack**, with the address on it to which the first function returns, is one block more in
use. -/
theorem admits_of_allocStack (ht : h.Tiled bs) (hok : Kernel.allocStack h target = .ok (stack, h')) :
    ∃ bs' c, h.Admits h' bs bs' c ∧ c.payload = stack ∧ processStackSize ≤ c.capacity := by
  unfold Kernel.allocStack at hok
  cases ha : h.alloc processStackSize with
  | error stop =>
    rw [ha] at hok
    cases hok
  | ok r =>
    rw [ha] at hok
    cases hok
    obtain ⟨bs', c, hadm, hpay, hend⟩ := admits_of_alloc ht ha
    have hroom : processStackSize ≤ c.capacity := by
      simp only [Block.payload, Block.next, Block.capacity] at hpay hend ⊢
      omega
    exact ⟨bs', c, hadm.store fun x hx => byte_returnSlot_of_outside _ target hend (hpay ▸ hx), hpay, hroom⟩

theorem allocStack_ne_ok (hge : 2 ^ 64 ≤ h.limit) (target : UInt64) (r : Nat × Heap) :
    Kernel.allocStack h target ≠ .ok r := by
  intro hok
  unfold Kernel.allocStack at hok
  cases ha : h.alloc processStackSize with
  | error stop =>
    rw [ha] at hok
    cases hok
  | ok r => exact alloc_ne_ok hge _ _ ha

theorem Stacked.allocStack (hs : h.Stacked held) (hok : Kernel.allocStack h target = .ok (stack, h')) :
    h'.Stacked (stack :: held) := by
  rcases hs with ⟨hge, -⟩ | ⟨bs, hs⟩
  · exact absurd hok (allocStack_ne_ok hge _ _)
  · obtain ⟨bs', c, hadm, hpay, hroom⟩ := admits_of_allocStack hs.tiled hok
    rw [← hpay]
    exact Or.inr ⟨bs', hs.house hadm hroom⟩

/-- A stack is the payload of a block, which can be released. -/
theorem StacksIn.exists_free (hs : h.StacksIn held bs) (hin : stack ∈ held) :
    ∃ h' bs' b, h.free stack = .ok h' ∧ h.Releases h' bs bs' b ∧ b.payload = stack := by
  obtain ⟨b, hb, rfl⟩ := List.mem_map.mp (hs.perm.mem_iff.mp hin)
  obtain ⟨hb, hu⟩ := List.mem_filter.mp hb
  obtain ⟨h', bs', hok, hrel⟩ := exists_free_payload hs.tiled hb hu
  exact ⟨h', bs', b, hok, hrel, rfl⟩

/-- The stacks are the payloads of the blocks in use. -/
theorem StacksIn.mem_iff (hs : h.StacksIn held bs) : stack ∈ held ↔ ∃ b, h.InUse b ∧ b.payload = stack := by
  rw [hs.perm.mem_iff, List.mem_map]
  exact exists_congr fun b => and_congr_left' hs.tiled.inUse_iff.symm

/-- **A stack can be given back.** -/
theorem Stacked.exists_free (hs : h.Stacked (stack :: held)) :
    ∃ h', h.free stack = .ok h' ∧ h'.Stacked held := by
  rcases hs with ⟨-, hnil⟩ | ⟨bs, hs⟩
  · cases hnil
  · obtain ⟨h', bs', b, hok, hrel, rfl⟩ := hs.exists_free List.mem_cons_self
    refine ⟨h', hok, Or.inr ⟨bs', hrel.tiled, ?_, ?_⟩⟩
    · exact (hs.perm.trans (hrel.perm.map Block.payload)).cons_inv
    · intro c hc hcu
      have hold := hrel.perm.mem_iff.mpr (List.mem_cons_of_mem b (List.mem_filter.mpr ⟨hc, hcu⟩))
      exact hs.room c (List.mem_of_mem_filter hold) hcu

end Heap

/-! ## 2. Balanced kernels -/

namespace Kernel

variable {k k' : Kernel} {base pid : Nat} {p : Process} {space : AddressSpace}

/-- The frames that somebody owns. -/
def owned (k : Kernel) : List Nat := k.vm.kernel.ownedFrames ++ k.processes.ownedFrames

theorem length_owned (k : Kernel) : k.owned.length = k.ownedFrames := by
  rw [owned, List.length_append, AddressSpace.length_ownedFrames, ProcessTable.length_ownedFrames]
  rfl

/-- **What was taken has an owner.**  `base` frames were used before the kernel took any. -/
structure Balanced (k : Kernel) (base : Nat) : Prop where
  frames : k.vm.ram.pool.Holds base k.owned
  heap : k.heap.Stacked k.processes.stackAddresses

/-- **A kernel that has lost track of nothing.** -/
structure InOrder (k : Kernel) (base : Nat) : Prop where
  settled : k.Settled
  balanced : k.Balanced base

/-- No two processes have one stack. -/
theorem Balanced.nodup_stacks (hb : k.Balanced base) : (k.processes.holdings.map Holding.stack).Nodup := by
  rw [← ProcessTable.stackAddresses_eq]
  rcases hb.heap with ⟨-, hnone⟩ | ⟨bs, hs⟩
  · rw [hnone]
    exact List.nodup_nil
  · exact hs.perm.nodup_iff.mpr (hs.tiled.nodup_payload.sublist (List.filter_sublist.map _))

/-- Handing the processor on moves nothing. -/
theorem Balanced.reschedule (hb : k.Balanced base) (hr : k.Reschedules k') : k'.Balanced base := by
  constructor
  · rw [owned, hr.ram, hr.kernel, ProcessTable.ownedFrames_eq, hr.holdings, ← ProcessTable.ownedFrames_eq]
    exact hb.frames
  · rw [hr.heap, ProcessTable.stackAddresses_eq, hr.holdings, ← ProcessTable.stackAddresses_eq]
    exact hb.heap

/-- The root that is loaded is one that somebody owns. -/
theorem Settled.active_mem (hs : k.Settled) {root : Nat} (h : k.vm.activeRoot = some root) :
    root ∈ k.owned := by
  have hkernel : k.vm.kernel.root ∈ k.owned := List.mem_append_left _ List.mem_cons_self
  cases hcur : k.processes.current with
  | none =>
    rcases hs.idle hcur with hnone | hroot
    · rw [hnone] at h
      cases h
    · rw [hroot] at h
      cases h
      exact hkernel
  | some pid =>
    obtain ⟨p, hp, -⟩ := hs.consistent.exists_current hcur
    rw [hs.loaded hcur hp] at h
    cases h
    have hmem := ProcessTable.mem_live_of_find? hp
    exact List.mem_append_right _ (List.mem_flatMap.mpr ⟨p, hmem, List.mem_cons_self⟩)

/-! ## 3. Coming -/

/-- A new space was taken for a process that is still to be built. -/
structure Furnished (k k' : Kernel) (base : Nat) (space : AddressSpace) : Prop where
  frames : k'.vm.ram.pool.Holds base (space.ownedFrames ++ k.owned)
  heap : k'.heap.Stacked k.processes.stackAddresses
  same : k.SameProcesses k'

theorem furnished_buildSpace (hs : k.Settled) (hb : k.Balanced base) : Outcome (buildSpace k)
    (fun space k' => k.Furnished k' base space) fun _ k' => k'.Balanced base := by
  have hholds := Vm.holds_createSpaceWith (.containing processDataStart) hb.frames
    fun root => hs.active_mem
  have hstill := Vm.still_createSpaceWith (.containing processDataStart) k.vm
  refine Outcome.onVm ((hholds.and hstill).mono ?_ ?_)
  · exact fun space vm h => ⟨h.1, hb.heap, rfl, h.2⟩
  · intro _ vm h
    refine ⟨?_, hb.heap⟩
    rw [owned, h.2.1]
    exact h.1

/-- A space that was taken is not the one that is loaded. -/
theorem Furnished.active_ne (hs : k.Settled) (hf : k.Furnished k' base space) :
    k'.vm.activeRoot ≠ some space.root := by
  intro h
  rw [hf.same.vm.2] at h
  have hnodup := hf.frames.nodup
  exact List.disjoint_of_nodup_append hnodup List.mem_cons_self (hs.active_mem h)

/-- The space and the stack of a process that is still to be entered. -/
theorem furnished_buildStack (hs : k.Settled) (hf : k.Furnished k' base space) :
    Outcome (buildStack space k')
      (fun stack k'' => k''.vm.ram.pool.Holds base (space.ownedFrames ++ k.owned) ∧
        k''.heap.Stacked (stack :: k.processes.stackAddresses) ∧ k.SameProcesses k'')
      fun _ k'' => k''.Balanced base := by
  unfold buildStack
  split
  · next stack heap hok => exact ⟨hf.frames, hf.heap.allocStack hok, hf.same.processes, hf.same.vm⟩
  · obtain ⟨pool, hgone, hp⟩ := Vm.exists_destroySpace hf.frames (hf.active_ne hs)
    refine Outcome.bind (P := fun _ k'' => k''.Balanced base) ?_ fun _ k'' h => h
    refine Outcome.onVm (.of_ok hgone ⟨?_, ?_⟩)
    · rw [owned, hf.same.processes]
      simp only [hf.same.vm.1]
      exact hp
    · rw [hf.same.processes]
      exact hf.heap
  · exact True.intro

/-- **Creating a process**: what it gets is its own, and goes back if it cannot be. -/
theorem balanced_create (hs : k.Settled) (hb : k.Balanced base) (entry : UInt64) (name : String) :
    Outcome (create entry name k) (fun _ k' => k'.Balanced base) fun _ k' => k'.Balanced base := by
  unfold create
  cases hslot : k.processes.freeSlot? with
  | none => exact hb
  | some slot =>
    dsimp only
    split
    · exact hb
    · refine (furnished_buildSpace hs hb).bind fun space k₁ h₁ => ?_
      refine (furnished_buildStack hs h₁).bind fun stack k₂ h₂ => ?_
      obtain ⟨hframes, hstacks, hsame⟩ := h₂
      have hnone := ProcessTable.isNone_of_freeSlot? hslot
      rw [← hsame.processes] at hnone hstacks
      refine (enrolled_enroll (hs.of_sameProcesses hsame) hnone entry name space stack).mono
        (fun pid k₃ h₃ => ⟨?_, ?_⟩) fun _ _ h => h.elim
      · rw [h₃.vm]
        refine hframes.perm ?_
        rw [owned, owned, h₃.vm, hsame.vm.1, ← hsame.processes]
        refine (List.perm_append_comm_assoc _ _ _).trans (List.Perm.append_left _ ?_)
        rw [ProcessTable.ownedFrames_eq, ProcessTable.ownedFrames_eq]
        exact (h₃.holdings.flatMap_right (·.space.ownedFrames)).symm
      · rw [ProcessTable.stackAddresses_eq] at hstacks
        rw [h₃.heap, ProcessTable.stackAddresses_eq]
        exact hstacks.perm (h₃.holdings.map Holding.stack).symm

end Kernel

end KernelCore
