/-
# Processes are isolated

Each process has a space of its own, and so what the kernel does for one of them, or for nobody, leaves the
pages of all others alone.  Ticks and system calls write nothing at all; a new process gets frames that
nobody had, and only those are written.  That does not depend on what the boot loader left: the kernel keeps
the books of its frames in any case.  Where it left no tables, the tables of every process are right too,
and then the same bytes are also read through them, even after pages were mapped for the kernel itself.

* `isolated_of_leads`: no page of a process changes;
* `viewsIsolated_of_leads`: nor does what is seen in the lower half of its space;
* `isolated_of_runs`: spaces and processes, in all states that runs lead to.
-/
import KernelCore.Proofs.Kernel.Survival
import KernelCore.Proofs.Paging.Isolation
import KernelCore.Proofs.Paging.Sharing

namespace KernelCore

namespace Kernel

variable {k₀ k k' : Kernel} {base : Nat} {map : MemoryMap} {bootRoot : Option Nat} {call : KernelCall}

/-! ## 1. What nobody writes to -/

theorem spares_create (h : k.InOrder base) (entry : UInt64) (name : String) :
    Outcome (create entry name k) (fun _ k' => Vm.Spares k.Kept k.vm k'.vm)
      fun _ k' => Vm.Spares k.Kept k.vm k'.vm := by
  refine (lodged_create h entry name).mono ?_ fun _ _ hs => hs.2
  rintro _ k' ⟨space, stack, k₁, hlodged, he⟩
  rw [he.vm]
  exact hlodged.spares

/-- **Calls spare all that anybody owns**, except that pages mapped for the kernel itself may need tables. -/
theorem spares_of_leads (h : k.InOrder base) (hl : call.Leads k k')
    (hcall : ∀ start length, call ≠ .mapRegion start length) : Vm.Spares k.Kept k.vm k'.vm := by
  cases call with
  | spawn entry name =>
    exact of_leads (P := fun k' => Vm.Spares k.Kept k.vm k'.vm) hl
      (Outcome.bind (outcome_onProcesses (spares_create h entry name)) fun _ _ h => h)
  | mapRegion start length => exact absurd rfl (hcall start length)
  | _ =>
    have hf := frugal_of_leads h id hl
    exact .of_eq hf.kernel hf.memory

/-- Where the kernel's tables are right, **no call writes to what processes own**. -/
theorem Housed.sameFrame_of_leads (hh : k.Housed) (h : k.InOrder base) (hl : call.Leads k k') :
    ∀ f ∈ k.processes.ownedFrames, k.vm.ram.memory.SameFrame k'.vm.ram.memory f := by
  by_cases hcall : ∃ start length, call = .mapRegion start length
  · obtain ⟨start, length, rfl⟩ := hcall
    obtain ⟨-, hgrows⟩ := hh.grows_of_leads h hl
    exact fun f hf => hgrows.within.sameFrame hgrows.books.holds hf
  · intro f hf
    refine (spares_of_leads h hl ?_).memory f (Or.inl (List.mem_append_right _ hf))
    exact fun start length heq => hcall ⟨start, length, heq⟩

/-! ## 2. Isolation -/

/-- **The pages of the processes are isolated.**  Whatever is asked for, for the running process or for
nobody, and whatever becomes of it, no page of any live process changes. -/
def Isolated (k : Kernel) : Prop := ∀ (call : KernelCall) (k' : Kernel),
  (∀ start length, call ≠ .mapRegion start length) → call.Leads k k' →
    ∀ p ∈ k.processes.live, ∀ page frame, p.space.frameAt? page = some frame →
      k.vm.ram.memory.SameFrame k'.vm.ram.memory frame

/-- **What is seen of the processes is isolated.**  Whatever is asked for, all addresses of the lower half of
a process's space lead where they led, and the same bytes are read there. -/
def ViewsIsolated (k : Kernel) : Prop := ∀ (call : KernelCall) (k' : Kernel), call.Leads k k' →
  ∀ p ∈ k.processes.live, k.vm.SameView (fun a => a.val < 2 ^ 47) p.space k'.vm

/-- What a live process owns belongs to processes. -/
theorem mem_ownedFrames_of_live {p : Process} {f : Nat} (hp : p ∈ k.processes.live)
    (hf : f ∈ p.space.ownedFrames) : f ∈ k.processes.ownedFrames :=
  List.mem_flatMap.mpr ⟨p, hp, hf⟩

theorem InOrder.isolated (h : k.InOrder base) : k.Isolated := by
  intro call k' hcall hl p hp page frame hf
  exact (spares_of_leads h hl hcall).memory frame
    (Or.inl (List.mem_append_right _ (mem_ownedFrames_of_live hp (AddressSpace.mem_owned_of_frameAt? hf))))

theorem Housed.viewsIsolated (hh : k.Housed) (h : k.InOrder base) : k.ViewsIsolated := by
  intro call k' hl p hp
  have hsame : ∀ f ∈ p.space.ownedFrames, k.vm.ram.memory.SameFrame k'.vm.ram.memory f :=
    fun f hf => hh.sameFrame_of_leads h hl f (mem_ownedFrames_of_live hp hf)
  obtain ⟨hkind, ⟨asked, τ, ht⟩, -⟩ := hh.processes p.holding (List.mem_map_of_mem hp)
  have haccepts : ∀ a : VirtAddr, a.val < 2 ^ 47 → p.space.accepts (.containing a) = true :=
    fun a ha => (World.accepts_user hkind).trans (congrArg (!·) (Memory.isUpper_containing ha))
  refine .of_lands (fun a ha => ?_) (fun a ha => ht.lands (haccepts a ha))
    fun f hf => hsame f (p.space.data_subset_ownedFrames hf)
  exact World.IsRight.translate_congr ⟨hkind, τ, ht⟩ (haccepts a ha)
    fun t htable => hsame t (AddressSpace.mem_ownedFrames htable)

/-- **Spaces and processes are isolated.**  In every world that honest callers of the manager get to, a call
on a user space leaves all other spaces alone; and in every kernel that has booted, whatever has been asked
of it and whatever code has run on it, no call changes a page of a process, and none changes what is seen of
it if the boot loader left no tables. -/
theorem isolated_of_runs (map : MemoryMap) :
    (∀ w, World.Arises map w → w.Isolated) ∧
      (∀ bootRoot k₀ k, Booted map bootRoot k₀ → Proceeds k₀ k → k.Isolated) ∧
        ∀ k₀ k, Booted map none k₀ → Proceeds k₀ k → k.ViewsIsolated := by
  refine ⟨fun w ha => World.isolated_of_arises ha, fun bootRoot k₀ k hb hc => ?_, fun k₀ k hb hc => ?_⟩
  · exact (inOrder_of_course hb.inOrder.2 hc).isolated
  · exact (housed_of_proceeds hb hc).viewsIsolated (inOrder_of_course hb.inOrder.2 hc)

/-- On a machine of six frames a page is mapped in the kernel's space beside a user space, and an address of
it leads where it led after a page was to be unmapped in the user space; and a process runs there that has
its page. -/
theorem isolated_sixFrames : ∃ w w' i k₀ k, (World.Arises World.sixFrames w ∧
    Booted World.sixFrames none k₀ ∧ Proceeds k₀ k) ∧
      (w.Isolated ∧ (World.guest? i w).isSome ∧ (PagingCall.unmap i dataPage).Leads w w' ∧
        w'.vm.translate w.vm.kernel World.firstUpper =
          .ok (some ⟨2 * pageSize, Flags.kernelData.inForce⟩)) ∧
      k.Isolated ∧ k.ViewsIsolated ∧ ∃ p ∈ k.processes.live, (p.space.frameAt? dataPage).isSome := by
  obtain ⟨w, g, hr, hg, -, hkernel⟩ := World.exists_unshared
  obtain ⟨k₀, k, hb, hc, hcur, -⟩ := exists_running
  obtain ⟨hworlds, hprocesses, hviews⟩ := isolated_of_runs World.sixFrames
  obtain ⟨i, hi⟩ := List.mem_iff_getElem?.mp hg
  have hleads : ∃ w', (PagingCall.unmap i dataPage).Leads w w' := by
    rcases World.unmap_cases (World.sound_of_reaches hr) hi dataPage with
      ⟨frame, w', hok, -⟩ | ⟨w', he, -⟩
    · exact ⟨w', Or.inl ⟨_, hok⟩⟩
    · exact ⟨w', Or.inr ⟨_, he⟩⟩
  obtain ⟨w', hleads⟩ := hleads
  have hisolates := hworlds w hr.arises (.unmap i dataPage) i w' True.intro rfl hleads
  have hsame := (hisolates.others none w.vm.kernel nofun rfl).2.translate World.firstUpper True.intro
  have hsettled := (inOrder_of_course hb.inOrder.2 hc).settled
  obtain ⟨p, hp, -⟩ := hsettled.consistent.exists_current hcur
  have hlive := ProcessTable.mem_live_of_find? hp
  have hlodges := (housed_of_proceeds hb hc).processes p.holding (List.mem_map_of_mem hlive)
  refine ⟨w, w', i, k₀, k, ⟨hr.arises, hb, hc⟩, ⟨hworlds w hr.arises, ?_, hleads, hsame.trans hkernel⟩,
    hprocesses none k₀ k hb hc, hviews k₀ k hb hc, p, hlive, (hlodges.pages dataPage).mpr rfl⟩
  show (w.guests[i]?).isSome = true
  rw [hi]
  rfl

end Kernel

end KernelCore
