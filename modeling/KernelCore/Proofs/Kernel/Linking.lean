/-
# What the addresses of the processes depend on

A process has of the upper half what the kernel's root had when its space was made.  As entries of the
kernel's root stay where they lead, the roots stay linked (`Kernel.Linked`), whatever the kernel is asked
for.  So wherever an address leads, in the space of any process or the kernel's own, the way there and the
frame at its end belong to somebody (`guarded_of_proceeds`), if the boot loader left no tables.
-/
import KernelCore.Proofs.Kernel.Isolation
import KernelCore.Proofs.Paging.Walks

namespace KernelCore

namespace Kernel

variable {k₀ k k' k'' : Kernel} {base pid : Nat} {map : MemoryMap} {call : KernelCall}

/-! ## 1. Roots that are linked -/

/-- **The roots are linked**: what a process has of the upper half leads to the kernel's tables. -/
def Linked (k : Kernel) : Prop := ∀ h ∈ k.processes.holdings, ∀ page : Page, page.isUpper = true →
  k.vm.ram.memory.Borrows h.space.root k.vm.kernel.root page

/-- Nobody has anything new, and the tables that there were are as they were. -/
theorem Linked.congr (h : k.Linked) (hkernel : k'.vm.kernel = k.vm.kernel)
    (hholdings : k'.processes.holdings ⊆ k.processes.holdings)
    (hm : ∀ t ∈ k.vm.kernel.tableFrames ++ k.processes.tableFrames,
      k.vm.ram.memory.SameFrame k'.vm.ram.memory t) : k'.Linked := by
  intro holding hin page hpage
  have hold := h holding (hholdings hin) page hpage
  have hroot : holding.space.root ∈ k.processes.tableFrames :=
    List.mem_flatMap.mpr ⟨holding, hholdings hin, List.mem_cons_self⟩
  unfold Memory.Borrows at hold ⊢
  rw [hkernel, (hm _ (List.mem_append_left _ List.mem_cons_self)).entry_eq (page.index_lt 3),
    (hm _ (List.mem_append_right _ hroot)).entry_eq (page.index_lt 3)]
  exact hold

theorem Linked.frugal (h : k.Linked) (hf : k.Frugal k') : k'.Linked :=
  h.congr hf.kernel hf.holdings fun _ _ => by rw [hf.memory]; exact .refl _ _

theorem Linked.meddle (h : k.Linked) (hm : k.Meddles k') : k'.Linked :=
  h.congr hm.spaces.1 (by rw [hm.processes]; exact fun _ hin => hin) hm.tables

/-- What was done spared all that anybody owns. -/
theorem Linked.spares (h : k.Linked) (hprocesses : k'.processes = k.processes)
    (hs : Vm.Spares k.Kept k.vm k'.vm) : k'.Linked :=
  h.congr hs.kernel (by rw [hprocesses]; exact fun _ hin => hin)
    fun t ht => hs.memory t (Or.inl (mem_owned_of_tables ht))

/-- A process that is entered with its space has the kernel's upper half. -/
theorem Lodged.linked {space : AddressSpace} {stack : Nat} (hh : k.Housed) (h : k.Linked)
    (hl : k.Lodged k' space) (he : k'.Enrolled k'' ⟨pid, space, stack⟩) : k''.Linked := by
  have hothers : k'.Linked := h.spares hl.processes hl.spares
  intro holding hin page hpage
  rw [he.vm]
  rcases List.mem_cons.mp (he.holdings.mem_iff.mp hin) with rfl | hold
  · have hroot : k.Kept k.vm.kernel.root := Or.inl (List.mem_append_left _ List.mem_cons_self)
    have hsame := (hl.spares.memory _ hroot).entry_eq (page.index_lt 3)
    unfold Memory.Borrows
    rw [hl.upper page hpage, hl.spares.kernel, hsame]
    exact (World.IsRight.rootEntry_cases hh.kernel hpage).imp_right fun ⟨t, hlead⟩ => ⟨t, hlead, hlead⟩
  · exact hothers holding hold page hpage

/-- Pages for the kernel itself leave the entries of its root that lead somewhere. -/
theorem Linked.grows (h : k.Linked) (hprocesses : k'.processes = k.processes)
    (hg : Vm.KernelGrows base k.processes.ownedFrames k.vm k'.vm) : k'.Linked := by
  intro holding hin page hpage
  rw [hprocesses] at hin
  have hroot := ProcessTable.mem_ownedFrames_of_holding hin List.mem_cons_self
  have hsame := (hg.within.sameFrame hg.books.holds hroot).entry_eq (page.index_lt 3)
  refine (h holding hin page hpage).imp (fun hunused => hsame.trans hunused) ?_
  rintro ⟨t, hlead, hkernel⟩
  refine ⟨t, by rw [hsame]; exact hlead, ?_⟩
  rw [show k'.vm.kernel.root = k.vm.kernel.root from hg.within.root]
  exact hg.within.leads hkernel

/-- **Every call** keeps the roots linked. -/
theorem Linked.leads (h : k.InOrder base) (hh : k.Housed) (hlink : k.Linked) (hl : call.Leads k k') :
    k'.Linked := by
  cases call with
  | spawn entry name =>
    refine of_leads hl (Outcome.bind (outcome_onProcesses ((lodged_create h entry name).mono ?_ ?_))
      fun _ _ h => h)
    · rintro _ k' ⟨space, stack, k₁, hlodged, he⟩
      exact hlodged.linked hh hlink he
    · exact fun _ _ hs => hlink.spares hs.1 hs.2
  | mapRegion =>
    obtain ⟨hprocesses, hgrows⟩ := hh.grows_of_leads h hl
    exact hlink.grows hprocesses hgrows
  | _ => exact hlink.frugal (frugal_of_leads h id hl)

theorem linked_of_proceeds (hb : Booted map none k₀) (hc : Proceeds k₀ k) : k.Linked := by
  induction hc with
  | start =>
    obtain ⟨⟨idle, hidle⟩, -⟩ := hb.inOrder
    intro holding hin
    rw [hidle] at hin
    cases hin
  | meanwhile _ hm ih => exact ih.meddle hm
  | step hc hl _ ih => exact ih.leads (inOrder_of_course hb.inOrder.2 hc) (housed_of_proceeds hb hc) hl

/-! ## 2. What addresses depend on -/

/-- The kernel's space, and those of the processes. -/
def spaces (k : Kernel) : List AddressSpace := k.vm.kernel :: k.processes.live.map Process.space

/-- **Wherever an address leads in one of the spaces**, the way there belongs to somebody. -/
theorem Housed.guarded (hh : k.Housed) (hlink : k.Linked) {s : AddressSpace} (hs : s ∈ k.spaces)
    (a : VirtAddr) : k.vm.ram.memory.Guarded (· ∈ k.owned) s.root a := by
  obtain ⟨hkind, τ, ht⟩ := hh.kernel
  have hkept : ∀ f ∈ k.vm.kernel.ownedFrames, f ∈ k.owned := fun f hf => List.mem_append_left _ hf
  have hkernel : k.vm.ram.memory.Guarded (· ∈ k.owned) k.vm.kernel.root a := by
    cases haccepts : k.vm.kernel.accepts (.containing a) with
    | true => exact ht.guarded haccepts hkept
    | false => exact .of_unused (ht.blank hkind haccepts) (hkept _ List.mem_cons_self)
  rcases List.mem_cons.mp hs with rfl | hs
  · exact hkernel
  · obtain ⟨p, hp, rfl⟩ := List.mem_map.mp hs
    have hholding : p.holding ∈ k.processes.holdings := List.mem_map_of_mem hp
    have howned : ∀ f ∈ p.space.ownedFrames, f ∈ k.owned := fun f hf =>
      List.mem_append_right _ (mem_ownedFrames_of_live hp hf)
    obtain ⟨hkindp, ⟨asked, τp, htp⟩, -⟩ := hh.processes _ hholding
    rcases Nat.lt_or_ge a.val (2 ^ 47) with ha | ha
    · refine htp.guarded ?_ howned
      exact (World.accepts_user hkindp).trans (congrArg (!·) (Memory.isUpper_containing ha))
    · refine (hlink _ hholding _ (Page.isUpper_containing ha)).guarded ?_ hkernel
      exact howned _ List.mem_cons_self

/-- **From booting on**, if the boot loader left no tables, every address of every space depends on owned
frames only. -/
theorem guarded_of_proceeds (hb : Booted map none k₀) (hc : Proceeds k₀ k) :
    ∀ s ∈ k.spaces, ∀ a, k.vm.ram.memory.Guarded (· ∈ k.owned) s.root a :=
  fun _ hs a => (housed_of_proceeds hb hc).guarded (linked_of_proceeds hb hc) hs a

end Kernel

end KernelCore
