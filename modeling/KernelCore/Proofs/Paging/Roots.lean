/-
# What calls keep of the root tables

Every space has a root table of its own, and a user space takes the upper half of it over from the kernel's
when it is made.  A world evolves (`World.Evolves`) if the upper half of every user space's root stays as it
is, where the kernel's root led to a table it leads there still, and a new user space has what is in the
kernel's root.

* `Evolves.of_guest`, `Evolves.of_kernel`, `evolves_create`: so it does when a space is worked on or made;
* `evolves_run`: and for every call that writes into no table.
-/
import KernelCore.Proofs.Paging.World

namespace KernelCore

namespace World

variable {base i : Nat} {w w' : World} {vm : Vm} {g g' : Guest}

/-- The entry of a root table for a page. -/
def rootEntry (vm : Vm) (root : Nat) (h : Page) : Entry := vm.ram.memory.entry root (h.index 3)

/-- **What a call keeps of the roots.**  The upper halves of user spaces stay; what is in the kernel's root
stays, and there may be more; and a new user space has what is in the kernel's root. -/
structure Evolves (w w' : World) : Prop where
  root : w'.vm.kernel.root = w.vm.kernel.root
  leads : ∀ {h : Page} {t}, (rootEntry w.vm w.vm.kernel.root h).LeadsTo (some t) →
    (rootEntry w'.vm w.vm.kernel.root h).LeadsTo (some t)
  upper : ∀ g ∈ w.guests, ∀ {h : Page}, h.isUpper = true →
    rootEntry w'.vm g.space.root h = rootEntry w.vm g.space.root h
  origin : ∀ g' ∈ w'.guests, (∃ g ∈ w.guests, g.space.root = g'.space.root) ∨
    ∀ {h : Page}, h.isUpper = true → rootEntry w'.vm g'.space.root h = rootEntry w.vm w.vm.kernel.root h

/-- An entry of the kernel's root leads to a table, or is not in use. -/
theorem IsRight.rootEntry_cases {m : Memory} {s : AddressSpace} {asked : Page → Flags}
    (h : IsRight m .kernel s asked) {page : Page} (hpage : page.isUpper = true) :
    m.entry s.root (page.index 3) = .unused ∨ ∃ t, (m.entry s.root (page.index 3)).LeadsTo (some t) := by
  obtain ⟨hkind, τ, ht⟩ := h
  have haccepts : s.accepts page = true := (accepts_kernel hkind).trans hpage
  have hlead : (m.entry s.root (page.index 3)).LeadsTo _ := ht.inner haccepts (by decide) (ht.root haccepts)
  cases hnext : τ 2 (page.stem 2) with
  | none => exact Or.inl (hlead.eq_unused hnext)
  | some t => exact Or.inr ⟨t, hnext ▸ hlead⟩

theorem Sound.kernelEntry_cases (h : w.Sound base) {page : Page} (hpage : page.isUpper = true) :
    rootEntry w.vm w.vm.kernel.root page = .unused ∨
      ∃ t, (rootEntry w.vm w.vm.kernel.root page).LeadsTo (some t) :=
  IsRight.rootEntry_cases h.kernel hpage

/-- The root of a space is one of its tables. -/
theorem SameTables.rootEntry_eq (hm : w.SameTables vm.ram.memory) (h : Page) :
    rootEntry vm w.vm.kernel.root h = rootEntry w.vm w.vm.kernel.root h ∧
      ∀ g ∈ w.guests, rootEntry vm g.space.root h = rootEntry w.vm g.space.root h :=
  ⟨(hm.1 _ List.mem_cons_self).entry_eq (h.index_lt 3),
    fun g hg => (hm.2 g hg _ List.mem_cons_self).entry_eq (h.index_lt 3)⟩

/-- **No table has changed.** -/
theorem Evolves.of_sameTables (hkernel : w'.vm.kernel = w.vm.kernel) (hm : w.SameTables w'.vm.ram.memory)
    (hguests : w'.guests ⊆ w.guests) : w.Evolves w' := by
  refine ⟨congrArg AddressSpace.root hkernel, fun hlead => ?_, fun g hg h _ => (hm.rootEntry_eq h).2 g hg,
    fun g' hg' => Or.inl ⟨g', hguests hg', rfl⟩⟩
  rw [(hm.rootEntry_eq _).1]
  exact hlead

theorem Evolves.of_memory_eq (hkernel : w'.vm.kernel = w.vm.kernel)
    (hmemory : w'.vm.ram.memory = w.vm.ram.memory) (hguests : w'.guests ⊆ w.guests) : w.Evolves w' :=
  .of_sameTables hkernel (hmemory ▸ SameTables.refl w) hguests

/-- **A user space was worked on.**  Its own upper half has not changed. -/
theorem Evolves.of_guest (h : w.Lodged base) (hr : Reworks base i g g' w w') : w.Evolves w' := by
  have houtside : ∀ t ∈ w.beside i, ∀ p : Page, rootEntry w'.vm t p = rootEntry w.vm t p := fun t ht p =>
    (hr.sameFrame t ht).entry_eq (p.index_lt 3)
  refine ⟨congrArg AddressSpace.root hr.kernel, fun hlead => ?_, ?_, ?_⟩
  · rw [houtside _ (List.mem_append_left _ List.mem_cons_self)]
    exact hlead
  · intro g₁ hg₁ p hp
    rcases List.mem_cons.mp ((perm_eraseIdx hr.found).mem_iff.mp hg₁) with rfl | hrest
    · refine hr.within.otherHalf ?_
      rw [accepts_user (h.guests g₁ hg₁).1, hp]
      rfl
    · exact houtside _ (List.mem_append_right _ (mem_frames hrest List.mem_cons_self)) p
  · intro g₁ hg₁
    left
    rw [hr.guests] at hg₁
    rcases List.mem_cons.mp ((perm_set hr.found g').mem_iff.mp hg₁) with rfl | hrest
    · exact ⟨g, List.mem_of_getElem? hr.found, hr.within.root.symm⟩
    · exact ⟨g₁, List.mem_of_mem_eraseIdx hrest, rfl⟩

/-- **The kernel's space has changed.**  It may lead to more tables than before. -/
theorem Evolves.of_kernel (hroot : vm.kernel.root = w.vm.kernel.root)
    (hleads : ∀ {h : Page} {t}, (rootEntry w.vm w.vm.kernel.root h).LeadsTo (some t) →
      (rootEntry vm w.vm.kernel.root h).LeadsTo (some t))
    (houtside : ∀ g ∈ w.guests, w.vm.ram.memory.SameFrame vm.ram.memory g.space.root) :
    w.Evolves { w with vm } :=
  ⟨hroot, hleads, fun g hg p _ => (houtside g hg).entry_eq (p.index_lt 3), fun g hg => Or.inl ⟨g, hg, rfl⟩⟩

theorem Evolves.of_kernelGrows (hgrows : Vm.KernelGrows base (frames w.guests ++ w.held) w.vm vm) :
    w.Evolves { w with vm } :=
  .of_kernel hgrows.within.root hgrows.within.leads fun _ hg =>
    hgrows.within.sameFrame hgrows.books.holds (List.mem_append_left _ (mem_frames hg List.mem_cons_self))

/-- **A new user space** has the kernel's entries in the upper half of its root. -/
theorem evolves_create (h : w.Lodged base) : Outcome (PagingCall.run .create w)
    (fun _ w' => w.Evolves w') fun _ w' => w.Evolves w' := by
  refine outcome_create h (.of_memory_eq rfl rfl fun _ hg => hg) fun root vm hkernel _ hroot hmemory => ?_
  have htables : w.SameTables vm.ram.memory := .of_owned fun t ht => hmemory ▸ sameFrame_create hroot ht
  have hkeeps : w.Evolves { w with vm } := .of_sameTables hkernel htables fun _ hg => hg
  have hne : w.vm.kernel.root ≠ root := fun he =>
    hroot (List.mem_append_left _ (he ▸ List.mem_cons_self))
  refine ⟨hkeeps.root, hkeeps.leads, hkeeps.upper, fun g' hg' => ?_⟩
  rcases List.mem_append.mp hg' with hg' | hg'
  · exact Or.inl ⟨g', hg', rfl⟩
  · refine Or.inr fun {p} hp => ?_
    rw [List.mem_singleton.mp hg']
    have hle : Page.upperHalfIndex ≤ p.index 3 := of_decide_eq_true hp
    show vm.ram.memory.entry root (p.index 3) = _
    rw [hmemory]
    exact Memory.entry_newRoot_of_le _ hne hle (p.index_lt 3)

/-- **Every call** of honest callers that writes into no table keeps the roots. -/
theorem evolves_run (h : w.Sound base) {call : PagingCall} (hhonest : call.Honest w)
    (hspares : w.SparesTables call) :
    Outcome (call.run w) (fun _ w' => w.Evolves w') fun _ w' => w.Evolves w' := by
  have hsame : w.Evolves w := .of_memory_eq rfl rfl fun _ hg => hg
  cases call with
  | takeFrame => exact outcome_takeFrame h.toLodged hsame fun _ _ _ => .of_memory_eq rfl rfl fun _ hg => hg
  | giveFrame frame =>
    exact outcome_giveFrame h.toLodged hhonest fun _ _ => .of_memory_eq rfl rfl fun _ hg => hg
  | create => exact evolves_create h.toLodged
  | destroy i =>
    exact outcome_destroy h.toLodged i hsame fun _ _ =>
      .of_memory_eq rfl rfl fun _ hg => List.mem_of_mem_eraseIdx hg
  | map i page frame flags =>
    exact outcome_map h.toLodged i page flags hhonest hsame fun _ _ _ => .of_guest h.toLodged
  | unmap i page => exact outcome_unmap h.toLodged i page hsame fun _ _ _ => .of_guest h.toLodged
  | mapRegion start length =>
    refine Outcome.bind (P := fun _ w' => w.Evolves w') (outcome_onVm ?_) fun _ _ h' => h'
    exact (Vm.kernelGrows_mapKernelRegion start length h.books h.kernel.2).mono
      (fun _ _ => .of_kernelGrows) fun _ _ => .of_kernelGrows
  | write i? start bytes =>
    refine outcome_write hsame fun space hspace => ?_
    exact .of_sameTables rfl (hspares space hspace) fun _ hg => hg
  | load i? =>
    exact outcome_given hsame fun _ _ => .of_memory_eq rfl rfl fun _ hg => hg

end World

end KernelCore
