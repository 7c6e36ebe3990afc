/-
# The manager's spaces have the right tables

What the virtual-memory manager does besides mapping a page for a caller: it makes the kernel's space
and user spaces, maps regions of the kernel's space, and writes bytes into the frames of a user
space.  Each keeps the tables of a space its record, and says which frames of memory have changed.

* `tree_boot`, `tree_createSpace`: a new space is right, and only its root has changed;
* `lodges_createSpaceWith`: so is one with a page, and nothing that anybody else owns has changed;
* `kernelGrows_mapKernelRegion`: only tables of the kernel's space change;
* `outside_writeBytes`, `readBytesFrom_congr`: what is copied is in the frames that the addresses of the
  range lead to, and nothing else changes or matters.
-/
import KernelCore.Paging.Copy
import KernelCore.Proofs.Paging.Mapping
import KernelCore.Proofs.Paging.Turnover

namespace KernelCore

namespace Vm

variable {base frame total : Nat} {others : List Nat} {kept : Nat → Prop} {vm vm' vm'' : Vm} {memory : Memory}

/-! ## 1. New spaces -/

/-- The kernel maps its own pages all in one way. -/
def kernelAsked : Page → Flags := fun _ => .kernelData

/-- **The kernel's space after booting**: its root was the first free frame, and nothing is mapped. -/
theorem tree_boot {pool : FramePool} (h : pool.Holds base others)
    (hboot : boot ⟨memory, pool⟩ none = .ok vm) :
    vm.ram.pool.Holds base (vm.kernel.ownedFrames ++ others) ∧ vm.kernel.kind = .kernel ∧
      ∃ τ, Tree vm.ram.memory vm.kernel kernelAsked τ := by
  unfold boot at hboot
  cases hok : pool.allocate with
  | error e =>
    simp only [hok] at hboot
    cases hboot
  | ok r =>
    simp only [hok] at hboot
    cases hboot
    refine ⟨h.of_allocate hok, rfl, _, Tree.ofRoot kernelAsked fun g _ => ?_⟩
    exact Memory.entry_clearPage_self (g.index_lt 3)

/-- **A new user space**: nothing is mapped in it, and only its root table has changed. -/
theorem tree_createSpace (asked : Page → Flags) (vm : Vm) : Outcome (createSpace vm)
    (fun space vm' => vm'.kernel = vm.kernel ∧ space.kind = .user ∧
      (∀ f, f ≠ space.root → vm.ram.memory.SameFrame vm'.ram.memory f) ∧
      ∃ τ, Tree vm'.ram.memory space asked τ)
    fun _ vm' => vm' = vm := by
  refine (outcome_createSpace vm).mono ?_ fun _ _ h => h
  rintro ⟨kind, root, tables, pages⟩ vm' ⟨-, hspace, hkernel, -, hmemory⟩
  cases hspace
  have htree : Tree vm'.ram.memory (.ofRoot .user root) asked _ := Tree.ofRoot asked fun g hg => by
    have hlow : g.isUpper = false := by
      rcases hg with hg | hg
      · cases hg
      · exact (Bool.not_eq_true' _).mp hg
    rw [hmemory]
    exact Memory.entry_newRoot_of_lt _ _ (Page.isUpper_eq_false_iff.mp hlow)
  refine ⟨hkernel, rfl, fun f hf => ?_, _, htree⟩
  rw [hmemory]
  exact Memory.sameFrame_newRoot _ _ hf

/-! ## 2. A user space with a page -/

/-- The kernel's space is the same, and so are some frames of memory. -/
structure Spares (kept : Nat → Prop) (vm vm' : Vm) : Prop where
  kernel : vm'.kernel = vm.kernel
  memory : ∀ t, kept t → vm.ram.memory.SameFrame vm'.ram.memory t

/-- The frame belongs to others, or is none of those that are tracked. -/
def Beside (total : Nat) (others : List Nat) (t : Nat) : Prop := t ∈ others ∨ total ≤ t

theorem Spares.refl (kept : Nat → Prop) (vm : Vm) : Spares kept vm vm :=
  ⟨rfl, fun _ _ => .refl _ _⟩

theorem Spares.trans (h : Spares kept vm vm') (h' : Spares kept vm' vm'') : Spares kept vm vm'' :=
  ⟨h'.kernel.trans h.kernel, fun t ht => (h.memory t ht).trans (h'.memory t ht)⟩

/-- An operation on the pool only. -/
theorem Spares.of_eq (hkernel : vm'.kernel = vm.kernel) (hmemory : vm'.ram.memory = vm.ram.memory) :
    Spares kept vm vm' :=
  ⟨hkernel, fun _ _ => by rw [hmemory]; exact .refl _ _⟩

theorem Spares.giveFrame (h : Spares kept vm vm') (frame : Nat) : Outcome (giveFrame frame vm')
    (fun _ vm'' => Spares kept vm vm'') fun _ vm'' => Spares kept vm vm'' := by
  unfold Vm.giveFrame
  split
  · exact h
  · exact h.trans (.of_eq rfl rfl)

theorem Spares.destroySpace (h : Spares kept vm vm') (space : AddressSpace) :
    Outcome (destroySpace space vm') (fun _ vm'' => Spares kept vm vm'')
      fun _ vm'' => Spares kept vm vm'' := by
  unfold Vm.destroySpace
  split
  · exact h
  · dsimp only
    split
    · exact h.trans (.of_eq rfl rfl)
    · exact h.trans (.of_eq rfl rfl)

/-- A user space whose tables are right, and in which one page is mapped. -/
structure Lodges (m : Memory) (space : AddressSpace) (page : Page) : Prop where
  kind : space.kind = .user
  tree : ∃ asked τ, Tree m space asked τ
  pages : ∀ g, (space.frameAt? g).isSome ↔ g = page

/-- What others have does not matter. -/
theorem Lodges.congr {m m' : Memory} {space : AddressSpace} {page : Page} (h : Lodges m space page)
    (hm : ∀ t ∈ space.tableFrames, m.SameFrame m' t) : Lodges m' space page := by
  obtain ⟨hkind, ⟨asked, τ, ht⟩, hpages⟩ := h
  exact ⟨hkind, ⟨asked, τ, ht.congr hm⟩, hpages⟩

/-- One root table has in its upper half what the other one has there. -/
def SameUpper (m : Memory) (root : Nat) (m' : Memory) (root' : Nat) : Prop :=
  ∀ g : Page, g.isUpper = true → m'.entry root' (g.index 3) = m.entry root (g.index 3)

/-- Nothing else is mapped. -/
theorem Lodges.frameAt?_eq_none {m : Memory} {space : AddressSpace} {page g : Page}
    (h : Lodges m space page) (hne : g ≠ page) : space.frameAt? g = none :=
  Option.not_isSome_iff_eq_none.mp fun hsome => hne ((h.pages g).mp hsome)

/-- What a space may change is in no frame beside it. -/
theorem sameFrame_of_beside {s s' : Ram × AddressSpace} {t : Nat} (h : Mapper.Within s s')
    (hbooks : s'.1.pool.Holds base (s'.2.ownedFrames ++ others)) (htotal : s'.1.pool.total = total)
    (ht : Beside total others t) : s.1.memory.SameFrame s'.1.memory t := by
  rcases ht with ht | hle
  · exact h.sameFrame hbooks ht
  · refine h.outside t fun hin => ?_
    have := (hbooks.used t (List.mem_append_left _ (AddressSpace.mem_ownedFrames hin))).1
    omega

theorem spares_mapUserPage {space : AddressSpace} {page : Page} {asked : Page → Flags} {τ : Tables}
    (htotal : vm.ram.pool.total = total)
    (h : vm.ram.pool.Holds base (space.ownedFrames ++ frame :: others))
    (ht : Tree vm.ram.memory space asked τ) : Outcome (mapUserPage page frame (vm, space))
      (fun _ s => Spares (Beside total others) vm s.1 ∧
        Mapper.Maps asked page frame .userData (vm.ram, space) (s.1.ram, s.2))
      fun _ s => Spares (Beside total others) vm s.1 := by
  have hlt : frame < 2 ^ 40 := Nat.lt_trans
    (h.lt_maxFrames (List.mem_append_right _ List.mem_cons_self)) (by decide)
  have hmap : Outcome (onSpace (Mapper.map page frame .userData) (vm, space))
      (fun _ s => Spares (Beside total others) vm s.1 ∧
        Mapper.Maps asked page frame .userData (vm.ram, space) (s.1.ram, s.2))
      fun _ s => Spares (Beside total others) vm s.1 := by
    have htrades := Mapper.trades_map (s := (vm.ram, space)) page frame .userData .refl
    refine Outcome.onSpace ((htrades.and ((Mapper.books_map (s := (vm.ram, space)) page frame
      .userData h).and (Mapper.tree_map h ht hlt))).mono ?_ ?_)
    · rintro _ s ⟨hpool, hb, hmaps⟩
      have htotal' := hpool.total.trans htotal
      exact ⟨⟨rfl, fun t ht => sameFrame_of_beside hmaps.within hb.1 htotal' ht⟩, hmaps⟩
    · rintro e s ⟨hpool, hb, -, τ', hgrows⟩
      have htotal' := hpool.total.trans htotal
      exact ⟨rfl, fun t ht => sameFrame_of_beside hgrows.within hb.1 htotal'
        (ht.imp_left (List.mem_cons_of_mem _))⟩
  unfold mapUserPage map
  match onSpace (Mapper.map page frame .userData) (vm, space), hmap with
  | .ok _ s, h => exact h
  | .error (.refused e) (vm', space'), h =>
    have h : Spares (Beside total others) vm vm' := h
    refine Outcome.bind (P := fun _ s => Spares (Beside total others) vm s.1)
      (Outcome.besideSpace (h.giveFrame frame)) fun _ s hs => ?_
    exact Outcome.besideSpace hs
  | .error (.halted _) _, _ => exact True.intro

theorem lodges_furnish {space : AddressSpace} {page : Page} {asked : Page → Flags} {τ : Tables}
    (htotal : vm.ram.pool.total = total)
    (h : vm.ram.pool.Holds base (space.ownedFrames ++ others)) (hkind : space.kind = .user)
    (ht : Tree vm.ram.memory space asked τ) (hpages : ∀ g, space.frameAt? g = none) :
    Outcome (furnish page space vm)
      (fun space' vm' => Spares (Beside total others) vm vm' ∧ Lodges vm'.ram.memory space' page ∧
        SameUpper vm.ram.memory space.root vm'.ram.memory space'.root)
      fun _ vm' => Spares (Beside total others) vm vm' := by
  have hmap : Outcome ((onVm takeFrame >>= mapUserPage page) (vm, space))
      (fun _ s => Spares (Beside total others) vm s.1 ∧ Lodges s.1.ram.memory s.2 page ∧
        SameUpper vm.ram.memory space.root s.1.ram.memory s.2.root)
      fun _ s => Spares (Beside total others) vm s.1 := by
    refine Outcome.bind (P := fun frame s => s.1.ram.pool.Holds base (frame :: (space.ownedFrames ++ others)) ∧
        s.1.ram.pool.total = total ∧ s.1.ram.memory = vm.ram.memory ∧ s.1.kernel = vm.kernel ∧ s.2 = space)
      (Outcome.besideSpace (((trades_takeFrame .refl).and (holds_takeFrame h)).mono ?_ ?_)) ?_
    · exact fun _ _ h => ⟨h.2.1, h.1.total.trans htotal, h.2.2.1, h.2.2.2.1, rfl⟩
    · rintro _ _ ⟨-, rfl⟩
      exact .refl _ _
    · rintro frame ⟨vm₁, space₁⟩ ⟨h₁, htotal₁, hmemory, hkernel, rfl⟩
      have hsame : Spares (Beside total others) vm vm₁ := .of_eq hkernel hmemory
      refine (show Outcome (mapUserPage page frame (vm₁, space₁)) _ _ from spares_mapUserPage htotal₁
        (FramePool.Holds.perm h₁ List.perm_middle.symm) (hmemory ▸ ht)).mono ?_ fun _ _ hs => hsame.trans hs
      rintro _ ⟨vm₂, space₂⟩ ⟨hs, hmaps⟩
      refine ⟨hsame.trans hs, ⟨hmaps.within.kind.trans hkind, ⟨_, hmaps.tree⟩, fun g => ?_⟩, fun g hg => ?_⟩
      · rw [hmaps.pages, hpages]
        by_cases hg : g = page <;> simp [hg]
      · have hother : space₁.accepts g = false := by
          unfold AddressSpace.accepts
          rw [hkind, hg]
          rfl
        rw [hmaps.within.root, ← hmemory]
        exact hmaps.within.otherHalf hother
  unfold furnish
  match (onVm takeFrame >>= mapUserPage page) (vm, space), hmap with
  | .ok _ (vm', space'), h => exact h
  | .error (.refused e) (vm', space'), h =>
    have h : Spares (Beside total others) vm vm' := h
    exact (h.destroySpace space').bind fun _ vm'' h' => h'
  | .error (.halted _) _, _ => exact True.intro

/-- **A new user space with a page** has the right tables and the kernel's upper half, and nothing of what
others own has changed. -/
theorem lodges_createSpaceWith (page : Page) (htotal : vm.ram.pool.total = total)
    (h : vm.ram.pool.Holds base others) (hkernel : vm.kernel.root ∈ others) :
    Outcome (createSpaceWith page vm)
      (fun space vm' => Spares (Beside total others) vm vm' ∧ Lodges vm'.ram.memory space page ∧
        SameUpper vm.ram.memory vm.kernel.root vm'.ram.memory space.root)
      fun _ vm' => Spares (Beside total others) vm vm' := by
  refine Outcome.bind (((holds_createSpace h).and ((outcome_createSpace vm).and
    ((tree_createSpace (fun _ => .none) vm).and (trades_createSpace .refl)))).mono (fun _ _ h => h) ?_) ?_
  · rintro _ _ ⟨rfl, -⟩
    exact .refl _ _
  · rintro space vm₁ ⟨⟨h₁, hnew, -⟩, ⟨-, hspace, -, -, hcopied⟩, ⟨hsamekernel, hkind, hmemory, τ, ht⟩,
      hpool⟩
    have htotal₁ := hpool.total.trans htotal
    have hsame : Spares (Beside total others) vm vm₁ := by
      refine ⟨hsamekernel, fun t ht => hmemory t fun he => ?_⟩
      rcases ht with hin | hle
      · exact hnew (he ▸ hin)
      · have := (h₁.used space.root (List.mem_append_left _ List.mem_cons_self)).1
        omega
    have hpages : ∀ g, space.frameAt? g = none := by
      rw [hspace]
      exact fun _ => rfl
    have hupper : SameUpper vm.ram.memory vm.kernel.root vm₁.ram.memory space.root := fun g hg => by
      have hne : vm.kernel.root ≠ space.root := fun he => hnew (he ▸ hkernel)
      rw [hcopied]
      exact Memory.entry_newRoot_of_le _ hne (of_decide_eq_true hg) (g.index_lt 3)
    refine (lodges_furnish htotal₁ h₁ hkind ht hpages).mono ?_ ?_
    · exact fun _ _ h => ⟨hsame.trans h.1, h.2.1, fun g hg => (h.2.2 g hg).trans (hupper g hg)⟩
    · exact fun _ _ h => hsame.trans h

/-- There is nothing in the lower half of a new space. -/
theorem vacant_createSpace {page : Page} (hlow : page.isUpper = false) (vm : Vm) :
    Outcome (createSpace vm) (fun space vm' => Mapper.Vacant vm'.ram.memory space page) fun _ _ => True := by
  refine (outcome_createSpace vm).mono ?_ fun _ _ _ => True.intro
  rintro space vm' ⟨-, hspace, -, -, hmemory⟩
  rw [hspace]
  refine ⟨?_, rfl, ?_⟩
  · show (!page.isUpper) = true
    rw [hlow]
    rfl
  · show vm'.ram.memory.entry space.root _ = _
    rw [hmemory]
    exact Memory.entry_newRoot_of_lt _ _ (Page.isUpper_eq_false_iff.mp hlow)

/-- Taking a frame out of the pool. -/
theorem takeFrame_of_ok {pool : FramePool} (hok : vm.ram.pool.allocate = .ok (frame, pool)) :
    takeFrame vm = .ok frame { vm with ram := { vm.ram with pool } } := by
  unfold takeFrame
  rw [hok]

theorem takeFrame_of_error {e : FrameError} (he : vm.ram.pool.allocate = .error e) :
    takeFrame vm = .error (.refused .outOfMemory) vm := by
  cases FramePool.eq_outOfMemory_of_allocate he
  unfold takeFrame
  rw [he]
  rfl

theorem takeFrame_eq {pool : FramePool} {frame : Nat} (space : AddressSpace)
    (hok : vm.ram.pool.allocate = .ok (frame, pool)) : onVm takeFrame (vm, space) =
      .ok frame ({ vm with ram := { vm.ram with pool } }, space) :=
  onVm_of_ok space (takeFrame_of_ok hok)

theorem takeFrame_eq_error {e : FrameError} (space : AddressSpace)
    (he : vm.ram.pool.allocate = .error e) : onVm takeFrame (vm, space) =
      .error (.refused .outOfMemory) (vm, space) := by
  unfold onVm
  simp only [takeFrame_of_error he]

/-- **A space in which nothing is mapped can be furnished** if there are frames for the page and the tables
on the way to it. -/
theorem exists_furnish {space : AddressSpace} {page : Page} (hv : Mapper.Vacant vm.ram.memory space page)
    (htotal : vm.ram.pool.total ≤ maxFrames) (hsupply : vm.ram.pool.Supplies 4) :
    ∃ space' vm', furnish page space vm = .ok space' vm' ∧
      space'.frameCount = space.frameCount + 4 := by
  obtain ⟨frame, pool, hok, hsupply⟩ := hsupply
  have hframe : frame < 2 ^ 40 := Nat.lt_trans
    (Nat.lt_of_lt_of_le (FramePool.eq_of_allocate hok).2.1 htotal) (by decide)
  obtain ⟨s, hmap, hcount⟩ := Mapper.exists_map ⟨vm.ram.memory, pool⟩ frame .userData hv hframe
    (by decide) hsupply
  have hmapped : mapUserPage page frame ({ vm with ram := { vm.ram with pool } }, space) =
      .ok () ({ vm with ram := s.1 }, s.2) := by
    unfold mapUserPage map onSpace
    simp only [hmap]
  refine ⟨s.2, { vm with ram := s.1 }, ?_, hcount⟩
  unfold furnish
  rw [(bind_of_ok (takeFrame_eq space hok)).trans hmapped]

/-- **It cannot be** if there are not. -/
theorem furnish_eq_error {space : AddressSpace} {page : Page} (hv : Mapper.Vacant vm.ram.memory space page)
    (h : vm.ram.pool.Holds base (space.ownedFrames ++ others)) (hactive : vm.activeRoot ≠ some space.root)
    (hshort : ¬vm.ram.pool.Supplies 4) :
    ∃ vm', furnish page space vm = .error (.refused .outOfMemory) vm' := by
  cases hok : vm.ram.pool.allocate with
  | error e => exact furnish_of_refused h hactive (bind_of_error (takeFrame_eq_error space hok))
  | ok r =>
    obtain ⟨frame, pool⟩ := r
    have hheld := h.of_allocate hok
    have hframe : frame < 2 ^ 40 := Nat.lt_trans (hheld.lt_maxFrames List.mem_cons_self) (by decide)
    have hshort : ¬pool.Supplies 3 := fun hs => hshort ((FramePool.supplies_of_ok hok).mpr hs)
    obtain ⟨s, hmap⟩ := Mapper.map_eq_error ⟨vm.ram.memory, pool⟩ frame .userData hv hframe hshort
    have honto : onSpace (Mapper.map page frame .userData) ({ vm with ram := { vm.ram with pool } }, space) =
        .error (.refused .outOfMemory) ({ vm with ram := s.1 }, s.2) := by
      unfold onSpace
      simp only [hmap]
    obtain ⟨s', hmapped⟩ := mapUserPage_of_refused (hheld.perm List.perm_middle.symm) honto
    exact furnish_of_refused h hactive ((bind_of_ok (takeFrame_eq space hok)).trans hmapped)

/-- **A user space with one page can be made** if there are frames for its root, the page and the tables on
the way to it, which are the space's from then on. -/
theorem exists_createSpaceWith {page : Page} (hlow : page.isUpper = false)
    (htotal : vm.ram.pool.total ≤ maxFrames) (hsupply : vm.ram.pool.Supplies 5) :
    ∃ space vm', createSpaceWith page vm = .ok space vm' ∧ space.frameCount = 5 := by
  obtain ⟨root, pool, hok, hsupply⟩ := hsupply
  obtain ⟨memory, hcreate⟩ : ∃ memory, createSpace vm =
      .ok (.ofRoot .user root) { vm with ram := ⟨memory, pool⟩ } := by
    unfold createSpace
    simp only [hok]
    exact ⟨_, rfl⟩
  have hv := (vacant_createSpace hlow vm).of_eq_ok hcreate
  have htotal : pool.total ≤ maxFrames := by
    obtain ⟨-, -, -, rfl⟩ := FramePool.eq_of_allocate hok
    exact htotal
  obtain ⟨space, vm', hfurnish, hcount⟩ := exists_furnish hv htotal hsupply
  exact ⟨space, vm', (bind_of_ok hcreate).trans hfurnish, hcount⟩

/-- **It cannot be** if there are not. -/
theorem createSpaceWith_eq_error {page : Page} (hlow : page.isUpper = false)
    (h : vm.ram.pool.Holds base others) (hactive : ∀ root, vm.activeRoot = some root → root ∈ others)
    (hshort : ¬vm.ram.pool.Supplies 5) :
    ∃ vm', createSpaceWith page vm = .error (.refused .outOfMemory) vm' := by
  cases hok : vm.ram.pool.allocate with
  | error e =>
    have hcreate : createSpace vm = .error (.refused .outOfMemory) vm := by
      cases FramePool.eq_outOfMemory_of_allocate hok
      unfold createSpace
      simp only [hok]
      rfl
    exact ⟨vm, bind_of_error hcreate⟩
  | ok r =>
    obtain ⟨root, pool⟩ := r
    have hheld := h.of_allocate hok
    obtain ⟨memory, hcreate⟩ : ∃ memory, createSpace vm =
        .ok (.ofRoot .user root) { vm with ram := ⟨memory, pool⟩ } := by
      unfold createSpace
      simp only [hok]
      exact ⟨_, rfl⟩
    have hv := (vacant_createSpace hlow vm).of_eq_ok hcreate
    have hnew : vm.activeRoot ≠ some root := fun he =>
      (List.nodup_cons.mp hheld.nodup).1 (hactive root he)
    have hshort : ¬pool.Supplies 4 := fun hs => hshort ((FramePool.supplies_of_ok hok).mpr hs)
    obtain ⟨vm', hfurnish⟩ := furnish_eq_error hv hheld hnew hshort
    exact ⟨vm', (bind_of_ok hcreate).trans hfurnish⟩

/-! ## 3. The kernel's space -/

/-- The kernel's space may have got tables and pages; memory has changed only in its tables. -/
structure KernelGrows (base : Nat) (others : List Nat) (vm vm' : Vm) : Prop where
  books : KernelBooks base others vm vm'
  within : Mapper.Within (vm.ram, vm.kernel) (vm'.ram, vm'.kernel)
  tree : ∃ τ, Tree vm'.ram.memory vm'.kernel kernelAsked τ

theorem ask_kernelAsked (page : Page) : Mapper.ask kernelAsked page .kernelData = kernelAsked := by
  funext g
  unfold Mapper.ask
  split <;> rfl

theorem kernelGrows_map (page : Page) {frame : Nat} (h : KernelGrows base (frame :: others) vm vm') :
    Outcome (onKernelSpace (Mapper.map page frame .kernelData) vm')
      (fun _ vm'' => KernelGrows base others vm vm'')
      fun _ vm'' => KernelGrows base (frame :: others) vm vm'' := by
  obtain ⟨hbooks, hwithin, τ, ht⟩ := h
  have hlt : frame < 2 ^ 40 := Nat.lt_trans
    (hbooks.holds.lt_maxFrames (List.mem_append_right _ List.mem_cons_self)) (by decide)
  refine Outcome.onKernelSpace (((Mapper.books_map (s := (vm'.ram, vm'.kernel)) page frame
    .kernelData hbooks.holds).and (Mapper.tree_map hbooks.holds ht hlt)).mono ?_ ?_)
  · rintro _ s ⟨hb, hmaps⟩
    have htree := hmaps.tree
    rw [ask_kernelAsked] at htree
    exact ⟨⟨hb.1, hb.2.2.root.trans hbooks.root, hbooks.active⟩, hwithin.trans hmaps.within, htree⟩
  · rintro e s ⟨hb, -, τ', hgrows⟩
    exact ⟨⟨hb.1, hb.2.root.trans hbooks.root, hbooks.active⟩, hwithin.trans hgrows.within, τ', hgrows.tree⟩

/-- **Mapping a region of the kernel's space** keeps its tables right, as far as it goes. -/
theorem kernelGrows_mapKernelRegion (start : VirtAddr) (length : Nat)
    (h : vm.ram.pool.Holds base (vm.kernel.ownedFrames ++ others))
    (ht : ∃ τ, Tree vm.ram.memory vm.kernel kernelAsked τ) :
    Outcome (mapKernelRegion start length vm) (fun _ vm' => KernelGrows base others vm vm')
      fun _ vm' => KernelGrows base others vm vm' := by
  refine outcome_mapKernelRegion
    (fun page _ => outcome_mapFresh (R := fun others => KernelGrows base others vm)
      (fun h₁ => h₁.books.holds) (fun h₁ _ hp => ?_) page (kernelGrows_map page))
    start length ⟨⟨h, rfl, rfl⟩, Mapper.Within.refl _, ht⟩
  have hwithin := h₁.within
  exact ⟨⟨hp, h₁.books.root, h₁.books.active⟩, ⟨hwithin.kind, hwithin.root, hwithin.tables, hwithin.outside,
    hwithin.otherHalf, hwithin.leads⟩, h₁.tree⟩

end Vm

/-! ## 4. Copying bytes -/

/-- The address leads into one of the frames, or nowhere. -/
def Memory.Lands (m : Memory) (root : Nat) (data : List Nat) (a : VirtAddr) : Prop :=
  ∀ t, m.translate root a = .ok (some t) → ∃ f ∈ data, t.address = f * pageSize + a.offset

theorem Memory.Lands.mono {m : Memory} {root : Nat} {data data' : List Nat} {a : VirtAddr}
    (h : m.Lands root data a) (hd : data ⊆ data') : m.Lands root data' a := by
  intro t ht
  obtain ⟨f, hf, haddress⟩ := h t ht
  exact ⟨f, hd hf, haddress⟩

theorem Memory.Lands.of_none {m : Memory} {root : Nat} {data : List Nat} {a : VirtAddr}
    (h : m.translate root a = .ok none) : m.Lands root data a := by
  intro t ht
  rw [h] at ht
  cases ht

/-- **An address of a space's own half** leads into a frame that is mapped there, or nowhere. -/
theorem Tree.lands {m : Memory} {s : AddressSpace} {asked : Page → Flags} {τ : Tables}
    (ht : Tree m s asked τ) {a : VirtAddr} (ha : s.accepts (.containing a) = true) :
    m.Lands s.root (s.pages.map Prod.snd) a := by
  intro t htranslate
  rw [ht.translate_eq ha] at htranslate
  cases hf : s.frameAt? (.containing a) with
  | none =>
    rw [hf] at htranslate
    cases htranslate
  | some frame =>
    rw [hf] at htranslate
    cases htranslate
    exact ⟨frame, AddressSpace.mem_frames_of_frameAt? hf, rfl⟩

namespace Memory

variable {m m' : Memory} {root frame physical : Nat} {a start : VirtAddr} {data : List Nat}

/-- An address of the lower half is in a page of the lower half. -/
theorem isUpper_containing {a : VirtAddr} (ha : a.val < 2 ^ 47) :
    (Page.containing a).isUpper = false := by
  refine Page.isUpper_eq_false_iff.mpr ?_
  simp only [Page.index, Page.containing, Page.upperHalfIndex, pageSize]
  omega

theorem locateAt_of_error {copied : Nat} {halt : Halt} (root : Nat)
    (he : start.advance copied = .error halt) :
    m.locateAt root start copied = .error (.halted halt) := by
  unfold locateAt
  rw [he]
  rfl

theorem locateAt_of_ok {copied : Nat} (root : Nat) (hok : start.advance copied = .ok a) :
    m.locateAt root start copied = do return (a, ← m.locate root a) := by
  unfold locateAt
  rw [hok]
  rfl

/-- Where a copy goes on there is an address that leads there. -/
theorem exists_of_locateAt {copied : Nat} (h : m.locateAt root start copied = .ok (a, physical)) :
    a.val = start.val + copied ∧ ∃ t, m.translate root a = .ok (some t) ∧ t.address = physical := by
  cases hadvance : start.advance copied with
  | error halt =>
    rw [locateAt_of_error _ hadvance] at h
    cases h
  | ok b =>
    rw [locateAt_of_ok _ hadvance, locate] at h
    cases htranslate : m.translate root b with
    | error halt =>
      rw [htranslate] at h
      cases h
    | ok target? =>
      rw [htranslate] at h
      cases target? with
      | none => cases h
      | some t =>
        cases h
        exact ⟨VirtAddr.val_of_advance hadvance, t, htranslate, rfl⟩

/-- The bytes of a piece of a copy lie in the frame that its address leads to. -/
theorem piece_div {left i : Nat} (frame : Nat) (a : VirtAddr) (hi : i < pieceLength a left) :
    (frame * pageSize + a.offset + i) / pageSize = frame := by
  have hoffset : a.offset < pageSize := Nat.mod_lt _ (by decide)
  simp only [pieceLength, pageSize] at hi hoffset ⊢
  omega

/-- A piece of a copy that is written changes one frame. -/
theorem sameFrame_piece (m : Memory) (a : VirtAddr) (bytes : List UInt8) {target : Nat}
    (hne : frame ≠ target) : m.SameFrame (m.write (target * pageSize + a.offset)
      (bytes.take (pieceLength a bytes.length))) frame := by
  intro b hb
  rw [byte_write, if_neg]
  rintro ⟨hle, hlt⟩
  obtain ⟨i, rfl⟩ := Nat.exists_eq_add_of_le hle
  rw [List.length_take] at hlt
  have hi : i < pieceLength a bytes.length := by omega
  exact hne (hb.symm.trans (piece_div target a hi))

/-- **Writing bytes** changes only frames that the addresses of the range lead to, if what is in those
frames does not matter to where they lead. -/
theorem outside_writeBytesFrom (root : Nat) (start : VirtAddr) (copied : Nat) (bytes : List UInt8)
    (m : Memory) (hlands : ∀ m', (∀ f ∉ data, m.SameFrame m' f) → ∀ a : VirtAddr,
      start.val + copied ≤ a.val → a.val < start.val + copied + bytes.length → m'.Lands root data a) :
    ∀ f ∉ data, m.SameFrame (m.writeBytesFrom root start copied bytes).1 f := by
  fun_induction writeBytesFrom m root start copied bytes with
  | case1 => exact fun _ _ => .refl _ _
  | case2 => exact fun _ _ => .refl _ _
  | case3 m copied bytes hne a physical hlocate n ih =>
    intro f hf
    have hpos : 0 < n := pieceLength_pos a hne
    have hle : n ≤ bytes.length := Nat.min_le_right _ _
    obtain ⟨ha, t, htranslate, rfl⟩ := exists_of_locateAt hlocate
    obtain ⟨target, htarget, haddress⟩ :=
      hlands m (fun _ _ => .refl _ _) a (by omega) (by omega) t htranslate
    have hpiece : ∀ f ∉ data, m.SameFrame (m.write t.address (bytes.take n)) f := by
      intro f hf
      rw [haddress]
      exact sameFrame_piece m a bytes fun heq => hf (heq ▸ htarget)
    refine (hpiece f hf).trans (ih (fun m' hm' b hfirst hlast => ?_) f hf)
    rw [List.length_drop] at hlast
    exact hlands m' (fun f hf => (hpiece f hf).trans (hm' f hf)) b (by omega) (by omega)

theorem outside_writeBytes {bytes : List UInt8} (hlands : ∀ m', (∀ f ∉ data, m.SameFrame m' f) →
      ∀ a : VirtAddr, start.val ≤ a.val → a.val < start.val + bytes.length → m'.Lands root data a) :
    ∀ f ∉ data, m.SameFrame (m.writeBytes root start bytes).1 f :=
  outside_writeBytesFrom root start 0 bytes m hlands

/-- Where a copy goes on depends on where its address leads. -/
theorem locateAt_congr {copied : Nat}
    (h : ∀ a : VirtAddr, a.val = start.val + copied → m'.translate root a = m.translate root a) :
    m'.locateAt root start copied = m.locateAt root start copied := by
  cases hadvance : start.advance copied with
  | error halt => rw [locateAt_of_error _ hadvance, locateAt_of_error _ hadvance]
  | ok a =>
    rw [locateAt_of_ok _ hadvance, locateAt_of_ok _ hadvance, locate, locate,
      h a (VirtAddr.val_of_advance hadvance)]

theorem read_piece (h : m.SameFrame m' frame) (a : VirtAddr) (left : Nat) :
    m'.read (frame * pageSize + a.offset) (pieceLength a left) =
      m.read (frame * pageSize + a.offset) (pieceLength a left) :=
  List.map_congr_left fun _ hi => h _ (piece_div frame a (List.mem_range.mp hi))

/-- **Reading bytes** depends on where the addresses of the range lead, and on what is in the frames that
they lead to. -/
theorem readBytesFrom_congr (root : Nat) (start : VirtAddr) (copied left : Nat)
    (h : ∀ a : VirtAddr, start.val + copied ≤ a.val → a.val < start.val + copied + left →
      m'.translate root a = m.translate root a ∧ ∀ t, m.translate root a = .ok (some t) →
        ∃ f, m.SameFrame m' f ∧ t.address = f * pageSize + a.offset) :
    m'.readBytesFrom root start copied left = m.readBytesFrom root start copied left := by
  fun_induction readBytesFrom m root start copied left with
  | case1 =>
    unfold readBytesFrom
    rfl
  | case2 copied left hne stop hlocate =>
    unfold readBytesFrom
    rw [if_neg hne, locateAt_congr fun a ha => (h a (by omega) (by omega)).1, hlocate]
  | case3 copied left hne a physical hlocate n bytes ending hrest ih =>
    have hpos : 0 < n := pieceLength_pos a hne
    have hle : n ≤ left := Nat.min_le_right _ _
    obtain ⟨ha, t, htranslate, rfl⟩ := exists_of_locateAt hlocate
    obtain ⟨frame, hframe, haddress⟩ := (h a (by omega) (by omega)).2 t htranslate
    have hread : m'.read t.address n = m.read t.address n := by
      rw [haddress]
      exact read_piece hframe a left
    unfold readBytesFrom
    rw [if_neg hne, locateAt_congr fun b hb => (h b (by omega) (by omega)).1, hlocate]
    dsimp only
    rw [hread, ih fun b hfirst hlast => h b (by omega) (by omega), hrest]

end Memory

end KernelCore
