/-
# The frames of address spaces

An operation on a space takes frames from the pool and records them in the space, or gives back
what it took.  Beside the frames of the space, the list of owned frames holds those of everybody
else, `others`; they are never touched (`FramePool.Holds`).

* `books_map`: mapping a page takes the tables that are missing, also if it is refused later; the
  mapped frame belongs to the space if it is not;
* `holds_createSpaceWith`: a furnished space has its frames, or everything went back;
* `kernelBooks_mapKernelRegion`: the kernel's space has the frames that were mapped;
* `exists_destroySpace`: a space that is not loaded can always be taken down.

Nothing here depends on what the tables in memory say.
-/
import KernelCore.Proofs.Frame.Ledger
import KernelCore.Proofs.Outcome

namespace KernelCore

/-! ## 1. What a space owns -/

/-- An element of a list, taken out by its position. -/
theorem perm_eraseIdx {α : Type} {l : List α} {i : Nat} {a : α} (hi : l[i]? = some a) :
    l.Perm (a :: l.eraseIdx i) := by
  obtain ⟨hlt, rfl⟩ := List.getElem?_eq_some_iff.mp hi
  exact (List.getElem_cons_eraseIdx_perm hlt).symm

/-- An element of a list, replaced. -/
theorem perm_set {α : Type} {l : List α} {i : Nat} {a : α} (hi : l[i]? = some a) (b : α) :
    (l.set i b).Perm (b :: l.eraseIdx i) := by
  obtain ⟨hlt, -⟩ := List.getElem?_eq_some_iff.mp hi
  have h := perm_eraseIdx (List.getElem?_set_self (a := b) hlt)
  rw [List.eraseIdx_set_eq] at h
  exact h

namespace AddressSpace

variable {s : AddressSpace} {page : Page} {frame : Nat}

/-- What is mapped depends on the record of pages only. -/
theorem frameAt?_congr {s' : AddressSpace} (hpages : s'.pages = s.pages) (page : Page) :
    s'.frameAt? page = s.frameAt? page := congrArg (List.lookup page) hpages

/-- A new table belongs to the space. -/
theorem ownedFrames_addTable (s : AddressSpace) (frame : Nat) :
    (s.addTable frame).ownedFrames.Perm (frame :: s.ownedFrames) := by
  simp only [ownedFrames, addTable, List.append_assoc, List.singleton_append]
  exact (List.perm_middle.cons _).trans (List.Perm.swap _ _ _)

/-- A page that was not there is one page more. -/
theorem insertPage_perm {l : List (Page × Nat)} (frame : Nat) (h : l.lookup page = none) :
    (insertPage page frame l).Perm ((page, frame) :: l) := by
  induction l with
  | nil => exact List.Perm.refl _
  | cons e rest ih =>
    obtain ⟨p, f⟩ := e
    rw [lookup_cons_eq] at h
    split at h
    · cases h
    · next hne =>
      unfold insertPage
      rw [if_neg hne]
      split
      · exact List.Perm.refl _
      · exact ((ih h).cons _).trans (List.Perm.swap _ _ _)

/-- A frame that is mapped belongs to the space. -/
theorem ownedFrames_addPage (h : s.frameAt? page = none) :
    (s.addPage page frame).ownedFrames.Perm (frame :: s.ownedFrames) := by
  have hpages := (insertPage_perm frame h).map Prod.snd
  rw [List.map_cons] at hpages
  refine ((hpages.append_left s.tables).cons s.root).trans ?_
  exact (List.perm_middle.cons _).trans (List.Perm.swap _ _ _)

theorem frameCount_addTable (s : AddressSpace) (frame : Nat) :
    (s.addTable frame).frameCount = s.frameCount + 1 := by
  rw [← length_ownedFrames, (ownedFrames_addTable s frame).length_eq, List.length_cons, length_ownedFrames]

theorem frameCount_addPage (h : s.frameAt? page = none) :
    (s.addPage page frame).frameCount = s.frameCount + 1 := by
  rw [← length_ownedFrames, (ownedFrames_addPage h).length_eq, List.length_cons, length_ownedFrames]

end AddressSpace

/-! ## 2. The mapper -/

namespace Mapper

variable {base : Nat} {others : List Nat} {s s' : Ram × AddressSpace}

/-- The frames of the space and those of the others are owned. -/
def Books (base : Nat) (others : List Nat) (s : Ram × AddressSpace) : Prop :=
  s.1.pool.Holds base (s.2.ownedFrames ++ others)

/-- What memory holds is not in the books. -/
theorem Books.setMemory {ram : Ram} {space : AddressSpace} (h : Books base others (ram, space))
    (memory : Memory) : Books base others ({ ram with memory }, space) := by
  unfold Books at h ⊢
  exact h

/-- The space may have got tables, but it is the same space with the same pages. -/
structure SamePages (s s' : AddressSpace) : Prop where
  kind : s'.kind = s.kind
  root : s'.root = s.root
  pages : s'.pages = s.pages

theorem SamePages.refl (s : AddressSpace) : SamePages s s := ⟨rfl, rfl, rfl⟩

theorem SamePages.trans {s s' s'' : AddressSpace} (h : SamePages s s') (h' : SamePages s' s'') :
    SamePages s s'' :=
  ⟨h'.kind.trans h.kind, h'.root.trans h.root, h'.pages.trans h.pages⟩

/-- A page more on both sides. -/
theorem SamePages.addPage {s s' : AddressSpace} (h : SamePages s s') (page : Page) (frame : Nat) :
    SamePages (s.addPage page frame) (s'.addPage page frame) :=
  ⟨h.kind, h.root, congrArg (AddressSpace.insertPage page frame) h.pages⟩

theorem books_drawTable (h : Books base others s) : Outcome (drawTable s)
    (fun _ s' => Books base others s' ∧ SamePages s.2 s'.2)
    fun _ s' => Books base others s' ∧ SamePages s.2 s'.2 := by
  obtain ⟨ram, space⟩ := s
  unfold drawTable
  dsimp only
  split
  · exact ⟨h, SamePages.refl space⟩
  · next frame pool hok =>
    refine ⟨FramePool.Holds.perm (FramePool.Holds.of_allocate h hok) ?_, rfl, rfl, rfl⟩
    exact ((space.ownedFrames_addTable frame).append_right others).symm

/-- **One step down** takes at most a frame for a table. -/
theorem books_descend (page : Page) (leaf : Flags) (table index : Nat) (h : Books base others s) :
    Outcome (descend page leaf table index s)
      (fun _ s' => Books base others s' ∧ SamePages s.2 s'.2)
      fun _ s' => Books base others s' ∧ SamePages s.2 s'.2 := by
  obtain ⟨ram, space⟩ := s
  unfold descend
  dsimp only
  split
  · refine (books_drawTable h).bind ?_
    rintro frame ⟨ram', space'⟩ ⟨hb, hsame⟩
    exact ⟨hb.setMemory _, hsame⟩
  · split
    · exact ⟨h.setMemory _, SamePages.refl space⟩
    · exact ⟨h.setMemory _, SamePages.refl space⟩

/-- The way down to the leaf takes the tables that are missing. -/
theorem books_reach (page : Page) (leaf : Flags) (level : Nat) : ∀ {table : Nat}
    {s : Ram × AddressSpace}, Books base others s → Outcome (reach page leaf level table s)
      (fun _ s' => Books base others s' ∧ SamePages s.2 s'.2)
      fun _ s' => Books base others s' ∧ SamePages s.2 s'.2 := by
  induction level with
  | zero => exact fun h => ⟨h, SamePages.refl _⟩
  | succ level ih =>
    intro table s h
    refine (books_descend page leaf table (page.index (level + 1)) h).bind fun next s₁ h₁ => ?_
    refine (ih h₁.1).mono ?_ ?_
    · exact fun _ _ h₂ => ⟨h₂.1, h₁.2.trans h₂.2⟩
    · exact fun _ _ h₂ => ⟨h₂.1, h₁.2.trans h₂.2⟩

/-- **Mapping a page to a frame.**  On success the frame belongs to the space, as that of the page; if
it is refused, the frame is still the caller's, and the space may have got tables. -/
theorem books_map (page : Page) (frame : Nat) (flags : Flags) (h : Books base (frame :: others) s) :
    Outcome (map page frame flags s)
      (fun _ s' => Books base others s' ∧ s.2.frameAt? page = none ∧
        SamePages (s.2.addPage page frame) s'.2)
      fun _ s' => Books base (frame :: others) s' ∧ SamePages s.2 s'.2 := by
  obtain ⟨ram, space⟩ := s
  unfold map
  dsimp only
  split
  · exact ⟨h, SamePages.refl space⟩
  · split
    · exact ⟨h, SamePages.refl space⟩
    · next hfree =>
      have hfree : space.frameAt? page = none := by simpa using hfree
      split
      · exact True.intro
      · refine Outcome.bind ((books_reach page (flags.union .present) 3 h).mono
          (fun _ _ h => h) fun _ s₁ h₁ => h₁) fun table s₁ h₁ => ?_
        obtain ⟨ram₁, space₁⟩ := s₁
        obtain ⟨h₁, hsame⟩ := h₁
        have hfree₁ : space₁.frameAt? page = none :=
          (AddressSpace.frameAt?_congr hsame.pages page).trans hfree
        refine Outcome.bind (P := fun _ s₂ => Books base (frame :: others) s₂ ∧ s₂.2 = space₁) ?_ ?_
        · unfold writeLeaf
          dsimp only
          split
          · exact ⟨h₁, hsame⟩
          · split
            · exact True.intro
            · exact ⟨Books.setMemory h₁ _, rfl⟩
        · rintro _ ⟨ram₂, space₂⟩ ⟨h₂, rfl⟩
          refine ⟨FramePool.Holds.perm h₂ ?_, hfree, hsame.addPage page frame⟩
          refine List.perm_middle.trans ?_
          exact ((AddressSpace.ownedFrames_addPage hfree₁).append_right others).symm

end Mapper

/-! ## 3. The manager -/

namespace Vm

variable {base : Nat} {others : List Nat} {vm : Vm} {space : AddressSpace}

/-- An operation beside a space does what it does without one. -/
theorem onVm_of_ok {α : Type} {op : Op α} {a : α} {vm' : Vm} (space : AddressSpace)
    (hok : op vm = .ok a vm') : onVm op (vm, space) = .ok a (vm', space) := by
  unfold onVm
  simp only [hok]

/-- A frame can be given back by whoever owns it. -/
theorem exists_giveFrame {frame : Nat} (h : vm.ram.pool.Holds base (frame :: others)) :
    ∃ pool, giveFrame frame vm = .ok () { vm with ram := { vm.ram with pool } } ∧
      pool.Holds base others := by
  obtain ⟨pool, hok, hp⟩ := h.exists_release
  refine ⟨pool, ?_, hp⟩
  unfold giveFrame
  rw [hok]

/-- **A space that is not loaded can always be taken down**, and all its frames go back. -/
theorem exists_destroySpace (h : vm.ram.pool.Holds base (space.ownedFrames ++ others))
    (hactive : vm.activeRoot ≠ some space.root) :
    ∃ pool, destroySpace space vm =
        .ok space.ownedFrames.length { vm with ram := { vm.ram with pool } } ∧
      pool.Holds base others := by
  obtain ⟨pool, hok, hp⟩ := h.releaseFrames_eq
  refine ⟨pool, ?_, hp⟩
  unfold destroySpace
  rw [if_neg hactive]
  simp only [hok]

theorem holds_takeFrame (h : vm.ram.pool.Holds base others) : Outcome (takeFrame vm)
    (fun frame vm' => vm'.ram.pool.Holds base (frame :: others) ∧
      vm'.ram.memory = vm.ram.memory ∧ vm'.kernel = vm.kernel ∧ vm'.activeRoot = vm.activeRoot)
    fun _ vm' => vm' = vm := by
  unfold takeFrame
  split
  · exact rfl
  · next hok => exact ⟨h.of_allocate hok, rfl, rfl, rfl⟩

/-- A manager that has booted has taken one frame, the root of its kernel's space. -/
theorem eq_of_boot {ram : Ram} {bootRoot : Option Nat} (hboot : boot ram bootRoot = .ok vm) :
    ram.pool.allocate = .ok (vm.kernel.root, vm.ram.pool) ∧ vm.kernel = .ofRoot .kernel vm.kernel.root ∧
      vm.activeRoot = none := by
  unfold boot at hboot
  cases hok : ram.pool.allocate with
  | error e =>
    rw [hok] at hboot
    cases hboot
  | ok r =>
    rw [hok] at hboot
    cases hboot
    exact ⟨rfl, rfl, rfl⟩

/-- A new user space has taken one frame, its root, in which it has the kernel's upper half. -/
theorem outcome_createSpace (vm : Vm) : Outcome (createSpace vm)
    (fun space vm' => vm.ram.pool.allocate = .ok (space.root, vm'.ram.pool) ∧
      space = .ofRoot .user space.root ∧ vm'.kernel = vm.kernel ∧ vm'.activeRoot = vm.activeRoot ∧
      vm'.ram.memory =
        (vm.ram.memory.clearPage space.root).copyUpperHalf vm.kernel.root space.root)
    fun _ vm' => vm' = vm := by
  unfold createSpace
  split
  · exact rfl
  · next root pool hok =>
    dsimp only [Outcome, AddressSpace.ofRoot]
    exact ⟨hok, rfl, rfl, rfl, rfl⟩

theorem holds_createSpace (h : vm.ram.pool.Holds base others) : Outcome (createSpace vm)
    (fun space vm' => vm'.ram.pool.Holds base (space.ownedFrames ++ others) ∧
      space.root ∉ others ∧ vm'.activeRoot = vm.activeRoot)
    fun _ vm' => vm' = vm := by
  refine (outcome_createSpace vm).mono ?_ fun _ _ h => h
  rintro space vm' ⟨hok, hspace, -, hactive, -⟩
  have hp := h.of_allocate hok
  rw [hspace]
  exact ⟨hp, (List.nodup_cons.mp hp.nodup).1, hactive⟩

/-- Mapping a page of a space to a frame, before the frame is given back if it is refused. -/
theorem holds_mapOnto (page : Page) (frame : Nat)
    (h : vm.ram.pool.Holds base (space.ownedFrames ++ frame :: others)) :
    Outcome (onSpace (Mapper.map page frame .userData) (vm, space))
      (fun _ s => s.1.ram.pool.Holds base (s.2.ownedFrames ++ others))
      fun _ s => s.1.ram.pool.Holds base (frame :: (s.2.ownedFrames ++ others)) ∧
        s.2.root = space.root ∧ s.1.activeRoot = vm.activeRoot :=
  Outcome.onSpace ((Mapper.books_map (s := (vm.ram, space)) page frame .userData h).mono
    (fun _ _ h => h.1) fun _ _ h => ⟨FramePool.Holds.perm h.1 List.perm_middle, h.2.root, rfl⟩)

/-- Mapping the private page of a space: the frame belongs to the space, or went back. -/
theorem holds_mapUserPage (page : Page) (frame : Nat)
    (h : vm.ram.pool.Holds base (space.ownedFrames ++ frame :: others)) :
    Outcome (mapUserPage page frame (vm, space))
      (fun _ s => s.1.ram.pool.Holds base (s.2.ownedFrames ++ others))
      fun _ s => s.1.ram.pool.Holds base (s.2.ownedFrames ++ others) ∧ s.2.root = space.root ∧
        s.1.activeRoot = vm.activeRoot := by
  have hmap := holds_mapOnto page frame h
  unfold mapUserPage map
  match onSpace (Mapper.map page frame .userData) (vm, space), hmap with
  | .ok _ s, h => exact h
  | .error (.refused e) (vm', space'), h =>
    obtain ⟨hp, hroot, hactive⟩ := h
    obtain ⟨pool, hgive, hp⟩ := exists_giveFrame hp
    refine Outcome.bind (P := fun _ s => s.1.ram.pool.Holds base (s.2.ownedFrames ++ others) ∧
      s.2.root = space.root ∧ s.1.activeRoot = vm.activeRoot)
      (Outcome.besideSpace (.of_ok hgive ⟨hp, hroot, hactive⟩)) fun _ s hs => ?_
    exact Outcome.besideSpace hs
  | .error (.halted _) _, _ => exact True.intro

/-- Its error is that of the mapper. -/
theorem mapUserPage_of_refused {page : Page} {frame : Nat} {e : PagingError} {s : Vm × AddressSpace}
    (h : vm.ram.pool.Holds base (space.ownedFrames ++ frame :: others))
    (he : onSpace (Mapper.map page frame .userData) (vm, space) = .error (.refused e) s) :
    ∃ s', mapUserPage page frame (vm, space) = .error (.refused e) s' := by
  obtain ⟨vm', space'⟩ := s
  obtain ⟨pool, hgive, -⟩ := exists_giveFrame ((holds_mapOnto page frame h).of_eq_refused he).1
  unfold mapUserPage map
  rw [he]
  exact ⟨_, bind_of_ok (onVm_of_ok space' hgive)⟩

/-- Taking a frame and mapping the private page of a space to it. -/
theorem holds_mapTaken (page : Page) (h : vm.ram.pool.Holds base (space.ownedFrames ++ others)) :
    Outcome ((onVm takeFrame >>= mapUserPage page) (vm, space))
      (fun _ s => s.1.ram.pool.Holds base (s.2.ownedFrames ++ others))
      fun _ s => s.1.ram.pool.Holds base (s.2.ownedFrames ++ others) ∧ s.2.root = space.root ∧
        s.1.activeRoot = vm.activeRoot := by
  refine Outcome.bind (P := fun frame s =>
      s.1.ram.pool.Holds base (frame :: (space.ownedFrames ++ others)) ∧ s.2 = space ∧
        s.1.activeRoot = vm.activeRoot)
    (Outcome.besideSpace ((holds_takeFrame h).mono ?_ ?_)) ?_
  · exact fun _ _ h => ⟨h.1, rfl, h.2.2.2⟩
  · rintro _ _ rfl
    exact ⟨h, rfl, rfl⟩
  · rintro frame ⟨vm₁, space₁⟩ ⟨h₁, rfl, hactive₁⟩
    refine (holds_mapUserPage page frame (FramePool.Holds.perm h₁ List.perm_middle.symm)).mono
      (fun _ _ h => h) ?_
    exact fun _ _ h => ⟨h.1, h.2.1, h.2.2.trans hactive₁⟩

/-- Furnishing a space: it has one page more, or it is taken down. -/
theorem holds_furnish (page : Page) (h : vm.ram.pool.Holds base (space.ownedFrames ++ others))
    (hactive : vm.activeRoot ≠ some space.root) : Outcome (furnish page space vm)
      (fun space vm' => vm'.ram.pool.Holds base (space.ownedFrames ++ others))
      fun _ vm' => vm'.ram.pool.Holds base others := by
  have hmap := holds_mapTaken page h
  unfold furnish
  match (onVm takeFrame >>= mapUserPage page) (vm, space), hmap with
  | .ok _ (vm', space'), h => exact h
  | .error (.refused e) (vm', space'), h =>
    obtain ⟨hp, hroot, hactive'⟩ := h
    have hactive' : vm'.activeRoot ≠ some space'.root := by
      rw [hactive', hroot]
      exact hactive
    obtain ⟨pool, hgone, hp⟩ := exists_destroySpace hp hactive'
    exact Outcome.bind (P := fun _ vm'' => vm''.ram.pool.Holds base others) (.of_ok hgone hp)
      fun _ vm'' h => h
  | .error (.halted _) _, _ => exact True.intro

/-- Its error is that of mapping the page. -/
theorem furnish_of_refused {page : Page} {e : PagingError} {s : Vm × AddressSpace}
    (h : vm.ram.pool.Holds base (space.ownedFrames ++ others)) (hactive : vm.activeRoot ≠ some space.root)
    (he : (onVm takeFrame >>= mapUserPage page) (vm, space) = .error (.refused e) s) :
    ∃ vm', furnish page space vm = .error (.refused e) vm' := by
  obtain ⟨vm', space'⟩ := s
  obtain ⟨hp, hroot, hactive'⟩ := (holds_mapTaken page h).of_eq_refused he
  have hactive' : vm'.activeRoot ≠ some space'.root := by
    rw [hactive', hroot]
    exact hactive
  obtain ⟨pool, hgone, -⟩ := exists_destroySpace hp hactive'
  unfold furnish
  rw [he]
  exact ⟨_, bind_of_ok hgone⟩

/-- **A furnished space** has its frames, or everything went back. -/
theorem holds_createSpaceWith (page : Page) (h : vm.ram.pool.Holds base others)
    (hactive : ∀ root, vm.activeRoot = some root → root ∈ others) :
    Outcome (createSpaceWith page vm)
      (fun space vm' => vm'.ram.pool.Holds base (space.ownedFrames ++ others))
      fun _ vm' => vm'.ram.pool.Holds base others := by
  refine Outcome.bind ((holds_createSpace h).mono (fun _ _ h => h) ?_) ?_
  · rintro _ _ rfl
    exact h
  · rintro space vm₁ ⟨h₁, hnew, hactive₁⟩
    refine holds_furnish page h₁ fun he => hnew (hactive _ ?_)
    rw [← hactive₁, he]

/-! ## 4. The kernel's space -/

/-- The frames of the kernel's space and of the others are owned, and it is the space with the given
root. -/
structure KernelBooks (base : Nat) (others : List Nat) (vm vm' : Vm) : Prop where
  holds : vm'.ram.pool.Holds base (vm'.kernel.ownedFrames ++ others)
  root : vm'.kernel.root = vm.kernel.root
  active : vm'.activeRoot = vm.activeRoot

/-- **What depends on the pool only through who owns what** is kept by mapping a page to a fresh frame, if it
is kept by mapping the page to a frame of the others. -/
theorem outcome_mapFresh {R : List Nat → Vm → Prop}
    (hbooks : ∀ {others vm}, R others vm → vm.ram.pool.Holds base (vm.kernel.ownedFrames ++ others))
    (hpool : ∀ {others others' vm} {pool : FramePool}, R others vm → pool.total = vm.ram.pool.total →
      pool.Holds base (vm.kernel.ownedFrames ++ others') → R others' { vm with ram := { vm.ram with pool } })
    (page : Page) (hmap : ∀ {frame vm}, R (frame :: others) vm → Outcome
      (onKernelSpace (Mapper.map page frame .kernelData) vm) (fun _ => R others) fun _ => R (frame :: others))
    {vm : Vm} (h : R others vm) : Outcome (mapFresh page vm) (fun _ => R others) fun _ => R others := by
  refine Outcome.bind (P := fun frame => R (frame :: others)) ?_ fun frame vm₁ h₁ => ?_
  · unfold takeFrame
    split
    · exact h
    · next frame pool hok =>
      refine hpool h ?_ (((hbooks h).of_allocate hok).perm List.perm_middle.symm)
      obtain ⟨-, -, -, rfl⟩ := FramePool.eq_of_allocate hok
      rfl
  · unfold mapKernelPage
    match onKernelSpace (Mapper.map page frame .kernelData) vm₁, hmap h₁ with
    | .ok _ vm₂, h₂ => exact h₂
    | .error (.refused e) vm₂, h₂ =>
      obtain ⟨pool, hok, hp⟩ := ((hbooks h₂).perm List.perm_middle).exists_release
      refine Outcome.bind (P := fun _ => R others) ?_ fun _ _ h₃ => h₃
      unfold giveFrame
      rw [hok]
      refine hpool h₂ ?_ hp
      obtain ⟨-, -, rfl⟩ := FramePool.eq_of_release hok
      rfl
    | .error (.halted _) _, _ => exact True.intro

/-- What mapping one page to a fresh frame keeps, mapping many keeps. -/
theorem outcome_mapFreshPages {P : Vm → Prop}
    (hP : ∀ page {vm}, P vm → Outcome (mapFresh page vm) (fun _ vm' => P vm') fun _ vm' => P vm') :
    ∀ (n : Nat) (page : Page) {vm : Vm}, P vm →
      Outcome (mapFreshPages n page vm) (fun _ vm' => P vm') fun _ vm' => P vm'
  | 0, _, _, h => h
  | n + 1, page, vm, h => by
    unfold mapFreshPages
    match page.next with
    | .error _ => exact True.intro
    | .ok none => exact hP page h
    | .ok (some next) =>
      exact (hP page h).bind fun _ vm₁ h₁ => outcome_mapFreshPages hP n next h₁

/-- What mapping one page to a fresh frame keeps, mapping a region keeps. -/
theorem outcome_mapKernelRegion {P : Vm → Prop}
    (hP : ∀ page {vm}, P vm → Outcome (mapFresh page vm) (fun _ vm' => P vm') fun _ vm' => P vm')
    (start : VirtAddr) (length : Nat) (h : P vm) :
    Outcome (mapKernelRegion start length vm) (fun _ vm' => P vm') fun _ vm' => P vm' := by
  unfold mapKernelRegion
  split
  · exact True.intro
  · match start.advance (length - 1) with
    | .error _ => exact True.intro
    | .ok last => exact (outcome_mapFreshPages hP _ _ h).bind fun _ _ h => h

theorem kernelBooks_map (page : Page) {frame : Nat} {vm' : Vm}
    (h : KernelBooks base (frame :: others) vm vm') :
    Outcome (onKernelSpace (Mapper.map page frame .kernelData) vm')
      (fun _ vm'' => KernelBooks base others vm vm'')
      fun _ vm'' => KernelBooks base (frame :: others) vm vm'' := by
  refine Outcome.onKernelSpace ((Mapper.books_map (s := (vm'.ram, vm'.kernel)) page frame .kernelData
    h.holds).mono ?_ ?_)
  · exact fun _ _ h' => ⟨h'.1, h'.2.2.root.trans h.root, h.active⟩
  · exact fun _ _ h' => ⟨h'.1, h'.2.root.trans h.root, h.active⟩

/-- **Mapping a region of the kernel's space**, as far as it goes. -/
theorem kernelBooks_mapKernelRegion (start : VirtAddr) (length : Nat)
    (h : vm.ram.pool.Holds base (vm.kernel.ownedFrames ++ others)) :
    Outcome (mapKernelRegion start length vm) (fun _ vm' => KernelBooks base others vm vm')
      fun _ vm' => KernelBooks base others vm vm' :=
  outcome_mapKernelRegion (fun page _ => outcome_mapFresh (R := fun others => KernelBooks base others vm)
    KernelBooks.holds (fun h' _ hp => ⟨hp, h'.root, h'.active⟩) page (kernelBooks_map page)) start length
      ⟨h, rfl, rfl⟩

end Vm

end KernelCore
