/-
# Mapping a region of the kernel's space

A region of the kernel's space is mapped page by page: each page takes a frame for itself and those of the
tables that are missing on the way to it.  The walk ends early at a page that is mapped already, and where
the frames run out; the page at which it ends is then as before, and its frame goes back.

* `Page.exists_covers`, `Vm.mapFreshPages_eq`: the walk goes over the pages of the region, each once;
* `Vm.mapFresh_cases`: what becomes of one page; `Vm.demand_cons`: what it leaves for the others to take;
* `Vm.Steady.mapsPages`: what becomes of pages one after the other;
* `World.mapsRegions_of_arises`: so regions are mapped in every run of honest callers.
-/
import KernelCore.Proofs.Frame.Supply
import KernelCore.Proofs.Paging.Addresses
import KernelCore.Proofs.Paging.Isolation
import KernelCore.Proofs.Paging.Refinement
import Mathlib.Data.Finset.Union

namespace KernelCore

/-! ## 1. The pages of a region -/

namespace Page

variable {p q : Page} {pages : List Page} {start : VirtAddr} {length : Nat}

/-- **The pages that a range of addresses meets**, in order. -/
structure Covers (start : VirtAddr) (length : Nat) (pages : List Page) : Prop where
  sorted : pages.Pairwise fun p q => p.number < q.number
  mem_iff : ∀ p, p ∈ pages ↔ ∃ a : VirtAddr, containing a = p ∧ start.val ≤ a.val ∧
    a.val < start.val + length

/-- A range inside a page meets that page only. -/
theorem Covers.eq_singleton (h : Covers start length pages) (hlength : 1 ≤ length)
    (hinside : ∀ a : VirtAddr, start.val ≤ a.val → a.val < start.val + length → containing a = p) :
    pages = [p] := by
  have hall : ∀ q ∈ pages, q = p := fun q hq => by
    obtain ⟨a, rfl, hle, hlt⟩ := (h.mem_iff q).mp hq
    exact hinside a hle hlt
  have hp : p ∈ pages :=
    (h.mem_iff p).mpr ⟨start, hinside start (Nat.le_refl _) (by omega), Nat.le_refl _, by omega⟩
  rcases pages with _ | ⟨q, _ | ⟨q', rest⟩⟩
  · cases hp
  · rw [hall q List.mem_cons_self]
  · have hlt := (List.pairwise_cons.mp h.sorted).1 q' List.mem_cons_self
    rw [hall q List.mem_cons_self, hall q' (List.mem_cons_of_mem _ List.mem_cons_self)] at hlt
    exact absurd hlt (Nat.lt_irrefl _)

/-- There are pages of so many numbers of the upper half. -/
theorem exists_run {first n : Nat} (hfirst : 2 ^ 52 - 2 ^ 35 ≤ first) (hlast : first + n ≤ 2 ^ 52) :
    ∃ pages : List Page, pages.map number = List.range' first n := by
  have hcanonical : ∀ k ∈ List.range' first n, k < 2 ^ 35 ∨ (2 ^ 52 - 2 ^ 35 ≤ k ∧ k < 2 ^ 52) := by
    intro k hk
    rw [List.mem_range'_1] at hk
    omega
  exact ⟨(List.range' first n).pmap Page.mk hcanonical, by rw [List.map_pmap, List.pmap_eq_map, List.map_id']⟩

/-- **The pages of a region** of the upper half have consecutive numbers. -/
theorem exists_covers (hupper : 2 ^ 47 ≤ start.val) (hlength : 1 ≤ length) {last : VirtAddr}
    (hlast : last.val = start.val + (length - 1)) : ∃ pages, Covers start length pages ∧
      pages.map number = List.range' (containing start).number (Vm.pageCount start last) := by
  have hstart := start.canonical
  have hend := last.canonical
  have hcount : (containing start).number + Vm.pageCount start last = last.val / pageSize + 1 := by
    simp only [Vm.pageCount, containing, pageSize]
    omega
  simp only [IsCanonical] at hstart hend
  have hfirst : 2 ^ 52 - 2 ^ 35 ≤ (containing start).number := by
    simp only [containing, pageSize]
    omega
  have hpast : (containing start).number + Vm.pageCount start last ≤ 2 ^ 52 := by
    rw [hcount, pageSize]
    omega
  obtain ⟨pages, hpages⟩ := exists_run hfirst hpast
  refine ⟨pages, ⟨?_, fun p => ?_⟩, hpages⟩
  · have hsorted := List.pairwise_lt_range' (s := (containing start).number)
      (n := Vm.pageCount start last)
    rw [← hpages, List.pairwise_map] at hsorted
    exact hsorted
  · have hinjective : Function.Injective number := fun _ _ => eq_of_number
    rw [← List.mem_map_of_injective hinjective, hpages, List.mem_range'_1, hcount]
    constructor
    · rintro ⟨hle, hlt⟩
      -- The first address of the page, or that of the region if the page begins before it.
      by_cases hfirst : start.val ≤ p.start.val
      · refine ⟨p.start, containing_start p, hfirst, ?_⟩
        simp only [Page.start, pageSize] at hlt ⊢
        omega
      · refine ⟨start, eq_of_number ?_, Nat.le_refl _, by omega⟩
        simp only [Page.start, containing, pageSize] at hfirst hle ⊢
        omega
    · rintro ⟨a, rfl, hle, hlt⟩
      simp only [containing, pageSize]
      omega

end Page

namespace Vm

variable {others : List Nat} {vm vm' vm₁ : Vm} {p q : Page} {pages before rest : List Page}
  {frame : Nat} {frames : List Nat}

/-- **The walk goes from page to page**, and ends at the last one. -/
theorem mapFreshPages_eq {first : Page} (hupper : 2 ^ 52 - 2 ^ 35 ≤ first.number)
    (hpages : pages.map Page.number = List.range' first.number pages.length) (vm : Vm) :
    mapFreshPages pages.length first vm = pages.forM mapFresh vm := by
  induction pages generalizing first vm with
  | nil => rfl
  | cons p rest ih =>
    rw [List.map_cons, List.length_cons, List.range'_succ, List.cons_eq_cons] at hpages
    obtain ⟨hp, hrest⟩ := hpages
    obtain rfl := Page.eq_of_number hp
    have hne : p ≠ Page.lastLower := fun he => by
      rw [he] at hupper
      exact absurd hupper (by decide)
    have hforM : (p :: rest).forM mapFresh = mapFresh p >>= fun _ => rest.forM mapFresh := rfl
    rw [List.length_cons, mapFreshPages, hforM]
    rcases Page.next_cases hne with ⟨hnext, -, hlast⟩ | ⟨next, hnext, hnumber⟩
    · have hnil : rest = [] := by
        rcases rest with _ | ⟨q, rest⟩
        · rfl
        · rw [List.map_cons, List.length_cons, List.range'_succ, List.cons_eq_cons] at hrest
          have := q.canonical
          omega
      rw [hnext, hnil]
      show mapFresh p vm = _
      cases hr : mapFresh p vm with
      | ok _ vm' => rw [bind_of_ok hr]; rfl
      | error _ _ => rw [bind_of_error hr]
    · rw [← hnumber] at hrest
      rw [hnext]
      show (mapFresh p >>= fun _ => mapFreshPages rest.length next) vm = _
      cases hr : mapFresh p vm with
      | ok _ vm' =>
        rw [bind_of_ok hr, bind_of_ok hr]
        exact ih (by omega) hrest vm'
      | error _ _ => rw [bind_of_error hr, bind_of_error hr]

/-- **Mapping a region** maps its pages one after the other. -/
theorem mapKernelRegion_eq {start last : VirtAddr} {length : Nat} (hupper : 2 ^ 47 ≤ start.val)
    (hlength : 1 ≤ length) (hlast : last.val = start.val + (length - 1))
    (hpages : pages.map Page.number = List.range' (Page.containing start).number (pageCount start last))
    (vm : Vm) : mapKernelRegion start length vm =
      (do
        pages.forM mapFresh
        return pages.length : Op Nat) vm := by
  have hcount : pages.length = pageCount start last := by
    rw [← List.length_map (f := Page.number), hpages, List.length_range']
  have hfirst : 2 ^ 52 - 2 ^ 35 ≤ (Page.containing start).number := by
    have := start.canonical
    simp only [IsCanonical] at this
    simp only [Page.containing, pageSize]
    omega
  have hwalk := mapFreshPages_eq hfirst (hcount ▸ hpages) vm
  unfold mapKernelRegion
  rw [if_neg (by omega), VirtAddr.advance_eq hlast.symm]
  dsimp only
  rw [← hcount]
  cases hr : pages.forM mapFresh vm with
  | ok _ vm' => rw [bind_of_ok (hwalk.trans hr), bind_of_ok hr]
  | error _ _ => rw [bind_of_error (hwalk.trans hr), bind_of_error hr]

/-! ## 2. What mapping pages comes to -/

/-- No address of the page leads anywhere in the kernel's space. -/
def Lacks (vm : Vm) (p : Page) : Prop :=
  ∀ a, Page.containing a = p → vm.translate vm.kernel a = .ok none

/-- Every address of the page leads somewhere in the kernel's space. -/
def Has (vm : Vm) (p : Page) : Prop :=
  ∀ a, Page.containing a = p → ∃ target, vm.translate vm.kernel a = .ok (some target)

/-- The tables of the kernel's space that are missing on the way to a page. -/
def missingFor (vm : Vm) (p : Page) : Finset (Nat × Nat) :=
  vm.ram.memory.missingFrom p 3 vm.kernel.root

/-- **The frames that pages take**: one for each of them, and one for each table that is missing on the way
to one of them. -/
def demand (vm : Vm) (pages : List Page) : Nat :=
  pages.length + (pages.toFinset.biUnion vm.missingFor).card

/-- **The pages were mapped**, each to a frame of its own that was free; all other addresses lead where they
led.  Beside these frames, only such have come to be used as have become tables. -/
structure Extends (vm : Vm) (pages : List Page) (frames : List Nat) (vm' : Vm) : Prop where
  length : frames.length = pages.length
  nodup : frames.Nodup
  fresh : ∀ f ∈ frames, vm.ram.pool.isUsed f = false
  mapped : ∀ p f, (p, f) ∈ pages.zip frames → ∀ a, Page.containing a = p →
    vm'.translate vm'.kernel a = .ok (some ⟨f * pageSize + a.offset, .kernelData⟩)
  others : ∀ a, Page.containing a ∉ pages →
    vm'.translate vm'.kernel a = vm.translate vm.kernel a
  tables : vm.kernel.tables ⊆ vm'.kernel.tables
  used : ∀ f, vm'.ram.pool.isUsed f = true ↔ vm.ram.pool.isUsed f = true ∨ f ∈ frames ∨
    f ∈ vm'.kernel.tables ∧ f ∉ vm.kernel.tables

/-- **Why the walk ends at a page**, where those before it have been mapped: it was mapped already, or there
is no frame left for it or for a table on the way to it. -/
inductive EndsAt (vm : Vm) (before : List Page) (p : Page) : PagingError → Prop where
  | alreadyMapped : vm.Has p → vm.demand before + 1 ≤ vm.ram.pool.free →
      EndsAt vm before p (.alreadyMapped p)
  | noFrame : vm.ram.pool.free < vm.demand before + 1 → EndsAt vm before p .outOfMemory
  | noTable : vm.Lacks p → vm.ram.pool.free < vm.demand (before ++ [p]) → EndsAt vm before p .outOfMemory

/-- The frame that comes next in one state is free in another. -/
def Returns (vm vm' : Vm) : Prop :=
  ∀ leaf pool, vm.ram.pool.allocate = .ok (leaf, pool) → vm'.ram.pool.isUsed leaf = false

/-- **What mapping pages one after the other comes to.**  All of them are mapped, or those before the one at
which the walk ends; the frame that was taken for that one is free again. -/
inductive MapsPages {α : Type} (vm : Vm) (pages : List Page) (a : α) :
    EStateM.Result (Stop PagingError) Vm α → Prop where
  | done {frames : List Nat} {vm' : Vm} : (∀ p ∈ pages, vm.Lacks p) → vm.Extends pages frames vm' →
      vm'.ram.pool.free + vm.demand pages = vm.ram.pool.free → MapsPages vm pages a (.ok a vm')
  | ended {before rest : List Page} {p : Page} {frames : List Nat} {e : PagingError} {vm₁ vm' : Vm} :
      pages = before ++ p :: rest → (∀ q ∈ before, vm.Lacks q) → vm.EndsAt before p e →
      vm.Extends before frames vm' → before.forM mapFresh vm = .ok () vm₁ →
      vm₁.ram.pool.free + vm.demand before = vm.ram.pool.free → vm₁.Returns vm' →
      MapsPages vm pages a (.error (.refused e) vm')

/-! ## 3. The kernel's space and its frames -/

/-- The tables of the kernel's space are its record, and all used frames are the kernel's or others'. -/
structure Steady (others : List Nat) (vm : Vm) : Prop where
  books : vm.ram.pool.Holds 0 (vm.kernel.ownedFrames ++ others)
  regular : vm.ram.pool.Regular
  kind : vm.kernel.kind = .kernel
  tree : ∃ τ, Tree vm.ram.memory vm.kernel kernelAsked τ

namespace Steady

theorem accepts (h : vm.Steady others) : vm.kernel.accepts p = p.isUpper := World.accepts_kernel h.kind

/-- An address of the upper half leads where the record says. -/
theorem translate_eq (h : vm.Steady others) (hp : p.isUpper = true) {a : VirtAddr}
    (ha : Page.containing a = p) : vm.translate vm.kernel a =
      .ok ((vm.kernel.frameAt? p).map fun f => ⟨f * pageSize + a.offset, .kernelData⟩) := by
  obtain ⟨τ, ht⟩ := h.tree
  have hforce : ∀ p, (kernelAsked p).inForce = .kernelData := fun _ =>
    show Flags.kernelData.inForce = .kernelData by decide
  subst ha
  rw [← hforce (Page.containing a)]
  exact ht.translate_eq (h.accepts.trans hp)

/-- An address of the lower half leads nowhere. -/
theorem translate_eq_none (h : vm.Steady others) {a : VirtAddr}
    (ha : (Page.containing a).isUpper = false) : vm.translate vm.kernel a = .ok none := by
  obtain ⟨τ, ht⟩ := h.tree
  exact ht.translate_eq_none h.kind (h.accepts.trans ha)

/-- Where the record is the same, addresses lead where they led. -/
theorem translate_congr (h : vm.Steady others) (h' : vm'.Steady others) {a : VirtAddr}
    (hsame : vm'.kernel.frameAt? (Page.containing a) = vm.kernel.frameAt? (Page.containing a)) :
    vm'.translate vm'.kernel a = vm.translate vm.kernel a := by
  cases hupper : (Page.containing a).isUpper with
  | false => rw [h.translate_eq_none hupper, h'.translate_eq_none hupper]
  | true => rw [h.translate_eq hupper rfl, h'.translate_eq hupper rfl, hsame]

theorem lacks (h : vm.Steady others) (hp : p.isUpper = true) (hnone : vm.kernel.frameAt? p = none) :
    vm.Lacks p := fun a ha => by
  rw [h.translate_eq hp ha, hnone]
  rfl

theorem has (h : vm.Steady others) (hp : p.isUpper = true) (hsome : (vm.kernel.frameAt? p).isSome) :
    vm.Has p := fun a ha => by
  obtain ⟨f, hf⟩ := Option.isSome_iff_exists.mp hsome
  exact ⟨_, by rw [h.translate_eq hp ha, hf]; rfl⟩

theorem isUsed_iff (h : vm.Steady others) (f : Nat) : vm.ram.pool.isUsed f = true ↔
    vm.ram.pool.total ≤ f ∨ f ∈ vm.kernel.ownedFrames ++ others :=
  h.books.isUsed_iff h.regular.counted

/-- What has come to be used is what has come to be the kernel's. -/
theorem used_iff (h : vm.Steady others) (h' : vm'.Steady others)
    (htotal : vm'.ram.pool.total = vm.ram.pool.total) (hroot : vm'.kernel.root = vm.kernel.root)
    (htables : vm.kernel.tables ⊆ vm'.kernel.tables)
    (hdata : ∀ f, f ∈ vm'.kernel.pages.map Prod.snd ↔ f ∈ frames ∨ f ∈ vm.kernel.pages.map Prod.snd)
    (f : Nat) : vm'.ram.pool.isUsed f = true ↔ vm.ram.pool.isUsed f = true ∨ f ∈ frames ∨
      f ∈ vm'.kernel.tables ∧ f ∉ vm.kernel.tables := by
  have hsub := @htables f
  rw [h'.isUsed_iff, h.isUsed_iff, htotal]
  simp only [AddressSpace.ownedFrames, List.mem_append, List.mem_cons, hroot, hdata]
  tauto

/-- The frames that are left, those of the kernel's space and those of others make up all frames. -/
theorem free_add (h : vm.Steady others) :
    vm.ram.pool.free + vm.kernel.frameCount + others.length = vm.ram.pool.total := by
  have hcount := h.books.count
  rw [List.length_append, AddressSpace.length_ownedFrames] at hcount
  omega

/-- What is missing on the way to a page. -/
theorem missingFor_eq {τ : Tables} (h : vm.Steady others) (ht : Tree vm.ram.memory vm.kernel kernelAsked τ)
    (hp : p.isUpper = true) : vm.missingFor p = τ.missing p (Finset.range 3) :=
  ht.missingFrom_eq (h.accepts.trans hp) (Nat.le_refl 3) (ht.root (h.accepts.trans hp))

/-- Nothing was mapped, though tables may have been drawn. -/
theorem extends_nil (h : vm.Steady others) (h' : vm'.Steady others)
    (htotal : vm'.ram.pool.total = vm.ram.pool.total) (hroot : vm'.kernel.root = vm.kernel.root)
    (htables : vm.kernel.tables ⊆ vm'.kernel.tables) (hpages : vm'.kernel.pages = vm.kernel.pages) :
    vm.Extends [] [] vm' where
  length := rfl
  nodup := List.nodup_nil
  fresh _ hf := absurd hf List.not_mem_nil
  mapped _ _ hpf := absurd hpf List.not_mem_nil
  others a _ := h.translate_congr h' (AddressSpace.frameAt?_congr hpages (.containing a))
  tables := htables
  used := h.used_iff h' htotal hroot htables fun f => by rw [hpages]; simp

/-- A page was mapped. -/
theorem extends_singleton (h : vm.Steady others) (h' : vm'.Steady others)
    (htotal : vm'.ram.pool.total = vm.ram.pool.total) (hroot : vm'.kernel.root = vm.kernel.root)
    (htables : vm.kernel.tables ⊆ vm'.kernel.tables) (hp : p.isUpper = true)
    (hfree : vm.kernel.frameAt? p = none)
    (hpages : vm'.kernel.pages = AddressSpace.insertPage p frame vm.kernel.pages)
    (hfresh : vm.ram.pool.isUsed frame = false) : vm.Extends [p] [frame] vm' := by
  have hrecord : ∀ g, vm'.kernel.frameAt? g = if g = p then some frame else vm.kernel.frameAt? g := by
    intro g
    unfold AddressSpace.frameAt?
    rw [hpages, AddressSpace.lookup_insertPage]
  refine ⟨rfl, List.nodup_singleton _, fun f hf => ?_, fun q f hqf a ha => ?_, fun a ha => ?_, htables,
    h.used_iff h' htotal hroot htables fun f => ?_⟩
  · rw [List.mem_singleton.mp hf]
    exact hfresh
  · cases List.mem_singleton.mp hqf
    rw [h'.translate_eq hp ha, hrecord, if_pos rfl]
    rfl
  · refine h.translate_congr h' ((hrecord _).trans (if_neg fun he => ha ?_))
    rw [he]
    exact List.mem_cons_self
  · rw [hpages, ((AddressSpace.insertPage_perm frame hfree).map Prod.snd).mem_iff, List.map_cons,
      List.mem_cons, List.mem_singleton]

end Steady

/-! ## 4. One page -/

theorem demand_singleton (vm : Vm) (p : Page) : vm.demand [p] = 1 + (vm.missingFor p).card := by
  simp [demand]

/-- **The demand of pages one after the other**, when what the first one has drawn is no longer missing. -/
theorem demand_cons (hafter : ∀ q ∈ rest, vm'.missingFor q = vm.missingFor q \ vm.missingFor p) :
    vm'.demand rest + vm.demand [p] = vm.demand (p :: rest) := by
  have hrest : rest.toFinset.biUnion vm'.missingFor =
      (rest.toFinset.biUnion vm.missingFor) \ vm.missingFor p := by
    ext x
    simp only [Finset.mem_biUnion, List.mem_toFinset, Finset.mem_sdiff]
    constructor
    · rintro ⟨q, hq, hx⟩
      rw [hafter q hq, Finset.mem_sdiff] at hx
      exact ⟨⟨q, hq, hx.1⟩, hx.2⟩
    · rintro ⟨⟨q, hq, hx⟩, hnot⟩
      exact ⟨q, hq, by rw [hafter q hq, Finset.mem_sdiff]; exact ⟨hx, hnot⟩⟩
  have hcard := Finset.card_sdiff_add_card (rest.toFinset.biUnion vm.missingFor) (vm.missingFor p)
  rw [Finset.union_comm] at hcard
  rw [demand_singleton, demand, demand, hrest, List.toFinset_cons, Finset.biUnion_insert, List.length_cons]
  omega

/-- A page takes four frames at most: one for itself, and one for the table of each lower level. -/
theorem Steady.demand_singleton_le (h : vm.Steady others) (hp : p.isUpper = true) : vm.demand [p] ≤ 4 := by
  obtain ⟨τ, ht⟩ := h.tree
  have hle := Tables.card_missing_le τ p (Finset.range 3)
  rw [Finset.card_range] at hle
  rw [demand_singleton, h.missingFor_eq ht hp]
  omega

/-- **A page that was mapped.** -/
structure MapsFresh (others : List Nat) (vm : Vm) (p : Page) (frame : Nat) (vm' : Vm) : Prop where
  steady : vm'.Steady others
  lacks : vm.Lacks p
  grows : vm.Extends [p] [frame] vm'
  free : vm'.ram.pool.free + vm.demand [p] = vm.ram.pool.free
  missing : ∀ q, q.isUpper = true → vm'.missingFor q = vm.missingFor q \ vm.missingFor p

/-- **A page that was not mapped.** -/
structure FailsFresh (others : List Nat) (vm : Vm) (p : Page) (e : PagingError) (vm' : Vm) : Prop where
  steady : vm'.Steady others
  ends : vm.EndsAt [] p e
  grows : vm.Extends [] [] vm'
  returns : vm.Returns vm'

section

variable {pool : FramePool} {τ τ' : Tables} {s : Ram × AddressSpace} {e : PagingError}

/-- A table of the kernel's space stays one. -/
theorem Steady.tables_subset (h : vm.Steady others) (hroot : s.2.root = vm.kernel.root)
    (hsub : vm.kernel.tableFrames ⊆ s.2.tableFrames) : vm.kernel.tables ⊆ s.2.tables := fun f hf => by
  have hnodup : (vm.kernel.root :: vm.kernel.tables).Nodup :=
    h.books.nodup.sublist (((List.sublist_append_left _ _).cons_cons _).trans (List.sublist_append_left _ _))
  refine (List.mem_cons.mp (hsub (List.mem_cons_of_mem _ hf))).resolve_left fun he => ?_
  rw [he, hroot] at hf
  exact (List.nodup_cons.mp hnodup).1 hf

/-- The mapper has mapped the page to the frame that was taken for it. -/
theorem Steady.mapsFresh (h : vm.Steady others) (hp : p.isUpper = true)
    (hok : vm.ram.pool.allocate = .ok (frame, pool))
    (ht : Tree vm.ram.memory vm.kernel kernelAsked τ) (htrades : pool.Trades s.1.pool)
    (hbooks : Mapper.Books 0 others s) (hsame : Mapper.SamePages (vm.kernel.addPage p frame) s.2)
    (hmaps : Mapper.Maps kernelAsked p frame .kernelData (⟨vm.ram.memory, pool⟩, vm.kernel) s)
    (ht' : Tree s.1.memory s.2 kernelAsked τ')
    (hdraws : Mapper.Draws (τ.missing p (Finset.range 3)) τ τ' (⟨vm.ram.memory, pool⟩, vm.kernel) s) :
    vm.MapsFresh others p frame { vm with ram := s.1, kernel := s.2 } := by
  obtain ⟨-, hlt, hunused, hpool⟩ := FramePool.eq_of_allocate hok
  have h' : Steady others { vm with ram := s.1, kernel := s.2 } :=
    ⟨hbooks, htrades.regular (h.regular.of_allocate hok), hsame.kind.trans h.kind, τ', ht'⟩
  have htotal : s.1.pool.total = vm.ram.pool.total := htrades.total.trans (by rw [hpool])
  refine ⟨h', h.lacks hp hmaps.free, ?_, ?_, fun q hq => ?_⟩
  · refine h.extends_singleton h' htotal hsame.root (h.tables_subset hsame.root hmaps.within.tables) hp
      hmaps.free hsame.pages ?_
    rw [FramePool.isUsed, hunused, Bool.or_false]
    exact decide_eq_false (Nat.not_le_of_lt hlt)
  · have hbefore := h.free_add
    have hafter : s.1.pool.free + s.2.frameCount + others.length = vm.ram.pool.total :=
      h'.free_add.trans htotal
    have hcount : s.2.tables.length = vm.kernel.tables.length + _ := hdraws.count
    have hlength : s.2.pages.length = vm.kernel.pages.length + 1 :=
      (congrArg List.length hsame.pages).trans (AddressSpace.insertPage_perm frame hmaps.free).length_eq
    rw [demand_singleton, h.missingFor_eq ht hp]
    simp only [AddressSpace.frameCount] at hbefore hafter ⊢
    omega
  · rw [h'.missingFor_eq ht' hq, h.missingFor_eq ht hq, h.missingFor_eq ht hp, hdraws.missing_eq]

/-- The mapper has refused the page, and the frame that was taken for it has gone back. -/
theorem Steady.failsFresh (h : vm.Steady others) (hp : p.isUpper = true)
    (hok : vm.ram.pool.allocate = .ok (frame, pool))
    (ht : Tree vm.ram.memory vm.kernel kernelAsked τ) (htrades : pool.Trades s.1.pool)
    (hbooks : Mapper.Books 0 (frame :: others) s) (hsame : Mapper.SamePages vm.kernel s.2)
    (hrefuses : Mapper.Refuses vm.kernel p s.1.pool e)
    (hgrows : Mapper.Grows kernelAsked (⟨vm.ram.memory, pool⟩, vm.kernel) s τ')
    (hshort : e = .outOfMemory →
      Mapper.FallsShort (τ.missing p (Finset.range 3)) (⟨vm.ram.memory, pool⟩, vm.kernel) s) :
    ∃ pool', s.1.pool.release frame = .ok pool' ∧
      vm.FailsFresh others p e { vm with ram := { s.1 with pool := pool' }, kernel := s.2 } := by
  obtain ⟨hfree, hlt, -, hpool⟩ := FramePool.eq_of_allocate hok
  have hregular := htrades.regular (h.regular.of_allocate hok)
  have hperm := FramePool.Holds.perm hbooks List.perm_middle
  obtain ⟨pool', hrelease, hbooks'⟩ := hperm.exists_release
  have htrades' := htrades.give hrelease
  have h' : Steady others { vm with ram := { s.1 with pool := pool' }, kernel := s.2 } :=
    ⟨hbooks', hregular.of_release hrelease, hsame.kind.trans h.kind, τ', hgrows.tree⟩
  have htotal : pool'.total = vm.ram.pool.total := htrades'.total.trans (by rw [hpool])
  have hdemand : vm.demand [] = 0 := rfl
  refine ⟨pool', hrelease, h', ?_, ?_, fun leaf _ hok' => ?_⟩
  · cases hrefuses with
    | outOfRange hg =>
      rw [h.accepts, hp] at hg
      cases hg
    | alreadyMapped _ hsome => exact .alreadyMapped (h.has hp hsome) (by omega)
    | outOfMemory _ hnone hdry =>
      refine .noTable (h.lacks hp hnone) ?_
      have hdry := hregular.exhausted_iff.mp hdry
      have hbefore := h.free_add
      have hafter := hperm.count
      have hshort := hshort rfl
      have hpages := congrArg List.length hsame.pages
      have hsame : s.1.pool.total = vm.ram.pool.total := htrades.total.trans (by rw [hpool])
      rw [List.nil_append, demand_singleton, h.missingFor_eq ht hp]
      rw [List.length_cons, List.length_append, AddressSpace.length_ownedFrames] at hafter
      simp only [AddressSpace.frameCount, Mapper.FallsShort] at hbefore hafter hshort
      omega
  · exact h.extends_nil h' htotal hsame.root (h.tables_subset hsame.root hgrows.within.tables) hsame.pages
  · cases hok.symm.trans hok'
    refine Bool.eq_false_iff.mpr fun hused => ?_
    rcases (h'.isUsed_iff _).mp hused with hle | hin
    · exact Nat.not_le_of_lt (htotal ▸ hlt) hle
    · exact (List.nodup_cons.mp hperm.nodup).1 hin

/-- **What becomes of one page.** -/
theorem mapFresh_cases (h : vm.Steady others) (hp : p.isUpper = true) :
    (∃ frame vm', mapFresh p vm = .ok () vm' ∧ vm.MapsFresh others p frame vm') ∨
      ∃ e vm', mapFresh p vm = .error (.refused e) vm' ∧ vm.FailsFresh others p e vm' := by
  obtain ⟨τ, ht⟩ := h.tree
  cases hok : vm.ram.pool.allocate with
  | error e =>
    have hfree := h.regular.exhausted_iff.mp ⟨e, hok⟩
    refine .inr ⟨.outOfMemory, vm, bind_of_error (takeFrame_of_error hok), h,
      .noFrame (by rw [hfree]; exact Nat.succ_pos _), h.extends_nil h rfl rfl (fun _ hf => hf) rfl,
      fun leaf pool hok' => ?_⟩
    cases hok.symm.trans hok'
  | ok r =>
    obtain ⟨frame, pool⟩ := r
    have hbooks : Mapper.Books 0 (frame :: others) (⟨vm.ram.memory, pool⟩, vm.kernel) :=
      (h.books.of_allocate hok).perm List.perm_middle.symm
    have hframe : frame < 2 ^ 40 := Nat.lt_trans
      (hbooks.lt_maxFrames (List.mem_append_right _ List.mem_cons_self)) (by decide)
    have htake := bind_of_ok (f := mapKernelPage p) (takeFrame_of_ok hok)
    have hmap : Outcome (Mapper.map p frame .kernelData _) _ _ :=
      (Mapper.books_map p frame .kernelData hbooks).and
        ((Mapper.draws_map hbooks ht hframe).and (Mapper.trades_map p frame .kernelData .refl))
    rcases hmap.ends fun s halt => Mapper.neverHalts_map p hframe (by decide) _ s halt with
      ⟨_, s, hdone, ⟨hb, -, hsame⟩, ⟨hmaps, τ', ht', hdraws⟩, htrades⟩ |
      ⟨e, s, hrefused, ⟨hb, hsame⟩, ⟨hrefuses, ⟨τ', hgrows⟩, -, hshort⟩, htrades⟩
    · rw [ask_kernelAsked] at ht'
      refine .inl ⟨frame, _, htake.trans ?_, h.mapsFresh hp hok ht htrades hb hsame hmaps ht' hdraws⟩
      unfold mapKernelPage onKernelSpace
      dsimp only
      rw [hdone]
    · obtain ⟨pool', hrelease, hfails⟩ := h.failsFresh hp hok ht htrades hb hsame hrefuses hgrows hshort
      refine .inr ⟨e, _, htake.trans ?_, hfails⟩
      have hgive : giveFrame frame { vm with ram := s.1, kernel := s.2 } =
          .ok () { vm with ram := { s.1 with pool := pool' }, kernel := s.2 } := by
        unfold giveFrame
        rw [hrelease]
      unfold mapKernelPage onKernelSpace
      dsimp only
      rw [hrefused]
      exact bind_of_ok hgive

end

/-! ## 5. One page after the other -/

theorem Extends.cons (h : vm.Extends [p] [frame] vm₁) (h' : vm₁.Extends rest frames vm') (hp : p ∉ rest) :
    vm.Extends (p :: rest) (frame :: frames) vm' := by
  have hmapped := h.mapped p frame List.mem_cons_self
  have hused : vm₁.ram.pool.isUsed frame = true := (h.used frame).mpr (.inr (.inl List.mem_cons_self))
  refine ⟨congrArg (· + 1) h'.length, List.nodup_cons.mpr ⟨fun hin => ?_, h'.nodup⟩, fun f hf => ?_,
    fun q f hqf a ha => ?_, fun a ha => ?_, fun _ hf => h'.tables (h.tables hf), fun f => ?_⟩
  · cases hused.symm.trans (h'.fresh frame hin)
  · rcases List.mem_cons.mp hf with rfl | hf
    · exact h.fresh f List.mem_cons_self
    · refine Bool.eq_false_iff.mpr fun hbefore => ?_
      cases ((h.used f).mpr (.inl hbefore)).symm.trans (h'.fresh f hf)
  · rcases List.mem_cons.mp hqf with he | hqf
    · cases he
      exact (h'.others a (ha ▸ hp)).trans (hmapped a ha)
    · exact h'.mapped q f hqf a ha
  · rw [List.mem_cons, not_or] at ha
    exact (h'.others a ha.2).trans (h.others a fun hin => ha.1 (List.mem_singleton.mp hin))
  · have hsub := @h.tables f
    have hsub' := @h'.tables f
    rw [h'.used, h.used, List.mem_singleton, List.mem_cons]
    tauto

/-- The addresses of another page lead where they led. -/
theorem Extends.translate_of_not_mem (h : vm.Extends pages frames vm') (hq : q ∉ pages) {a : VirtAddr}
    (ha : Page.containing a = q) : vm'.translate vm'.kernel a = vm.translate vm.kernel a :=
  h.others a (ha ▸ hq)

theorem Extends.lacks_iff (h : vm.Extends pages frames vm') (hq : q ∉ pages) : vm'.Lacks q ↔ vm.Lacks q :=
  forall₂_congr fun a ha => by rw [h.translate_of_not_mem hq ha]

theorem Extends.has_iff (h : vm.Extends pages frames vm') (hq : q ∉ pages) : vm'.Has q ↔ vm.Has q :=
  forall₂_congr fun a ha => by rw [h.translate_of_not_mem hq ha]

namespace MapsFresh

variable {e : PagingError}

theorem demand_add (h : vm.MapsFresh others p frame vm') (hupper : ∀ q ∈ rest, q.isUpper = true) :
    vm'.demand rest + vm.demand [p] = vm.demand (p :: rest) :=
  demand_cons fun q hq => h.missing q (hupper q hq)

/-- The walk ends at a page for the same reason when one page more has been mapped before. -/
theorem endsAt (h : vm.MapsFresh others p frame vm') (hends : vm'.EndsAt before q e)
    (hupper : ∀ r ∈ before ++ [q], r.isUpper = true) (hq : q ≠ p) : vm.EndsAt (p :: before) q e := by
  have hfree := h.free
  have hbefore := h.demand_add fun r hr => hupper r (List.mem_append_left _ hr)
  have hnot : q ∉ [p] := fun hin => hq (List.mem_singleton.mp hin)
  cases hends with
  | alreadyMapped hhas hle => exact .alreadyMapped ((h.grows.has_iff hnot).mp hhas) (by omega)
  | noFrame hlt => exact .noFrame (by omega)
  | noTable hlacks hlt =>
    have hall : vm'.demand (before ++ [q]) + vm.demand [p] = vm.demand (p :: before ++ [q]) :=
      h.demand_add hupper
    exact .noTable ((h.grows.lacks_iff hnot).mp hlacks) (by omega)

/-- One page more in front. -/
theorem mapsPages (h : vm.MapsFresh others p frame vm₁) (hok : mapFresh p vm = .ok () vm₁) (hp : p ∉ rest)
    (hupper : ∀ q ∈ rest, q.isUpper = true) {r : EStateM.Result (Stop PagingError) Vm Unit}
    (hrest : vm₁.MapsPages rest () r) : vm.MapsPages (p :: rest) () r := by
  have hfree := h.free
  have hlacks : ∀ {l : List Page}, (∀ q ∈ l, vm₁.Lacks q) → p ∉ l → ∀ q ∈ p :: l, vm.Lacks q := by
    intro l hl hnot q hq
    rcases List.mem_cons.mp hq with rfl | hq
    · exact h.lacks
    · refine (h.grows.lacks_iff fun hin => hnot ?_).mp (hl q hq)
      rwa [← List.mem_singleton.mp hin]
  cases hrest with
  | done hall hgrows hcount =>
    have hdemand := h.demand_add hupper
    exact .done (hlacks hall hp) (h.grows.cons hgrows hp) (by omega)
  | @ended before rest q frames e vm₂ vm' heq hall hends hgrows hstep hcount hreturns =>
    subst heq
    have hbefore : ∀ r ∈ before, r.isUpper = true := fun r hr => hupper r (List.mem_append_left _ hr)
    have hdemand := h.demand_add hbefore
    have hnot : p ∉ before := fun hin => hp (List.mem_append_left _ hin)
    have hne : q ≠ p := fun he => hp (he ▸ List.mem_append_right _ List.mem_cons_self)
    have hends' := h.endsAt hends (fun r hr => hupper r ?_) hne
    · exact .ended rfl (hlacks hall hnot) hends' (h.grows.cons hgrows hnot) ((bind_of_ok hok).trans hstep)
        (by omega) hreturns
    · rcases List.mem_append.mp hr with hr | hr
      · exact List.mem_append_left _ hr
      · exact List.mem_append_right _ (List.mem_singleton.mp hr ▸ List.mem_cons_self)

end MapsFresh

/-- **What becomes of pages one after the other.** -/
theorem Steady.mapsPages (h : vm.Steady others) (hupper : ∀ p ∈ pages, p.isUpper = true)
    (hnodup : pages.Nodup) : vm.MapsPages pages () (pages.forM mapFresh vm) := by
  induction pages generalizing vm with
  | nil =>
    exact .done (fun _ hp => absurd hp List.not_mem_nil) (h.extends_nil h rfl rfl (fun _ hf => hf) rfl) rfl
  | cons p rest ih =>
    have hrest : ∀ q ∈ rest, q.isUpper = true := fun q hq => hupper q (List.mem_cons_of_mem _ hq)
    have hforM : (p :: rest).forM mapFresh = mapFresh p >>= fun _ => rest.forM mapFresh := rfl
    rw [hforM]
    rcases mapFresh_cases h (hupper p List.mem_cons_self) with ⟨frame, vm₁, hok, hmaps⟩ | ⟨e, vm', he, hfails⟩
    · rw [bind_of_ok hok]
      exact hmaps.mapsPages hok (List.nodup_cons.mp hnodup).1 hrest
        (ih hmaps.steady hrest (List.nodup_cons.mp hnodup).2)
    · rw [bind_of_error he]
      exact .ended rfl (fun _ hq => absurd hq List.not_mem_nil) hfails.ends hfails.grows rfl rfl
        hfails.returns

section

variable {α : Type} {a : α} {r : EStateM.Result (Stop PagingError) Vm α}

theorem Has.not_lacks (h : vm.Has p) : ¬vm.Lacks p := fun hlacks => by
  obtain ⟨target, htarget⟩ := h p.start p.containing_start
  cases htarget.symm.trans (hlacks p.start p.containing_start)

/-- More pages take more frames. -/
theorem demand_mono (vm : Vm) (before rest : List Page) : vm.demand before + rest.length ≤
    vm.demand (before ++ rest) := by
  have hsub : before.toFinset.biUnion vm.missingFor ⊆ (before ++ rest).toFinset.biUnion vm.missingFor := by
    rw [List.toFinset_append]
    exact Finset.biUnion_subset_biUnion_of_subset_left _ Finset.subset_union_left
  have hcard := Finset.card_le_card hsub
  rw [demand, demand, List.length_append]
  omega

/-- **All pages are mapped** exactly if none of them was, and there are frames for all of them. -/
theorem MapsPages.exists_ok_iff (h : vm.MapsPages pages a r) :
    (∃ vm', r = .ok a vm') ↔ (∀ p ∈ pages, vm.Lacks p) ∧ vm.demand pages ≤ vm.ram.pool.free := by
  cases h with
  | done hall hgrows hcount => exact ⟨fun _ => ⟨hall, by omega⟩, fun _ => ⟨_, rfl⟩⟩
  | @ended before rest p frames e vm₁ vm' heq hall hends hgrows hstep hcount hreturns =>
    refine ⟨nofun, fun ⟨hlacks, hfit⟩ => ?_⟩
    subst heq
    have hp : p ∈ before ++ p :: rest := List.mem_append_right _ List.mem_cons_self
    cases hends with
    | alreadyMapped hhas => exact absurd (hlacks p hp) hhas.not_lacks
    | noFrame hlt =>
      have := vm.demand_mono before (p :: rest)
      rw [List.length_cons] at this
      omega
    | noTable _ hlt =>
      have := vm.demand_mono (before ++ [p]) rest
      rw [List.append_assoc, List.singleton_append] at this
      omega

end

/-- What the walk gives back does not matter to what it comes to. -/
theorem MapsPages.returns {α : Type} {op : Op Unit} (h : vm.MapsPages pages () (op vm)) (a : α) :
    vm.MapsPages pages a ((do op; return a : Op α) vm) := by
  cases hr : op vm with
  | ok _ vm' =>
    rw [bind_of_ok hr]
    rw [hr] at h
    cases h with
    | done hall hgrows hcount => exact .done hall hgrows hcount
  | error stop vm' =>
    rw [bind_of_error hr]
    rw [hr] at h
    cases h with
    | ended heq hall hends hgrows hstep hcount hreturns =>
      exact .ended heq hall hends hgrows hstep hcount hreturns

end Vm

/-! ## 6. Regions in a world -/

namespace World

variable {map : MemoryMap} {base : Nat} {w : World}

/-- What was used at the start counts among the frames of others. -/
theorem Sound.exists_steady (h : w.Sound base) (hr : w.vm.ram.pool.Regular) :
    ∃ others, w.vm.Steady others := by
  obtain ⟨rest, hbooks⟩ := h.books.exists_rest hr.counted
  rw [List.append_assoc] at hbooks
  exact ⟨_, hbooks, hr, h.kernel.1, h.kernel.2⟩

/-- **Every region of the upper half is mapped page by page**, up to the very top: exactly the pages that it
meets, or those before the first one that cannot be mapped. -/
def MapsRegions (w : World) : Prop :=
  ∀ (start : VirtAddr) (length : Nat), 2 ^ 47 ≤ start.val → 1 ≤ length →
    IsCanonical (start.val + (length - 1)) → ∃ pages, Page.Covers start length pages ∧
      w.vm.MapsPages pages pages.length (Vm.mapKernelRegion start length w.vm)

/-- **In every run of honest callers** regions of the kernel's space are mapped exactly. -/
theorem mapsRegions_of_arises (ha : Arises map w) : w.MapsRegions := by
  intro start length hupper hlength hcanonical
  obtain ⟨others, hsteady⟩ :=
    (sound_of_arises ha).1.exists_steady ((trades_of_arises ha).regular (.ofMap map))
  let last : VirtAddr := ⟨start.val + (length - 1), hcanonical⟩
  have hlast : last.val = start.val + (length - 1) := rfl
  obtain ⟨pages, hcovers, hnumbers⟩ := Page.exists_covers hupper hlength hlast
  have hpages : ∀ p ∈ pages, p.isUpper = true := fun p hp => by
    obtain ⟨a, rfl, hle, -⟩ := (hcovers.mem_iff p).mp hp
    exact Page.isUpper_containing (Nat.le_trans hupper hle)
  have hnodup : pages.Nodup := hcovers.sorted.imp fun hlt he => Nat.ne_of_lt hlt (congrArg Page.number he)
  refine ⟨pages, hcovers, ?_⟩
  rw [Vm.mapKernelRegion_eq hupper hlength hlast hnumbers]
  exact (hsteady.mapsPages hpages hnodup).returns pages.length

/-- The page at the very top of the addresses. -/
def topPage : Page := ⟨2 ^ 52 - 1, .inr (by decide)⟩

/-- On a machine with six frames, the page at the very top of the addresses is mapped: beside the root there
are frames for the three tables and for the page itself. -/
theorem mapsRegions_sixFrames : ∃ w, Arises sixFrames w ∧ w.MapsRegions ∧
    ∃ vm, Vm.mapKernelRegion topPage.start 4096 w.vm = .ok 1 vm := by
  obtain ⟨root, pool, memory, -, h, -⟩ := exists_supplied five_lt_free_sixFrames
  have ha := h.reaches.arises
  have hregions := mapsRegions_of_arises ha
  have hupper : topPage.isUpper = true := by decide
  obtain ⟨others, hsteady⟩ := (sound_of_arises ha).1.exists_steady h.regular
  obtain ⟨pages, hcovers, hmaps⟩ := hregions topPage.start 4096 (by decide) (by decide) (by decide)
  have hpages : pages = [topPage] := hcovers.eq_singleton (by decide) fun a hle hlt => by
    refine Page.eq_of_number ?_
    simp only [topPage, Page.start, Page.containing, pageSize] at hle hlt ⊢
    omega
  subst hpages
  refine ⟨_, ha, hregions, ?_⟩
  refine hmaps.exists_ok_iff.mpr ⟨fun p hp => List.mem_singleton.mp hp ▸ hsteady.lacks hupper rfl, ?_⟩
  exact Nat.le_trans (hsteady.demand_singleton_le hupper) (Nat.le_of_succ_le h.free)

end World

end KernelCore
