/-
# Page tables refine the record

What a space is for is a table from pages to frames and attributes.  The record of the space is one
half of that table; the other half, the attributes, is kept by nobody but the page tables in memory.
Callers that keep to the rules see nothing but that table (`World.Refined`), in every world that they
can get to:

* following an address of a page of the right half leads where the table says, or nowhere if the
  table says nothing;
* mapping a page inserts one key, or is refused for a reason that the table shows or because no
  frame is left, and then changes nothing in the table; it never halts;
* unmapping a page deletes one key and hands back the frame that stood there, or there was none.

`refined_of_reaches` says so of every world.
-/
import KernelCore.Proofs.Paging.Progress

namespace KernelCore

/-! ## 1. Mappings -/

/-- Where each page of each space is mapped to, and with which attributes. -/
abbrev Mappings := Option Nat → Page → Option (Nat × Flags)

/-- The mappings with what is said of one page replaced. -/
def Mappings.set (μ : Mappings) (i? : Option Nat) (page : Page) (x : Option (Nat × Flags)) :
    Mappings := fun j? g => if j? = i? ∧ g = page then x else μ j? g

/-- What the record of a space and the attributes that were asked for say of a page. -/
def AddressSpace.mapping (s : AddressSpace) (asked : Page → Flags) (page : Page) :
    Option (Nat × Flags) := (s.frameAt? page).map fun frame => (frame, (asked page).inForce)

/-- Following any address of the page leads into the frame that is recorded for it, with the
attributes that were asked for, or nowhere if no frame is recorded. -/
def Vm.Follows (vm : Vm) (s : AddressSpace) (asked : Page → Flags) (page : Page) : Prop :=
  ∀ off (a : VirtAddr), off < pageSize → a.val = page.start.val + off →
    vm.translate s a = .ok ((s.frameAt? page).map fun frame =>
      ⟨frame * pageSize + off, (asked page).inForce⟩)

namespace World

variable {base i frame : Nat} {w w' : World} {g : Guest} {page : Page} {flags : Flags}
  {m : Memory} {kind : SpaceKind} {s : AddressSpace} {asked : Page → Flags}

/-- The mappings of all spaces. -/
def mappings (w : World) : Mappings
  | none, page => w.vm.kernel.mapping Vm.kernelAsked page
  | some i, page => (guest? i w).bind fun g => g.space.mapping g.asked page

/-- **The world is as its mappings say.** -/
structure Refined (w : World) : Prop where
  kernel : ∀ page, page.isUpper = true → w.vm.Follows w.vm.kernel Vm.kernelAsked page
  guests : ∀ g ∈ w.guests, ∀ page, page.isUpper = false → w.vm.Follows g.space g.asked page
  map : ∀ i g page frame flags, guest? i w = some g → frame ∈ w.held →
    flags.contains .huge = false →
      (∃ w', PagingCall.run (.map i page frame flags) w = .ok none w' ∧ page.isUpper = false ∧
        w.mappings (some i) page = none ∧
          w'.mappings = w.mappings.set (some i) page (some (frame, flags.inForce))) ∨
      ∃ e w', PagingCall.run (.map i page frame flags) w = .error (.refused e) w' ∧
        Mapper.Refuses g.space page w'.vm.ram.pool e ∧ w'.mappings = w.mappings
  unmap : ∀ i g page, guest? i w = some g →
      (∃ frame w', PagingCall.run (.unmap i page) w = .ok (some frame) w' ∧
        g.space.frameAt? page = some frame ∧
          w'.mappings = w.mappings.set (some i) page none) ∨
      ∃ w', PagingCall.run (.unmap i page) w = .error (.refused (.notMapped page)) w' ∧
        g.space.frameAt? page = none ∧ w'.mappings = w.mappings

/-! ## 2. Following addresses -/

/-- An address of a page, and its offset there. -/
theorem containing_of_val {off : Nat} {a : VirtAddr} (hoff : off < pageSize)
    (ha : a.val = page.start.val + off) : Page.containing a = page ∧ a.offset = off := by
  have hval : a.val = page.number * pageSize + off := ha
  constructor
  · have hnumber : (Page.containing a).number = page.number := by
      show a.val / pageSize = _
      rw [hval, Nat.mul_comm, Nat.mul_add_div (by decide), Nat.div_eq_of_lt hoff, Nat.add_zero]
    cases page
    cases hnumber
    rfl
  · show a.val % pageSize = off
    rw [hval, Nat.mul_comm, Nat.mul_add_mod, Nat.mod_eq_of_lt hoff]

theorem IsRight.follows {vm : Vm} (h : IsRight vm.ram.memory kind s asked)
    (haccepts : s.accepts page = true) : vm.Follows s asked page := by
  obtain ⟨-, τ, ht⟩ := h
  intro off a hoff ha
  obtain ⟨rfl, rfl⟩ := containing_of_val hoff ha
  exact ht.translate_eq haccepts

/-! ## 3. What changes in the mappings -/

theorem mappings_some (hi : guest? i w = some g) (q : Page) :
    w.mappings (some i) q = g.space.mapping g.asked q := by
  show (guest? i w).bind _ = _
  rw [hi]
  rfl

/-- When a user space changes, its own mappings change. -/
theorem mappings_replace (hi : guest? i w = some g) (g' : Guest) {vm' : Vm} (held : List Nat)
    (hkernel : vm'.kernel = w.vm.kernel) (j? : Option Nat) (q : Page) :
    mappings ⟨vm', w.guests.set i g', held⟩ j? q =
      if j? = some i then g'.space.mapping g'.asked q else w.mappings j? q := by
  obtain ⟨hlt, -⟩ := List.getElem?_eq_some_iff.mp hi
  cases j? with
  | none =>
    show vm'.kernel.mapping Vm.kernelAsked q = _
    rw [hkernel, if_neg (by simp)]
    rfl
  | some j =>
    show ((w.guests.set i g')[j]?).bind _ = _
    by_cases hj : i = j
    · subst hj
      rw [List.getElem?_set_self hlt, if_pos rfl]
      rfl
    · rw [List.getElem?_set_ne hj, if_neg (fun he => hj (Option.some.inj he).symm)]
      rfl

/-- A key is set in the mappings of a user space. -/
theorem mappings_set (hi : guest? i w = some g) {g' : Guest} {vm' : Vm} (held : List Nat)
    (hkernel : vm'.kernel = w.vm.kernel) {x : Option (Nat × Flags)}
    (hg : ∀ q, g'.space.mapping g'.asked q = if q = page then x else g.space.mapping g.asked q) :
    mappings ⟨vm', w.guests.set i g', held⟩ = w.mappings.set (some i) page x := by
  funext j? q
  rw [mappings_replace hi g' held hkernel]
  unfold Mappings.set
  split
  · next hj =>
    subst hj
    rw [hg, mappings_some hi]
    simp only [true_and]
  · next hj => rw [if_neg fun h => hj h.1]

/-- The mappings of a user space stay the same. -/
theorem mappings_same (hi : guest? i w = some g) {g' : Guest} {vm' : Vm} (held : List Nat)
    (hkernel : vm'.kernel = w.vm.kernel)
    (hg : ∀ q, g'.space.mapping g'.asked q = g.space.mapping g.asked q) :
    mappings ⟨vm', w.guests.set i g', held⟩ = w.mappings := by
  funext j? q
  rw [mappings_replace hi g' held hkernel]
  split
  · next hj =>
    subst hj
    rw [hg, mappings_some hi]
  · rfl

/-! ## 4. What calls come to -/

theorem Sound.isRight (h : w.Sound base) (hi : guest? i w = some g) :
    IsRight w.vm.ram.memory .user g.space g.asked :=
  h.guests g (List.mem_of_getElem? hi)

/-- **Mapping inserts a key**, or changes no mapping. -/
theorem map_cases (h : w.Sound base) (hi : guest? i w = some g) (page : Page) {flags : Flags}
    (hframe : frame ∈ w.held) (hflags : flags.contains .huge = false) :
    (∃ w', PagingCall.run (.map i page frame flags) w = .ok none w' ∧ page.isUpper = false ∧
        w.mappings (some i) page = none ∧
          w'.mappings = w.mappings.set (some i) page (some (frame, flags.inForce))) ∨
      ∃ e w', PagingCall.run (.map i page frame flags) w = .error (.refused e) w' ∧
        Mapper.Refuses g.space page w'.vm.ram.pool e ∧ w'.mappings = w.mappings := by
  obtain ⟨hkind, τ, ht⟩ := h.isRight hi
  have hlt := h.lt_of_held hframe
  have hrun := run_map_eq hi page frame flags
  have hmap : Outcome (Mapper.map page frame flags (w.vm.ram, g.space)) _ _ :=
    Mapper.tree_map (h.books_of hi) ht hlt
  rcases hmap.ends (Mapper.neverHalts_map page hlt hflags _) with
    ⟨_, s', hok, hmaps⟩ | ⟨e, s', he, hwhy, τ', hgrows⟩
  · left
    rw [hok] at hrun
    refine ⟨_, hrun, ?_, ?_, mappings_set hi (w.held.erase frame) rfl ?_⟩
    · have hin := hmaps.accepts
      rw [accepts_user hkind, Bool.not_eq_true'] at hin
      exact hin
    · rw [mappings_some hi, AddressSpace.mapping, hmaps.free]
      rfl
    · intro q
      unfold AddressSpace.mapping
      rw [hmaps.pages]
      split
      · next hq => simp [Mapper.ask, hq]
      · next hq => simp [Mapper.ask, hq]
  · right
    rw [he] at hrun
    refine ⟨e, _, hrun, hwhy, mappings_same hi w.held rfl ?_⟩
    intro q
    unfold AddressSpace.mapping AddressSpace.frameAt?
    rw [hgrows.pages]

/-- **Unmapping deletes a key** and hands back the frame that stood there, or there was none. -/
theorem unmap_cases (h : w.Sound base) (hi : guest? i w = some g) (page : Page) :
    (∃ frame w', PagingCall.run (.unmap i page) w = .ok (some frame) w' ∧
        g.space.frameAt? page = some frame ∧
          w'.mappings = w.mappings.set (some i) page none) ∨
      ∃ w', PagingCall.run (.unmap i page) w = .error (.refused (.notMapped page)) w' ∧
        g.space.frameAt? page = none ∧ w'.mappings = w.mappings := by
  obtain ⟨-, τ, ht⟩ := h.isRight hi
  have hrun := run_unmap_eq hi page
  rcases Mapper.unmap_cases (s := (w.vm.ram, g.space)) ht page with ⟨hnone, he⟩ | ⟨f, s', hok, hun⟩
  · right
    rw [he] at hrun
    exact ⟨_, hrun, hnone, mappings_same hi w.held rfl fun _ => rfl⟩
  · left
    rw [hok] at hrun
    refine ⟨f, _, hrun, hun.mapped, mappings_set hi (f :: w.held) rfl ?_⟩
    intro q
    unfold AddressSpace.mapping
    rw [hun.pages]
    split
    · rfl
    · rfl

/-- **Page tables refine the record**, in every world that callers can get to. -/
theorem refined_of_reaches {map : MemoryMap} (hr : Reaches map w) : w.Refined := by
  have h := sound_of_reaches hr
  refine ⟨?_, ?_, ?_, ?_⟩
  · intro page hpage
    refine h.kernel.follows ?_
    unfold AddressSpace.accepts
    rw [h.kernel.1]
    exact hpage
  · intro g hg page hpage
    refine (h.guests g hg).follows ?_
    rw [accepts_user (h.guests g hg).1, hpage]
    rfl
  · exact fun i g page frame flags hi => map_cases h hi page
  · exact fun i g page hi => unmap_cases h hi page

/-- The smallest machine on which a page of a user space can be mapped: two roots, three tables and
the frame itself. -/
def sixFrames : MemoryMap := [⟨0, 6 * 4096, .usable⟩]

theorem fresh_sixFrames : (FramePool.ofMap sixFrames).total = 6 ∧ (FramePool.ofMap sixFrames).Fresh 0 := by
  have htotal : (FramePool.ofMap sixFrames).total = 6 := by decide +kernel
  have hunused : ∀ f < 6, (FramePool.ofMap sixFrames).bitmap.isUsed f = false := by decide +kernel
  refine ⟨htotal, by decide +kernel, by decide +kernel, fun _ => rfl, fun f _ hf => hunused f ?_⟩
  rw [← htotal]
  exact hf

theorem five_lt_free_sixFrames : 5 < (FramePool.ofMap sixFrames).free := by
  rw [fresh_sixFrames.2.free, fresh_sixFrames.1]
  decide

/-- On that machine a caller takes a frame and maps it at the first page of a new space, and the
tables say so. -/
theorem refined_sixFrames : ∃ w page, (Reaches sixFrames w ∧ page.number = 0) ∧ w.Refined ∧
    w.mappings (some 0) page = some (1, Flags.none.inForce) := by
  obtain ⟨htotal, hfresh⟩ := fresh_sixFrames
  obtain ⟨pool₀, hroot, htotal₀, hfresh₀⟩ := hfresh.exists_allocate (by omega)
  obtain ⟨pool₁, htake, -, -⟩ := hfresh₀.exists_allocate (by omega)
  obtain ⟨page, hpage⟩ : ∃ page : Page, page.number = 0 := ⟨⟨0, by decide⟩, rfl⟩
  have hlower : page.isUpper = false := by
    rw [Page.isUpper, Page.index, hpage, Nat.zero_div]
    rfl
  obtain ⟨root, _, memory, hroot', h, -⟩ := exists_supplied five_lt_free_sixFrames
  cases hroot.symm.trans hroot'
  obtain ⟨frame, _, htake', h⟩ := h.exists_takeFrame
  cases htake.symm.trans htake'
  obtain ⟨root', pool₂, memory', w, -, -, rfl, h⟩ := h.exists_create
  have hflags : Flags.none.contains .huge = false := by decide
  obtain ⟨ram, space, hmapped, h⟩ := h.exists_map (i := 0) (g := ⟨.ofRoot .user root', fun _ => .none⟩) rfl
    List.mem_cons_self hlower rfl hflags
  refine ⟨_, page, ⟨h.reaches, hpage⟩, refined_of_reaches h.reaches, ?_⟩
  rw [mappings_some rfl, AddressSpace.mapping, hmapped, if_pos rfl]
  simp [Mapper.ask]

end World

end KernelCore
