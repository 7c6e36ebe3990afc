/-
# What is seen of a space

Of a space one sees where its addresses lead, and the bytes that are read at them.  What is seen depends on
its tables and on the frames that are mapped in it; of the upper half a user space has no tables of its
own, but root entries that lead to the kernel's (`World.Linked`), so there it depends on the kernel's:

* `World.Evolves.linked`: calls keep the roots linked;
* `World.Sound.lands`: an address leads into a frame of the space itself or of the kernel's, or nowhere;
* `World.Sound.translate_congr`: where it leads is written in the tables of those two spaces only;
* `World.Sound.sameView`: so where nothing of the two has changed, the same is seen (`Vm.SameView`);
* `World.Sound.sameView_of_upper`: and in the upper half, where nothing of the kernel's has.
-/
import KernelCore.Proofs.Paging.Roots

namespace KernelCore

/-! ## 1. Entries that are taken over -/

namespace Memory

variable {m m' : Memory} {root source : Nat} {a : VirtAddr} {data : List Nat}

/-- What a root table has of another one for a page: nothing, or the table that the other one leads to. -/
def Borrows (m : Memory) (root source : Nat) (h : Page) : Prop :=
  m.entry root (h.index 3) = .unused ∨ ∃ t, (m.entry root (h.index 3)).LeadsTo (some t) ∧
    (m.entry source (h.index 3)).LeadsTo (some t)

/-- An address there leads where it leads in the other space, or nowhere. -/
theorem Borrows.lands (h : m.Borrows root source (.containing a)) (hs : m.Lands source data a) :
    m.Lands root data a := by
  rcases h with hunused | ⟨t, hlead, hsource⟩
  · exact .of_none (translate_of_unused hunused)
  · unfold Lands at hs ⊢
    rw [translate_of_leadsTo hlead, ← translate_of_leadsTo hsource]
    exact hs

/-- Where it leads stays the same if it does in the other space, and the two entries are as they were. -/
theorem Borrows.translate_congr (h : m.Borrows root source (.containing a))
    (hroot : m'.entry root ((Page.containing a).index 3) = m.entry root ((Page.containing a).index 3))
    (hentry : m'.entry source ((Page.containing a).index 3) = m.entry source ((Page.containing a).index 3))
    (hs : m'.translate source a = m.translate source a) : m'.translate root a = m.translate root a := by
  rcases h with hunused | ⟨t, hlead, hsource⟩
  · rw [translate_of_unused hunused, translate_of_unused (hroot.trans hunused)]
  · calc m'.translate root a
      _ = m'.translateFrom a 2 t := translate_of_leadsTo (by rw [hroot]; exact hlead)
      _ = m'.translate source a := (translate_of_leadsTo (by rw [hentry]; exact hsource)).symm
      _ = m.translate source a := hs
      _ = m.translateFrom a 2 t := translate_of_leadsTo hsource
      _ = m.translate root a := (translate_of_leadsTo hlead).symm

end Memory

/-! ## 2. Views -/

/-- **The same is seen of a space** at some of its addresses: they lead where they led, and the same bytes
are read in the ranges of such addresses. -/
structure Vm.SameView (seen : VirtAddr → Prop) (s : AddressSpace) (vm vm' : Vm) : Prop where
  translate : ∀ a, seen a → vm'.translate s a = vm.translate s a
  read : ∀ (start : VirtAddr) (length : Nat), (∀ a : VirtAddr, start.val ≤ a.val →
    a.val < start.val + length → seen a) → vm'.readBytes s start length = vm.readBytes s start length

/-- The same is seen if the addresses lead where they led, and what they lead to is as it was. -/
theorem Vm.SameView.of_lands {seen : VirtAddr → Prop} {s : AddressSpace} {vm vm' : Vm} {data : List Nat}
    (htranslate : ∀ a, seen a → vm'.translate s a = vm.translate s a)
    (hlands : ∀ a, seen a → vm.ram.memory.Lands s.root data a)
    (hdata : ∀ f ∈ data, vm.ram.memory.SameFrame vm'.ram.memory f) : vm.SameView seen s vm' := by
  refine ⟨htranslate, fun start length hseen => ?_⟩
  refine Memory.readBytesFrom_congr s.root start 0 length fun a hfirst hlast => ?_
  refine ⟨htranslate a (hseen a hfirst hlast), fun t ht => ?_⟩
  obtain ⟨f, hf, haddress⟩ := hlands a (hseen a hfirst hlast) t ht
  exact ⟨f, hdata f hf, haddress⟩

namespace World

variable {map : MemoryMap} {base i : Nat} {w w' : World} {g : Guest} {m : Memory} {s : AddressSpace}
  {i? : Option Nat} {a : VirtAddr} {kind : SpaceKind} {asked : Page → Flags}

/-- In a space's own half, where an address leads is written in the space's tables. -/
theorem IsRight.translate_congr {m' : Memory} (h : IsRight m kind s asked)
    (haccepts : s.accepts (.containing a) = true) (hm : ∀ t ∈ s.tableFrames, m.SameFrame m' t) :
    m'.translate s.root a = m.translate s.root a := by
  obtain ⟨-, τ, ht⟩ := h
  rw [ht.translate_eq haccepts, (ht.congr hm).translate_eq haccepts]

/-! ## 3. Roots that are linked -/

/-- **The roots are linked**: what a user space has of the upper half leads to the kernel's tables. -/
def Linked (w : World) : Prop := ∀ g ∈ w.guests, ∀ h : Page, h.isUpper = true →
  w.vm.ram.memory.Borrows g.space.root w.vm.kernel.root h

/-- **Calls keep the roots linked.** -/
theorem Evolves.linked (he : w.Evolves w') (h : w.Sound base) (hl : w.Linked) : w'.Linked := by
  intro g' hg' page hpage
  -- An entry that is what it was, or what the kernel had, led to what the kernel has.
  have hborrows : ∀ e : Entry, rootEntry w'.vm g'.space.root page = e →
      (e = .unused ∨ ∃ t, e.LeadsTo (some t) ∧ (rootEntry w.vm w.vm.kernel.root page).LeadsTo (some t)) →
        w'.vm.ram.memory.Borrows g'.space.root w'.vm.kernel.root page := by
    rintro e rfl (hunused | ⟨t, hlead, hkernel⟩)
    · exact Or.inl hunused
    · exact Or.inr ⟨t, hlead, he.root ▸ he.leads hkernel⟩
  rcases he.origin g' hg' with ⟨g, hg, hroot⟩ | hcopied
  · exact hborrows _ (hroot ▸ he.upper g hg hpage) (hl g hg page hpage)
  · refine hborrows _ (hcopied hpage) ((h.kernelEntry_cases hpage).imp_right ?_)
    exact fun ⟨t, hlead⟩ => ⟨t, hlead, hlead⟩

/-- Where no table has changed, the roots are linked as before. -/
theorem Linked.borrows (hl : w.Linked) (hm : w.SameTables m) (hg : g ∈ w.guests) {page : Page}
    (hpage : page.isUpper = true) : m.Borrows g.space.root w.vm.kernel.root page := by
  have hsame := hl g hg page hpage
  unfold Memory.Borrows at hsame ⊢
  rw [(hm.1 _ List.mem_cons_self).entry_eq (page.index_lt 3),
    (hm.2 g hg _ List.mem_cons_self).entry_eq (page.index_lt 3)]
  exact hsame

/-! ## 4. Where addresses lead -/

/-- An address of the upper half leads in the kernel's space into a frame that is mapped there. -/
theorem Sound.lands_kernel (h : w.Sound base) (hm : w.SameTables m) (ha : 2 ^ 47 ≤ a.val) :
    m.Lands w.vm.kernel.root (w.vm.kernel.pages.map Prod.snd) a := by
  obtain ⟨hkind, τ, ht⟩ := h.kernel.congr hm.1
  exact ht.lands ((accepts_kernel hkind).trans (Page.isUpper_containing ha))

/-- **An address of the upper half** leads in every space into a frame that is mapped in the kernel's. -/
theorem Sound.lands_of_upper (h : w.Sound base) (hl : w.Linked) (hspace : space? i? w = some s)
    (hm : w.SameTables m) (ha : 2 ^ 47 ≤ a.val) :
    m.Lands s.root (w.vm.kernel.pages.map Prod.snd) a := by
  have hkernel := h.lands_kernel hm ha
  cases i? with
  | none =>
    cases hspace
    exact hkernel
  | some i =>
    obtain ⟨g, hi, rfl⟩ := Option.map_eq_some_iff.mp hspace
    exact (hl.borrows hm (List.mem_of_getElem? hi) (Page.isUpper_containing ha)).lands hkernel

/-- **Every address of a space** leads into a frame that is mapped in it or in the kernel's space. -/
theorem Sound.lands (h : w.Sound base) (hl : w.Linked) (hspace : space? i? w = some s)
    (hm : w.SameTables m) (a : VirtAddr) :
    m.Lands s.root (s.pages.map Prod.snd ++ w.vm.kernel.pages.map Prod.snd) a := by
  rcases Nat.lt_or_ge a.val (2 ^ 47) with ha | ha
  · exact (h.lands_of_lower hspace hm ha).mono (List.subset_append_left _ _)
  · exact (h.lands_of_upper hl hspace hm ha).mono (List.subset_append_right _ _)

/-- Where an address of the kernel's space leads is written in the kernel's tables. -/
theorem Sound.translate_kernel (h : w.Sound base)
    (hm : ∀ t ∈ w.vm.kernel.tableFrames, w.vm.ram.memory.SameFrame m t) (a : VirtAddr) :
    m.translate w.vm.kernel.root a = w.vm.ram.memory.translate w.vm.kernel.root a := by
  cases hin : w.vm.kernel.accepts (.containing a) with
  | true => exact h.kernel.translate_congr hin hm
  | false =>
    obtain ⟨hkind, τ, ht⟩ := h.kernel
    rw [ht.translate_eq_none hkind hin, (ht.congr hm).translate_eq_none hkind hin]

/-- **Where an upper address of a user space leads** is written in the kernel's tables and in the entry of
the root. -/
theorem Sound.translate_of_upper (h : w.Sound base) (hl : w.Linked) (hg : g ∈ w.guests)
    (hm : ∀ t ∈ w.vm.kernel.tableFrames, w.vm.ram.memory.SameFrame m t) (ha : 2 ^ 47 ≤ a.val)
    (hroot : m.entry g.space.root ((Page.containing a).index 3) =
      rootEntry w.vm g.space.root (.containing a)) :
    m.translate g.space.root a = w.vm.ram.memory.translate g.space.root a :=
  (hl g hg _ (Page.isUpper_containing ha)).translate_congr hroot
    ((hm _ List.mem_cons_self).entry_eq ((Page.containing a).index_lt 3)) (h.translate_kernel hm a)

/-- **Where an address of a space leads** is written in its tables and in the kernel's. -/
theorem Sound.translate_congr (h : w.Sound base) (hl : w.Linked) (hspace : space? i? w = some s)
    (hkernel : ∀ t ∈ w.vm.kernel.tableFrames, w.vm.ram.memory.SameFrame m t)
    (hown : ∀ t ∈ s.tableFrames, w.vm.ram.memory.SameFrame m t) (a : VirtAddr) :
    m.translate s.root a = w.vm.ram.memory.translate s.root a := by
  cases i? with
  | none =>
    cases hspace
    exact h.translate_kernel hkernel a
  | some i =>
    obtain ⟨g, hi, rfl⟩ := Option.map_eq_some_iff.mp hspace
    have hg := List.mem_of_getElem? hi
    rcases Nat.lt_or_ge a.val (2 ^ 47) with ha | ha
    · refine (h.guests g hg).translate_congr ?_ hown
      exact (accepts_user (h.guests g hg).1).trans (congrArg (!·) (Memory.isUpper_containing ha))
    · exact h.translate_of_upper hl hg hkernel ha
        ((hown _ List.mem_cons_self).entry_eq ((Page.containing a).index_lt 3))

/-! ## 5. The same view -/

variable {vm : Vm}

/-- **The same is seen of a space** if nothing of it has changed, nor of the kernel's. -/
theorem Sound.sameView (h : w.Sound base) (hl : w.Linked) (hspace : space? i? w = some s)
    (hkernel : ∀ f ∈ w.vm.kernel.ownedFrames, w.vm.ram.memory.SameFrame vm.ram.memory f)
    (hown : ∀ f ∈ s.ownedFrames, w.vm.ram.memory.SameFrame vm.ram.memory f) :
    w.vm.SameView (fun _ => True) s vm := by
  refine .of_lands (fun a _ => h.translate_congr hl hspace ?_ ?_ a)
    (fun a _ => h.lands hl hspace (.refl w) a) fun f hf => ?_
  · exact fun t ht => hkernel t (AddressSpace.mem_ownedFrames ht)
  · exact fun t ht => hown t (AddressSpace.mem_ownedFrames ht)
  · rcases List.mem_append.mp hf with hf | hf
    · exact hown f (s.data_subset_ownedFrames hf)
    · exact hkernel f (w.vm.kernel.data_subset_ownedFrames hf)

/-- **The same is seen of the upper half of a user space** if its root entries there are as they were, and
nothing of the kernel's space has changed. -/
theorem Sound.sameView_of_upper (h : w.Sound base) (hl : w.Linked) (hi : guest? i w = some g)
    (hkernel : ∀ f ∈ w.vm.kernel.ownedFrames, w.vm.ram.memory.SameFrame vm.ram.memory f)
    (hroot : ∀ page : Page, page.isUpper = true →
      rootEntry vm g.space.root page = rootEntry w.vm g.space.root page) :
    w.vm.SameView (fun a => 2 ^ 47 ≤ a.val) g.space vm := by
  have hspace : space? (some i) w = some g.space := Option.map_eq_some_iff.mpr ⟨g, hi, rfl⟩
  refine .of_lands (fun a ha => ?_) (fun a ha => h.lands_of_upper hl hspace (.refl w) ha)
    fun f hf => hkernel f (w.vm.kernel.data_subset_ownedFrames hf)
  exact h.translate_of_upper hl (List.mem_of_getElem? hi)
    (fun t ht => hkernel t (AddressSpace.mem_ownedFrames ht)) ha (hroot _ (Page.isUpper_containing ha))

end World

end KernelCore
