/-
# Tables that nobody has on record

The kernel's root may lead to tables that its record does not know, those that a boot loader left.  Mapping
goes down through them all the same, fills their entries, and hangs new tables under them.  That it writes
into tables only is then for another reason than that the tables are the record: they lie in levels
(`Layers`), no frame is a table of two levels, and an entry leads to a table of the level below, is a large
mapping, or is not in use.  A leaf entry, whatever it says, is in a table that nobody takes for another.

* `Layers.setEntry`, `Layers.setLeaf`, `Layers.link`: what writing an entry does, one lemma for each kind of
  entry;
* `Mapper.stands_map`: mapping a page writes into tables of the kernel's space, and into frames that are
  reserved for tables that it does not own;
* `Vm.kernelSpreads_mapKernelRegion`: so does mapping a region.
-/
import KernelCore.Proofs.Paging.Spaces

namespace KernelCore

/-! ## 1. Levels -/

/-- The frames that are tables of a level. -/
abbrev Levels := Nat → Nat → Prop

/-- One table more. -/
def Levels.insert (K : Levels) (level frame : Nat) : Levels :=
  fun l t => (l = level ∧ t = frame) ∨ K l t

/-- The entry is not in use, is a large mapping, or leads to one of the tables. -/
def Entry.Descends (e : Entry) (tables : Nat → Prop) : Prop :=
  e = .unused ∨ e.isHuge = true ∨ ∃ t, e.LeadsTo (some t) ∧ tables t

theorem Entry.Descends.mono {e : Entry} {tables tables' : Nat → Prop} (h : e.Descends tables)
    (hsub : ∀ t, tables t → tables' t) : e.Descends tables' :=
  h.imp_right (Or.imp_right fun ⟨t, hlead, ht⟩ => ⟨t, hlead, hsub t ht⟩)

/-- An entry that allows more is as large as it was. -/
theorem Entry.isHuge_union {e : Entry} {flags : Flags} (hflags : flags.contains .huge = false) :
    ({ e with flags := e.flags.union flags } : Entry).isHuge = e.isHuge := by
  unfold isHuge
  rw [Flags.contains_huge_union, hflags, Bool.or_false]

/-- An entry in use that allows more leads where it led. -/
theorem Entry.Descends.relax {e : Entry} {tables : Nat → Prop} {flags : Flags} (h : e.Descends tables)
    (hused : e ≠ .unused) (hflags : flags.contains .huge = false) :
    ({ e with flags := e.flags.union flags } : Entry).Descends tables := by
  rcases h with hunused | hhuge | ⟨t, hlead, ht⟩
  · exact absurd hunused hused
  · exact Or.inr (Or.inl ((isHuge_union hflags).trans hhuge))
  · exact Or.inr (Or.inr ⟨t, hlead.relax hflags, ht⟩)

/-- **The tables under a root lie in levels.**  The lower half of the root is not in use. -/
structure Layers (m : Memory) (root : Nat) (K : Levels) : Prop where
  single : ∀ {t}, K 3 t ↔ t = root
  apart : ∀ {l l' t}, K l t → K l' t → l = l'
  next : ∀ {l t i}, K (l + 1) t → i < tableEntries → (m.entry t i).Descends (K l)
  top : ∀ {i}, i < tableEntries → (m.entry root i).isHuge = false
  blank : ∀ {i}, i < Page.upperHalfIndex → m.entry root i = .unused

theorem lt_tableEntries {i : Nat} (hi : i < Page.upperHalfIndex) : i < tableEntries :=
  Nat.lt_trans hi (by decide)

/-- It makes no difference whether a frame is cleared before an entry of another is written, or after. -/
theorem Memory.entry_clearPage_setEntry {m : Memory} {table frame index : Nat} (e : Entry)
    (hne : table ≠ frame) (hindex : index < tableEntries) (t : Nat) {i : Nat} (hi : i < tableEntries) :
    ((m.setEntry table index e).clearPage frame).entry t i =
      ((m.clearPage frame).setEntry table index e).entry t i := by
  by_cases hframe : t = frame
  · subst hframe
    rw [entry_clearPage_self hi, (sameFrame_setEntry e hindex (Ne.symm hne)).entry_eq hi,
      entry_clearPage_self hi]
  · rw [(sameFrame_clearPage hframe).entry_eq hi]
    by_cases hslot : t = table ∧ i = index
    · obtain ⟨rfl, rfl⟩ := hslot
      rw [entry_setEntry_self, entry_setEntry_self]
    · have hne : table ≠ t ∨ index ≠ i := by omega
      rw [entry_setEntry_of_ne _ _ _ _ _ _ hindex hi hne, entry_setEntry_of_ne _ _ _ _ _ _ hindex hi hne,
        (sameFrame_clearPage hframe).entry_eq hi]

namespace Layers

variable {m m' : Memory} {root table index frame l : Nat} {K : Levels} {e : Entry}

/-- An entry of the root is not in use, or leads to a table. -/
theorem rootEntry_cases (h : Layers m root K) {i : Nat} (hi : i < tableEntries) :
    m.entry root i = .unused ∨ ∃ t, (m.entry root i).LeadsTo (some t) := by
  rcases h.next (h.single.mpr rfl) hi with hunused | hhuge | ⟨t, hlead, -⟩
  · exact Or.inl hunused
  · exact absurd hhuge (Bool.eq_false_iff.mp (h.top hi))
  · exact Or.inr ⟨t, hlead⟩

/-- Only the entries above the leaves matter. -/
theorem congr (h : Layers m root K)
    (hm : ∀ l t i, K (l + 1) t → i < tableEntries → m'.entry t i = m.entry t i) : Layers m' root K := by
  have hroot := fun i => hm 2 root i (h.single.mpr rfl)
  refine ⟨h.single, h.apart, fun ht hi => ?_, fun hi => ?_, fun hi => ?_⟩
  · rw [hm _ _ _ ht hi]
    exact h.next ht hi
  · rw [hroot _ hi]
    exact h.top hi
  · rw [hroot _ (lt_tableEntries hi)]
    exact h.blank hi

/-- **An entry above the leaves** that leads to a table of the level below, if it leads anywhere. -/
theorem setEntry (h : Layers m root K) (htable : K (l + 1) table) (hindex : index < tableEntries)
    (he : e.Descends (K l)) (htop : table = root → e.isHuge = false ∧ Page.upperHalfIndex ≤ index) :
    Layers (m.setEntry table index e) root K := by
  have hother : ∀ {t i}, i < tableEntries → ¬(t = table ∧ i = index) →
      (m.setEntry table index e).entry t i = m.entry t i := fun hi hne =>
    Memory.entry_setEntry_of_ne _ _ _ _ _ _ hindex hi (by omega)
  refine ⟨h.single, h.apart, fun {l' t i} ht hi => ?_, fun {i} hi => ?_, fun {i} hi => ?_⟩
  · by_cases hslot : t = table ∧ i = index
    · obtain ⟨rfl, rfl⟩ := hslot
      cases h.apart ht htable
      rw [Memory.entry_setEntry_self]
      exact he
    · rw [hother hi hslot]
      exact h.next ht hi
  · by_cases hslot : root = table ∧ i = index
    · obtain ⟨rfl, rfl⟩ := hslot
      rw [Memory.entry_setEntry_self]
      exact (htop rfl).1
    · rw [hother hi hslot]
      exact h.top hi
  · rw [hother (lt_tableEntries hi)]
    · exact h.blank hi
    · rintro ⟨rfl, rfl⟩
      exact Nat.not_le_of_lt hi (htop rfl).2

/-- **A leaf entry**, whatever it says: its table is none of those above the leaves. -/
theorem setLeaf (h : Layers m root K) (htable : K 0 table) (hindex : index < tableEntries) (e : Entry) :
    Layers (m.setEntry table index e) root K := by
  refine h.congr fun l t i ht hi => (Memory.sameFrame_setEntry e hindex ?_).entry_eq hi
  rintro rfl
  cases h.apart ht htable

/-- A frame that is no table is made one, before anything leads there. -/
theorem clearPage (h : Layers m root K) (hl : l < 3) (hfresh : ∀ k, ¬K k frame) :
    Layers (m.clearPage frame) root (K.insert l frame) := by
  have hother : ∀ {k t i}, K k t → i < tableEntries → (m.clearPage frame).entry t i = m.entry t i := by
    intro k t i ht hi
    refine (Memory.sameFrame_clearPage ?_).entry_eq hi
    rintro rfl
    exact hfresh k ht
  refine ⟨⟨?_, fun ht => Or.inr (h.single.mpr ht)⟩, ?_, ?_, fun hi => ?_, fun hi => ?_⟩
  · rintro (⟨rfl, -⟩ | ht)
    · exact absurd hl (by decide)
    · exact h.single.mp ht
  · rintro k k' t (⟨rfl, rfl⟩ | ht) (⟨rfl, heq⟩ | ht')
    · rfl
    · exact absurd ht' (hfresh _)
    · exact absurd (heq ▸ ht) (hfresh _)
    · exact h.apart ht ht'
  · rintro k t i (⟨-, rfl⟩ | ht) hi
    · exact Or.inl (Memory.entry_clearPage_self hi)
    · rw [hother ht hi]
      exact (h.next ht hi).mono fun _ => Or.inr
  · rw [hother (h.single.mpr rfl) hi]
    exact h.top hi
  · rw [hother (h.single.mpr rfl) (lt_tableEntries hi)]
    exact h.blank hi

/-- **A new table**, cleared, and an entry that leads to it. -/
theorem link (h : Layers m root K) (htable : K (l + 1) table) (hl : l < 3) (hindex : index < tableEntries)
    (hfresh : ∀ k, ¬K k frame) (he : e.LeadsTo (some frame))
    (htop : table = root → Page.upperHalfIndex ≤ index) :
    Layers ((m.setEntry table index e).clearPage frame) root (K.insert l frame) := by
  have hne : table ≠ frame := by
    rintro rfl
    exact hfresh _ htable
  have hcleared := (h.clearPage hl hfresh).setEntry (Or.inr htable) hindex
    (Or.inr (Or.inr ⟨frame, he, Or.inl ⟨rfl, rfl⟩⟩)) fun heq => ⟨he.2.1, htop heq⟩
  exact hcleared.congr fun _ t _ _ hi => Memory.entry_clearPage_setEntry e hne hindex t hi

end Layers

/-! ## 2. Mapping a page -/

namespace Mapper

variable {base total frame level table : Nat} {others : List Nat} {reserved : Nat → Prop} {K : Levels}
  {s s' s'' : Ram × AddressSpace} {page : Page} {leaf flags : Flags}

/-- The tables under the root lie in levels, and each belongs to the space or is in a reserved frame. -/
structure Stands (reserved : Nat → Prop) (s : Ram × AddressSpace) (K : Levels) : Prop where
  kind : s.2.kind = .kernel
  layers : Layers s.1.memory s.2.root K
  own : ∀ {l t}, K l t → t ∈ s.2.tableFrames ∨ reserved t

/-- It is the same space, perhaps with more tables, and memory has changed only in them and in reserved
frames.  Where the root led to a table it leads there still. -/
structure Spreads (reserved : Nat → Prop) (s s' : Ram × AddressSpace) : Prop where
  root : s'.2.root = s.2.root
  tables : s.2.tableFrames ⊆ s'.2.tableFrames
  outside : ∀ f, f ∉ s'.2.tableFrames → ¬reserved f → s.1.memory.SameFrame s'.1.memory f
  leads : ∀ {h : Page} {t}, (s.1.memory.entry s.2.root (h.index 3)).LeadsTo (some t) →
    (s'.1.memory.entry s.2.root (h.index 3)).LeadsTo (some t)

theorem Spreads.refl (reserved : Nat → Prop) (s : Ram × AddressSpace) : Spreads reserved s s :=
  ⟨rfl, fun _ h => h, fun _ _ _ => Memory.SameFrame.refl _ _, fun h => h⟩

theorem Spreads.trans (h : Spreads reserved s s') (h' : Spreads reserved s' s'') :
    Spreads reserved s s'' := by
  have hleads := @h'.leads
  rw [h.root] at hleads
  exact ⟨h'.root.trans h.root, fun _ hf => h'.tables (h.tables hf),
    fun f hf hr => (h.outside f (fun hin => hf (h'.tables hin)) hr).trans (h'.outside f hf hr),
    fun hlead => hleads (h.leads hlead)⟩

/-- A frame that is drawn is no table. -/
theorem Stands.fresh {pool : FramePool} (h : Stands reserved s K) (hb : Books base others s)
    (hreserved : ∀ f, reserved f → Vm.Beside s.1.pool.total others f)
    (hok : s.1.pool.allocate = .ok (frame, pool)) : ∀ k, ¬K k frame := by
  intro k hk
  have hnew : frame ∉ s.2.ownedFrames ++ others :=
    (List.nodup_cons.mp (FramePool.Holds.of_allocate hb hok).nodup).1
  rcases h.own hk with hin | hr
  · exact hnew (List.mem_append_left _ (AddressSpace.mem_ownedFrames hin))
  · rcases hreserved frame hr with hin | hle
    · exact hnew (List.mem_append_right _ hin)
    · exact Nat.not_le_of_lt (FramePool.eq_of_allocate hok).2.1 hle

/-- The root is a table of the highest level only. -/
theorem Stands.level_eq (h : Stands reserved s K) (htable : K level table) (heq : table = s.2.root) :
    level = 3 :=
  h.layers.apart htable (h.layers.single.mpr heq)

/-- An entry that is written into a table, and perhaps a change of the record of pages. -/
theorem spreads_setEntry {ram : Ram} {space : AddressSpace} {index : Nat} {e : Entry}
    (pages : List (Page × Nat)) (h : Stands reserved (ram, space) K) (htable : K level table)
    (hindex : index < tableEntries) (he : table = space.root → ∀ t,
      (ram.memory.entry table index).LeadsTo (some t) → e.LeadsTo (some t)) :
    Spreads reserved (ram, space)
      ({ ram with memory := ram.memory.setEntry table index e }, { space with pages }) := by
  refine ⟨rfl, fun _ h => h, fun f hf hr => Memory.sameFrame_setEntry e hindex ?_, ?_⟩
  · rintro rfl
    exact (h.own htable).elim hf hr
  · intro p t hlead
    dsimp only at hlead ⊢
    by_cases hslot : table = space.root ∧ index = p.index 3
    · obtain ⟨heq, rfl⟩ := hslot
      subst heq
      rw [Memory.entry_setEntry_self]
      exact he rfl t hlead
    · rw [Memory.entry_setEntry_of_ne _ _ _ _ _ _ hindex (p.index_lt 3) (by omega)]
      exact hlead

/-- A table that is missing is drawn and linked. -/
theorem stands_draw (hb : Books base others s)
    (hreserved : ∀ f, reserved f → Vm.Beside s.1.pool.total others f) (h : Stands reserved s K)
    (hg : page.isUpper = true) (hl : level < 3) (htable : K (level + 1) table)
    (hunused : s.1.memory.entry table (page.index (level + 1)) = .unused)
    (hpresent : flags.contains .present = true) (hhuge : flags.contains .huge = false) :
    Outcome ((drawTable >>= linkTable table (page.index (level + 1)) flags) s)
      (fun next s' => Spreads reserved s s' ∧ ∃ K', Stands reserved s' K' ∧ K' level next)
      fun _ s' => Spreads reserved s s' ∧ ∃ K', Stands reserved s' K' := by
  obtain ⟨ram, space⟩ := s
  cases hok : ram.pool.allocate with
  | error e => exact Outcome.of_refused (draw_of_error hok) ⟨.refl _ _, K, h⟩
  | ok r =>
    obtain ⟨frame, pool⟩ := r
    have hfresh := h.fresh hb hreserved hok
    have hlt : frame < 2 ^ 40 := Nat.lt_trans
      ((FramePool.Holds.of_allocate hb hok).lt_maxFrames List.mem_cons_self) (by decide)
    have hroot : space.root ≠ frame := fun he => hfresh 3 (h.layers.single.mpr he.symm)
    have hlead : (Entry.ofFrame frame flags).LeadsTo (some frame) :=
      Entry.leadsTo_ofFrame hlt hpresent hhuge
    have hwrite := spreads_setEntry (e := .ofFrame frame flags) space.pages h htable (page.index_lt _)
      fun _ _ hlead' => absurd hunused (Entry.ne_unused hlead'.1)
    refine Outcome.of_ok (draw_of_ok hok) ⟨⟨rfl, ?_, ?_, ?_⟩, K.insert level frame, ⟨h.kind, ?_, ?_⟩,
      Or.inl ⟨rfl, rfl⟩⟩
    · exact fun _ hf => List.mem_append_left _ hf
    · intro f hf hr
      rw [AddressSpace.tableFrames_addTable, List.mem_append, not_or] at hf
      exact (hwrite.outside f hf.1 hr).trans
        (Memory.sameFrame_clearPage fun he => hf.2 (he ▸ List.mem_cons_self))
    · intro p t hlead'
      rw [(Memory.sameFrame_clearPage hroot).entry_eq (p.index_lt _)]
      exact hwrite.leads hlead'
    · refine h.layers.link htable hl (page.index_lt _) hfresh hlead fun heq => ?_
      obtain rfl : level = 2 := Nat.succ.inj (h.level_eq htable heq)
      exact of_decide_eq_true hg
    · rintro k t (⟨-, rfl⟩ | ht)
      · exact Or.inl (space.tableFrames_addTable t ▸ List.mem_append_right _ List.mem_cons_self)
      · exact (h.own ht).imp_left (List.mem_append_left _)

/-- An entry in use is made to allow more. -/
theorem stands_relax {ram : Ram} {space : AddressSpace} {e : Entry} (h : Stands reserved (ram, space) K)
    (hg : page.isUpper = true) (htable : K (level + 1) table)
    (he : ram.memory.entry table (page.index (level + 1)) = e) (hused : e ≠ .unused)
    (hhuge : flags.contains .huge = false) {memory : Memory} (hmemory : memory = ram.memory.setEntry table
      (page.index (level + 1)) { e with flags := e.flags.union flags }) :
    Spreads reserved (ram, space) ({ ram with memory }, space) ∧
      Stands reserved ({ ram with memory }, space) K := by
  subst he hmemory
  refine ⟨spreads_setEntry space.pages h htable (page.index_lt _) fun _ _ hlead => hlead.relax hhuge,
    h.kind, h.layers.setEntry htable (page.index_lt _)
      ((h.layers.next htable (page.index_lt _)).relax hused hhuge) fun heq => ?_, h.own⟩
  obtain rfl : level = 2 := Nat.succ.inj (h.level_eq htable heq)
  subst heq
  exact ⟨(Entry.isHuge_union hhuge).trans (h.layers.top (page.index_lt _)), of_decide_eq_true hg⟩

/-- **One step down** leads to a table of the level below, which may be new. -/
theorem stands_descend (hb : Books base others s)
    (hreserved : ∀ f, reserved f → Vm.Beside s.1.pool.total others f) (h : Stands reserved s K)
    (hg : page.isUpper = true) (hl : level < 3) (htable : K (level + 1) table)
    (hleaf : leaf.contains .present = true) :
    Outcome (descend page leaf table (page.index (level + 1)) s)
      (fun next s' => Spreads reserved s s' ∧ ∃ K', Stands reserved s' K' ∧ K' level next)
      fun _ s' => Spreads reserved s s' ∧ ∃ K', Stands reserved s' K' := by
  obtain ⟨hpresent, hhuge⟩ := Flags.contains_ofTables leaf
  rw [hleaf] at hpresent
  have hdraw := fun hunused => stands_draw hb hreserved h hg hl htable hunused hpresent hhuge
  have hnext := h.layers.next htable (page.index_lt (level + 1))
  obtain ⟨ram, space⟩ := s
  unfold descend
  dsimp only at hdraw hnext ⊢
  obtain ⟨e, he⟩ : ∃ e, ram.memory.entry table (page.index (level + 1)) = e := ⟨_, rfl⟩
  rw [he] at hdraw hnext ⊢
  split
  · next hunused => exact hdraw hunused
  · next hused =>
    obtain ⟨memory, hmemory⟩ : ∃ memory, memory = if e.flags.contains (.ofTables leaf) then ram.memory
      else ram.memory.setEntry table (page.index (level + 1))
        { e with flags := e.flags.union (.ofTables leaf) } := ⟨_, rfl⟩
    have hkept : Spreads reserved (ram, space) ({ ram with memory }, space) ∧
        Stands reserved ({ ram with memory }, space) K := by
      split at hmemory
      · rw [hmemory]
        exact ⟨.refl _ _, h⟩
      · exact stands_relax h hg htable he hused hhuge hmemory
    rw [← hmemory]
    split
    · exact ⟨hkept.1, K, hkept.2⟩
    · next hsmall =>
      refine ⟨hkept.1, K, hkept.2, ?_⟩
      rcases hnext with hunused | hlarge | ⟨t, ⟨-, -, rfl⟩, ht⟩
      · exact absurd hunused hused
      · exact absurd hlarge hsmall
      · exact ht

/-- **The way down** leads to a table of the lowest level. -/
theorem stands_reach (hg : page.isUpper = true) (hleaf : leaf.contains .present = true) :
    ∀ {level table : Nat} {s : Ram × AddressSpace} {K : Levels}, Books base others s →
      (∀ f, reserved f → Vm.Beside s.1.pool.total others f) → Stands reserved s K → level ≤ 3 →
        K level table → Outcome (reach page leaf level table s)
          (fun last s' => Spreads reserved s s' ∧ ∃ K', Stands reserved s' K' ∧ K' 0 last)
          fun _ s' => Spreads reserved s s' ∧ ∃ K', Stands reserved s' K' := by
  intro level
  induction level with
  | zero => exact fun _ _ h _ htable => ⟨.refl _ _, _, h, htable⟩
  | succ level ih =>
    intro table s K hb hreserved h hl htable
    refine Outcome.bind (((books_descend page leaf table (page.index (level + 1)) hb).and
      ((trades_descend page leaf table (page.index (level + 1)) .refl).and
        (stands_descend hb hreserved h hg hl htable hleaf))).mono (fun _ _ h => h) ?_) ?_
    · exact fun _ _ h => h.2.2
    · rintro next s₁ ⟨⟨hb₁, -⟩, htrades, hspreads, K₁, h₁, hnext⟩
      refine (ih hb₁ (htrades.total ▸ hreserved) h₁ (by omega) hnext).mono ?_ ?_
      · exact fun _ _ h => ⟨hspreads.trans h.1, h.2⟩
      · exact fun _ _ h => ⟨hspreads.trans h.1, h.2⟩

/-- **Mapping a page** of the kernel's space leaves the tables in levels, and changes nothing else. -/
theorem stands_map (page : Page) (frame : Nat) (flags : Flags) (hb : Books base others s)
    (hreserved : ∀ f, reserved f → Vm.Beside s.1.pool.total others f) (h : Stands reserved s K) :
    Outcome (map page frame flags s) (fun _ s' => Spreads reserved s s' ∧ ∃ K', Stands reserved s' K')
      fun _ s' => Spreads reserved s s' ∧ ∃ K', Stands reserved s' K' := by
  obtain ⟨ram, space⟩ := s
  have hsame : Spreads reserved (ram, space) (ram, space) ∧ ∃ K', Stands reserved (ram, space) K' :=
    ⟨.refl _ _, K, h⟩
  unfold map
  dsimp only
  cases hg : space.accepts page with
  | false => exact hsame
  | true =>
    unfold AddressSpace.accepts at hg
    rw [h.kind] at hg
    simp only [Bool.not_true, Bool.false_eq_true, if_false]
    split
    · exact hsame
    · split
      · exact True.intro
      · refine Outcome.bind (stands_reach hg (Flags.contains_present_inForce flags) hb hreserved h
          (Nat.le_refl 3) (h.layers.single.mpr rfl)) ?_
        rintro table ⟨ram₁, space₁⟩ ⟨hspreads, K₁, h₁, htable⟩
        refine Outcome.bind (P := fun _ s₂ => Spreads reserved (ram, space) s₂ ∧ ∃ K', Stands reserved s₂ K')
          ?_ fun _ s₂ ⟨h₂, K₂, hstands⟩ => ⟨⟨h₂.root, h₂.tables, h₂.outside, h₂.leads⟩, K₂, hstands.kind,
            hstands.layers, hstands.own⟩
        unfold writeLeaf
        dsimp only
        split
        · exact ⟨hspreads, K₁, h₁⟩
        · split
          · exact True.intro
          · refine ⟨hspreads.trans (spreads_setEntry space₁.pages h₁ htable (page.index_lt _) fun heq => ?_),
              K₁, h₁.kind, h₁.layers.setLeaf htable (page.index_lt _) _, h₁.own⟩
            cases h₁.level_eq htable heq

end Mapper

/-! ## 3. Mapping a region -/

namespace Vm

variable {base frame : Nat} {others : List Nat} {reserved : Nat → Prop} {vm vm' : Vm}

/-- The kernel's space may have got tables and pages; memory has changed only in its tables, and in reserved
frames. -/
structure KernelSpreads (base : Nat) (others : List Nat) (reserved : Nat → Prop) (vm vm' : Vm) : Prop where
  books : KernelBooks base others vm vm'
  total : vm'.ram.pool.total = vm.ram.pool.total
  stands : ∃ K, Mapper.Stands reserved (vm'.ram, vm'.kernel) K
  spreads : Mapper.Spreads reserved (vm.ram, vm.kernel) (vm'.ram, vm'.kernel)

theorem kernelSpreads_map (page : Page) (hreserved : ∀ f, reserved f → Beside vm.ram.pool.total others f)
    (h : KernelSpreads base (frame :: others) reserved vm vm') :
    Outcome (onKernelSpace (Mapper.map page frame .kernelData) vm')
      (fun _ vm'' => KernelSpreads base others reserved vm vm'')
      fun _ vm'' => KernelSpreads base (frame :: others) reserved vm vm'' := by
  obtain ⟨hbooks, htotal, ⟨K, hstands⟩, hspreads⟩ := h
  have hreserved' : ∀ f, reserved f → Beside vm'.ram.pool.total (frame :: others) f := fun f hf =>
    htotal ▸ (hreserved f hf).imp_left (List.mem_cons_of_mem _)
  have hmap := (Mapper.trades_map (s := (vm'.ram, vm'.kernel)) page frame .kernelData .refl).and
    (Mapper.stands_map page frame .kernelData hbooks.holds hreserved' hstands)
  refine ((kernelBooks_map page hbooks).and (Outcome.onKernelSpace
    (P := fun _ vm'' => vm'.ram.pool.Trades vm''.ram.pool ∧
      Mapper.Spreads reserved (vm'.ram, vm'.kernel) (vm''.ram, vm''.kernel) ∧
        ∃ K', Mapper.Stands reserved (vm''.ram, vm''.kernel) K')
    (Q := fun _ vm'' => vm'.ram.pool.Trades vm''.ram.pool ∧
      Mapper.Spreads reserved (vm'.ram, vm'.kernel) (vm''.ram, vm''.kernel) ∧
        ∃ K', Mapper.Stands reserved (vm''.ram, vm''.kernel) K') hmap)).mono ?_ ?_
  · exact fun _ _ ⟨hb, ht, hs, hK⟩ => ⟨hb, ht.total.trans htotal, hK, hspreads.trans hs⟩
  · exact fun _ _ ⟨hb, ht, hs, hK⟩ => ⟨hb, ht.total.trans htotal, hK, hspreads.trans hs⟩

/-- **Mapping a region of the kernel's space** leaves its tables in levels, as far as it goes, and changes
nothing else. -/
theorem kernelSpreads_mapKernelRegion (start : VirtAddr) (length : Nat)
    (hreserved : ∀ f, reserved f → Beside vm.ram.pool.total others f)
    (h : vm.ram.pool.Holds base (vm.kernel.ownedFrames ++ others))
    (hstands : ∃ K, Mapper.Stands reserved (vm.ram, vm.kernel) K) :
    Outcome (mapKernelRegion start length vm) (fun _ vm' => KernelSpreads base others reserved vm vm')
      fun _ vm' => KernelSpreads base others reserved vm vm' := by
  refine outcome_mapKernelRegion (fun page _ => outcome_mapFresh
    (R := fun others => KernelSpreads base others reserved vm) (fun h₁ => h₁.books.holds)
    (fun h₁ htotal hp => ?_) page (kernelSpreads_map page hreserved)) start length
      ⟨⟨h, rfl, rfl⟩, rfl, hstands, .refl _ _⟩
  obtain ⟨K, hK⟩ := h₁.stands
  have hspreads := h₁.spreads
  exact ⟨⟨hp, h₁.books.root, h₁.books.active⟩, htotal.trans h₁.total, ⟨K, hK.kind, hK.layers, hK.own⟩,
    hspreads.root, hspreads.tables, hspreads.outside, hspreads.leads⟩

end Vm

end KernelCore
