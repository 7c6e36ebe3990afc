/-
# Mapping keeps the tables right

Each operation of the mapper on a space whose tables are its record (`Tree`) leaves such a space,
also when it is refused on the way.  It changes memory only in the tables of the space, those
included that it has just drawn (`Mapper.Within`); that these are nobody else's is what the list of
owned frames says (`Mapper.Books`).

* `tree_descend`: one step down; `tree_reach`: the whole way;
* `tree_map`: a page more in the record, or a refusal for one of three reasons; `draws_map`: the tables that
  are drawn for it are those that were missing;
* `unmap_cases`: a page less in the record, or it was not there;
* `neverHalts_map`: mapping does not halt;
* `exists_map`, `map_eq_error`: the first page of a space takes three tables, and is refused without them.
-/
import KernelCore.Proofs.Paging.Accounting
import KernelCore.Proofs.Paging.Demand

namespace KernelCore

/-! ## 1. Records -/

namespace AddressSpace

variable {s : AddressSpace} {page : Page} {frame : Nat}

/-- A frame that is not one of the space's holds none of its tables. -/
theorem mem_ownedFrames (h : frame ∈ s.tableFrames) : frame ∈ s.ownedFrames := by
  rcases List.mem_cons.mp h with rfl | h
  · exact List.mem_cons_self
  · exact List.mem_cons_of_mem _ (List.mem_append_left _ h)

/-- The frames that are mapped are the space's. -/
theorem data_subset_ownedFrames (s : AddressSpace) : s.pages.map Prod.snd ⊆ s.ownedFrames :=
  fun _ h => List.mem_cons_of_mem _ (List.mem_append_right _ h)

/-- A frame that is mapped is one of the space's. -/
theorem mem_frames_of_frameAt? (h : s.frameAt? page = some frame) :
    frame ∈ s.pages.map Prod.snd := by
  unfold frameAt? at h
  obtain ⟨l₁, l₂, heq, -⟩ := List.lookup_eq_some_iff.mp h
  rw [heq]
  simp

theorem mem_owned_of_frameAt? (h : s.frameAt? page = some frame) : frame ∈ s.ownedFrames :=
  s.data_subset_ownedFrames (mem_frames_of_frameAt? h)

/-- In a space whose frames are distinct, a frame that is mapped holds no table. -/
theorem not_mem_tableFrames_of_frameAt? (hd : s.ownedFrames.Nodup) (h : s.frameAt? page = some frame) :
    frame ∉ s.tableFrames := by
  have hd : (s.tableFrames ++ s.pages.map Prod.snd).Nodup := hd
  exact fun ht => (List.nodup_append.mp hd).2.2 frame ht frame (mem_frames_of_frameAt? h) rfl

theorem distinct_addPage (hd : (s.pages.map Prod.fst).Nodup) (h : s.frameAt? page = none) :
    ((s.addPage page frame).pages.map Prod.fst).Nodup := by
  have hperm := (insertPage_perm frame h).map Prod.fst
  refine hperm.nodup_iff.mpr (List.nodup_cons.mpr ⟨?_, hd⟩)
  intro hin
  obtain ⟨e, he, rfl⟩ := List.mem_map.mp hin
  have hne := List.lookup_eq_none_iff.mp h e he
  simp at hne

theorem distinct_removePage (hd : (s.pages.map Prod.fst).Nodup) :
    ((s.removePage page).pages.map Prod.fst).Nodup :=
  hd.sublist (List.filter_sublist.map _)

/-- The frame of a page that is removed goes, and all others stay. -/
theorem ownedFrames_removePage (hd : (s.pages.map Prod.fst).Nodup)
    (h : s.frameAt? page = some frame) :
    s.ownedFrames.Perm (frame :: (s.removePage page).ownedFrames) := by
  have hpages : ∀ {l : List (Page × Nat)}, (l.map Prod.fst).Nodup → l.lookup page = some frame →
      l.Perm ((page, frame) :: l.filter fun e => e.1 ≠ page) := by
    intro l
    induction l with
    | nil => exact fun _ h => by cases h
    | cons e rest ih =>
      obtain ⟨p, f⟩ := e
      intro hd h
      rw [List.map_cons, List.nodup_cons] at hd
      rw [lookup_cons_eq] at h
      split at h
      · next heq =>
        cases h
        subst heq
        rw [List.filter_cons_of_neg (by simp), List.filter_eq_self.mpr]
        intro e he
        have hne : e.1 ≠ page := fun heq => hd.1 (List.mem_map.mpr ⟨e, he, heq⟩)
        simpa using hne
      · next hne =>
        rw [List.filter_cons_of_pos (by simpa using Ne.symm hne)]
        exact ((ih hd.2 h).cons _).trans (List.Perm.swap _ _ _)
  have hframes := (hpages hd h).map Prod.snd
  rw [List.map_cons] at hframes
  refine ((hframes.append_left s.tables).cons s.root).trans ?_
  exact (List.perm_middle.cons _).trans (List.Perm.swap _ _ _)

end AddressSpace

namespace Mapper

variable {base : Nat} {others : List Nat} {s s' s'' : Ram × AddressSpace} {asked : Page → Flags}
  {τ : Tables} {page : Page} {leaf flags : Flags} {table frame level : Nat}

/-! ## 2. What a space may change -/

/-- It is still the same space, perhaps with more tables, and memory has changed only in them.  What the
root says of the other half is the same, and where it led to a table it leads there still. -/
structure Within (s s' : Ram × AddressSpace) : Prop where
  kind : s'.2.kind = s.2.kind
  root : s'.2.root = s.2.root
  tables : s.2.tableFrames ⊆ s'.2.tableFrames
  outside : ∀ frame, frame ∉ s'.2.tableFrames → s.1.memory.SameFrame s'.1.memory frame
  otherHalf : ∀ {h : Page}, s.2.accepts h = false →
    s'.1.memory.entry s.2.root (h.index 3) = s.1.memory.entry s.2.root (h.index 3)
  leads : ∀ {h : Page} {t}, (s.1.memory.entry s.2.root (h.index 3)).LeadsTo (some t) →
    (s'.1.memory.entry s.2.root (h.index 3)).LeadsTo (some t)

theorem Within.refl (s : Ram × AddressSpace) : Within s s :=
  ⟨rfl, rfl, fun _ h => h, fun _ _ => Memory.SameFrame.refl _ _, fun _ => rfl, fun h => h⟩

/-- It depends on what memory holds, and not on the pool. -/
theorem Within.congr {s₀ : Ram × AddressSpace} (h : Within s s') (hmemory : s.1.memory = s₀.1.memory)
    (hspace : s.2 = s₀.2) : Within s₀ s' := by
  obtain ⟨⟨_, _⟩, _⟩ := s
  obtain ⟨⟨_, _⟩, _⟩ := s₀
  cases hmemory
  cases hspace
  exact ⟨h.kind, h.root, h.tables, h.outside, h.otherHalf, h.leads⟩

theorem Within.accepts (h : Within s s') : s'.2.accepts page = s.2.accepts page := by
  unfold AddressSpace.accepts
  rw [h.kind]

theorem Within.trans (h : Within s s') (h' : Within s' s'') : Within s s'' := by
  have hother := @h'.otherHalf
  have hleads := @h'.leads
  rw [h.root] at hother hleads
  exact ⟨h'.kind.trans h.kind, h'.root.trans h.root, fun _ hf => h'.tables (h.tables hf),
    fun _ hf => (h.outside _ fun hin => hf (h'.tables hin)).trans (h'.outside _ hf),
    fun hh => (hother (h.accepts.trans hh)).trans (h.otherHalf hh), fun hh => hleads (h.leads hh)⟩

/-- What a space may change is in no frame that is owned beside it. -/
theorem Within.sameFrame {t : Nat} (h : Within s s')
    (hbooks : s'.1.pool.Holds base (s'.2.ownedFrames ++ others)) (ht : t ∈ others) :
    s.1.memory.SameFrame s'.1.memory t :=
  h.outside t fun hin =>
    (List.nodup_append.mp hbooks.nodup).2.2 t (AddressSpace.mem_ownedFrames hin) t ht rfl

/-- The space may have got tables, which are right, and its record of pages is the same. -/
structure Grows (asked : Page → Flags) (s s' : Ram × AddressSpace) (τ' : Tables) : Prop where
  within : Within s s'
  pages : s'.2.pages = s.2.pages
  tree : Tree s'.1.memory s'.2 asked τ'

theorem Grows.refl (ht : Tree s.1.memory s.2 asked τ) : Grows asked s s τ :=
  ⟨Within.refl s, rfl, ht⟩

theorem Grows.trans {τ' τ'' : Tables} (h : Grows asked s s' τ') (h' : Grows asked s' s'' τ'') :
    Grows asked s s'' τ'' :=
  ⟨h.within.trans h'.within, h'.pages.trans h.pages, h'.tree⟩

/-- What writing an entry on the way to a page leaves of what the root says. -/
theorem leads_setEntry {m : Memory} {space : AddressSpace} {h : Page} {e : Entry} {t : Nat}
    (ht : Tree m space asked τ) (hg : space.accepts page = true)
    (htable : τ level (page.stem level) = some table)
    (he : level = 3 → (m.entry table (page.index level)).LeadsTo (some t) → e.LeadsTo (some t))
    (hlead : (m.entry space.root (h.index 3)).LeadsTo (some t)) :
    ((m.setEntry table (page.index level) e).entry space.root (h.index 3)).LeadsTo (some t) := by
  cases hh : space.accepts h with
  | false =>
    rw [ht.entry_setEntry_root hg htable hh]
    exact hlead
  | true =>
    rw [ht.entry_setEntry htable (ht.root hh)]
    split
    · next heq =>
      obtain ⟨rfl, -, hindex⟩ := heq
      rw [ht.root hg] at htable
      cases htable
      exact he rfl (hindex ▸ hlead)
    · exact hlead

/-- A change of one entry on the way to a page, and perhaps of the record of pages. -/
theorem within_setEntry {ram : Ram} {space : AddressSpace} {e : Entry} (pages : List (Page × Nat))
    (ht : Tree ram.memory space asked τ) (hg : space.accepts page = true)
    (htable : τ level (page.stem level) = some table)
    (he : ∀ t, level = 3 → (ram.memory.entry table (page.index level)).LeadsTo (some t) →
      e.LeadsTo (some t)) :
    Within (ram, space)
      ({ ram with memory := ram.memory.setEntry table (page.index level) e }, { space with pages }) := by
  refine ⟨rfl, rfl, fun _ h => h, fun f hf => Memory.sameFrame_setEntry e (page.index_lt _) ?_,
    fun hh => ht.entry_setEntry_root hg htable hh e, fun hlead => leads_setEntry ht hg htable (he _) hlead⟩
  rintro rfl
  exact hf (ht.owned htable)

/-! ## 3. The way down -/

/-- A table that is missing is a fresh frame, cleared. -/
theorem draw_of_ok {ram : Ram} {space : AddressSpace} {pool : FramePool} {index : Nat}
    (hok : ram.pool.allocate = .ok (frame, pool)) :
    (drawTable >>= linkTable table index flags) (ram, space) = .ok frame
      ({ memory := (ram.memory.setEntry table index (.ofFrame frame flags)).clearPage frame, pool },
        space.addTable frame) := by
  have hdraw : drawTable (ram, space) = .ok frame ({ ram with pool }, space.addTable frame) := by
    unfold drawTable
    simp only [hok]
  rw [bind_of_ok hdraw]
  rfl

theorem draw_of_error {ram : Ram} {space : AddressSpace} {e : FrameError} {index : Nat}
    (he : ram.pool.allocate = .error e) :
    (drawTable >>= linkTable table index flags) (ram, space) =
      .error (.refused .outOfMemory) (ram, space) := by
  have hdraw : drawTable (ram, space) = .error (.refused .outOfMemory) (ram, space) := by
    unfold drawTable
    simp only [he]
    rfl
  exact bind_of_error hdraw

/-- A table that is missing is drawn and linked. -/
theorem tree_draw (hb : Books base others s) (ht : Tree s.1.memory s.2 asked τ)
    (hg : s.2.accepts page = true) (hl : level < 3)
    (htable : τ (level + 1) (page.stem (level + 1)) = some table)
    (hnone : τ level (page.stem level) = none) (hpresent : flags.contains .present = true)
    (hhuge : flags.contains .huge = false) :
    Outcome ((drawTable >>= linkTable table (page.index (level + 1)) flags) s)
      (fun next s' => ∃ τ', Grows asked s s' τ' ∧ τ' level (page.stem level) = some next ∧
        Draws {(level, page.stem level)} τ τ' s s')
      fun e s' => e = .outOfMemory ∧ s'.1.pool.Exhausted ∧ FallsShort {(level, page.stem level)} s s' ∧
        ∃ τ', Grows asked s s' τ' := by
  obtain ⟨ram, space⟩ := s
  cases hok : ram.pool.allocate with
  | error e =>
    exact Outcome.of_refused (draw_of_error hok)
      ⟨rfl, ⟨e, hok⟩, Nat.lt_succ_self space.tables.length, τ, Grows.refl ht⟩
  | ok r =>
    obtain ⟨frame, pool⟩ := r
    have hp := FramePool.Holds.of_allocate hb hok
    have hfresh : frame ∉ space.tableFrames := fun hin => (List.nodup_cons.mp hp.nodup).1
      (List.mem_append_left _ (AddressSpace.mem_ownedFrames hin))
    have hlt : frame < 2 ^ 40 := Nat.lt_trans (hp.lt_maxFrames List.mem_cons_self) (by decide)
    have hroot : space.root ≠ frame := fun he => hfresh (he ▸ List.mem_cons_self)
    have hunused := (ht.inner hg hl htable).eq_unused hnone
    refine Outcome.of_ok (draw_of_ok hok) ⟨τ.insert level (page.stem level) frame,
      ⟨⟨rfl, rfl, ?_, ?_, ?_, ?_⟩, rfl, ?_⟩, Tables.insert_self _ _ _ _, fun l a => ?_, ?_⟩
    · exact fun _ hf => List.mem_append_left _ hf
    · intro f hf
      rw [AddressSpace.tableFrames_addTable, List.mem_append, not_or] at hf
      refine (Memory.sameFrame_setEntry _ (page.index_lt _) ?_).trans
        (Memory.sameFrame_clearPage fun he => hf.2 (he ▸ List.mem_cons_self))
      rintro rfl
      exact hf.1 (ht.owned htable)
    · intro h hh
      exact ((Memory.sameFrame_clearPage hroot).entry_eq (h.index_lt _)).trans
        (ht.entry_setEntry_root hg htable hh _)
    · intro h t hlead
      rw [(Memory.sameFrame_clearPage hroot).entry_eq (h.index_lt _)]
      refine leads_setEntry ht hg htable (fun _ hlead' => ?_) hlead
      exact absurd hunused (Entry.ne_unused hlead'.1)
    · exact ht.link hg hl htable hnone hfresh (Entry.leadsTo_ofFrame hlt hpresent hhuge)
    · rw [Tables.insert_eq_none_iff, Finset.mem_singleton, Prod.mk.injEq]
    · exact List.length_append

/-- **One step down** leads to the table below, which may be new. -/
theorem tree_descend (hb : Books base others s) (ht : Tree s.1.memory s.2 asked τ)
    (hg : s.2.accepts page = true) (hl : level < 3)
    (htable : τ (level + 1) (page.stem (level + 1)) = some table)
    (hleaf : leaf.contains .present = true) :
    Outcome (descend page leaf table (page.index (level + 1)) s)
      (fun next s' => ∃ τ', Grows asked s s' τ' ∧ τ' level (page.stem level) = some next ∧
        Draws (τ.missing page {level}) τ τ' s s')
      fun e s' => e = .outOfMemory ∧ s'.1.pool.Exhausted ∧ FallsShort (τ.missing page {level}) s s' ∧
        ∃ τ', Grows asked s s' τ' := by
  obtain ⟨hpresent, hhuge⟩ := Flags.contains_ofTables leaf
  rw [hleaf] at hpresent
  have hlead := ht.inner hg hl htable
  cases hnext : τ level (page.stem level) with
  | none =>
    have hdraw := tree_draw hb ht hg hl htable hnext hpresent hhuge
    rw [Tables.missing_of_none hnext]
    obtain ⟨ram, space⟩ := s
    unfold descend
    dsimp only at hlead ⊢
    rw [if_pos (hlead.eq_unused hnext)]
    exact hdraw
  | some next =>
    rw [Tables.missing_of_some hnext]
    obtain ⟨ram, space⟩ := s
    rw [hnext] at hlead
    unfold descend
    dsimp only at hlead ⊢
    rw [if_neg (Entry.ne_unused hlead.1)]
    simp only [hlead.2.1, Bool.false_eq_true, if_false, hlead.2.2]
    split
    · exact ⟨τ, Grows.refl ht, hnext, Draws.of_eq τ rfl⟩
    · refine ⟨τ, ⟨within_setEntry space.pages ht hg htable fun _ _ h => h.relax hhuge, rfl, ?_⟩, hnext,
        Draws.of_eq τ rfl⟩
      refine ht.relax hg htable ?_
      rw [hnext]
      exact hlead.relax hhuge

/-- **The way down** leads to the lowest table for a page. -/
theorem tree_reach (hleaf : leaf.contains .present = true) : ∀ {level table : Nat}
    {s : Ram × AddressSpace} {τ : Tables}, Books base others s → Tree s.1.memory s.2 asked τ →
    s.2.accepts page = true → level ≤ 3 → τ level (page.stem level) = some table →
      Outcome (reach page leaf level table s)
        (fun last s' => Books base others s' ∧ ∃ τ', Grows asked s s' τ' ∧
          τ' 0 (page.stem 0) = some last ∧ Draws (τ.missing page (Finset.range level)) τ τ' s s')
        fun e s' => e = .outOfMemory ∧ s'.1.pool.Exhausted ∧
          FallsShort (τ.missing page (Finset.range level)) s s' ∧ ∃ τ', Grows asked s s' τ' := by
  intro level
  induction level with
  | zero => exact fun hb ht _ _ htable => ⟨hb, _, Grows.refl ht, htable, Draws.of_eq _ rfl⟩
  | succ level ih =>
    intro table s τ hb ht hg hl htable
    rw [Finset.range_add_one, Finset.insert_eq, Tables.missing_union]
    refine Outcome.bind (((books_descend page leaf table (page.index (level + 1)) hb).and
      (tree_descend hb ht hg (by omega) htable hleaf)).mono (fun _ _ h => h) ?_) ?_
    · rintro e s' ⟨-, he, hdry, hshort, hgrows⟩
      exact ⟨he, hdry, hshort.mono Finset.subset_union_left, hgrows⟩
    · rintro next s₁ ⟨⟨hb₁, -⟩, τ₁, hgrows, hnext, hdraws⟩
      refine (ih hb₁ hgrows.tree (hgrows.within.accepts ▸ hg) (by omega) hnext).mono ?_ ?_
      · rintro last s₂ ⟨hb₂, τ₂, hgrows₂, hlast, hdraws₂⟩
        exact ⟨hb₂, τ₂, hgrows.trans hgrows₂, hlast, hdraws.trans hdraws₂⟩
      · rintro e s₂ ⟨he, hdry, hshort, τ₂, hgrows₂⟩
        exact ⟨he, hdry, hdraws.fallsShort hshort, τ₂, hgrows.trans hgrows₂⟩

/-! ## 4. Mapping and unmapping -/

/-- The attributes that pages were mapped with, when one more is. -/
def ask (asked : Page → Flags) (page : Page) (flags : Flags) : Page → Flags :=
  fun g => if g = page then flags else asked g

/-- A page more in the record. -/
structure Maps (asked : Page → Flags) (page : Page) (frame : Nat) (flags : Flags)
    (s s' : Ram × AddressSpace) : Prop where
  accepts : s.2.accepts page = true
  free : s.2.frameAt? page = none
  within : Within s s'
  pages : ∀ g, s'.2.frameAt? g = if g = page then some frame else s.2.frameAt? g
  tree : ∃ τ', Tree s'.1.memory s'.2 (ask asked page flags) τ'

/-- Why a page is not mapped.  `pool` is what is left then. -/
inductive Refuses (s : AddressSpace) (page : Page) (pool : FramePool) : PagingError → Prop where
  | outOfRange : s.accepts page = false → Refuses s page pool (.outOfRange page)
  | alreadyMapped : s.accepts page = true → (s.frameAt? page).isSome →
      Refuses s page pool (.alreadyMapped page)
  | outOfMemory : s.accepts page = true → s.frameAt? page = none → pool.Exhausted →
      Refuses s page pool .outOfMemory

/-- A leaf entry that is not in use is written, and the page is recorded. -/
theorem writeLeaf_of_unused {ram : Ram} (space : AddressSpace) (frame : Nat)
    (hunused : ram.memory.entry table (page.index 0) = .unused)
    (hflags : flags.contains .huge = false) :
    (do
        writeLeaf page frame flags.inForce table
        recordPage page frame : Mapper Unit) (ram, space) = .ok ()
      ({ ram with memory := ram.memory.setEntry table (page.index 0) (.ofFrame frame flags.inForce) },
        space.addPage page frame) := by
  have hsmall : flags.inForce.contains .huge = false :=
    (Flags.contains_huge_inForce flags).trans hflags
  let memory := ram.memory.setEntry table (page.index 0) (.ofFrame frame flags.inForce)
  have hwrite : writeLeaf page frame flags.inForce table (ram, space) =
      .ok () ({ ram with memory }, space) := by
    unfold writeLeaf
    simp only [hunused, ne_eq, not_true_eq_false, if_false, hsmall, Bool.false_eq_true]
    rfl
  exact bind_of_ok hwrite

/-- The leaf entry of a page that is not mapped is written. -/
theorem tree_writeLeaf (ht : Tree s.1.memory s.2 asked τ) (hg : s.2.accepts page = true)
    (hfree : s.2.frameAt? page = none) (htable : τ 0 (page.stem 0) = some table)
    (hframe : frame < 2 ^ 40) (hflags : flags.contains .huge = false) :
    ∃ ram', (do
        writeLeaf page frame flags.inForce table
        recordPage page frame : Mapper Unit) s = .ok () (ram', s.2.addPage page frame) ∧
      Within s (ram', s.2.addPage page frame) ∧
      Tree ram'.memory (s.2.addPage page frame) (ask asked page flags) τ := by
  obtain ⟨ram, space⟩ := s
  have hunused : ram.memory.entry table (page.index 0) = .unused := by
    have hleaf := ht.leaves hg htable
    rw [hfree] at hleaf
    exact hleaf
  refine ⟨_, writeLeaf_of_unused space frame hunused hflags, ?_, ?_⟩
  · exact within_setEntry _ ht hg htable fun _ hlevel => by cases hlevel
  · have hself : ask asked page flags page = flags := if_pos rfl
    have hsound : ∀ f, some frame = some f → f < 2 ^ 40 ∧
        (ask asked page flags page).contains .huge = false := by
      intro f hf
      cases hf
      rw [hself]
      exact ⟨hframe, hflags⟩
    have hleaf : Tree (ram.memory.setEntry table (page.index 0)
        (.ofLeaf (ask asked page flags page) (some frame))) (space.addPage page frame)
        (ask asked page flags) τ :=
      ht.setLeaf hg htable rfl rfl rfl (fun g => AddressSpace.frameAt?_addPage _ _ _ _)
        (AddressSpace.distinct_addPage ht.distinct hfree) (fun g hne => if_neg hne) hsound
    rw [hself] at hleaf
    exact hleaf

/-- A large page cannot be asked for: the mapper halts where it would write the entry. -/
theorem writeLeaf_of_huge {ram : Ram} (space : AddressSpace) (frame : Nat)
    (hunused : ram.memory.entry table (page.index 0) = .unused) (hflags : flags.contains .huge = true) :
    (do
        writeLeaf page frame flags.inForce table
        recordPage page frame : Mapper Unit) (ram, space) = .error (.halted .hugeLeaf) (ram, space) := by
  have hhuge : flags.inForce.contains .huge = true := (Flags.contains_huge_inForce flags).trans hflags
  refine bind_of_error ?_
  unfold writeLeaf
  simp only [hunused, ne_eq, not_true_eq_false, if_false, hhuge, if_true]
  rfl

/-- **Mapping a page** puts it into the record and the tables, for which the missing tables are drawn; or
it is refused for one of three reasons, of which only want of frames shows on the way. -/
theorem draws_map (hb : Books base others s) (ht : Tree s.1.memory s.2 asked τ)
    (hframe : frame < 2 ^ 40) : Outcome (map page frame flags s)
      (fun _ s' => Maps asked page frame flags s s' ∧
        ∃ τ', Tree s'.1.memory s'.2 (ask asked page flags) τ' ∧
          Draws (τ.missing page (Finset.range 3)) τ τ' s s')
      fun e s' => Refuses s.2 page s'.1.pool e ∧ (∃ τ', Grows asked s s' τ') ∧
        (e ≠ .outOfMemory → s' = s) ∧
          (e = .outOfMemory → FallsShort (τ.missing page (Finset.range 3)) s s') := by
  obtain ⟨ram, space⟩ := s
  unfold map
  dsimp only
  cases hg : space.accepts page with
  | false => exact ⟨.outOfRange hg, ⟨τ, Grows.refl ht⟩, fun _ => rfl, nofun⟩
  | true =>
    simp only [Bool.not_true, Bool.false_eq_true, if_false]
    split
    · next hsome => exact ⟨.alreadyMapped hg hsome, ⟨τ, Grows.refl ht⟩, fun _ => rfl, nofun⟩
    · next hnot =>
      have hfree : space.frameAt? page = none := Option.not_isSome_iff_eq_none.mp hnot
      rw [Frame.address_of_lt hframe]
      refine Outcome.bind ((tree_reach (Flags.contains_present_inForce flags) hb ht hg
        (Nat.le_refl 3) (ht.root hg)).mono (fun _ _ h => h) ?_) ?_
      · rintro e s₁ ⟨rfl, hdry, hshort, hgrows⟩
        exact ⟨.outOfMemory hg hfree hdry, hgrows, fun hne => absurd rfl hne, fun _ => hshort⟩
      · rintro last s₁ ⟨-, τ₁, hgrows, hlast, hdraws⟩
        have hg₁ : s₁.2.accepts page = true := hgrows.within.accepts ▸ hg
        have hfree₁ : s₁.2.frameAt? page = none :=
          (AddressSpace.frameAt?_congr hgrows.pages page).trans hfree
        cases hflags : flags.contains .huge with
        | true =>
          have hleaf := hgrows.tree.leaves hg₁ hlast
          rw [hfree₁] at hleaf
          exact .of_halted (writeLeaf_of_huge s₁.2 frame hleaf hflags)
        | false =>
          obtain ⟨ram₂, hok, hwithin, htree⟩ :=
            tree_writeLeaf hgrows.tree hg₁ hfree₁ hlast hframe hflags
          have hpages : ∀ g, (s₁.2.addPage page frame).frameAt? g =
              if g = page then some frame else space.frameAt? g := fun g => by
            rw [AddressSpace.frameAt?_addPage, AddressSpace.frameAt?_congr hgrows.pages]
          exact Outcome.of_ok hok ⟨⟨hg, hfree, hgrows.within.trans hwithin, hpages, τ₁, htree⟩, τ₁, htree,
            hdraws.tables, hdraws.count⟩

/-- **Mapping a page** puts it into the record and the tables, or is refused for one of three
reasons. -/
theorem tree_map (hb : Books base others s) (ht : Tree s.1.memory s.2 asked τ)
    (hframe : frame < 2 ^ 40) : Outcome (map page frame flags s)
      (fun _ s' => Maps asked page frame flags s s')
      fun e s' => Refuses s.2 page s'.1.pool e ∧ ∃ τ', Grows asked s s' τ' :=
  (draws_map hb ht hframe).mono (fun _ _ h => h.1) fun _ _ h => ⟨h.1, h.2.1⟩

/-- A page less in the record. -/
structure Unmaps (asked : Page → Flags) (page : Page) (frame : Nat) (s s' : Ram × AddressSpace) :
    Prop where
  mapped : s.2.frameAt? page = some frame
  within : Within s s'
  pages : ∀ g, s'.2.frameAt? g = if g = page then none else s.2.frameAt? g
  owned : s.2.ownedFrames.Perm (frame :: s'.2.ownedFrames)
  pool : s'.1.pool = s.1.pool
  tree : ∃ τ', Tree s'.1.memory s'.2 asked τ'

/-- **Unmapping a page** takes it out of the record and the tables and hands back the frame that was
recorded, or the page was not mapped. -/
theorem unmap_cases (ht : Tree s.1.memory s.2 asked τ) (page : Page) :
    (s.2.frameAt? page = none ∧ unmap page s = .error (.refused (.notMapped page)) s) ∨
      ∃ frame s', unmap page s = .ok frame s' ∧ Unmaps asked page frame s s' := by
  obtain ⟨ram, space⟩ := s
  unfold unmap
  dsimp only
  cases hf : space.frameAt? page with
  | none => exact Or.inl ⟨rfl, rfl⟩
  | some frame =>
    obtain ⟨hg, hsome, -, hhuge⟩ := ht.mapped hf
    obtain ⟨table, htable⟩ := Option.isSome_iff_exists.mp hsome
    have hleaf : ram.memory.entry table (page.index 0) = .ofLeaf (asked page) (some frame) := by
      rw [← hf]
      exact ht.leaves hg htable
    have hpresent : (Entry.ofLeaf (asked page) (some frame)).isPresent = true :=
      Flags.contains_present_inForce _
    have hsmall : (Entry.ofLeaf (asked page) (some frame)).isHuge = false :=
      (Flags.contains_huge_inForce _).trans hhuge
    simp only [ht.leafTable?_eq hg, htable, hleaf, hpresent, hsmall, Bool.not_false, Bool.and_self,
      if_true]
    refine Or.inr ⟨_, _, rfl, hf, ?_, fun g => AddressSpace.frameAt?_removePage _ _ _,
      AddressSpace.ownedFrames_removePage ht.distinct hf, rfl, τ, ?_⟩
    · exact within_setEntry _ ht hg htable fun _ hlevel => by cases hlevel
    · have hleaf : Tree (ram.memory.setEntry table (page.index 0) (.ofLeaf (asked page) none))
          (space.removePage page) asked τ :=
        ht.setLeaf hg htable rfl rfl rfl (fun g => AddressSpace.frameAt?_removePage _ _ _)
          (AddressSpace.distinct_removePage ht.distinct) (fun _ _ => rfl) fun f h => by cases h
      exact hleaf

/-! ## 5. Mapping does not halt -/

/-- The operation is done or refused, whatever it is done to. -/
def NeverHalts {α : Type} (op : Mapper α) : Prop := ∀ s s' halt, op s ≠ .error (.halted halt) s'

theorem NeverHalts.bind {α β : Type} {x : Mapper α} {f : α → Mapper β} (hx : NeverHalts x)
    (hf : ∀ a, NeverHalts (f a)) : NeverHalts (x >>= f) := by
  intro s s' halt hhalt
  cases hr : x s with
  | ok a s₁ =>
    rw [bind_of_ok hr] at hhalt
    exact hf _ _ _ _ hhalt
  | error stop s₁ =>
    rw [bind_of_error hr] at hhalt
    cases hhalt
    exact hx _ _ _ hr

theorem neverHalts_descend (page : Page) (leaf : Flags) (table index : Nat) :
    NeverHalts (descend page leaf table index) := by
  rintro ⟨ram, space⟩ s' halt hhalt
  unfold descend at hhalt
  dsimp only at hhalt
  split at hhalt
  · cases hok : ram.pool.allocate with
    | error e =>
      rw [draw_of_error hok] at hhalt
      cases hhalt
    | ok r =>
      rw [draw_of_ok hok] at hhalt
      cases hhalt
  · split at hhalt
    · cases hhalt
    · cases hhalt

theorem neverHalts_reach (page : Page) (leaf : Flags) (level table : Nat) :
    NeverHalts (reach page leaf level table) := by
  induction level generalizing table with
  | zero => exact fun _ _ _ hhalt => by cases hhalt
  | succ level ih => exact (neverHalts_descend page leaf table _).bind ih

theorem neverHalts_writeLeaf (page : Page) (frame table : Nat) (hflags : flags.contains .huge = false) :
    NeverHalts (writeLeaf page frame flags table) := by
  rintro ⟨ram, space⟩ s' halt hhalt
  unfold writeLeaf at hhalt
  dsimp only at hhalt
  split at hhalt
  · cases hhalt
  · rw [hflags] at hhalt
    cases hhalt

/-- **Mapping does not halt**, if the frame exists and the page is not asked to be a large one. -/
theorem neverHalts_map (page : Page) (hframe : frame < 2 ^ 40) (hflags : flags.contains .huge = false) :
    NeverHalts (map page frame flags) := by
  rintro ⟨ram, space⟩ s' halt hhalt
  unfold map at hhalt
  dsimp only at hhalt
  split at hhalt
  · cases hhalt
  · split at hhalt
    · cases hhalt
    · rw [Frame.address_of_lt hframe] at hhalt
      refine (neverHalts_reach page _ 3 space.root).bind (fun table => ?_) _ _ _ hhalt
      refine (neverHalts_writeLeaf page frame table ?_).bind fun _ => ?_
      · exact (Flags.contains_huge_inForce flags).trans hflags
      · exact fun _ _ _ hhalt => by cases hhalt

/-! ## 6. Mapping the first page -/

variable {ram : Ram} {space : AddressSpace}

/-- The space may map the page, and has neither it nor any table on the way to it. -/
structure Vacant (m : Memory) (space : AddressSpace) (page : Page) : Prop where
  accepts : space.accepts page = true
  free : space.frameAt? page = none
  unused : m.entry space.root (page.index 3) = .unused

/-- A step down from an entry that is not in use draws a table. -/
theorem descend_of_ok {index : Nat} {pool : FramePool} (page : Page) (leaf : Flags)
    (hunused : ram.memory.entry table index = .unused) (hok : ram.pool.allocate = .ok (frame, pool)) :
    descend page leaf table index (ram, space) = .ok frame
      ({ memory := (ram.memory.setEntry table index (.ofFrame frame (.ofTables leaf))).clearPage frame,
         pool }, space.addTable frame) := by
  unfold descend
  dsimp only
  rw [if_pos hunused, draw_of_ok hok]

theorem descend_of_error {index : Nat} {e : FrameError} (page : Page) (leaf : Flags)
    (hunused : ram.memory.entry table index = .unused) (he : ram.pool.allocate = .error e) :
    descend page leaf table index (ram, space) = .error (.refused .outOfMemory) (ram, space) := by
  unfold descend
  dsimp only
  rw [if_pos hunused, draw_of_error he]

/-- With frames to hand out, **the way down can be made**: a table is drawn for each level, and the last one
is empty. -/
theorem exists_reach (page : Page) (leaf : Flags) : ∀ {level table : Nat} (ram : Ram)
    (space : AddressSpace), ram.pool.Supplies level →
      ram.memory.entry table (page.index level) = .unused → ∃ last ram' space',
        reach page leaf level table (ram, space) = .ok last (ram', space') ∧
          ram'.memory.entry last (page.index 0) = .unused ∧ space'.pages = space.pages ∧
            space'.frameCount = space.frameCount + level := by
  intro level
  induction level with
  | zero => exact fun _ _ _ hunused => ⟨_, _, _, rfl, hunused, rfl, rfl⟩
  | succ level ih =>
    rintro table ram space ⟨next, pool, hok, hsupply⟩ hunused
    obtain ⟨last, ram', space', hreach, hlast, hpages, hcount⟩ :=
      ih ⟨_, pool⟩ (space.addTable next) hsupply (Memory.entry_clearPage_self (page.index_lt _))
    have hdescend := (bind_of_ok (descend_of_ok page leaf hunused hok)).trans hreach
    refine ⟨last, ram', space', hdescend, hlast, hpages, ?_⟩
    rw [hcount, AddressSpace.frameCount_addTable]
    omega

/-- Without them **the way down ends early**. -/
theorem reach_eq_error (page : Page) (leaf : Flags) : ∀ {level table : Nat} (ram : Ram)
    (space : AddressSpace), ¬ram.pool.Supplies level →
      ram.memory.entry table (page.index level) = .unused →
        ∃ s', reach page leaf level table (ram, space) = .error (.refused .outOfMemory) s' := by
  intro level
  induction level with
  | zero => exact fun _ _ hshort _ => absurd True.intro hshort
  | succ level ih =>
    intro table ram space hshort hunused
    cases hok : ram.pool.allocate with
    | error e =>
      exact ⟨_, bind_of_error (descend_of_error page leaf hunused hok)⟩
    | ok r =>
      obtain ⟨next, pool⟩ := r
      have hshort : ¬pool.Supplies level := fun h => hshort ((FramePool.supplies_of_ok hok).mpr h)
      obtain ⟨s', he⟩ :=
        ih ⟨_, pool⟩ (space.addTable next) hshort (Memory.entry_clearPage_self (page.index_lt _))
      exact ⟨s', (bind_of_ok (descend_of_ok page leaf hunused hok)).trans he⟩

/-- A page that the space may map, and has not, is mapped by going down its tables. -/
theorem map_eq (hv : Vacant ram.memory space page) (hframe : frame < 2 ^ 40) :
    map page frame flags (ram, space) =
      (do
        let table ← reach page flags.inForce 3 space.root
        writeLeaf page frame flags.inForce table
        recordPage page frame : Mapper Unit) (ram, space) := by
  unfold map
  simp only [hv.accepts, hv.free, Frame.address_of_lt hframe, Bool.not_true, Bool.false_eq_true, if_false,
    Option.isSome_none]
  rfl

/-- **The first page of a space can be mapped** if there are frames for its tables, which are the space's
from then on. -/
theorem exists_map (ram : Ram) (frame : Nat) (flags : Flags) (hv : Vacant ram.memory space page)
    (hframe : frame < 2 ^ 40) (hflags : flags.contains .huge = false) (hsupply : ram.pool.Supplies 3) :
    ∃ s', map page frame flags (ram, space) = .ok () s' ∧ s'.2.frameCount = space.frameCount + 4 := by
  obtain ⟨last, ram', space', hreach, hlast, hpages, hcount⟩ :=
    exists_reach page flags.inForce ram space hsupply hv.unused
  have hfree : space'.frameAt? page = none := (AddressSpace.frameAt?_congr hpages page).trans hv.free
  have hwrite := writeLeaf_of_unused space' frame hlast hflags
  refine ⟨_, (map_eq hv hframe).trans ((bind_of_ok hreach).trans hwrite), ?_⟩
  dsimp only
  rw [AddressSpace.frameCount_addPage hfree, hcount]

/-- **It cannot be** if there are not. -/
theorem map_eq_error (ram : Ram) (frame : Nat) (flags : Flags) (hv : Vacant ram.memory space page)
    (hframe : frame < 2 ^ 40) (hshort : ¬ram.pool.Supplies 3) :
    ∃ s', map page frame flags (ram, space) = .error (.refused .outOfMemory) s' := by
  obtain ⟨s', hreach⟩ := reach_eq_error page flags.inForce ram space hshort hv.unused
  exact ⟨s', (map_eq hv hframe).trans (bind_of_error hreach)⟩

end Mapper

end KernelCore
