/-
# The tables of a space are its record

An address space keeps a record of its pages, and the truth is in its tables, a tree of frames in
memory.  `Tree` says that they agree.  Its last argument tells which frame is the table of a level for
the pages of a stem: no frame is two tables, an entry above the leaves leads to the table below if
there is one and is not in use otherwise, and a leaf entry is what the record says of its page.

* `Tree.translate_eq`, `Tree.leafTable?_eq`: so following an address finds what the record says;
* `Tree.congr`: memory that is none of the tables does not matter;
* `Tree.relax`, `Tree.link`, `Tree.setLeaf`: what writing an entry does, one lemma for each kind of
  entry;
* `Tree.ofRoot`: a root in which nothing is in use is a tree without pages.
-/
import KernelCore.Proofs.Paging.Entries

namespace KernelCore

/-! ## 1. Entries that say the right thing -/

namespace Entry

/-- The entry leads to a table, or is not in use if there is none. -/
def LeadsTo (e : Entry) : Option Nat → Prop
  | none => e = .unused
  | some table => e.isPresent = true ∧ e.isHuge = false ∧ e.frame.toNat = table

/-- The leaf entry of a page that is mapped to a frame, or to none. -/
def ofLeaf (flags : Flags) : Option Nat → Entry
  | none => .unused
  | some frame => .ofFrame frame flags.inForce

/-- An entry that leads to no table is not in use. -/
theorem LeadsTo.eq_unused {e : Entry} {table : Option Nat} (h : e.LeadsTo table)
    (hnone : table = none) : e = unused := by
  rw [hnone] at h
  exact h

/-- An entry that allows more leads where it led. -/
theorem LeadsTo.relax {e : Entry} {table : Nat} {flags : Flags} (h : e.LeadsTo (some table))
    (hflags : flags.contains .huge = false) :
    ({ e with flags := e.flags.union flags } : Entry).LeadsTo (some table) := by
  obtain ⟨hpresent, hhuge, hframe⟩ := h
  refine ⟨?_, ?_, hframe⟩
  · unfold isPresent at hpresent ⊢
    rw [Flags.contains_present_union, hpresent, Bool.true_or]
  · unfold isHuge at hhuge ⊢
    rw [Flags.contains_huge_union, hhuge, hflags, Bool.false_or]

/-- The entry for a new table. -/
theorem leadsTo_ofFrame {frame : Nat} {flags : Flags} (hframe : frame < 2 ^ 40)
    (hpresent : flags.contains .present = true) (hhuge : flags.contains .huge = false) :
    (ofFrame frame flags).LeadsTo (some frame) :=
  ⟨hpresent, hhuge, toNat_frame_ofFrame hframe flags⟩

end Entry

namespace Memory

variable {m : Memory} {root table : Nat} {a : VirtAddr}

/-- An address whose root entry is not in use leads nowhere. -/
theorem translate_of_unused (h : m.entry root ((Page.containing a).index 3) = .unused) :
    m.translate root a = .ok none := by
  unfold translate translateFrom
  simp only [Nat.reduceAdd, VirtAddr.index_eq, h]
  rfl

/-- An address whose root entry leads to a table leads where it leads from there. -/
theorem translate_of_leadsTo (h : (m.entry root ((Page.containing a).index 3)).LeadsTo (some table)) :
    m.translate root a = m.translateFrom a 2 table := by
  obtain ⟨hpresent, hhuge, hframe⟩ := h
  unfold translate
  rw [translateFrom]
  simp only [Nat.reduceAdd, VirtAddr.index_eq, hpresent, hhuge, hframe, Bool.not_true,
    Bool.false_eq_true, if_false]

end Memory

/-! ## 2. Trees -/

/-- The table of a level for the pages of a stem, if there is one. -/
abbrev Tables := Nat → Nat → Option Nat

namespace Tables

/-- One table more. -/
def insert (τ : Tables) (level stem frame : Nat) : Tables :=
  fun l a => if l = level ∧ a = stem then some frame else τ l a

@[simp] theorem insert_self (τ : Tables) (level stem frame : Nat) :
    τ.insert level stem frame level stem = some frame := if_pos ⟨rfl, rfl⟩

theorem insert_of_ne (τ : Tables) {level stem : Nat} (frame : Nat) {l a : Nat}
    (h : ¬(l = level ∧ a = stem)) : τ.insert level stem frame l a = τ l a := if_neg h

/-- A table is the new one, or there was one. -/
theorem of_insert {τ : Tables} {level stem frame l a t : Nat}
    (h : τ.insert level stem frame l a = some t) :
    (l = level ∧ a = stem ∧ t = frame) ∨ (¬(l = level ∧ a = stem) ∧ τ l a = some t) := by
  unfold insert at h
  split at h
  · next heq =>
    cases h
    exact Or.inl ⟨heq.1, heq.2, rfl⟩
  · next hne => exact Or.inr ⟨hne, h⟩

/-- A table is missing then if it was and is not the new one. -/
theorem insert_eq_none_iff {τ : Tables} {level stem frame l a : Nat} :
    τ.insert level stem frame l a = none ↔ τ l a = none ∧ ¬(l = level ∧ a = stem) := by
  unfold insert
  split
  · next heq => exact ⟨fun h => (Option.some_ne_none _ h).elim, fun h => absurd heq h.2⟩
  · next hne => exact (and_iff_left hne).symm

/-- A table that there was is still there. -/
theorem isSome_insert (τ : Tables) (level stem frame : Nat) {l a : Nat} (h : (τ l a).isSome) :
    (τ.insert level stem frame l a).isSome := by
  unfold insert
  split
  · rfl
  · exact h

end Tables

/-- The stem that the pages of a half have in common at the root. -/
def SpaceKind.rootStem : SpaceKind → Nat
  | .kernel => 65535
  | .user => 0

namespace AddressSpace

/-- The frames that hold tables. -/
def tableFrames (s : AddressSpace) : List Nat := s.root :: s.tables

theorem tableFrames_addTable (s : AddressSpace) (frame : Nat) :
    (s.addTable frame).tableFrames = s.tableFrames ++ [frame] := rfl

theorem stem_of_accepts {s : AddressSpace} {g : Page} (h : s.accepts g = true) :
    g.stem 3 = s.kind.rootStem := by
  rw [Page.stem_three]
  unfold accepts at h
  cases hkind : s.kind with
  | kernel =>
    simp only [hkind] at h
    rw [if_pos h]
    rfl
  | user =>
    simp only [hkind, Bool.not_eq_true'] at h
    rw [if_neg (by rw [h]; decide)]
    rfl

/-- Pages with one index in the root are in one half. -/
theorem accepts_congr (s : AddressSpace) {g h : Page} (he : g.index 3 = h.index 3) :
    s.accepts g = s.accepts h := by
  unfold accepts
  rw [Page.isUpper_congr he]

end AddressSpace

/-- **The tables of a space are its record.**  `asked` are the attributes that each page was mapped
with. -/
structure Tree (m : Memory) (s : AddressSpace) (asked : Page → Flags) (τ : Tables) : Prop where
  root : ∀ {g}, s.accepts g = true → τ 3 (g.stem 3) = some s.root
  owned : ∀ {l a t}, τ l a = some t → t ∈ s.tableFrames
  inj : ∀ {l a l' a' t}, τ l a = some t → τ l' a' = some t → l = l' ∧ a = a'
  closed : ∀ {g l}, s.accepts g = true → l < 3 → (τ l (g.stem l)).isSome →
    (τ (l + 1) (g.stem (l + 1))).isSome
  inner : ∀ {g l t}, s.accepts g = true → l < 3 → τ (l + 1) (g.stem (l + 1)) = some t →
    (m.entry t (g.index (l + 1))).LeadsTo (τ l (g.stem l))
  leaves : ∀ {g t}, s.accepts g = true → τ 0 (g.stem 0) = some t →
    m.entry t (g.index 0) = .ofLeaf (asked g) (s.frameAt? g)
  mapped : ∀ {g frame}, s.frameAt? g = some frame → s.accepts g = true ∧ (τ 0 (g.stem 0)).isSome ∧
    frame < 2 ^ 40 ∧ (asked g).contains .huge = false
  distinct : (s.pages.map Prod.fst).Nodup
  /-- The kernel's root says nothing about the other half. -/
  blank : s.kind = .kernel → ∀ {g}, s.accepts g = false → m.entry s.root (g.index 3) = .unused

namespace Tree

variable {m m' : Memory} {s : AddressSpace} {asked asked' : Page → Flags} {τ : Tables}
  {g h : Page} {l k t t' frame : Nat}

/-- A table has all tables above it. -/
theorem isSome_of_le (ht : Tree m s asked τ) (hg : s.accepts g = true)
    (h : (τ l (g.stem l)).isSome) : ∀ n, l + n ≤ 3 → (τ (l + n) (g.stem (l + n))).isSome
  | 0, _ => h
  | n + 1, hn => ht.closed hg (show l + n < 3 by omega) (isSome_of_le ht hg h n (by omega))

/-- A way that ends early goes no further down. -/
theorem eq_none_of_le (ht : Tree m s asked τ) (hg : s.accepts g = true) {n : Nat} (hn : l + n ≤ 3)
    (hnone : τ (l + n) (g.stem (l + n)) = none) : τ l (g.stem l) = none := by
  cases hbelow : τ l (g.stem l) with
  | none => rfl
  | some below =>
    have hsome := ht.isSome_of_le hg (by rw [hbelow]; rfl) n hn
    rw [hnone] at hsome
    cases hsome

theorem leaf_eq_none (ht : Tree m s asked τ) (hg : s.accepts g = true) (hl : l ≤ 3)
    (hnone : τ l (g.stem l) = none) : τ 0 (g.stem 0) = none := by
  refine ht.eq_none_of_le hg (n := l) (by omega) ?_
  rw [Nat.zero_add]
  exact hnone

/-- A page whose way ends early is not mapped. -/
theorem frameAt?_eq_none (ht : Tree m s asked τ) (hg : s.accepts g = true) (hl : l ≤ 3)
    (hnone : τ l (g.stem l) = none) : s.frameAt? g = none := by
  cases hf : s.frameAt? g with
  | none => rfl
  | some frame =>
    have hsome := (ht.mapped hf).2.1
    rw [ht.leaf_eq_none hg hl hnone] at hsome
    cases hsome

/-! ## 3. Following the tables -/

/-- Following an address from one of the tables on its way. -/
theorem translateFrom_eq (ht : Tree m s asked τ) {a : VirtAddr}
    (ha : s.accepts (.containing a) = true) : ∀ {l t}, l ≤ 3 →
      τ l ((Page.containing a).stem l) = some t →
        m.translateFrom a l t = .ok ((s.frameAt? (.containing a)).map fun frame =>
          ⟨frame * pageSize + a.offset, (asked (.containing a)).inForce⟩) := by
  intro l
  induction l with
  | zero =>
    intro t _ htable
    unfold Memory.translateFrom
    simp only [VirtAddr.index_eq]
    rw [ht.leaves ha htable]
    cases hf : s.frameAt? (.containing a) with
    | none => rfl
    | some frame =>
      have hpresent : (Entry.ofLeaf (asked (.containing a)) (some frame)).isPresent = true :=
        Flags.contains_present_inForce _
      rw [if_neg (Entry.ne_unused hpresent)]
      have haddress : (Entry.ofLeaf (asked (.containing a)) (some frame)).address =
          frame * pageSize :=
        congrArg (· * pageSize) (Entry.toNat_frame_ofFrame (ht.mapped hf).2.2.1 _)
      rw [haddress]
      rfl
  | succ l ih =>
    intro t hl htable
    have hlead := ht.inner ha (by omega) htable
    unfold Memory.translateFrom
    simp only [VirtAddr.index_eq]
    cases hnext : τ l ((Page.containing a).stem l) with
    | none =>
      rw [hlead.eq_unused hnext, ht.frameAt?_eq_none ha (by omega) hnext]
      rfl
    | some next =>
      rw [hnext] at hlead
      obtain ⟨hpresent, hhuge, hframe⟩ := hlead
      simp only [hpresent, hhuge, Bool.not_true, Bool.false_eq_true, if_false, hframe]
      exact ih (by omega) hnext

/-- **Following an address finds what the record says.** -/
theorem translate_eq (ht : Tree m s asked τ) {a : VirtAddr}
    (ha : s.accepts (.containing a) = true) :
    m.translate s.root a = .ok ((s.frameAt? (.containing a)).map fun frame =>
      ⟨frame * pageSize + a.offset, (asked (.containing a)).inForce⟩) :=
  ht.translateFrom_eq ha (Nat.le_refl 3) (ht.root ha)

/-- In the kernel's space an address of the other half leads nowhere. -/
theorem translate_eq_none (ht : Tree m s asked τ) (hkind : s.kind = .kernel) {a : VirtAddr}
    (ha : s.accepts (.containing a) = false) : m.translate s.root a = .ok none :=
  Memory.translate_of_unused (ht.blank hkind ha)

theorem leafTable?_eq_of (ht : Tree m s asked τ) (hg : s.accepts g = true) : ∀ {l t}, l ≤ 3 →
    τ l (g.stem l) = some t → m.leafTable? g l t = τ 0 (g.stem 0) := by
  intro l
  induction l with
  | zero => exact fun _ htable => htable.symm
  | succ l ih =>
    intro t hl htable
    have hlead := ht.inner hg (by omega) htable
    unfold Memory.leafTable?
    dsimp only
    cases hnext : τ l (g.stem l) with
    | none =>
      rw [hlead.eq_unused hnext, ht.leaf_eq_none hg (by omega) hnext]
      rfl
    | some next =>
      rw [hnext] at hlead
      obtain ⟨hpresent, hhuge, hframe⟩ := hlead
      simp only [hpresent, hhuge, Bool.not_false, Bool.and_self, if_true, hframe]
      exact ih (by omega) hnext

/-- The lowest table on the way to a page is found, if there is one. -/
theorem leafTable?_eq (ht : Tree m s asked τ) (hg : s.accepts g = true) :
    m.leafTable? g 3 s.root = τ 0 (g.stem 0) :=
  ht.leafTable?_eq_of hg (Nat.le_refl 3) (ht.root hg)

/-! ## 4. Writing entries -/

/-- Memory that is none of the tables does not matter. -/
theorem congr (ht : Tree m s asked τ) (hm : ∀ t ∈ s.tableFrames, m.SameFrame m' t) :
    Tree m' s asked τ := by
  refine ⟨ht.root, ht.owned, ht.inj, ht.closed, ?_, ?_, ht.mapped, ht.distinct, ?_⟩
  · intro g l t hg hl htable
    rw [(hm t (ht.owned htable)).entry_eq (g.index_lt _)]
    exact ht.inner hg hl htable
  · intro g t hg htable
    rw [(hm t (ht.owned htable)).entry_eq (g.index_lt _)]
    exact ht.leaves hg htable
  · intro hkind g hg
    rw [(hm s.root List.mem_cons_self).entry_eq (g.index_lt _)]
    exact ht.blank hkind hg

/-- Two entries of the tree are one entry only if their pages share what is below. -/
theorem entry_setEntry (ht : Tree m s asked τ) (htable : τ l (g.stem l) = some t)
    (htable' : τ k (h.stem k) = some t') (e : Entry) :
    (m.setEntry t (g.index l) e).entry t' (h.index k) =
      if k = l ∧ h.stem k = g.stem l ∧ h.index k = g.index l then e
      else m.entry t' (h.index k) := by
  split
  · next heq =>
    obtain ⟨rfl, hstem, hindex⟩ := heq
    rw [hstem, htable] at htable'
    cases htable'
    rw [hindex, Memory.entry_setEntry_self]
  · next hne =>
    refine Memory.entry_setEntry_of_ne _ _ _ _ _ _ (g.index_lt _) (h.index_lt _) ?_
    by_cases hsame : t = t'
    · subst hsame
      obtain ⟨hlevel, hstem⟩ := ht.inj htable' htable
      exact Or.inr fun hindex => hne ⟨hlevel, hstem, hindex.symm⟩
    · exact Or.inl hsame

/-- An entry on the way to a page says nothing about the other half. -/
theorem entry_setEntry_root (ht : Tree m s asked τ) (hg : s.accepts g = true)
    (htable : τ l (g.stem l) = some t) (hh : s.accepts h = false) (e : Entry) :
    (m.setEntry t (g.index l) e).entry s.root (h.index 3) = m.entry s.root (h.index 3) := by
  refine Memory.entry_setEntry_of_ne _ _ _ _ _ _ (g.index_lt _) (h.index_lt _) ?_
  by_cases hsame : t = s.root
  · right
    intro hindex
    rw [hsame] at htable
    obtain ⟨rfl, -⟩ := ht.inj htable (ht.root hg)
    rw [s.accepts_congr hindex, hh] at hg
    cases hg
  · exact Or.inl hsame

/-- What is below an entry. -/
theorem below_iff : k + 1 = l + 1 ∧ h.stem (k + 1) = g.stem (l + 1) ∧
    h.index (k + 1) = g.index (l + 1) ↔ k = l ∧ h.stem k = g.stem l := by
  constructor
  · rintro ⟨hlevel, hstem, hindex⟩
    obtain rfl := Nat.succ.inj hlevel
    exact ⟨rfl, Page.stem_eq_iff.mpr ⟨hstem, hindex⟩⟩
  · rintro ⟨rfl, hstem⟩
    exact ⟨rfl, Page.stem_eq_iff.mp hstem⟩

/-- **An entry that leads where it led.** -/
theorem relax (ht : Tree m s asked τ) (hg : s.accepts g = true)
    (htable : τ (l + 1) (g.stem (l + 1)) = some t) {e : Entry} (he : e.LeadsTo (τ l (g.stem l))) :
    Tree (m.setEntry t (g.index (l + 1)) e) s asked τ := by
  refine ⟨ht.root, ht.owned, ht.inj, ht.closed, ?_, ?_, ht.mapped, ht.distinct, ?_⟩
  · intro h k t' hh hk htable'
    rw [ht.entry_setEntry htable htable' e]
    split
    · next heq =>
      obtain ⟨rfl, hstem⟩ := below_iff.mp heq
      rw [hstem]
      exact he
    · exact ht.inner hh hk htable'
  · intro h t' hh htable'
    rw [ht.entry_setEntry htable htable' e, if_neg (by rintro ⟨heq, -⟩; cases heq)]
    exact ht.leaves hh htable'
  · intro hkind h hh
    rw [ht.entry_setEntry_root hg htable hh]
    exact ht.blank hkind hh

/-- The tables that there were, when a fresh frame is cleared and an entry is written. -/
theorem entry_link (ht : Tree m s asked τ) (htable : τ l (g.stem l) = some t)
    (hfresh : frame ∉ s.tableFrames) (htable' : τ k (h.stem k) = some t') (e : Entry) :
    ((m.setEntry t (g.index l) e).clearPage frame).entry t' (h.index k) =
      if k = l ∧ h.stem k = g.stem l ∧ h.index k = g.index l then e
      else m.entry t' (h.index k) := by
  have hne : t' ≠ frame := by
    rintro rfl
    exact hfresh (ht.owned htable')
  rw [(Memory.sameFrame_clearPage hne).entry_eq (h.index_lt _), ht.entry_setEntry htable htable' e]

theorem inner_link (ht : Tree m s asked τ) (htable : τ (l + 1) (g.stem (l + 1)) = some t)
    (hnone : τ l (g.stem l) = none) (hfresh : frame ∉ s.tableFrames) {e : Entry}
    (he : e.LeadsTo (some frame)) (hh : s.accepts h = true) (hk : k < 3)
    (htable' : τ.insert l (g.stem l) frame (k + 1) (h.stem (k + 1)) = some t') :
    (((m.setEntry t (g.index (l + 1)) e).clearPage frame).entry t' (h.index (k + 1))).LeadsTo
      (τ.insert l (g.stem l) frame k (h.stem k)) := by
  rcases Tables.of_insert htable' with ⟨rfl, hstem, rfl⟩ | ⟨-, htable'⟩
  · rw [Memory.entry_clearPage_self (h.index_lt _), Tables.insert_of_ne _ _ (by omega),
      ht.eq_none_of_le hh (n := 1) hk (hstem ▸ hnone)]
    rfl
  · rw [ht.entry_link htable hfresh htable' e]
    split
    · next hslot =>
      obtain ⟨rfl, hstem⟩ := below_iff.mp hslot
      rw [hstem, Tables.insert_self]
      exact he
    · next hslot =>
      rw [Tables.insert_of_ne _ _ (fun hb => hslot (below_iff.mpr hb))]
      exact ht.inner hh hk htable'

theorem leaves_link (ht : Tree m s asked τ) (htable : τ (l + 1) (g.stem (l + 1)) = some t)
    (hnone : τ l (g.stem l) = none) (hfresh : frame ∉ s.tableFrames) (e : Entry)
    (hh : s.accepts h = true) (htable' : τ.insert l (g.stem l) frame 0 (h.stem 0) = some t') :
    ((m.setEntry t (g.index (l + 1)) e).clearPage frame).entry t' (h.index 0) =
      .ofLeaf (asked h) (s.frameAt? h) := by
  rcases Tables.of_insert htable' with ⟨rfl, hstem, rfl⟩ | ⟨-, htable'⟩
  · rw [Memory.entry_clearPage_self (h.index_lt _), ht.frameAt?_eq_none hh (by omega) (hstem ▸ hnone)]
    rfl
  · rw [ht.entry_link htable hfresh htable' e, if_neg (by rintro ⟨hlevel, -⟩; cases hlevel)]
    exact ht.leaves hh htable'

/-- **A new table**, cleared, and an entry that leads to it. -/
theorem link (ht : Tree m s asked τ) (hg : s.accepts g = true) (hl : l < 3)
    (htable : τ (l + 1) (g.stem (l + 1)) = some t) (hnone : τ l (g.stem l) = none)
    (hfresh : frame ∉ s.tableFrames) {e : Entry} (he : e.LeadsTo (some frame)) :
    Tree ((m.setEntry t (g.index (l + 1)) e).clearPage frame) (s.addTable frame) asked
      (τ.insert l (g.stem l) frame) := by
  refine ⟨?_, ?_, ?_, ?_, fun hh hk htable' => ht.inner_link htable hnone hfresh he hh hk htable',
    fun hh htable' => ht.leaves_link htable hnone hfresh e hh htable', ?_, ht.distinct, ?_⟩
  · intro h hh
    rw [Tables.insert_of_ne _ _ (by omega)]
    exact ht.root hh
  · intro k a t' htable'
    rw [s.tableFrames_addTable]
    rcases Tables.of_insert htable' with ⟨-, -, rfl⟩ | ⟨-, htable'⟩
    · exact List.mem_append_right _ List.mem_cons_self
    · exact List.mem_append_left _ (ht.owned htable')
  · intro k a k' a' t' h₁ h₂
    rcases Tables.of_insert h₁ with ⟨rfl, rfl, rfl⟩ | ⟨-, hold₁⟩
    · rcases Tables.of_insert h₂ with ⟨rfl, rfl, -⟩ | ⟨-, hold₂⟩
      · exact ⟨rfl, rfl⟩
      · exact absurd (ht.owned hold₂) hfresh
    · rcases Tables.of_insert h₂ with ⟨-, -, rfl⟩ | ⟨-, hold₂⟩
      · exact absurd (ht.owned hold₁) hfresh
      · exact ht.inj hold₁ hold₂
  · intro h k hh hk hsome
    by_cases heq : k = l ∧ h.stem k = g.stem l
    · obtain ⟨rfl, hstem⟩ := heq
      refine Tables.isSome_insert _ _ _ _ ?_
      rw [Page.stem_succ, hstem, ← Page.stem_succ, htable]
      rfl
    · rw [Tables.insert_of_ne _ _ heq] at hsome
      exact Tables.isSome_insert _ _ _ _ (ht.closed hh hk hsome)
  · intro h f hf
    obtain ⟨hh, hsome, hrest⟩ := ht.mapped hf
    exact ⟨hh, Tables.isSome_insert _ _ _ _ hsome, hrest⟩
  · intro hkind h hh
    have hroot : s.root ≠ frame := fun he => hfresh (he ▸ List.mem_cons_self)
    refine ((Memory.sameFrame_clearPage hroot).entry_eq (h.index_lt _)).trans ?_
    rw [ht.entry_setEntry_root hg htable hh]
    exact ht.blank hkind hh

/-- **A leaf entry**, and what the record says of its page from then on. -/
theorem setLeaf {s' : AddressSpace} {frame? : Option Nat} (ht : Tree m s asked τ)
    (hg : s.accepts g = true) (htable : τ 0 (g.stem 0) = some t) (hkind : s'.kind = s.kind)
    (hroot : s'.root = s.root) (htables : s'.tables = s.tables)
    (hpages : ∀ h, s'.frameAt? h = if h = g then frame? else s.frameAt? h)
    (hdistinct : (s'.pages.map Prod.fst).Nodup)
    (hasked : ∀ h, h ≠ g → asked' h = asked h)
    (hsound : ∀ frame, frame? = some frame → frame < 2 ^ 40 ∧ (asked' g).contains .huge = false) :
    Tree (m.setEntry t (g.index 0) (.ofLeaf (asked' g) frame?)) s' asked' τ := by
  have haccepts : ∀ h, s'.accepts h = s.accepts h := by
    intro h
    unfold AddressSpace.accepts
    rw [hkind]
  have hframes : s'.tableFrames = s.tableFrames := by
    unfold AddressSpace.tableFrames
    rw [hroot, htables]
  refine ⟨?_, ?_, ht.inj, ?_, ?_, ?_, ?_, hdistinct, ?_⟩
  · intro h hh
    rw [hroot]
    exact ht.root (haccepts h ▸ hh)
  · intro k a t' htable'
    rw [hframes]
    exact ht.owned htable'
  · exact fun hh => ht.closed (haccepts _ ▸ hh)
  · intro h k t' hh hk htable'
    rw [ht.entry_setEntry htable htable', if_neg (by rintro ⟨hlevel, -⟩; cases hlevel)]
    exact ht.inner (haccepts h ▸ hh) hk htable'
  · intro h t' hh htable'
    rw [ht.entry_setEntry htable htable', hpages]
    by_cases heq : h = g
    · subst heq
      rw [if_pos ⟨rfl, rfl, rfl⟩, if_pos rfl]
    · rw [if_neg (fun hslot => heq (Page.eq_of_stem_zero hslot.2.1 hslot.2.2)), if_neg heq,
        hasked h heq]
      exact ht.leaves (haccepts h ▸ hh) htable'
  · intro h frame hf
    rw [hpages] at hf
    rw [haccepts]
    split at hf
    · next heq =>
      subst heq
      refine ⟨hg, ?_, hsound frame hf⟩
      rw [htable]
      rfl
    · next heq =>
      rw [hasked h heq]
      exact ht.mapped hf
  · intro hk h hh
    rw [hroot, ht.entry_setEntry_root hg htable (haccepts h ▸ hh)]
    exact ht.blank (hkind ▸ hk) (haccepts h ▸ hh)

/-- **A root in which nothing is in use** is a tree without pages. -/
theorem ofRoot {kind : SpaceKind} {root : Nat} (asked : Page → Flags)
    (hm : ∀ g : Page, (kind = .kernel ∨ (AddressSpace.ofRoot kind root).accepts g = true) →
      m.entry root (g.index 3) = .unused) :
    Tree m (.ofRoot kind root) asked
      fun l a => if l = 3 ∧ a = kind.rootStem then some root else none := by
  refine ⟨?_, ?_, ?_, ?_, ?_, ?_, ?_, List.nodup_nil, ?_⟩
  · intro g hg
    exact if_pos ⟨rfl, AddressSpace.stem_of_accepts hg⟩
  · intro l a t h
    split at h
    · cases h
      exact List.mem_cons_self
    · cases h
  · intro l a l' a' t h h'
    split at h
    · next heq =>
      split at h'
      · next heq' => exact ⟨heq.1.trans heq'.1.symm, heq.2.trans heq'.2.symm⟩
      · cases h'
    · cases h
  · intro g l _ hl hsome
    rw [if_neg (by omega)] at hsome
    cases hsome
  · intro g l t hg hl h
    split at h
    · next heq =>
      cases h
      obtain rfl : l = 2 := by omega
      rw [hm g (Or.inr hg), if_neg (by omega)]
      rfl
    · cases h
  · intro g t _ h
    rw [if_neg (by omega)] at h
    cases h
  · intro g frame h
    cases h
  · intro hkind g _
    exact hm g (Or.inl hkind)

end Tree

end KernelCore
