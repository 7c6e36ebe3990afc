/-
# What a page allows is what was asked for it

An access goes through four entries, and each has its say: it may write if all of them allow it, comes from
a user if all of them let users in, and may execute unless one of them forbids it (`Memory.access?`).  But
the entries above the leaves are shared by pages that were mapped with different attributes, at different
times, and some of them were made for pages that then could not be mapped.

What makes it come out right is that an entry above the leaves is never asked to forbid anything: it gets
what the leaf below allows, and from then on it only gets more (`Flags.ofTables`).

* `Opens`: the entries above the leaves allow what the pages below them need, and forbid nothing;
* `Permits.access?_eq`: so the access to a page is what its leaf allows;
* `opens_descend`, `opens_reach`: going down to a page keeps this, and opens the way to the page;
* `permits_map`, `permits_unmap`: so mapping and unmapping keep it, also when they are refused on the way.
-/
import KernelCore.Proofs.Paging.Mapping

namespace KernelCore

/-! ## 1. Attributes -/

namespace Flags

variable {f g h leaf need need' : Flags} {kind : SpaceKind}

theorem and_eq_right_iff {x y : BitVec 12} :
    x &&& y = y ↔ ∀ i, y.getLsbD i = true → x.getLsbD i = true := by
  constructor
  · intro h i hi
    rw [← h, BitVec.getLsbD_and, Bool.and_eq_true] at hi
    exact hi.1
  · intro h
    refine BitVec.eq_of_getLsbD_eq fun i _ => ?_
    rw [BitVec.getLsbD_and]
    cases hy : y.getLsbD i with
    | false => exact Bool.and_false _
    | true => rw [h i hy]; rfl

/-- One has the attributes of another, bit for bit. -/
theorem contains_iff : f.contains g = true ↔ (∀ i, g.low.getLsbD i = true → f.low.getLsbD i = true) ∧
    ∀ i, g.high.getLsbD i = true → f.high.getLsbD i = true := by
  rw [contains, beq_iff_eq, inter, ← and_eq_right_iff, ← and_eq_right_iff]
  cases g
  rw [mk.injEq]

theorem contains_refl (f : Flags) : f.contains f = true :=
  contains_iff.mpr ⟨fun _ h => h, fun _ h => h⟩

theorem contains_none (f : Flags) : f.contains none = true :=
  contains_iff.mpr ⟨fun i h => by simp [none] at h, fun i h => by simp [none] at h⟩

theorem contains_trans (h₁ : f.contains g = true) (h₂ : g.contains h = true) :
    f.contains h = true := by
  rw [contains_iff] at *
  exact ⟨fun i hi => h₁.1 i (h₂.1 i hi), fun i hi => h₁.2 i (h₂.2 i hi)⟩

theorem contains_union_left (f g : Flags) : (f.union g).contains f = true := by
  simp only [contains_iff, union, BitVec.getLsbD_or, Bool.or_eq_true]
  exact ⟨fun _ h => .inl h, fun _ h => .inl h⟩

theorem contains_union_right (f g : Flags) : (f.union g).contains g = true := by
  simp only [contains_iff, union, BitVec.getLsbD_or, Bool.or_eq_true]
  exact ⟨fun _ h => .inr h, fun _ h => .inr h⟩

theorem contains_writable (f : Flags) : f.contains .writable = f.low.getLsbD 1 :=
  contains_twoPow f 1 (by decide)

theorem contains_userAccessible (f : Flags) : f.contains .userAccessible = f.low.getLsbD 2 :=
  contains_twoPow f 2 (by decide)

theorem contains_noExecute (f : Flags) : f.contains .noExecute = f.high.getLsbD 11 := by
  have hbit : ∀ i, (BitVec.twoPow 12 11).getLsbD i = true ↔ i = 11 := by
    intro i
    simp [BitVec.getLsbD_twoPow]
    omega
  refine Bool.eq_iff_iff.mpr (contains_iff.trans ?_)
  simp only [noExecute, hbit]
  simp

/-- **What an entry above the leaves has to be**: it forbids no execution, lets no user into the kernel's
half, and allows what is needed. -/
structure Suits (f : Flags) (kind : SpaceKind) (need : Flags) : Prop where
  executable : f.contains .noExecute = false
  closed : kind = .kernel → f.contains .userAccessible = false
  allows : f.contains need = true

theorem suits_none (kind : SpaceKind) : none.Suits kind none :=
  ⟨by decide, fun _ => by decide, contains_refl none⟩

/-- The entry of a table that is drawn for a leaf. -/
theorem suits_ofTables (hkind : kind = .kernel → leaf.contains .userAccessible = false) :
    (ofTables leaf).Suits kind (ofTables leaf) := by
  have hhigh : ((present.union writable).union userAccessible).high = 0 := by decide
  refine ⟨?_, fun hkernel => ?_, contains_refl _⟩
  · rw [contains_noExecute, ofTables, inter, hhigh]
    simp
  · have hleaf := hkind hkernel
    rw [contains_userAccessible] at hleaf ⊢
    rw [ofTables, inter, BitVec.getLsbD_and, hleaf, Bool.false_and]

/-- An entry that gets more still allows what it did, and allows what it gets. -/
theorem Suits.union (hf : f.Suits kind need) (hg : g.Suits kind need') :
    (f.union g).Suits kind need ∧ (f.union g).Suits kind need' := by
  have hexecutable : (f.union g).contains .noExecute = false := by
    have hf := hf.executable
    have hg := hg.executable
    rw [contains_noExecute] at *
    rw [Flags.union, BitVec.getLsbD_or, hf, hg, Bool.or_false]
  have hclosed : kind = .kernel → (f.union g).contains .userAccessible = false := fun hkind => by
    have hf := hf.closed hkind
    have hg := hg.closed hkind
    rw [contains_userAccessible] at *
    rw [Flags.union, BitVec.getLsbD_or, hf, hg, Bool.or_false]
  exact ⟨⟨hexecutable, hclosed, contains_trans (contains_union_left f g) hf.allows⟩,
    ⟨hexecutable, hclosed, contains_trans (contains_union_right f g) hg.allows⟩⟩

theorem Suits.of_contains (h : f.Suits kind need) (hneed : f.contains need' = true) :
    f.Suits kind need' :=
  ⟨h.executable, h.closed, hneed⟩

end Flags

/-! ## 2. What an access may do -/

/-- What the entries on the way to an address allow together. -/
structure Access where
  writable : Bool
  user : Bool
  noExecute : Bool
  deriving DecidableEq

namespace Access

/-- What one entry allows. -/
def ofFlags (f : Flags) : Access :=
  ⟨f.contains .writable, f.contains .userAccessible, f.contains .noExecute⟩

/-- What two entries allow one after the other. -/
def both (p q : Access) : Access :=
  ⟨p.writable && q.writable, p.user && q.user, p.noExecute || q.noExecute⟩

end Access

namespace Memory

/-- **The access that the entries on the way allow**, from a table of a level.  Nothing is allowed if one of
them is not in force. -/
def accessFrom (m : Memory) (a : VirtAddr) : Nat → Nat → Option Access
  | 0, table =>
    let e := m.entry table (a.index 0)
    if e.isPresent then some (.ofFlags e.flags) else none
  | level + 1, table =>
    let e := m.entry table (a.index (level + 1))
    if !e.isPresent then none
    else if e.isHuge then if level = 2 then none else some (.ofFlags e.flags)
    else (accessFrom m a level e.frame.toNat).map (Access.ofFlags e.flags).both

/-- The access that a space with the given root allows at an address. -/
def access? (m : Memory) (root : Nat) (a : VirtAddr) : Option Access := m.accessFrom a 3 root

end Memory

namespace Flags

/-- That a page is in force does not show in what it allows. -/
theorem access_inForce (f : Flags) : Access.ofFlags f.inForce = .ofFlags f := by
  have hwritable : present.low.getLsbD 1 = false := by decide
  have huser : present.low.getLsbD 2 = false := by decide
  have hexecute : present.high.getLsbD 11 = false := by decide
  simp only [Access.ofFlags, inForce, union, contains_writable, contains_userAccessible,
    contains_noExecute, BitVec.getLsbD_or, hwritable, huser, hexecute, Bool.or_false]

/-- **An entry that allows what a leaf needs takes nothing from it.** -/
theorem Suits.both_eq {f leaf : Flags} {kind : SpaceKind} (h : f.Suits kind (ofTables leaf)) :
    (Access.ofFlags f).both (.ofFlags leaf) = .ofFlags leaf := by
  have hbits := (contains_iff.mp h.allows).1
  have hmask : ∀ i, i = 1 ∨ i = 2 →
      ((present.union writable).union userAccessible).low.getLsbD i = true := by
    rintro i (rfl | rfl) <;> decide
  have hallows : ∀ i, i = 1 ∨ i = 2 → (f.low.getLsbD i && leaf.low.getLsbD i) = leaf.low.getLsbD i := by
    intro i hi
    cases hleaf : leaf.low.getLsbD i with
    | false => exact Bool.and_false _
    | true =>
      rw [hbits i (by rw [ofTables, inter, BitVec.getLsbD_and, hleaf, hmask i hi]; rfl)]
      rfl
  simp only [Access.both, Access.ofFlags, h.executable, Bool.false_or, contains_writable,
    contains_userAccessible, hallows 1 (.inl rfl), hallows 2 (.inr rfl)]

end Flags

/-! ## 3. The entries above the leaves -/

/-- What the entry of a level on the way to a page has to allow. -/
abbrev Needs := Page → Nat → Flags

/-- On some levels of the way to a page something else has to be allowed. -/
def Needs.raise (needs : Needs) (page : Page) (levels : Nat → Prop) [DecidablePred levels]
    (need : Flags) : Needs :=
  fun h l => if h = page ∧ levels l then need else needs h l

/-- The levels up to one are this one and those below. -/
theorem Needs.raise_succ (needs : Needs) (page : Page) (level : Nat) (need : Flags) :
    (needs.raise page (· = level) need).raise page (· < level) need =
      needs.raise page (· < level + 1) need := by
  funext h l
  simp only [raise]
  by_cases hh : h = page
  · rcases Nat.lt_trichotomy l level with hl | rfl | hl
    · rw [if_pos ⟨hh, hl⟩, if_pos ⟨hh, by omega⟩]
    · rw [if_neg (by omega), if_pos ⟨hh, rfl⟩, if_pos ⟨hh, by omega⟩]
    · rw [if_neg (by omega), if_neg (by omega), if_neg (by omega)]
  · rw [if_neg (fun hr => hh hr.1), if_neg (fun hr => hh hr.1), if_neg (fun hr => hh hr.1)]

/-- **The way to every page is open**: each entry above the leaves allows what it has to for the page, and
forbids nothing. -/
structure Opens (m : Memory) (s : AddressSpace) (needs : Needs) (τ : Tables) : Prop where
  suits : ∀ {h l t}, s.accepts h = true → l < 3 → τ (l + 1) (h.stem (l + 1)) = some t →
    (m.entry t (h.index (l + 1))).flags.Suits s.kind (needs h l)

/-- An entry leads to one table only. -/
theorem Entry.LeadsTo.unique {e : Entry} : ∀ {x y : Option Nat}, e.LeadsTo x → e.LeadsTo y → x = y
  | none, none, _, _ => rfl
  | none, some _, hx, hy => absurd hx (Entry.ne_unused hy.1)
  | some _, none, hx, hy => absurd hy (Entry.ne_unused hx.1)
  | some _, some _, hx, hy => congrArg some (hx.2.2.symm.trans hy.2.2)

section

variable {m m' : Memory} {s : AddressSpace} {asked asked' : Page → Flags} {τ τ' : Tables}
  {needs needs' : Needs} {need : Flags} {g h : Page} {l t frame : Nat}

/-- **The tables are those that memory tells.** -/
theorem Tree.tables_eq (ht : Tree m s asked τ) (ht' : Tree m s asked' τ') (hg : s.accepts g = true) :
    ∀ n l, l + n = 3 → τ l (g.stem l) = τ' l (g.stem l)
  | 0, l, hl => by
    obtain rfl : l = 3 := hl
    exact (ht.root hg).trans (ht'.root hg).symm
  | n + 1, l, hl => by
    have habove := ht.tables_eq ht' hg n (l + 1) (by omega)
    cases htable : τ (l + 1) (g.stem (l + 1)) with
    | none =>
      rw [htable] at habove
      rw [ht.eq_none_of_le hg (n := 1) (by omega) htable,
        ht'.eq_none_of_le hg (n := 1) (by omega) habove.symm]
    | some t =>
      rw [htable] at habove
      exact (ht.inner hg (by omega) htable).unique (ht'.inner hg (by omega) habove.symm)

namespace Opens

theorem of_tree (ho : Opens m s needs τ) (ht : Tree m s asked τ) (ht' : Tree m s asked' τ') :
    Opens m s needs τ' :=
  ⟨fun {_ l _} hh hl htable =>
    ho.suits hh hl ((ht.tables_eq ht' hh (2 - l) (l + 1) (by omega)).trans htable)⟩

/-- Memory that is none of the tables does not matter. -/
theorem congr (ho : Opens m s needs τ) (ht : Tree m s asked τ)
    (hm : ∀ t ∈ s.tableFrames, m.SameFrame m' t) : Opens m' s needs τ := by
  refine ⟨fun {h l t} hh hl htable => ?_⟩
  rw [(hm t (ht.owned htable)).entry_eq (h.index_lt _)]
  exact ho.suits hh hl htable

/-- Less may be needed. -/
theorem mono (ho : Opens m s needs τ)
    (hneeds : ∀ h l, l < 3 → (needs h l).contains (needs' h l) = true) : Opens m s needs' τ :=
  ⟨fun hh hl htable => (ho.suits hh hl htable).of_contains
    (Flags.contains_trans (ho.suits hh hl htable).allows (hneeds _ _ hl))⟩

/-- A leaf entry is none of those above. -/
theorem setLeaf (ho : Opens m s needs τ) (ht : Tree m s asked τ) (htable : τ 0 (g.stem 0) = some t)
    (e : Entry) : Opens (m.setEntry t (g.index 0) e) s needs τ := by
  refine ⟨fun {h k t'} hh hk htable' => ?_⟩
  rw [ht.entry_setEntry htable htable', if_neg (by rintro ⟨hlevel, -⟩; cases hlevel)]
  exact ho.suits hh hk htable'

/-- **An entry that gets more** on the way to a page. -/
theorem relax (ho : Opens m s needs τ) (ht : Tree m s asked τ)
    (htable : τ (l + 1) (g.stem (l + 1)) = some t) (hneed : need.Suits s.kind need) {e : Entry}
    (he : e = m.entry t (g.index (l + 1))) :
    Opens (m.setEntry t (g.index (l + 1)) { e with flags := e.flags.union need }) s
      (needs.raise g (· = l) need) τ := by
  refine ⟨fun {h k t'} hh hk htable' => ?_⟩
  have hold := ho.suits hh hk htable'
  rw [ht.entry_setEntry htable htable', Needs.raise]
  split
  · next hslot =>
    obtain ⟨rfl, hstem⟩ := Tree.below_iff.mp hslot
    obtain ⟨-, habove, hindex⟩ := hslot
    rw [habove, htable] at htable'
    cases htable'
    rw [hindex, ← he] at hold
    split
    · exact (hold.union hneed).2
    · exact (hold.union hneed).1
  · next hslot =>
    rw [if_neg fun hraised => hslot (Tree.below_iff.mpr ⟨hraised.2, by rw [hraised.1, hraised.2]⟩)]
    exact hold

/-- An entry that allows enough already. -/
theorem raise (ho : Opens m s needs τ) (htable : τ (l + 1) (g.stem (l + 1)) = some t)
    (henough : (m.entry t (g.index (l + 1))).flags.contains need = true) :
    Opens m s (needs.raise g (· = l) need) τ := by
  refine ⟨fun {h k t'} hh hk htable' => ?_⟩
  have hold := ho.suits hh hk htable'
  rw [Needs.raise]
  split
  · next hraised =>
    obtain ⟨rfl, rfl⟩ := hraised
    rw [htable] at htable'
    cases htable'
    exact hold.of_contains henough
  · exact hold

/-- **A new table** on the way to a page, below which nothing was needed. -/
theorem link (ho : Opens m s needs τ) (ht : Tree m s asked τ)
    (htable : τ (l + 1) (g.stem (l + 1)) = some t) (hfresh : frame ∉ s.tableFrames)
    (hneed : need.Suits s.kind need)
    (hnone : ∀ h k, s.accepts h = true → k ≤ l → h.stem l = g.stem l → needs h k = .none) :
    Opens ((m.setEntry t (g.index (l + 1)) (.ofFrame frame need)).clearPage frame) (s.addTable frame)
      (needs.raise g (· = l) need) (τ.insert l (g.stem l) frame) := by
  refine ⟨fun {h k t'} hh hk htable' => ?_⟩
  rw [Needs.raise]
  rcases Tables.of_insert htable' with ⟨rfl, hstem, rfl⟩ | ⟨-, htable'⟩
  · -- nothing is in use in the new table
    rw [Memory.entry_clearPage_self (h.index_lt _), if_neg fun hraised => by omega,
      hnone h k hh (Nat.le_succ k) hstem]
    exact Flags.suits_none _
  · rw [ht.entry_link htable hfresh htable']
    split
    · next hslot =>
      obtain ⟨rfl, hstem⟩ := Tree.below_iff.mp hslot
      split
      · exact hneed
      · rw [hnone h k hh (Nat.le_refl k) hstem]
        exact hneed.of_contains (Flags.contains_none need)
    · next hslot =>
      rw [if_neg fun hraised => hslot (Tree.below_iff.mpr ⟨hraised.2, by rw [hraised.1, hraised.2]⟩)]
      exact ho.suits hh hk htable'

end Opens

/-! ## 4. Spaces that allow what was asked for -/

/-- What the entries on the way to a page have to allow: what its leaf needs, if it is mapped. -/
def AddressSpace.needed (s : AddressSpace) (asked : Page → Flags) : Needs :=
  fun h _ => if (s.frameAt? h).isSome then .ofTables (asked h).inForce else .none

/-- **The tables of a space are its record, and the way to every page is open.** -/
def Permits (m : Memory) (s : AddressSpace) (asked : Page → Flags) : Prop :=
  ∃ τ, Tree m s asked τ ∧ Opens m s (s.needed asked) τ

theorem Permits.congr (hp : Permits m s asked) (hm : ∀ t ∈ s.tableFrames, m.SameFrame m' t) :
    Permits m' s asked := by
  obtain ⟨τ, ht, ho⟩ := hp
  exact ⟨τ, ht.congr hm, ho.congr ht hm⟩

theorem accessFrom_eq (ht : Tree m s asked τ) (ho : Opens m s (s.needed asked) τ) {a : VirtAddr}
    (ha : s.accepts (.containing a) = true) : ∀ {l t}, l ≤ 3 →
      τ l ((Page.containing a).stem l) = some t →
        m.accessFrom a l t = (s.frameAt? (.containing a)).map fun _ =>
          Access.ofFlags (asked (.containing a)).inForce := by
  intro l
  induction l with
  | zero =>
    intro t _ htable
    unfold Memory.accessFrom
    simp only [VirtAddr.index_eq]
    rw [ht.leaves ha htable]
    cases hf : s.frameAt? (.containing a) with
    | none => exact if_neg (show ¬Entry.unused.isPresent = true by decide)
    | some frame => exact if_pos (Flags.contains_present_inForce _)
  | succ l ih =>
    intro t hl htable
    have hlead := ht.inner ha (by omega) htable
    have hsuits := ho.suits ha (by omega) htable
    unfold Memory.accessFrom
    simp only [VirtAddr.index_eq]
    cases hnext : τ l ((Page.containing a).stem l) with
    | none =>
      rw [hlead.eq_unused hnext, ht.frameAt?_eq_none ha (by omega) hnext]
      rfl
    | some next =>
      rw [hnext] at hlead
      obtain ⟨hpresent, hhuge, hframe⟩ := hlead
      simp only [hpresent, hhuge, Bool.not_true, Bool.false_eq_true, if_false, hframe]
      rw [ih (by omega) hnext]
      cases hf : s.frameAt? (.containing a) with
      | none => rfl
      | some frame =>
        have hneeds : s.needed asked (.containing a) l = .ofTables (asked (.containing a)).inForce := by
          rw [AddressSpace.needed, hf]
          rfl
        rw [hneeds] at hsuits
        exact congrArg some hsuits.both_eq

/-- **The access to an address** of the half that a space maps is what was asked for its page. -/
theorem Permits.access?_eq (hp : Permits m s asked) {a : VirtAddr}
    (ha : s.accepts (.containing a) = true) :
    m.access? s.root a = (s.frameAt? (.containing a)).map fun _ =>
      Access.ofFlags (asked (.containing a)) := by
  obtain ⟨τ, ht, ho⟩ := hp
  rw [← Flags.access_inForce]
  exact accessFrom_eq ht ho ha (Nat.le_refl 3) (ht.root ha)

/-- Users do not get in where the root does not let them. -/
theorem Memory.user_eq_false {root : Nat} {a : VirtAddr} {p : Access}
    (hroot : (m.entry root ((Page.containing a).index 3)).flags.contains .userAccessible = false)
    (hp : m.access? root a = some p) : p.user = false := by
  unfold access? accessFrom at hp
  simp only [Nat.reduceAdd, VirtAddr.index_eq] at hp
  split at hp
  · cases hp
  · split at hp
    · cases hp
    · obtain ⟨q, -, rfl⟩ := Option.map_eq_some_iff.mp hp
      exact Bool.and_eq_false_iff.mpr (.inl hroot)

/-- A root in which nothing is in use permits everything that is mapped: nothing. -/
theorem Permits.ofRoot {kind : SpaceKind} {root : Nat} (asked : Page → Flags)
    (hm : ∀ g : Page, (kind = .kernel ∨ (AddressSpace.ofRoot kind root).accepts g = true) →
      m.entry root (g.index 3) = .unused) : Permits m (.ofRoot kind root) asked := by
  refine ⟨_, Tree.ofRoot asked hm, ⟨fun {h l t} hh hl htable => ?_⟩⟩
  split at htable
  · next heq =>
    cases htable
    rw [heq.1, hm h (Or.inr hh)]
    exact Flags.suits_none kind
  · cases htable

end

/-! ## 5. The mapper -/

namespace Mapper

variable {base : Nat} {others : List Nat} {s s' : Ram × AddressSpace} {asked : Page → Flags}
  {needs : Needs} {τ : Tables} {page : Page} {leaf flags : Flags} {table frame level : Nat}

/-- **One step down** opens the way to the page one level further. -/
theorem opens_descend (hb : Books base others s) (ht : Tree s.1.memory s.2 asked τ)
    (ho : Opens s.1.memory s.2 needs τ) (hg : s.2.accepts page = true) (hl : level < 3)
    (htable : τ (level + 1) (page.stem (level + 1)) = some table)
    (hleaf : leaf.contains .present = true)
    (hneed : (Flags.ofTables leaf).Suits s.2.kind (.ofTables leaf))
    (hnone : ∀ h k, k ≤ level → s.2.frameAt? h = none → needs h k = .none) :
    Outcome (descend page leaf table (page.index (level + 1)) s)
      (fun _ s' => ∃ τ', Tree s'.1.memory s'.2 asked τ' ∧
        Opens s'.1.memory s'.2 (needs.raise page (· = level) (.ofTables leaf)) τ')
      fun _ s' => s' = s := by
  obtain ⟨hpresent, hhuge⟩ := Flags.contains_ofTables leaf
  rw [hleaf] at hpresent
  have hlead := ht.inner hg hl htable
  obtain ⟨ram, space⟩ := s
  cases hnext : τ level (page.stem level) with
  | none =>
    have hunused := hlead.eq_unused hnext
    cases hok : ram.pool.allocate with
    | error e => exact .of_refused (descend_of_error page leaf hunused hok) rfl
    | ok r =>
      obtain ⟨frame, pool⟩ := r
      have hp := FramePool.Holds.of_allocate hb hok
      have hfresh : frame ∉ space.tableFrames := fun hin => (List.nodup_cons.mp hp.nodup).1
        (List.mem_append_left _ (AddressSpace.mem_ownedFrames hin))
      have hlt : frame < 2 ^ 40 := Nat.lt_trans (hp.lt_maxFrames List.mem_cons_self) (by decide)
      refine .of_ok (descend_of_ok page leaf hunused hok) ⟨_,
        ht.link hg hl htable hnext hfresh (Entry.leadsTo_ofFrame hlt hpresent hhuge),
        ho.link ht htable hfresh hneed fun h k hh hk hstem => hnone h k hk ?_⟩
      exact ht.frameAt?_eq_none hh (by omega) (hstem ▸ hnext)
  | some next =>
    rw [hnext] at hlead
    unfold descend
    dsimp only at hlead ⊢
    rw [if_neg (Entry.ne_unused hlead.1)]
    simp only [hlead.2.1, Bool.false_eq_true, if_false]
    split
    · next henough => exact ⟨τ, ht, ho.raise htable henough⟩
    · refine ⟨τ, ht.relax hg htable ?_, ho.relax ht htable hneed rfl⟩
      rw [hnext]
      exact hlead.relax hhuge

/-- **The way down** opens the way to the page. -/
theorem opens_reach (hleaf : leaf.contains .present = true) : ∀ {level table : Nat}
    {s : Ram × AddressSpace} {τ : Tables} {needs : Needs}, Books base others s →
    Tree s.1.memory s.2 asked τ → Opens s.1.memory s.2 needs τ → s.2.accepts page = true →
    s.2.frameAt? page = none → level ≤ 3 → τ level (page.stem level) = some table →
    (Flags.ofTables leaf).Suits s.2.kind (.ofTables leaf) →
    (∀ h k, k < level → s.2.frameAt? h = none → needs h k = .none) →
      Outcome (reach page leaf level table s)
        (fun _ s' => ∃ τ', Tree s'.1.memory s'.2 asked τ' ∧
          Opens s'.1.memory s'.2 (needs.raise page (· < level) (.ofTables leaf)) τ')
        fun _ s' => ∃ τ', Tree s'.1.memory s'.2 asked τ' ∧ Opens s'.1.memory s'.2 needs τ' := by
  intro level
  induction level with
  | zero =>
    intro table s τ needs hb ht ho _ _ _ _ _ _
    refine ⟨τ, ht, ho.mono fun h k _ => ?_⟩
    rw [Needs.raise, if_neg fun hr => Nat.not_lt_zero k hr.2]
    exact Flags.contains_refl _
  | succ level ih =>
    intro table s τ needs hb ht ho hg hfree hl htable hneed hnone
    refine Outcome.bind (((books_descend page leaf table (page.index (level + 1)) hb).and
      ((tree_descend hb ht hg (by omega) htable hleaf).and (opens_descend hb ht ho hg (by omega) htable
        hleaf hneed fun h k hk => hnone h k (by omega)))).mono (fun _ _ h => h) ?_) ?_
    · rintro e s' ⟨-, -, rfl⟩
      exact ⟨τ, ht, ho⟩
    · rintro next s₁ ⟨⟨hb₁, -⟩, ⟨τ₁, hgrows, hnext, -⟩, τ₂, ht₂, ho₂⟩
      have hframe : ∀ h, s₁.2.frameAt? h = s.2.frameAt? h := AddressSpace.frameAt?_congr hgrows.pages
      have hraised : ∀ h k, k < level → s₁.2.frameAt? h = none →
          needs.raise page (· = level) (.ofTables leaf) h k = .none := fun h k hk hnot => by
        rw [Needs.raise, if_neg fun hr => by omega]
        exact hnone h k (by omega) ((hframe h).symm.trans hnot)
      refine (ih hb₁ hgrows.tree (ho₂.of_tree ht₂ hgrows.tree) (hgrows.within.accepts ▸ hg)
        ((hframe page).trans hfree) (by omega) hnext (hgrows.within.kind ▸ hneed) hraised).mono ?_ ?_
      · rintro _ s₂ ⟨τ₃, ht₃, ho₃⟩
        rw [Needs.raise_succ] at ho₃
        exact ⟨τ₃, ht₃, ho₃⟩
      · rintro _ s₂ ⟨τ₃, ht₃, ho₃⟩
        refine ⟨τ₃, ht₃, ho₃.mono fun h k _ => ?_⟩
        rw [Needs.raise]
        split
        · next hr =>
          rw [hr.1, hr.2, hnone page level (Nat.lt_succ_self level) hfree]
          exact Flags.contains_none _
        · exact Flags.contains_refl _

/-- A page that is not mapped needs nothing of the entries above it. -/
theorem needed_eq_none {space : AddressSpace} {h : Page} (k : Nat) (hfree : space.frameAt? h = none) :
    space.needed asked h k = .none := by
  rw [AddressSpace.needed, hfree]
  rfl

/-- What is needed depends on the record of pages only. -/
theorem needed_congr {space space' : AddressSpace} (hpages : space'.pages = space.pages)
    (asked : Page → Flags) : space'.needed asked = space.needed asked := by
  funext h k
  rw [AddressSpace.needed, AddressSpace.frameAt?_congr hpages, AddressSpace.needed]

/-- One page more needs what was asked for it. -/
theorem needed_addPage (space : AddressSpace) (asked : Page → Flags) (h : Page) {k : Nat} (hk : k < 3) :
    (space.addPage page frame).needed (ask asked page flags) h k =
      (space.needed asked).raise page (· < 3) (.ofTables flags.inForce) h k := by
  simp only [AddressSpace.needed, Needs.raise, AddressSpace.frameAt?_addPage, ask]
  by_cases hh : h = page
  · simp only [hh, hk, and_self, if_true, Option.isSome_some]
  · simp only [hh, false_and, if_false]

/-- A page less needs less. -/
theorem contains_needed_removePage (space : AddressSpace) (asked : Page → Flags) (page h : Page)
    (k : Nat) : (space.needed asked h k).contains ((space.removePage page).needed asked h k) = true := by
  simp only [AddressSpace.needed, AddressSpace.frameAt?_removePage]
  by_cases hh : h = page
  · simp only [hh, if_true, Option.isSome_none, Bool.false_eq_true, if_false]
    exact Flags.contains_none _
  · simp only [hh, if_false]
    exact Flags.contains_refl _

/-- **Mapping a page** allows what was asked for it, and leaves all others what they allow, also if it is
refused. -/
theorem permits_map (hb : Books base others s) (hp : Permits s.1.memory s.2 asked)
    (hframe : frame < 2 ^ 40) (hkind : s.2.kind = .kernel → flags.contains .userAccessible = false) :
    Outcome (map page frame flags s)
      (fun _ s' => Permits s'.1.memory s'.2 (ask asked page flags))
      fun _ s' => Permits s'.1.memory s'.2 asked := by
  obtain ⟨τ, ht, ho⟩ := hp
  obtain ⟨ram, space⟩ := s
  unfold map
  dsimp only
  cases hg : space.accepts page with
  | false => exact ⟨τ, ht, ho⟩
  | true =>
    simp only [Bool.not_true, Bool.false_eq_true, if_false]
    split
    · exact ⟨τ, ht, ho⟩
    · next hnot =>
      have hfree : space.frameAt? page = none := Option.not_isSome_iff_eq_none.mp hnot
      have hleaf := Flags.contains_present_inForce flags
      have hneed : (Flags.ofTables flags.inForce).Suits space.kind (.ofTables flags.inForce) :=
        Flags.suits_ofTables fun hkernel =>
          (congrArg Access.user flags.access_inForce).trans (hkind hkernel)
      rw [Frame.address_of_lt hframe]
      refine Outcome.bind (((tree_reach hleaf hb ht hg (Nat.le_refl 3) (ht.root hg)).and
        (opens_reach hleaf hb ht ho hg hfree (Nat.le_refl 3) (ht.root hg) hneed
          fun h k _ => needed_eq_none k)).mono (fun _ _ h => h) ?_) ?_
      · rintro e s₁ ⟨⟨-, -, -, τ₁, hgrows⟩, τ₂, ht₂, ho₂⟩
        refine ⟨τ₂, ht₂, ?_⟩
        rw [needed_congr hgrows.pages]
        exact ho₂
      · rintro last s₁ ⟨⟨-, τ₁, hgrows, hlast, -⟩, τ₂, ht₂, ho₂⟩
        have hg₁ : s₁.2.accepts page = true := hgrows.within.accepts ▸ hg
        have hfree₁ : s₁.2.frameAt? page = none :=
          (AddressSpace.frameAt?_congr hgrows.pages page).trans hfree
        have hunused := hgrows.tree.leaves hg₁ hlast
        rw [hfree₁] at hunused
        cases hflags : flags.contains .huge with
        | true => exact .of_halted (writeLeaf_of_huge s₁.2 frame hunused hflags)
        | false =>
          have hok := writeLeaf_of_unused s₁.2 frame hunused hflags
          obtain ⟨ram₂, hok', -, htree⟩ := tree_writeLeaf hgrows.tree hg₁ hfree₁ hlast hframe hflags
          cases hok.symm.trans hok'
          have hopen := (ho₂.of_tree ht₂ hgrows.tree).setLeaf hgrows.tree hlast
            (.ofFrame frame flags.inForce)
          refine .of_ok hok ⟨τ₁, htree, ⟨fun {h k t} hh hk htable => ?_⟩⟩
          rw [needed_addPage s₁.2 asked h hk, needed_congr hgrows.pages]
          exact hopen.suits hh hk htable

/-- **Unmapping a page** leaves all others what they allow. -/
theorem permits_unmap (hp : Permits s.1.memory s.2 asked) (page : Page) :
    Outcome (unmap page s) (fun _ s' => Permits s'.1.memory s'.2 asked)
      fun _ s' => Permits s'.1.memory s'.2 asked := by
  obtain ⟨τ, ht, ho⟩ := hp
  have hcases := unmap_cases ht page
  obtain ⟨ram, space⟩ := s
  rcases hcases with ⟨-, hrefused⟩ | ⟨frame, s', hok, hun⟩
  · exact .of_refused hrefused ⟨τ, ht, ho⟩
  · obtain ⟨hg, hsome, -⟩ := ht.mapped hun.mapped
    obtain ⟨table, htable⟩ := Option.isSome_iff_exists.mp hsome
    have hs' : s' = ({ ram with memory := ram.memory.setEntry table (page.index 0) .unused },
        space.removePage page) := by
      unfold unmap at hok
      simp only [hun.mapped, ht.leafTable?_eq hg, htable] at hok
      split at hok <;> cases hok
      rfl
    subst hs'
    have htree : Tree (ram.memory.setEntry table (page.index 0) (.ofLeaf (asked page) none))
        (space.removePage page) asked τ :=
      ht.setLeaf hg htable rfl rfl rfl (fun g => AddressSpace.frameAt?_removePage _ _ _)
        (AddressSpace.distinct_removePage ht.distinct) (fun _ _ => rfl) fun f h => by cases h
    have hopen := (ho.setLeaf ht htable .unused).mono fun h k _ =>
      contains_needed_removePage space asked page h k
    exact .of_ok hok ⟨τ, htree, ⟨hopen.suits⟩⟩

end Mapper

end KernelCore
