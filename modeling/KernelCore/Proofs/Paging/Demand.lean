/-
# The tables that are missing on the way to a page

A page is mapped through a table of each level.  Those that are not there yet have to be drawn, and pages
that lie close together share them.  So tables are counted by what they are for: a table goes by its level
and by the stem of its pages.

* `Memory.missingFrom`: the missing tables, as a walk down the tables finds them;
* `Tree.missingFrom_eq`: in a space whose tables are its record, these are the missing ones;
* `Mapper.Draws`: tables were drawn; `Draws.trans`: what was drawn before is no longer missing.
-/
import KernelCore.Proofs.Paging.Tree
import Mathlib.Data.Finset.Card
import Mathlib.Data.Finset.Image

namespace KernelCore

/-! ## 1. What is missing -/

/-- The tables below a level that are missing on the way to a page, from a table of that level. -/
def Memory.missingFrom (m : Memory) (page : Page) : Nat → Nat → Finset (Nat × Nat)
  | 0, _ => ∅
  | level + 1, table =>
    let e := m.entry table (page.index (level + 1))
    if e = .unused then (Finset.range (level + 1)).image fun l => (l, page.stem l)
    else m.missingFrom page level e.frame.toNat

namespace Tables

variable {τ τ' : Tables} {page g : Page} {levels levels' : Finset Nat} {level l a : Nat}

/-- The tables of some levels that are missing on the way to a page. -/
def missing (τ : Tables) (page : Page) (levels : Finset Nat) : Finset (Nat × Nat) :=
  (levels.filter fun l => τ l (page.stem l) = none).image fun l => (l, page.stem l)

theorem mem_missing : (l, a) ∈ τ.missing page levels ↔ l ∈ levels ∧ a = page.stem l ∧ τ l a = none := by
  simp only [missing, Finset.mem_image, Finset.mem_filter, Prod.mk.injEq]
  constructor
  · rintro ⟨k, ⟨hk, hnone⟩, rfl, rfl⟩
    exact ⟨hk, rfl, hnone⟩
  · rintro ⟨hl, rfl, hnone⟩
    exact ⟨l, ⟨hl, hnone⟩, rfl, rfl⟩

theorem missing_union (τ : Tables) (page : Page) (levels levels' : Finset Nat) :
    τ.missing page (levels ∪ levels') = τ.missing page levels ∪ τ.missing page levels' := by
  rw [missing, Finset.filter_union, Finset.image_union, missing, missing]

/-- Of each level one table may be missing. -/
theorem card_missing_le (τ : Tables) (page : Page) (levels : Finset Nat) :
    (τ.missing page levels).card ≤ levels.card :=
  Finset.card_image_le.trans (Finset.card_filter_le _ _)

/-- A table that is there is not missing. -/
theorem missing_of_some {table : Nat} (h : τ level (page.stem level) = some table) :
    τ.missing page {level} = ∅ := by
  rw [missing, Finset.filter_singleton, if_neg (by rw [h]; exact Option.some_ne_none _), Finset.image_empty]

theorem missing_of_none (h : τ level (page.stem level) = none) :
    τ.missing page {level} = {(level, page.stem level)} := by
  rw [missing, Finset.filter_singleton, if_pos h, Finset.image_singleton]

end Tables

/-- **The walk down the tables finds what is missing.** -/
theorem Tree.missingFrom_eq {m : Memory} {s : AddressSpace} {asked : Page → Flags} {τ : Tables} {page : Page}
    (ht : Tree m s asked τ) (hg : s.accepts page = true) : ∀ {level table : Nat}, level ≤ 3 →
      τ level (page.stem level) = some table →
        m.missingFrom page level table = τ.missing page (Finset.range level) := by
  intro level
  induction level with
  | zero => exact fun _ _ => rfl
  | succ level ih =>
    intro table hl htable
    have hlead := ht.inner hg hl htable
    unfold Memory.missingFrom
    dsimp only
    cases hnext : τ level (page.stem level) with
    | none =>
      have hall : ∀ l ∈ Finset.range (level + 1), τ l (page.stem l) = none := fun l hl' => by
        have hle : l ≤ level := Nat.lt_succ_iff.mp (Finset.mem_range.mp hl')
        refine ht.eq_none_of_le hg (n := level - l) (by omega) ?_
        rw [Nat.add_sub_cancel' hle]
        exact hnext
      rw [if_pos (hlead.eq_unused hnext), Tables.missing, Finset.filter_true_of_mem hall]
    | some next =>
      rw [hnext] at hlead
      obtain ⟨hpresent, -, hframe⟩ := hlead
      rw [if_neg (Entry.ne_unused hpresent), hframe, ih (by omega) hnext, Finset.range_add_one,
        Finset.insert_eq, Tables.missing_union, Tables.missing_of_some hnext, Finset.empty_union]

/-! ## 2. Tables are drawn -/

namespace Mapper

variable {τ τ' τ'' : Tables} {new : Finset (Nat × Nat)} {s s' s'' : Ram × AddressSpace} {page : Page}
  {levels : Finset Nat}

/-- **Tables were drawn**, each for one of those that were missing. -/
structure Draws (new : Finset (Nat × Nat)) (τ τ' : Tables) (s s' : Ram × AddressSpace) : Prop where
  tables : ∀ l a, τ' l a = none ↔ τ l a = none ∧ (l, a) ∉ new
  count : s'.2.tables.length = s.2.tables.length + new.card

/-- Not all of the tables were drawn that would have had to be. -/
def FallsShort (new : Finset (Nat × Nat)) (s s' : Ram × AddressSpace) : Prop :=
  s'.2.tables.length < s.2.tables.length + new.card

theorem FallsShort.mono {new' : Finset (Nat × Nat)} (h : FallsShort new s s') (hsub : new ⊆ new') :
    FallsShort new' s s' :=
  Nat.lt_of_lt_of_le h (Nat.add_le_add_left (Finset.card_le_card hsub) _)

/-- No tables were drawn. -/
theorem Draws.of_eq (τ : Tables) (h : s'.2.tables = s.2.tables) : Draws ∅ τ τ s s' :=
  ⟨fun l a => by simp, congrArg List.length h⟩

/-- **What was drawn is no longer missing.** -/
theorem Draws.missing_eq (h : Draws new τ τ' s s') (page : Page) (levels : Finset Nat) :
    τ'.missing page levels = τ.missing page levels \ new := by
  ext ⟨l, a⟩
  rw [Finset.mem_sdiff, Tables.mem_missing, Tables.mem_missing, h.tables]
  constructor
  · exact fun ⟨hl, ha, hnone, hnot⟩ => ⟨⟨hl, ha, hnone⟩, hnot⟩
  · exact fun ⟨⟨hl, ha, hnone⟩, hnot⟩ => ⟨hl, ha, hnone, hnot⟩

/-- What is drawn then comes to what was missing at first. -/
theorem Draws.card_add (h : Draws new τ τ' s s') (page : Page) (levels : Finset Nat) :
    new.card + (τ'.missing page levels).card = (new ∪ τ.missing page levels).card := by
  rw [h.missing_eq, Nat.add_comm, Finset.card_sdiff_add_card, Finset.union_comm]

theorem Draws.trans (h : Draws new τ τ' s s') (h' : Draws (τ'.missing page levels) τ' τ'' s' s'') :
    Draws (new ∪ τ.missing page levels) τ τ'' s s'' := by
  refine ⟨fun l a => ?_, ?_⟩
  · rw [h'.tables, h.tables, h.missing_eq, Finset.mem_sdiff, Finset.mem_union, not_or, and_assoc]
    refine and_congr_right fun _ => and_congr_right fun hnew => ?_
    rw [not_and_or, not_not]
    exact or_iff_left hnew
  · rw [h'.count, h.count, Nat.add_assoc, h.card_add]

theorem Draws.fallsShort (h : Draws new τ τ' s s') (h' : FallsShort (τ'.missing page levels) s' s'') :
    FallsShort (new ∪ τ.missing page levels) s s'' := by
  have hcard := h.card_add page levels
  have hcount := h.count
  unfold FallsShort at h' ⊢
  omega

end Mapper

end KernelCore
