/-
# The room in a heap, and the layout that its blocks in use leave

Two facts about a tiled heap that callers rely on without looking at blocks.

* `Tiled.exists_alloc_iff`: the statistic `largestFree` is exact.  A request is served if and only
  if it is not larger, where a request for nothing counts as one for a byte.  The rounding of
  requests (`fits_iff`) is what could break this: it adds a header and rounds up, and a block has
  room if and only if its size without the header is enough *before* rounding.
* `Tiled.unique`: where the blocks in use are is all that there is to know.  As no two free blocks
  are neighbours, each gap between blocks in use is one free block, so that two tiled heaps over one
  range with the same blocks in use have the same blocks.
-/
import KernelCore.Proofs.Heap.Transitions

namespace KernelCore

/-- A running maximum reaches `n` where it begins or at one of the numbers. -/
theorem le_foldl_max_iff {n : Nat} : ∀ {xs : List Nat} {a : Nat},
    n ≤ xs.foldl max a ↔ n ≤ a ∨ ∃ x ∈ xs, n ≤ x
  | [], a => by simp
  | x :: xs, a => by
    rw [List.foldl_cons, le_foldl_max_iff, List.exists_mem_cons_iff, ← or_assoc]
    exact or_congr_left (by omega)

namespace Heap

variable {h h' : Heap} {bs bs' : List Block} {b c : Block} {n need : Nat}

/-! ## 1. What a request needs -/

/-- A free block has the statistic's room. -/
theorem le_largestFree_iff {total : Nat} (hn : 0 < n) :
    n ≤ (statsOf total bs).largestFree ↔ ∃ b ∈ bs, b.used = false ∧ n ≤ b.capacity := by
  simp only [statsOf, le_foldl_max_iff, List.mem_map, List.mem_filter, Bool.not_eq_true']
  constructor
  · rintro (h₀ | ⟨_, ⟨b, ⟨hb, hfree⟩, rfl⟩, hle⟩)
    · omega
    · exact ⟨b, hb, hfree, hle⟩
  · rintro ⟨b, hb, hfree, hle⟩
    exact .inr ⟨_, ⟨b, ⟨hb, hfree⟩, rfl⟩, hle⟩

theorem blockSizeFor?_eq (n : Nat) : blockSizeFor? n =
    if 2 ^ 64 ≤ max n 1 + 31 then none else some ((max n 1 + 31) / 16 * 16) := rfl

/-- **A block has room for a request exactly if its payload has.**  Rounding up costs nothing, as
the block is a multiple of what is rounded to. -/
theorem fits_iff (hb : b.WellSized) (hlt : b.size < 2 ^ 64) :
    (∃ need, blockSizeFor? n = some need ∧ need ≤ b.size) ↔ max n 1 ≤ b.capacity := by
  obtain ⟨hal, hmin⟩ := hb
  simp only [heapAlign, minBlock, headerSize] at hal hmin
  simp only [blockSizeFor?_eq, Block.capacity, headerSize, Option.ite_none_left_eq_some, Option.some.injEq]
  constructor
  · rintro ⟨need, ⟨-, hneed⟩, hle⟩
    omega
  · intro hle
    exact ⟨_, ⟨by omega, rfl⟩, by omega⟩

theorem Tiled.size_lt (ht : h.Tiled bs) (hb : b ∈ bs) : b.size < 2 ^ 64 := by
  have hnext := ht.next_le hb
  have hlimit := ht.limit_lt
  simp only [Block.next] at hnext
  omega

/-- The search for a block of the size that a request needs succeeds if some free block has the
room. -/
theorem Tiled.exists_find?_iff (ht : h.Tiled bs) :
    (∃ need b, blockSizeFor? n = some need ∧
      bs.find? (fun b => !b.used && decide (need ≤ b.size)) = some b) ↔
    max n 1 ≤ (statsOf h.size bs).largestFree := by
  rw [le_largestFree_iff (by omega)]
  constructor
  · rintro ⟨need, b, hneed, hfind⟩
    have hmem := List.mem_of_find?_eq_some hfind
    have hfits := List.find?_some hfind
    simp only [Bool.and_eq_true, Bool.not_eq_true', decide_eq_true_eq] at hfits
    exact ⟨b, hmem, hfits.1, (fits_iff (ht.sized b hmem) (ht.size_lt hmem)).mp ⟨need, hneed, hfits.2⟩⟩
  · rintro ⟨b, hmem, hfree, hle⟩
    obtain ⟨need, hneed, hfits⟩ := (fits_iff (ht.sized b hmem) (ht.size_lt hmem)).mpr hle
    cases hfind : bs.find? (fun b => !b.used && decide (need ≤ b.size)) with
    | some c => exact ⟨need, c, hneed, hfind⟩
    | none =>
      have := List.find?_eq_none.mp hfind b hmem
      simp [hfree, hfits] at this

/-- **The largest request that would be served** is what the statistic says. -/
theorem Tiled.exists_alloc_iff (ht : h.Tiled bs) :
    (∃ r, h.alloc n = .ok r) ↔ max n 1 ≤ (statsOf h.size bs).largestFree := by
  rw [← ht.exists_find?_iff, alloc_eq ht]
  constructor
  · rintro ⟨r, hok⟩
    split at hok
    · cases hok
    · next need hneed =>
      split at hok
      · cases hok
      · next b hb => exact ⟨need, b, hneed, hb⟩
  · rintro ⟨need, b, hneed, hb⟩
    simp only [hneed, hb]
    exact ⟨_, rfl⟩

/-- Every larger request is refused for want of memory. -/
theorem Tiled.alloc_eq_error (ht : h.Tiled bs) (hlt : (statsOf h.size bs).largestFree < max n 1) :
    h.alloc n = .error (.refused .outOfMemory) := by
  rw [alloc_eq ht]
  split
  · rfl
  · next need hneed =>
    split
    · rfl
    · next b hb =>
      have := ht.exists_find?_iff.mp ⟨need, b, hneed, hb⟩
      omega

/-! ## 2. The layout -/

/-- Of two runs from one address with the same blocks in use, if both begin with a free block, the
first one of the first is not longer than the first one of the second: what follows the latter is
in use, and so is in the first run too, behind its first block. -/
theorem next_le_of_free {a z : Nat} (hb : Contiguous a z (b :: bs)) (hc : Contiguous a z (c :: bs'))
    (hbu : b.used = false) (hcu : c.used = false) (hsep : (c :: bs').IsChain Block.Separate)
    (hused : ∀ d ∈ c :: bs', d.used = true → d ∈ b :: bs) : b.next ≤ c.next := by
  by_contra hlt
  obtain ⟨-, hbs⟩ := hb
  obtain ⟨-, hcs⟩ := hc
  have hle := hbs.le
  cases bs' with
  | nil =>
    have := Contiguous.nil_iff.mp hcs
    omega
  | cons d ds =>
    have hdu : d.used = true := by
      have := (List.isChain_cons_cons.mp hsep).1
      exact this.resolve_left (by simp [hcu])
    rcases List.mem_cons.mp (hused d (by simp) hdu) with rfl | hd
    · rw [hbu] at hdu
      cases hdu
    · have := (hbs.mem_bounds d hd).1
      have := hcs.1
      omega

/-- **A run of blocks is determined by those in use.** -/
theorem eq_of_contiguous {z : Nat} : ∀ {bs bs' : List Block} {a : Nat}, Contiguous a z bs →
    Contiguous a z bs' → (∀ b ∈ bs, b.WellSized) → (∀ b ∈ bs', b.WellSized) →
    bs.IsChain Block.Separate → bs'.IsChain Block.Separate →
    (∀ b, b.used = true → (b ∈ bs ↔ b ∈ bs')) → bs = bs'
  | [], [], _, _, _, _, _, _, _, _ => rfl
  | [], c :: cs, a, hb, hc, _, hcs, _, _, _ => by
    have hlt := (hcs c List.mem_cons_self).lt_next
    have := hc.2.le
    have := hc.1
    have := Contiguous.nil_iff.mp hb
    omega
  | b :: bs, [], a, hb, hc, hbs, _, _, _, _ => by
    have hlt := (hbs b List.mem_cons_self).lt_next
    have := hb.2.le
    have := hb.1
    have := Contiguous.nil_iff.mp hc
    omega
  | b :: bs, c :: cs, a, hb, hc, hbs, hcs, hsepb, hsepc, hused => by
    have hltb := (hbs b List.mem_cons_self).lt_next
    have hltc := (hcs c List.mem_cons_self).lt_next
    have haddress : b.address = c.address := hb.1.trans hc.1.symm
    have hbehind : ∀ d, (d ∈ bs → b.next ≤ d.address) ∧ (d ∈ cs → c.next ≤ d.address) := fun d =>
      ⟨fun hd => (hb.2.mem_bounds d hd).1, fun hd => (hc.2.mem_bounds d hd).1⟩
    have heq : b = c := by
      cases hbu : b.used with
      | true =>
        refine (List.mem_cons.mp ((hused b hbu).mp List.mem_cons_self)).resolve_right fun hd => ?_
        have := (hbehind b).2 hd
        omega
      | false =>
        cases hcu : c.used with
        | true =>
          refine ((List.mem_cons.mp ((hused c hcu).mpr List.mem_cons_self)).resolve_right
            fun hd => ?_).symm
          have := (hbehind c).1 hd
          omega
        | false =>
          have h₁ := next_le_of_free hb hc hbu hcu hsepc fun d hd hu => (hused d hu).mpr hd
          have h₂ := next_le_of_free hc hb hcu hbu hsepb fun d hd hu => (hused d hu).mp hd
          obtain ⟨address, size, used⟩ := b
          obtain ⟨address', size', used'⟩ := c
          simp only [Block.next] at haddress h₁ h₂ hbu hcu
          simp only [Block.mk.injEq]
          exact ⟨haddress, by omega, hbu.trans hcu.symm⟩
    subst heq
    refine congrArg (b :: ·) (eq_of_contiguous hb.2 hc.2
      (fun d hd => hbs d (List.mem_cons_of_mem _ hd)) (fun d hd => hcs d (List.mem_cons_of_mem _ hd))
      (List.isChain_cons.mp hsepb).2 (List.isChain_cons.mp hsepc).2 fun d hu => ?_)
    have hd := hused d hu
    simp only [List.mem_cons] at hd
    by_cases hdb : d = b
    · subst hdb
      refine iff_of_false (fun hd => ?_) fun hd => ?_
      · have := (hbehind d).1 hd
        omega
      · have := (hbehind d).2 hd
        omega
    · simpa only [hdb, false_or] using hd

/-- The heap has the block, and it is in use. -/
def InUse (h : Heap) (b : Block) : Prop := ∃ bs, h.blocks = .ok bs ∧ b ∈ bs.filter Block.used

theorem Tiled.inUse_iff (ht : h.Tiled bs) : h.InUse b ↔ b ∈ bs.filter Block.used := by
  constructor
  · rintro ⟨bs', hblocks, hb⟩
    cases hblocks.symm.trans ht.blocks_eq
    exact hb
  · exact fun hb => ⟨bs, ht.blocks_eq, hb⟩

/-- **A block that came into use** was not, and is besides those that were. -/
theorem Admits.inUse_iff (ha : h.Admits h' bs bs' c) (ht : h.Tiled bs) :
    ¬h.InUse c ∧ ∀ b, h'.InUse b ↔ b = c ∨ h.InUse b := by
  refine ⟨fun hc => ?_, fun b => ?_⟩
  · have hnodup := ha.perm.nodup_iff.mp (ha.tiled.nodup.filter _)
    exact (List.nodup_cons.mp hnodup).1 (ht.inUse_iff.mp hc)
  · rw [ha.tiled.inUse_iff, ht.inUse_iff, ha.perm.mem_iff, List.mem_cons]

/-- **A block that was returned** is known by its payload, and all others are in use as before. -/
theorem Releases.inUse_iff (hr : h.Releases h' bs bs' c) (ht : h.Tiled bs) :
    h.InUse c ∧ ∀ b, h'.InUse b ↔ h.InUse b ∧ b.payload ≠ c.payload := by
  have hin : c ∈ bs.filter Block.used := hr.perm.mem_iff.mpr List.mem_cons_self
  refine ⟨ht.inUse_iff.mpr hin, fun b => ?_⟩
  have hnodup := hr.perm.nodup_iff.mp (ht.nodup.filter _)
  rw [hr.tiled.inUse_iff, ht.inUse_iff, hr.perm.mem_iff, List.mem_cons]
  constructor
  · intro hb
    have hold : b ∈ bs.filter Block.used := hr.perm.mem_iff.mpr (List.mem_cons_of_mem _ hb)
    refine ⟨Or.inr hb, fun hpayload => ?_⟩
    have heq := ht.eq_of_payload_eq (List.mem_of_mem_filter hold) (List.mem_of_mem_filter hin) hpayload
    exact (List.nodup_cons.mp hnodup).1 (heq ▸ hb)
  · rintro ⟨rfl | hb, hpayload⟩
    · exact absurd rfl hpayload
    · exact hb

/-- Writes that spare the headers leave the blocks what they were. -/
theorem Tiled.congr (ht : h.Tiled bs) (hstart : h'.start = h.start) (hsize : h'.size = h.size)
    (hm : ∀ b ∈ bs, h.memory.AgreeOn h'.memory b.address b.payload) : h'.Tiled bs := by
  have hlimit : h'.limit = h.limit := by rw [limit, limit, hstart, hsize]
  refine ⟨hstart ▸ ht.aligned, hlimit ▸ ht.limit_lt, ?_, ht.sized, ?_, ht.separate⟩
  · rw [hstart, hlimit]
    exact ht.contiguous
  · exact fun b hb => (ht.headers b hb).congr (hm b hb)

/-- **The blocks in use determine the layout**: over one range there is one way to tile the heap
with them. -/
theorem Tiled.unique (ht : h.Tiled bs) (ht' : h'.Tiled bs') (hstart : h'.start = h.start)
    (hsize : h'.size = h.size) (hused : ∀ b, h'.InUse b ↔ h.InUse b) : bs' = bs := by
  have hlimit : h'.limit = h.limit := by rw [limit, limit, hstart, hsize]
  refine eq_of_contiguous (hstart ▸ hlimit ▸ ht'.contiguous) ht.contiguous ht'.sized ht.sized
    ht'.separate ht.separate fun b hu => ?_
  have hb := hused b
  rw [ht'.inUse_iff, ht.inUse_iff] at hb
  simpa only [List.mem_filter, hu, and_true] using hb

end Heap

end KernelCore
