/-
# Blocks that tile the heap

The heap is known only by its headers.  This module says what it means that a list of blocks *is*
the heap: the blocks follow each other from its first byte to its last, each has the size of a
block, no two free ones are neighbours, and memory holds the header of each (`Heap.Tiled`).

On a tiled heap every walk is a list operation:

* `blockAt_of_mem`: a header that a walk comes to is accepted;
* `Tiled.blocks_eq`: the walk over all blocks is the list;
* `firstFit_eq`: the search for room is `List.find?`;
* `seek_eq`: the walk up to an address takes the blocks in front of it;
* `Tiled.replace`: to replace some blocks by others, memory may change where the old ones lie, and
  has to hold the headers of the new ones.
-/
import KernelCore.Heap.Alloc
import Mathlib.Algebra.Group.Nat.Defs
import Mathlib.Data.List.Chain
import Mathlib.Data.List.Nodup

namespace KernelCore

/-! ## 1. Runs of blocks -/

namespace Block

/-- The block has a size that the heap hands out. -/
def WellSized (b : Block) : Prop := b.size % heapAlign = 0 ∧ minBlock ≤ b.size

/-- The tag that the header of the block carries. -/
def tag (b : Block) : UInt64 := if b.used then usedTag else freeTag

/-- The memory holds the header of the block. -/
def HeaderIn (b : Block) (m : Memory) : Prop :=
  (m.word b.address).toNat = b.size ∧ m.word (b.address + 8) = b.tag

/-- The address is one of the block's. -/
def Covers (b : Block) (a : Nat) : Prop := b.address ≤ a ∧ a < b.next

/-- Two free blocks are never neighbours. -/
def Separate (b c : Block) : Prop := b.used = true ∨ c.used = true

theorem WellSized.lt_next {b : Block} (h : b.WellSized) : b.address < b.next := by
  have := h.2
  simp only [minBlock, headerSize, heapAlign] at this
  simp only [next]
  omega

theorem WellSized.payload_lt_next {b : Block} (h : b.WellSized) : b.payload < b.next := by
  have := h.2
  simp only [minBlock, headerSize, heapAlign] at this
  simp only [next, payload, headerSize]
  omega

end Block

/-- The blocks follow each other without a gap, from `a` up to `z`. -/
def Contiguous : Nat → Nat → List Block → Prop
  | a, z, [] => a = z
  | a, z, b :: bs => b.address = a ∧ Contiguous b.next z bs

namespace Contiguous

@[simp] theorem nil_iff {a z : Nat} : Contiguous a z [] ↔ a = z := Iff.rfl

@[simp] theorem cons_iff {a z : Nat} {b : Block} {bs : List Block} :
    Contiguous a z (b :: bs) ↔ b.address = a ∧ Contiguous b.next z bs := Iff.rfl

/-- Two runs that meet are one run. -/
theorem append_iff {a z : Nat} : ∀ {bs cs : List Block},
    Contiguous a z (bs ++ cs) ↔ ∃ y, Contiguous a y bs ∧ Contiguous y z cs
  | [], cs => by simp
  | b :: bs, cs => by
    rw [List.cons_append, cons_iff, append_iff]
    constructor
    · rintro ⟨h, y, h₁, h₂⟩; exact ⟨y, ⟨h, h₁⟩, h₂⟩
    · rintro ⟨y, ⟨h, h₁⟩, h₂⟩; exact ⟨h, y, h₁, h₂⟩

theorem le {a z : Nat} : ∀ {bs : List Block}, Contiguous a z bs → a ≤ z
  | [], h => Nat.le_of_eq h
  | _ :: _, ⟨h₁, h₂⟩ => by
    have := h₂.le
    simp only [Block.next] at this
    omega

/-- Every block of a run lies inside it. -/
theorem mem_bounds {a z : Nat} : ∀ {bs : List Block}, Contiguous a z bs →
    ∀ b ∈ bs, a ≤ b.address ∧ b.next ≤ z
  | b :: bs, ⟨h₁, h₂⟩, c, hc => by
    rcases List.mem_cons.mp hc with rfl | hc
    · exact ⟨Nat.le_of_eq h₁.symm, h₂.le⟩
    · have h := h₂.mem_bounds c hc
      simp only [Block.next] at h ⊢
      omega

/-- No block of a run begins before those in front of it. -/
theorem address_le {a z : Nat} {pre post : List Block} {b c : Block}
    (h : Contiguous a z (pre ++ b :: post)) (hc : c ∈ b :: post) : b.address ≤ c.address := by
  obtain ⟨y, -, hrest⟩ := append_iff.mp h
  have hle := (hrest.mem_bounds c hc).1
  rwa [← hrest.1] at hle

/-- Two blocks of a run that share an address are one block. -/
theorem eq_of_covers {a z x : Nat} {b c : Block} : ∀ {bs : List Block}, Contiguous a z bs →
    b ∈ bs → c ∈ bs → b.Covers x → c.Covers x → b = c
  | d :: bs, ⟨_, h₂⟩, hb, hc, hbx, hcx => by
    have hbs := h₂.mem_bounds
    simp only [Block.Covers] at hbx hcx
    rcases List.mem_cons.mp hb with rfl | hb' <;> rcases List.mem_cons.mp hc with rfl | hc'
    · rfl
    · have := (hbs c hc').1
      omega
    · have := (hbs b hb').1
      omega
    · exact h₂.eq_of_covers hb' hc' hbx hcx

/-- No two blocks of a run begin at one address. -/
theorem nodup_address {a z : Nat} : ∀ {bs : List Block}, Contiguous a z bs →
    (∀ b ∈ bs, b.WellSized) → (bs.map Block.address).Nodup
  | [], _, _ => List.nodup_nil
  | b :: _, ⟨_, h₂⟩, hs => by
    refine List.nodup_cons.mpr ⟨?_, h₂.nodup_address fun c hc => hs c (List.mem_cons_of_mem _ hc)⟩
    intro hb
    obtain ⟨c, hc, heq⟩ := List.mem_map.mp hb
    have hle := (h₂.mem_bounds c hc).1
    have hlt := (hs b List.mem_cons_self).lt_next
    rw [heq] at hle
    exact Nat.lt_irrefl _ (Nat.lt_of_lt_of_le hlt hle)

end Contiguous

/-! ## 2. Headers in memory -/

/-- The second memory has the bytes of the first from `a` up to `z`. -/
def Memory.AgreeOn (m m' : Memory) (a z : Nat) : Prop := ∀ x, a ≤ x → x < z → m'.byte x = m.byte x

theorem Memory.AgreeOn.word {m m' : Memory} {a z x : Nat} (h : m.AgreeOn m' a z) (ha : a ≤ x)
    (hz : x + 8 ≤ z) : m'.word x = m.word x :=
  Memory.word_congr fun _ hi => h _ (by omega) (by omega)

theorem Memory.AgreeOn.mono {m m' : Memory} {a z a' z' : Nat} (h : m.AgreeOn m' a z)
    (ha : a ≤ a') (hz : z' ≤ z) : m.AgreeOn m' a' z' :=
  fun x h₁ h₂ => h x (by omega) (by omega)

/-- A header is its own sixteen bytes. -/
theorem Block.HeaderIn.congr {b : Block} {m m' : Memory} (h : b.HeaderIn m)
    (hm : m.AgreeOn m' b.address b.payload) : b.HeaderIn m' := by
  simp only [payload, headerSize] at hm
  exact ⟨by rw [hm.word (by omega) (by omega)]; exact h.1,
    by rw [hm.word (by omega) (by omega)]; exact h.2⟩

namespace Heap

variable {h : Heap} {bs : List Block}

@[simp] theorem start_setHeader (h : Heap) (address size : Nat) (tag : UInt64) :
    (h.setHeader address size tag).start = h.start := by
  simp only [setHeader]

@[simp] theorem size_setHeader (h : Heap) (address size : Nat) (tag : UInt64) :
    (h.setHeader address size tag).size = h.size := by
  simp only [setHeader]

theorem byte_setHeader_of_outside (h : Heap) (address size : Nat) (tag : UInt64) (x : Nat)
    (hx : x < address ∨ address + headerSize ≤ x) :
    (h.setHeader address size tag).memory.byte x = h.memory.byte x := by
  simp only [headerSize] at hx
  rw [setHeader, Memory.byte_setWord_of_outside _ _ _ _ (by omega),
    Memory.byte_setWord_of_outside _ _ _ _ (by omega)]

/-- A header that was written is there. -/
theorem headerIn_setHeader (h : Heap) (b : Block) (hs : b.size < 2 ^ 64) :
    b.HeaderIn (h.setHeader b.address b.size b.tag).memory := by
  constructor
  · rw [setHeader, Memory.word_setWord_of_disjoint _ _ _ _ (by omega), Memory.word_setWord_self,
      UInt64.toNat_ofNat', Nat.mod_eq_of_lt hs]
  · rw [setHeader, Memory.word_setWord_self]

theorem usedOfTag?_tag (b : Block) : usedOfTag? b.tag = some b.used := by
  unfold Block.tag
  cases b.used <;> rfl

/-! ## 3. Tiled heaps -/

/-- **The blocks are the heap.**  They follow each other from its first byte to its last, each has
the size of a block, memory holds the header of each, and no two free ones are neighbours. -/
structure Tiled (h : Heap) (bs : List Block) : Prop where
  aligned : h.start % heapAlign = 0
  limit_lt : h.limit < 2 ^ 64
  contiguous : Contiguous h.start h.limit bs
  sized : ∀ b ∈ bs, b.WellSized
  headers : ∀ b ∈ bs, b.HeaderIn h.memory
  separate : bs.IsChain Block.Separate

/-- Every block of an aligned run of blocks is aligned. -/
theorem aligned_of_contiguous {a z : Nat} : ∀ {bs : List Block}, Contiguous a z bs →
    (∀ b ∈ bs, b.WellSized) → a % heapAlign = 0 → ∀ b ∈ bs, b.address % heapAlign = 0
  | b :: _, ⟨h₁, h₂⟩, hs, ha, c, hc => by
    rcases List.mem_cons.mp hc with rfl | hc
    · rw [h₁, ha]
    · have hb := (hs b List.mem_cons_self).1
      refine aligned_of_contiguous h₂ (fun d hd => hs d (List.mem_cons_of_mem _ hd)) ?_ c hc
      simp only [heapAlign, Block.next] at ha hb ⊢
      omega

namespace Tiled

theorem address_aligned (ht : h.Tiled bs) {b : Block} (hb : b ∈ bs) : b.address % heapAlign = 0 :=
  aligned_of_contiguous ht.contiguous ht.sized ht.aligned b hb

theorem start_le (ht : h.Tiled bs) {b : Block} (hb : b ∈ bs) : h.start ≤ b.address :=
  (ht.contiguous.mem_bounds b hb).1

theorem next_le (ht : h.Tiled bs) {b : Block} (hb : b ∈ bs) : b.next ≤ h.limit :=
  (ht.contiguous.mem_bounds b hb).2

/-- Two blocks that share a byte are one block. -/
theorem eq_of_covers (ht : h.Tiled bs) {b c : Block} (hb : b ∈ bs) (hc : c ∈ bs) {x : Nat}
    (hbx : b.Covers x) (hcx : c.Covers x) : b = c :=
  ht.contiguous.eq_of_covers hb hc hbx hcx

theorem eq_of_address_eq (ht : h.Tiled bs) {b c : Block} (hb : b ∈ bs) (hc : c ∈ bs)
    (he : b.address = c.address) : b = c :=
  ht.eq_of_covers hb hc ⟨Nat.le_refl _, (ht.sized b hb).lt_next⟩
    ⟨Nat.le_of_eq he.symm, by rw [he]; exact (ht.sized c hc).lt_next⟩

theorem nodup (ht : h.Tiled bs) : bs.Nodup :=
  List.Nodup.of_map Block.address (ht.contiguous.nodup_address ht.sized)

/-- Two blocks with one payload are one block. -/
theorem eq_of_payload_eq (ht : h.Tiled bs) {b c : Block} (hb : b ∈ bs) (hc : c ∈ bs)
    (he : b.payload = c.payload) : b = c :=
  ht.eq_of_address_eq hb hc (Nat.add_right_cancel he)

theorem nodup_payload (ht : h.Tiled bs) : (bs.map Block.payload).Nodup :=
  List.Nodup.map_on (fun _ hb _ hc he => ht.eq_of_payload_eq hb hc he) ht.nodup

theorem checkedLimit_eq (ht : h.Tiled bs) : h.checkedLimit = .ok h.limit := by
  rw [checkedLimit, if_neg (by have := ht.limit_lt; omega)]

end Tiled

/-! ## 4. Walks over a tiled heap -/

/-- **A header that a walk comes to is accepted**, and says what the block is. -/
theorem blockAt_of_mem (ht : h.Tiled bs) {b : Block} (hb : b ∈ bs) :
    h.blockAt b.address = .ok b := by
  have hal := ht.address_aligned hb
  have hs := (ht.sized b hb).2
  have hl := ht.next_le hb
  have hlt := ht.limit_lt
  obtain ⟨h₁, h₂⟩ := ht.headers b hb
  simp only [heapAlign] at hal
  simp only [Block.next] at hl
  rw [blockAt, if_neg (by omega)]
  simp only [h₁, h₂, usedOfTag?_tag]
  rw [if_neg (by omega), if_neg (by omega), if_neg (by omega)]

/-- The walk over a run of blocks up to the end of the heap. -/
theorem blocksFrom_eq (hok : ∀ b ∈ bs, h.blockAt b.address = .ok b) : ∀ {a : Nat},
    Contiguous a h.limit bs → h.blocksFrom a = .ok bs := by
  induction bs with
  | nil =>
    intro a hc
    rw [blocksFrom, if_neg (by have := Contiguous.nil_iff.mp hc; omega)]
  | cons b bs ih =>
    intro a hc
    obtain ⟨rfl, hc⟩ := hc
    have hb := hok b List.mem_cons_self
    have hlt := lt_next_of_blockAt hb
    have hle := (blockAt_bounds hb).2.2
    rw [blocksFrom, if_pos (by omega)]
    split
    · next halt he => rw [hb] at he; cases he
    · next b' he =>
      rw [hb] at he
      cases he
      rw [ih (fun c hc => hok c (List.mem_cons_of_mem _ hc)) hc]
      rfl

/-- **The walk over all blocks is the list.** -/
theorem Tiled.blocks_eq (ht : h.Tiled bs) : h.blocks = .ok bs := by
  rw [blocks, ht.checkedLimit_eq]
  exact blocksFrom_eq (fun _ hb => blockAt_of_mem ht hb) ht.contiguous

theorem Tiled.stats_eq (ht : h.Tiled bs) : h.stats = .ok (statsOf h.size bs) := by
  rw [stats, ht.blocks_eq]
  rfl

/-- The search for room finds the first block of the list that is free and large enough. -/
theorem firstFit_eq (need : Nat) (hok : ∀ b ∈ bs, h.blockAt b.address = .ok b) : ∀ {a : Nat},
    Contiguous a h.limit bs →
      h.firstFit need a = .ok (bs.find? fun b => !b.used && decide (need ≤ b.size)) := by
  induction bs with
  | nil =>
    intro a hc
    rw [firstFit, if_neg (by have := Contiguous.nil_iff.mp hc; omega)]
    rfl
  | cons b bs ih =>
    intro a hc
    obtain ⟨rfl, hc⟩ := hc
    have hb := hok b List.mem_cons_self
    have hlt := lt_next_of_blockAt hb
    have hle := (blockAt_bounds hb).2.2
    rw [firstFit, if_pos (by omega)]
    split
    · next halt he => rw [hb] at he; cases he
    · next b' he =>
      rw [hb] at he
      cases he
      rw [ih (fun c hc => hok c (List.mem_cons_of_mem _ hc)) hc, List.find?_cons]
      cases !b.used && decide (need ≤ b.size) <;> rfl

/-- The walk up to an address takes the blocks in front of it, and stops behind the last of them. -/
theorem seek_eq {target z : Nat} (hz : target ≤ z) (hok : ∀ b ∈ bs, h.blockAt b.address = .ok b)
    (hlt : ∀ b ∈ bs, b.address < target) : ∀ {a : Nat} {previous : Option Block},
    Contiguous a z bs → h.seek target previous a = .ok (bs.getLast?.or previous, z) := by
  induction bs with
  | nil =>
    intro a previous hc
    have := Contiguous.nil_iff.mp hc
    rw [seek, if_neg (by omega), this]
    rfl
  | cons b bs ih =>
    intro a previous hc
    obtain ⟨rfl, hc⟩ := hc
    have hb := hok b List.mem_cons_self
    rw [seek, if_pos (hlt b List.mem_cons_self)]
    split
    · next halt he => rw [hb] at he; cases he
    · next b' he =>
      rw [hb] at he
      cases he
      rw [ih (fun c hc => hok c (List.mem_cons_of_mem _ hc))
        (fun c hc => hlt c (List.mem_cons_of_mem _ hc)) hc, List.getLast?_cons]
      cases bs.getLast? <;> rfl

/-! ## 5. Replacing blocks -/

/-- **Replacing some blocks by others.**  Memory may change only where the old blocks lie, and has
to hold the headers of the new ones. -/
theorem Tiled.replace {h' : Heap} {pre old new post : List Block}
    (ht : h.Tiled (pre ++ old ++ post)) (hstart : h'.start = h.start) (hsize : h'.size = h.size)
    {a z : Nat} (hnew : Contiguous a z new)
    (hpre : Contiguous h.start a pre) (hpost : Contiguous z h.limit post)
    (hsized : ∀ b ∈ new, b.WellSized) (hheaders : ∀ b ∈ new, b.HeaderIn h'.memory)
    (hbefore : h.memory.AgreeOn h'.memory h.start a) (hafter : h.memory.AgreeOn h'.memory z h.limit)
    (hseparate : (pre ++ new ++ post).IsChain Block.Separate) : h'.Tiled (pre ++ new ++ post) := by
  have hlimit : h'.limit = h.limit := by rw [limit, limit, hstart, hsize]
  have hmem : ∀ b, b ∈ pre ∨ b ∈ post → b ∈ pre ++ old ++ post := by
    intro b hb
    simp only [List.mem_append]
    tauto
  refine ⟨by rw [hstart]; exact ht.aligned, by rw [hlimit]; exact ht.limit_lt, ?_, ?_, ?_, hseparate⟩
  · rw [hstart, hlimit, Contiguous.append_iff]
    exact ⟨z, Contiguous.append_iff.mpr ⟨a, hpre, hnew⟩, hpost⟩
  · intro b hb
    simp only [List.mem_append] at hb
    rcases hb with (hb | hb) | hb
    · exact ht.sized b (hmem b (.inl hb))
    · exact hsized b hb
    · exact ht.sized b (hmem b (.inr hb))
  · intro b hb
    simp only [List.mem_append] at hb
    rcases hb with (hb | hb) | hb
    · have hin := hpre.mem_bounds b hb
      have hlt := (ht.sized b (hmem b (.inl hb))).payload_lt_next
      exact (ht.headers b (hmem b (.inl hb))).congr (hbefore.mono hin.1 (by omega))
    · exact hheaders b hb
    · have hin := hpost.mem_bounds b hb
      have hlt := (ht.sized b (hmem b (.inr hb))).payload_lt_next
      exact (ht.headers b (hmem b (.inr hb))).congr (hafter.mono hin.1 (by omega))

end Heap

end KernelCore
