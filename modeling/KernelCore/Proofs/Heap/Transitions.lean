/-
# What taking and returning a block does to the tiling

Each operation of a tiled heap is one step on its list of blocks:

* `admits_of_alloc`: an allocation that is served takes a free block, and then there is one block
  more in use (`Admits`);
* `exists_free_payload`: the payload of a block in use can be freed, and then there is one block
  less in use (`Releases`);
* `free_of_forall_ne`: every other address is refused, and nothing is written;
* `exists_ofRange`, `tiled_of_ofRange`: a fresh heap is one free block, or no block at all.

None of them halts on a tiled heap.  What they write lies in blocks that are not in use, so that
the bytes of every block that stays in use stay too (`Keeps`), and nothing outside the heap changes
(`Confined`).
-/
import KernelCore.Proofs.Heap.Tiling

namespace KernelCore

/-- The blocks that a free block is cut into when `need` bytes of it are taken. -/
def Block.carved (b : Block) (need : Nat) : List Block :=
  if minBlock ≤ b.size - need then
    [⟨b.address, need, true⟩, ⟨b.address + need, b.size - need, false⟩]
  else [⟨b.address, b.size, true⟩]

namespace Heap

variable {h h' h'' : Heap} {bs pre post : List Block} {b c : Block} {n need : Nat}

/-- The second heap has the bytes of the first in a block. -/
def Keeps (h h' : Heap) (b : Block) : Prop := h.memory.AgreeOn h'.memory b.address b.next

/-- The second heap is over the same range as the first, and nothing outside has changed. -/
structure Confined (h h' : Heap) : Prop where
  start_eq : h'.start = h.start
  size_eq : h'.size = h.size
  outside : ∀ x, x < h.start ∨ h.limit ≤ x → h'.memory.byte x = h.memory.byte x

theorem Confined.limit_eq (hc : h.Confined h') : h'.limit = h.limit := by
  rw [limit, limit, hc.start_eq, hc.size_eq]

theorem Confined.trans (h₁ : h.Confined h') (h₂ : h'.Confined h'') : h.Confined h'' := by
  refine ⟨h₂.start_eq.trans h₁.start_eq, h₂.size_eq.trans h₁.size_eq, ?_⟩
  intro x hx
  rw [h₂.outside x (by rwa [h₁.start_eq, h₁.limit_eq]), h₁.outside x hx]

/-- **One block more in use.**  The second heap is tiled by `bs'`, where the block `c` is in use
besides those that were, and all of these have kept their bytes. -/
structure Admits (h h' : Heap) (bs bs' : List Block) (c : Block) : Prop where
  tiled : h'.Tiled bs'
  mem : c ∈ bs'
  used : c.used = true
  perm : (bs'.filter Block.used).Perm (c :: bs.filter Block.used)
  confined : h.Confined h'
  keeps : ∀ d ∈ bs, d.used = true → h.Keeps h' d

/-- **One block less in use.**  The second heap is tiled by `bs'`, where every block in use but `b`
is still in use, and has kept its bytes. -/
structure Releases (h h' : Heap) (bs bs' : List Block) (b : Block) : Prop where
  tiled : h'.Tiled bs'
  perm : (bs.filter Block.used).Perm (b :: bs'.filter Block.used)
  confined : h.Confined h'
  keeps : ∀ d ∈ bs', d.used = true → h.Keeps h' d

/-- A change of memory inside one block is confined, and keeps every other block. -/
theorem Tiled.confined_of_covers (ht : h.Tiled bs) (hb : b ∈ bs) (hstart : h'.start = h.start)
    (hsize : h'.size = h.size) (hm : ∀ x, ¬b.Covers x → h'.memory.byte x = h.memory.byte x) :
    h.Confined h' ∧ ∀ c ∈ bs, c ≠ b → h.Keeps h' c := by
  refine ⟨⟨hstart, hsize, ?_⟩, ?_⟩
  · intro x hx
    refine hm x ?_
    rintro ⟨h₁, h₂⟩
    have := ht.start_le hb
    have := ht.next_le hb
    omega
  · intro c hc hne x h₁ h₂
    exact hm x fun hbx => hne (ht.eq_of_covers hc hb ⟨h₁, h₂⟩ hbx)

/-- **Writing into a payload** changes no header, and no byte of another block. -/
theorem Tiled.store (ht : h.Tiled bs) (hb : b ∈ bs) {m : Memory}
    (hm : ∀ x, x < b.payload ∨ b.next ≤ x → m.byte x = h.memory.byte x) :
    { h with memory := m }.Tiled bs ∧ h.Confined { h with memory := m } ∧
      ∀ c ∈ bs, c ≠ b → h.Keeps { h with memory := m } c := by
  have hout : ∀ x, ¬b.Covers x → m.byte x = h.memory.byte x := by
    intro x hx
    refine hm x ?_
    simp only [Block.Covers, Block.payload] at hx ⊢
    omega
  have hconf : h.Confined { h with memory := m } ∧
      ∀ c ∈ bs, c ≠ b → h.Keeps { h with memory := m } c :=
    ht.confined_of_covers hb rfl rfl hout
  refine ⟨⟨ht.aligned, ht.limit_lt, ht.contiguous, ht.sized, ?_, ht.separate⟩, hconf⟩
  intro c hc
  refine (ht.headers c hc).congr ?_
  by_cases hcb : c = b
  · rw [hcb]
    exact fun x _ hx => hm x (Or.inl hx)
  · exact (hconf.2 c hc hcb).mono (Nat.le_refl _) (Nat.le_of_lt (ht.sized c hc).payload_lt_next)

/-! ## 1. Taking a block -/

/-- The smallest block with room for `n` bytes: a header and the bytes, rounded up. -/
theorem blockSizeFor?_eq_some (hn : blockSizeFor? n = some need) :
    need % heapAlign = 0 ∧ minBlock ≤ need ∧ n + headerSize ≤ need := by
  simp only [blockSizeFor?] at hn
  split at hn
  · cases hn
  · cases hn
    simp only [alignDown, minBlock, headerSize, heapAlign]
    omega

theorem contiguous_carved (hneed : need ≤ b.size) :
    Contiguous b.address b.next (b.carved need) := by
  unfold Block.carved
  split <;> simp only [Contiguous.cons_iff, Contiguous.nil_iff, Block.next, true_and]
  omega

theorem wellSized_carved (hb : b.WellSized) (hal : need % heapAlign = 0) (hmin : minBlock ≤ need)
    (hneed : need ≤ b.size) : ∀ c ∈ b.carved need, c.WellSized := by
  have hsize := hb.1
  simp only [heapAlign] at hal hsize
  intro c hc
  unfold Block.carved at hc
  split at hc
  · next hrest =>
    rcases List.mem_cons.mp hc with rfl | hc
    · exact ⟨hal, hmin⟩
    · rw [List.mem_singleton.mp hc]
      refine ⟨?_, hrest⟩
      simp only [heapAlign]
      omega
  · rw [List.mem_singleton.mp hc]
    exact hb

/-- Cutting a block writes the headers of what it is cut into, -/
theorem headerIn_carve (hsize : b.size < 2 ^ 64) (hmin : minBlock ≤ need) (hneed : need ≤ b.size) :
    ∀ c ∈ b.carved need, c.HeaderIn (h.carve b need).memory := by
  simp only [minBlock, headerSize, heapAlign] at hmin
  intro c hc
  unfold Block.carved at hc
  unfold carve
  split at hc
  · next hrest =>
    rw [if_pos hrest]
    rcases List.mem_cons.mp hc with rfl | hc
    · exact headerIn_setHeader _ ⟨b.address, need, true⟩ (by simp only; omega)
    · rw [List.mem_singleton.mp hc]
      have hin := headerIn_setHeader h ⟨b.address + need, b.size - need, false⟩ (by simp only; omega)
      refine hin.congr fun x h₁ _ => byte_setHeader_of_outside _ _ _ _ _ (Or.inr ?_)
      simp only [headerSize] at h₁ ⊢
      omega
  · next hrest =>
    rw [if_neg hrest, List.mem_singleton.mp hc]
    exact headerIn_setHeader h ⟨b.address, b.size, true⟩ hsize

/-- and nothing outside the block. -/
theorem byte_carve_of_not_covers (hb : b.WellSized) (hmin : minBlock ≤ need)
    (hneed : need ≤ b.size) {x : Nat} (hx : ¬b.Covers x) :
    (h.carve b need).memory.byte x = h.memory.byte x := by
  have hsize := hb.2
  simp only [minBlock, headerSize, heapAlign] at hmin hsize
  simp only [Block.Covers, Block.next] at hx
  unfold carve
  split
  · next hrest =>
    simp only [minBlock, headerSize, heapAlign] at hrest
    rw [byte_setHeader_of_outside _ _ _ _ _ (by simp only [headerSize]; omega),
      byte_setHeader_of_outside _ _ _ _ _ (by simp only [headerSize]; omega)]
  · rw [byte_setHeader_of_outside _ _ _ _ _ (by simp only [headerSize]; omega)]

theorem start_carve (h : Heap) (b : Block) (need : Nat) : (h.carve b need).start = h.start := by
  unfold carve
  split <;> simp only [start_setHeader]

theorem size_carve (h : Heap) (b : Block) (need : Nat) : (h.carve b need).size = h.size := by
  unfold carve
  split <;> simp only [size_setHeader]

/-- What a free block is cut into has a block in use in front, and so has no free neighbours. -/
theorem isChain_carved (hfree : b.used = false) (hs : (pre ++ b :: post).IsChain Block.Separate) :
    (pre ++ b.carved need ++ post).IsChain Block.Separate := by
  obtain ⟨hpre, hpost, -⟩ := List.isChain_append.mp hs
  obtain ⟨hhead, hpost⟩ := List.isChain_cons.mp hpost
  have hhead : ∀ c ∈ post.head?, c.used = true := fun c hc =>
    (hhead c hc).resolve_left (by simp [hfree])
  unfold Block.carved
  split
  · refine (hpre.append ?_ ?_).append hpost ?_
    · exact List.isChain_pair.mpr (Or.inl rfl)
    · intro c _ d hd
      cases hd
      exact Or.inr rfl
    · intro c _ d hd
      exact Or.inr (hhead d hd)
  · refine (hpre.append (List.isChain_singleton _) ?_).append hpost ?_
    · intro c _ d hd
      cases hd
      exact Or.inr rfl
    · intro c _ d hd
      exact Or.inr (hhead d hd)

/-- **Cutting a free block.** -/
theorem tiled_carve (ht : h.Tiled (pre ++ b :: post)) (hfree : b.used = false)
    (hal : need % heapAlign = 0) (hmin : minBlock ≤ need) (hneed : need ≤ b.size) :
    (h.carve b need).Tiled (pre ++ b.carved need ++ post) := by
  have hb : b ∈ pre ++ b :: post := by simp
  have hlt : b.size < 2 ^ 64 := by
    have := ht.next_le hb
    have := ht.limit_lt
    simp only [Block.next] at *
    omega
  have hsized := ht.sized b hb
  have hout : ∀ x, ¬b.Covers x → (h.carve b need).memory.byte x = h.memory.byte x := fun x =>
    byte_carve_of_not_covers hsized hmin hneed
  obtain ⟨y, hpre, hy, hpost⟩ := Contiguous.append_iff.mp ht.contiguous
  subst hy
  refine (show h.Tiled (pre ++ [b] ++ post) by simpa using ht).replace (start_carve h b need)
    (size_carve h b need) (contiguous_carved hneed) hpre hpost (wellSized_carved hsized hal hmin hneed)
    (headerIn_carve hlt hmin hneed) ?_ ?_ (isChain_carved hfree ht.separate)
  · exact fun x _ hx => hout x fun hc => by have := hc.1; omega
  · exact fun x hx _ => hout x fun hc => by have := hc.2; omega

/-- An allocation takes the first free block that has room, if there is one. -/
theorem alloc_eq (ht : h.Tiled bs) (n : Nat) : h.alloc n =
    match blockSizeFor? n with
    | none => .error (.refused .outOfMemory)
    | some need =>
      match bs.find? fun b => !b.used && decide (need ≤ b.size) with
      | none => .error (.refused .outOfMemory)
      | some b => .ok (b.payload, h.carve b need) := by
  unfold alloc
  cases blockSizeFor? n with
  | none => rfl
  | some need =>
    simp only [ht.checkedLimit_eq, Stop.ofHalt_ok,
      firstFit_eq need (fun _ hb => blockAt_of_mem ht hb) ht.contiguous, bind, Except.bind]
    cases bs.find? fun b => !b.used && decide (need ≤ b.size) <;> rfl

/-- An allocation on a tiled heap is served or refused; it does not halt. -/
theorem alloc_ne_halted (ht : h.Tiled bs) (n : Nat) (halt : Halt) :
    h.alloc n ≠ .error (.halted halt) := by
  rw [alloc_eq ht]
  split
  · simp
  · split <;> simp

/-- **An allocation that is served** cuts the first free block that has room, and touches no other. -/
theorem tiled_of_alloc (ht : h.Tiled bs) {address : Nat} (hok : h.alloc n = .ok (address, h')) :
    ∃ pre b post need, bs = pre ++ b :: post ∧ b.used = false ∧ need ≤ b.size ∧
      blockSizeFor? n = some need ∧ (∀ c ∈ pre, c.used = false → ¬need ≤ c.size) ∧
      address = b.payload ∧ h'.Tiled (pre ++ b.carved need ++ post) ∧
      h.Confined h' ∧ ∀ c ∈ bs, c ≠ b → h.Keeps h' c := by
  rw [alloc_eq ht] at hok
  split at hok
  · cases hok
  · next need hneed =>
    split at hok
    · cases hok
    · next b hb =>
      cases hok
      obtain ⟨hal, hmin, -⟩ := blockSizeFor?_eq_some hneed
      obtain ⟨hfits, pre, post, rfl, hpre⟩ := List.find?_eq_some_iff_append.mp hb
      simp only [Bool.and_eq_true, Bool.not_eq_true', decide_eq_true_eq] at hfits
      have hmem : b ∈ pre ++ b :: post := by simp
      refine ⟨pre, b, post, need, rfl, hfits.1, hfits.2, hneed, fun c hc hfree => ?_, rfl,
        tiled_carve ht hfits.1 hal hmin hfits.2, ?_⟩
      · simpa [hfree] using hpre c hc
      · exact ht.confined_of_covers hmem (start_carve h b need) (size_carve h b need) fun x =>
          byte_carve_of_not_covers (ht.sized b hmem) hmin hfits.2

/-- The one block in use among those that a free block is cut into: it has the payload of the free
block, and as much room as was asked for. -/
theorem exists_used_carved (hneed : need ≤ b.size) :
    ∃ c, b.carved need = c :: (b.carved need).tail ∧ c.used = true ∧ c.payload = b.payload ∧
      b.address + need ≤ c.next ∧ (b.carved need).filter Block.used = [c] := by
  unfold Block.carved
  split
  · exact ⟨_, rfl, rfl, rfl, Nat.le_refl _, rfl⟩
  · exact ⟨_, rfl, rfl, rfl, Nat.add_le_add_left hneed _, rfl⟩

/-- **An allocation that is served** has one block more in use, with room for the bytes behind its
header. -/
theorem admits_of_alloc (ht : h.Tiled bs) {address : Nat} (hok : h.alloc n = .ok (address, h')) :
    ∃ bs' c, h.Admits h' bs bs' c ∧ c.payload = address ∧ address + n ≤ c.next := by
  obtain ⟨pre, b, post, need, rfl, hfree, hneed, hsize, -, rfl, ht', hconf, hkeeps⟩ :=
    tiled_of_alloc ht hok
  obtain ⟨-, -, hroom⟩ := blockSizeFor?_eq_some hsize
  obtain ⟨c, hcons, hu, hpay, hend, hfilter⟩ := exists_used_carved hneed
  refine ⟨_, c, ⟨ht', ?_, hu, ?_, hconf, ?_⟩, hpay, ?_⟩
  · rw [hcons]
    simp
  · rw [List.filter_append, List.filter_append, hfilter, List.filter_append,
      List.filter_cons_of_neg (by simp [hfree])]
    simp
  · intro d hd hdu
    exact hkeeps d hd fun e => by rw [e, hfree] at hdu; cases hdu
  · simp only [Block.payload, headerSize] at hroom ⊢
    omega

/-- What is written into the payload of the block that came into use changes nothing else. -/
theorem Admits.store {bs' : List Block} (ha : h.Admits h' bs bs' c) {m : Memory}
    (hm : ∀ x, x < c.payload ∨ c.next ≤ x → m.byte x = h'.memory.byte x) :
    h.Admits { h' with memory := m } bs bs' c := by
  obtain ⟨htiled, hconf, hkeeps⟩ := ha.tiled.store ha.mem hm
  refine ⟨htiled, ha.mem, ha.used, ha.perm, ha.confined.trans hconf, ?_⟩
  intro d hd hdu x h₁ h₂
  have hmem : d ∈ bs'.filter Block.used :=
    ha.perm.mem_iff.mpr (List.mem_cons_of_mem _ (List.mem_filter.mpr ⟨hd, hdu⟩))
  have hne : d ≠ c := by
    rintro rfl
    have := (ha.perm.nodup_iff.mp ((htiled.nodup).filter _))
    exact (List.nodup_cons.mp this).1 (List.mem_filter.mpr ⟨hd, hdu⟩)
  exact (hkeeps d (List.mem_of_mem_filter hmem) hne x h₁ h₂).trans (ha.keeps d hd hdu x h₁ h₂)

/-! ## 2. Returning a block -/

/-- **The block and the free block behind it become one.**  What is behind that is in use, or
nothing. -/
theorem exists_absorbNext (ht : h.Tiled (pre ++ b :: post)) : ∃ b₁ h₁ gap post₁,
    h.absorbNext b = .ok (b₁, h₁) ∧ post = gap ++ post₁ ∧ (∀ c ∈ gap, c.used = false) ∧
      (∀ c ∈ post₁.head?, c.used = true) ∧ b₁.address = b.address ∧ b₁.WellSized ∧
      Contiguous b₁.next h.limit post₁ ∧ h₁.start = h.start ∧ h₁.size = h.size ∧
      ∀ x, x < b.next ∨ b₁.next ≤ x → h₁.memory.byte x = h.memory.byte x := by
  have hb : b ∈ pre ++ b :: post := by simp
  obtain ⟨-, -, -, hpost⟩ := Contiguous.append_iff.mp ht.contiguous
  have hsep := (List.isChain_append.mp ht.separate).2.1
  unfold absorbNext
  cases post with
  | nil =>
    rw [if_neg (by have := Contiguous.nil_iff.mp hpost; omega)]
    exact ⟨b, h, [], [], rfl, rfl, by simp, by simp, rfl, ht.sized b hb, hpost, rfl, rfl,
      fun _ _ => rfl⟩
  | cons c rest =>
    obtain ⟨hc, hrest⟩ := hpost
    have hcmem : c ∈ pre ++ b :: c :: rest := by simp
    have hcs := ht.sized c hcmem
    have hle := ht.next_le hcmem
    have hlt := hcs.lt_next
    rw [if_pos (by omega), ← hc, blockAt_of_mem ht hcmem]
    cases hu : c.used with
    | true =>
      refine ⟨b, h, [], c :: rest, by simp [bind, Except.bind, pure, Except.pure, hu], rfl, by simp,
        ?_, rfl, ht.sized b hb, ⟨hc, hrest⟩, rfl, rfl, fun _ _ => rfl⟩
      intro d hd
      cases hd
      exact hu
    | false =>
      have hnext : b.address + (b.size + c.size) = c.next := by
        simp only [Block.next] at hc ⊢
        omega
      have hbs := ht.sized b hb
      refine ⟨{ b with size := b.size + c.size }, h.clearHeader c.address, [c], rest,
        by simp [bind, Except.bind, pure, Except.pure, hu], rfl, by simpa using hu, ?_, rfl, ?_,
        ?_, start_setHeader _ _ _ _, size_setHeader _ _ _ _, ?_⟩
      · intro d hd
        have hcd := (List.isChain_cons.mp (List.isChain_cons.mp hsep).2).1 d hd
        exact hcd.resolve_left (by simp [hu])
      · refine ⟨?_, Nat.le_add_right_of_le hbs.2⟩
        have h₁ := hbs.1
        have h₂ := hcs.1
        simp only [heapAlign] at h₁ h₂ ⊢
        omega
      · rw [Block.next, hnext]
        exact hrest
      · intro x hx
        rw [Block.next, hnext] at hx
        refine byte_setHeader_of_outside _ _ _ _ _ ?_
        have := hcs.payload_lt_next
        simp only [Block.payload] at this
        omega

/-- **The free block in front and the block become one.**  What is in front of that is in use, or
nothing. -/
theorem exists_absorbPrevious {a : Nat} (hpre : Contiguous a b.address pre)
    (hsized : ∀ c ∈ pre, c.WellSized) (hb : b.WellSized) (hsep : pre.IsChain Block.Separate) :
    ∃ b₁ h₁ gap pre₁, h.absorbPrevious pre.getLast? b = (b₁, h₁) ∧ pre = pre₁ ++ gap ∧
      (∀ c ∈ gap, c.used = false) ∧ (∀ c ∈ pre₁.getLast?, c.used = true) ∧
      b₁.next = b.next ∧ b₁.address ≤ b.address ∧ b₁.WellSized ∧ Contiguous a b₁.address pre₁ ∧
      h₁.start = h.start ∧ h₁.size = h.size ∧
      ∀ x, x < b.address ∨ b.next ≤ x → h₁.memory.byte x = h.memory.byte x := by
  rcases List.eq_nil_or_concat pre with rfl | ⟨pre₁, p, rfl⟩
  · exact ⟨b, h, [], [], rfl, rfl, by simp, by simp, rfl, Nat.le_refl _, hb, hpre, rfl, rfl,
      fun _ _ => rfl⟩
  · rw [List.concat_eq_append] at *
    obtain ⟨y, hpre₁, hy, hp⟩ := Contiguous.append_iff.mp hpre
    have hp := Contiguous.nil_iff.mp hp
    have hps := hsized p (by simp)
    rw [List.getLast?_append, List.getLast?_singleton, Option.some_or]
    unfold absorbPrevious
    cases hu : p.used with
    | true =>
      refine ⟨b, h, [], pre₁ ++ [p], by simp [hu], by simp, by simp, ?_, rfl, Nat.le_refl _, hb, hpre,
        rfl, rfl, fun _ _ => rfl⟩
      intro c hc
      rw [List.getLast?_append, List.getLast?_singleton, Option.some_or] at hc
      cases hc
      exact hu
    | false =>
      refine ⟨{ p with size := p.size + b.size }, h.clearHeader b.address, [p], pre₁, by simp [hu],
        rfl, by simpa using hu, ?_, ?_, ?_, ⟨?_, Nat.le_add_right_of_le hps.2⟩, ?_,
        start_setHeader _ _ _ _, size_setHeader _ _ _ _, ?_⟩
      · intro c hc
        have hcp := (List.isChain_append.mp hsep).2.2 c hc p rfl
        exact hcp.resolve_right (by simp [hu])
      · simp only [Block.next] at hp ⊢
        omega
      · simp only [Block.next] at hp ⊢
        omega
      · have h₁ := hps.1
        have h₂ := hb.1
        simp only [heapAlign] at h₁ h₂ ⊢
        omega
      · rw [hy]
        exact hpre₁
      · intro x hx
        refine byte_setHeader_of_outside _ _ _ _ _ ?_
        have := hb.payload_lt_next
        simp only [Block.payload] at this
        omega

/-- The walk up to a block sees the blocks in front of it and stops there. -/
theorem seek_block (ht : h.Tiled (pre ++ b :: post)) :
    h.seek b.address none h.start = .ok (pre.getLast?, b.address) := by
  obtain ⟨y, hpre, hy, -⟩ := Contiguous.append_iff.mp ht.contiguous
  subst hy
  have hmem : ∀ c ∈ pre, c ∈ pre ++ b :: post := fun c hc => by simp [hc]
  rw [seek_eq (Nat.le_refl _) (fun c hc => blockAt_of_mem ht (hmem c hc)) ?_ hpre, Option.or_none]
  intro c hc
  have := (hpre.mem_bounds c hc).2
  have := (ht.sized c (hmem c hc)).lt_next
  omega

theorem filter_used_of_free {gap : List Block} (hgap : ∀ c ∈ gap, c.used = false) :
    gap.filter Block.used = [] :=
  List.filter_eq_nil_iff.mpr fun c hc => by simp [hgap c hc]

/-- One free block in place of a block in use and the free blocks around it releases the block. -/
theorem releases_merge {gap₁ gap₂ : List Block} {f : Block}
    (ht : h.Tiled (pre ++ (gap₂ ++ b :: gap₁) ++ post)) (hu : b.used = true)
    (hgap₁ : ∀ c ∈ gap₁, c.used = false) (hgap₂ : ∀ c ∈ gap₂, c.used = false)
    (hlast : ∀ c ∈ pre.getLast?, c.used = true) (hhead : ∀ c ∈ post.head?, c.used = true)
    (hf : f.used = false) (hsized : f.WellSized)
    (hpre : Contiguous h.start f.address pre) (hpost : Contiguous f.next h.limit post)
    (hstart : h'.start = h.start) (hsize : h'.size = h.size) (hheader : f.HeaderIn h'.memory)
    (hbytes : ∀ x, ¬f.Covers x → h'.memory.byte x = h.memory.byte x) :
    h.Releases h' (pre ++ (gap₂ ++ b :: gap₁) ++ post) (pre ++ [f] ++ post) b := by
  have hsep := List.isChain_append.mp ht.separate
  have htiled : h'.Tiled (pre ++ [f] ++ post) := by
    refine ht.replace hstart hsize ⟨rfl, rfl⟩ hpre hpost ?_ ?_ ?_ ?_ ?_
    · exact fun c hc => List.mem_singleton.mp hc ▸ hsized
    · exact fun c hc => List.mem_singleton.mp hc ▸ hheader
    · exact fun x _ hx => hbytes x fun hfx => by have := hfx.1; omega
    · exact fun x hx _ => hbytes x fun hfx => by have := hfx.2; omega
    · refine ((List.isChain_append.mp hsep.1).1.append (List.isChain_singleton f) ?_).append
        hsep.2.1 ?_
      · exact fun c hc _ _ => Or.inl (hlast c hc)
      · exact fun _ _ c hc => Or.inr (hhead c hc)
  refine ⟨htiled, ?_, ⟨hstart, hsize, ?_⟩, ?_⟩
  · simp [List.filter_append, filter_used_of_free hgap₁, filter_used_of_free hgap₂, hf, hu]
  · intro x hx
    refine hbytes x fun hfx => ?_
    have := hpre.le
    have := hpost.le
    have := hfx.1
    have := hfx.2
    omega
  · intro c hc hcu x h₁ h₂
    refine hbytes x fun hfx => ?_
    have hcf : c = f := htiled.eq_of_covers hc (by simp) ⟨h₁, h₂⟩ hfx
    rw [hcf, hf] at hcu
    cases hcu

/-- **The payload of a block in use can be freed**, and that releases the block. -/
theorem exists_free_payload (ht : h.Tiled bs) (hb : b ∈ bs) (hu : b.used = true) :
    ∃ h' bs', h.free b.payload = .ok h' ∧ h.Releases h' bs bs' b := by
  obtain ⟨pre, post, rfl⟩ := List.append_of_mem hb
  have hlt := (ht.sized b hb).lt_next
  have hstart := ht.start_le hb
  have hnext := ht.next_le hb
  obtain ⟨y, hpre, hy, -⟩ := Contiguous.append_iff.mp ht.contiguous
  subst hy
  have hpresized : ∀ c ∈ pre, c.WellSized := fun c hc => ht.sized c (by simp [hc])
  -- first the free block behind, then the free block in front, then one header for all of it
  obtain ⟨b₁, h₁, gap₁, post₁, heq₁, rfl, hgap₁, hhead, haddr₁, hsized₁, hpost₁, hstart₁, hsize₁,
    hbytes₁⟩ := exists_absorbNext ht
  obtain ⟨b₂, h₂, gap₂, pre₂, heq₂, rfl, hgap₂, hlast, hnext₂, haddr₂, hsized₂, hpre₂, hstart₂,
    hsize₂, hbytes₂⟩ := exists_absorbPrevious (haddr₁ ▸ hpre) hpresized hsized₁
      (List.isChain_append.mp ht.separate).1 (h := h₁)
  let f : Block := ⟨b₂.address, b₂.size, false⟩
  have hfnext : f.next = b₁.next := hnext₂
  have hsize : f.size < 2 ^ 64 := by
    have := ht.limit_lt
    have hle : f.next ≤ h.limit := hfnext ▸ hpost₁.le
    simp only [Block.next] at hle
    omega
  have hfree : h.free b.payload = .ok (h₂.setHeader f.address f.size f.tag) := by
    unfold free
    simp only [Block.payload, headerSize, Nat.add_sub_cancel]
    rw [if_neg (by omega)]
    simp only [ht.checkedLimit_eq, Stop.ofHalt_ok, bind, Except.bind]
    rw [if_neg (by omega), seek_block ht]
    simp only [Stop.ofHalt_ok, ne_eq, not_true_eq_false, if_false, blockAt_of_mem ht hb, hu, heq₁,
      heq₂, Bool.not_true, Bool.false_eq_true]
    rfl
  have hall : h.Tiled (pre₂ ++ (gap₂ ++ b :: gap₁) ++ post₁) := by simpa using ht
  have hfsized : f.WellSized := hsized₂
  have hrel : h.Releases (h₂.setHeader f.address f.size f.tag)
      (pre₂ ++ (gap₂ ++ b :: gap₁) ++ post₁) (pre₂ ++ [f] ++ post₁) b := by
    refine releases_merge hall hu hgap₁ hgap₂ hlast hhead rfl hfsized hpre₂ (hfnext ▸ hpost₁) ?_ ?_
      (headerIn_setHeader h₂ f hsize) ?_
    · rw [start_setHeader, hstart₂, hstart₁]
    · rw [size_setHeader, hsize₂, hsize₁]
    · intro x hx
      have hpay : f.address + headerSize < f.next := hsized₂.payload_lt_next
      have haddr : f.address ≤ b.address := haddr₁ ▸ haddr₂
      have hx : x < f.address ∨ f.next ≤ x := by
        simp only [Block.Covers] at hx
        omega
      rw [byte_setHeader_of_outside _ _ _ _ _ (by omega), hbytes₂ x (by omega),
        hbytes₁ x (by omega)]
  exact ⟨_, _, hfree, by simpa using hrel⟩

/-- In front of an address inside the heap there are some blocks, and the others are not. -/
theorem exists_split (ht : h.Tiled bs) (target : Nat) (hlt : target < h.limit) :
    ∃ pre post z, bs = pre ++ post ∧ (∀ c ∈ pre, c.address < target) ∧ target ≤ z ∧
      Contiguous h.start z pre ∧ Contiguous z h.limit post := by
  let p (c : Block) : Bool := decide (c.address < target)
  have heq : bs.takeWhile p ++ bs.dropWhile p = bs := List.takeWhile_append_dropWhile
  obtain ⟨z, hpre, hpost⟩ := Contiguous.append_iff.mp (heq ▸ ht.contiguous)
  refine ⟨_, _, z, heq.symm, ?_, ?_, hpre, hpost⟩
  · intro c hc
    simpa [p] using List.all_eq_true.mp List.all_takeWhile c hc
  · cases hd : bs.dropWhile p with
    | nil =>
      rw [hd] at hpost
      have := Contiguous.nil_iff.mp hpost
      omega
    | cons c rest =>
      rw [hd] at hpost
      have hc : ¬p c = true := by
        have := List.head?_dropWhile_not p bs
        rw [hd] at this
        simpa using this
      have := hpost.1
      simp only [p, decide_eq_true_eq] at hc
      omega

/-- **No other address can be freed.**  It is refused, and the heap stays as it is. -/
theorem free_of_forall_ne (ht : h.Tiled bs) {address : Nat}
    (hno : ∀ b ∈ bs, b.used = true → b.payload ≠ address) :
    h.free address = .error (.refused (.invalidFree address)) := by
  unfold free
  simp only
  split
  · rfl
  · next hge =>
    simp only [ht.checkedLimit_eq, Stop.ofHalt_ok, bind, Except.bind]
    split
    · rfl
    · next hlt =>
      obtain ⟨pre, post, z, rfl, hpre, hz, hcpre, hcpost⟩ :=
        exists_split ht (address - headerSize) (by omega)
      rw [seek_eq hz (fun c hc => blockAt_of_mem ht (List.mem_append_left _ hc)) hpre hcpre]
      simp only [Stop.ofHalt_ok]
      split
      · rfl
      · next hfound =>
        have hfound := not_not.mp hfound
        cases post with
        | nil =>
          have := Contiguous.nil_iff.mp hcpost
          omega
        | cons b rest =>
          have hb : b ∈ pre ++ b :: rest := by simp
          have haddr : b.address = address - headerSize := hcpost.1.trans hfound
          rw [← haddr, blockAt_of_mem ht hb]
          have hunused : b.used = false := by
            by_contra hu
            refine hno b hb (by simpa using hu) ?_
            simp only [Block.payload]
            omega
          simp [hunused]

/-! ## 3. A fresh heap -/

theorem alignUp_bounds (n align : Nat) (ha : 0 < align) :
    n ≤ alignUp n align ∧ alignUp n align < n + align ∧ alignUp n align % align = 0 := by
  have hdiv := Nat.div_add_mod (n + (align - 1)) align
  have hmod := Nat.mod_lt (n + (align - 1)) ha
  refine ⟨?_, ?_, Nat.mul_mod_left _ _⟩ <;> rw [alignUp, Nat.mul_comm] <;> omega

theorem alignDown_bounds (n align : Nat) : alignDown n align ≤ n ∧ alignDown n align % align = 0 :=
  ⟨Nat.div_mul_le_self _ _, Nat.mul_mod_left _ _⟩

/-- **A fresh heap is tiled by no block in use**, lies in the range that it was given, and writes
nowhere else. -/
theorem tiled_of_ofRange {memory : Memory} {start size : Nat}
    (hok : ofRange memory start size = .ok h) (hlt : h.limit < 2 ^ 64) :
    ∃ bs, h.Tiled bs ∧ (∀ b ∈ bs, b.used = false) ∧
      (∀ x, h.start ≤ x → x < h.limit → start ≤ x ∧ x < start + size) ∧
      ∀ x, x < h.start ∨ h.limit ≤ x → h.memory.byte x = memory.byte x := by
  obtain ⟨hle, hup, hal⟩ := alignUp_bounds start heapAlign (by decide)
  unfold ofRange at hok
  split at hok
  · cases hok
  · simp only at hok
    generalize alignUp start heapAlign = aligned at hle hup hal hok
    simp only [heapAlign] at hle hup hal
    split at hok
    · next hmin =>
      cases hok
      obtain ⟨hfit, hdvd⟩ := alignDown_bounds (size - (aligned - start)) heapAlign
      generalize alignDown (size - (aligned - start)) heapAlign = usable at hmin hfit hdvd hlt
      let b : Block := ⟨aligned, usable, false⟩
      simp only [limit, start_setHeader, size_setHeader] at hlt
      simp only [minBlock, headerSize, heapAlign] at hmin
      refine ⟨[b], ⟨?_, ?_, ⟨?_, ?_⟩, ?_, ?_, List.isChain_singleton b⟩, ?_, ?_, ?_⟩
      · rw [start_setHeader]
        exact hal
      · simpa only [limit, start_setHeader, size_setHeader] using hlt
      · rw [start_setHeader]
      · simp [limit, Block.next, b]
      · intro c hc
        rw [List.mem_singleton.mp hc]
        exact ⟨hdvd, hmin⟩
      · intro c hc
        rw [List.mem_singleton.mp hc]
        exact headerIn_setHeader ⟨aligned, usable, memory⟩ b (by simp only [b]; omega)
      · simp [b]
      · intro x h₁ h₂
        simp only [limit, start_setHeader, size_setHeader] at h₁ h₂
        omega
      · intro x hx
        simp only [limit, start_setHeader, size_setHeader] at hx
        exact byte_setHeader_of_outside _ _ _ _ _ (by simp only [headerSize]; omega)
    · cases hok
      refine ⟨[], ⟨hal, hlt, rfl, by simp, by simp, .nil⟩, by simp, ?_, fun _ _ => rfl⟩
      intro x h₁ h₂
      simp only [limit] at h₁ h₂
      omega

/-- A heap can be set up over every range whose start can be aligned. -/
theorem exists_ofRange (memory : Memory) {start : Nat} (size : Nat) (hlt : start + heapAlign < 2 ^ 64) :
    ∃ h, ofRange memory start size = .ok h := by
  unfold ofRange
  rw [if_neg (Nat.not_le_of_lt hlt)]
  dsimp only
  split
  · exact ⟨_, rfl⟩
  · exact ⟨_, rfl⟩

/-- Over a range that ends inside the addresses the heap does, too. -/
theorem limit_lt_of_ofRange {memory : Memory} {start size : Nat} (hok : ofRange memory start size = .ok h)
    (hlt : start + size + 15 < 2 ^ 64) : h.limit < 2 ^ 64 := by
  obtain ⟨hle, hup, -⟩ := alignUp_bounds start heapAlign (by decide)
  obtain ⟨hfit, -⟩ := alignDown_bounds (size - (alignUp start heapAlign - start)) heapAlign
  simp only [heapAlign] at hle hup hfit
  unfold ofRange at hok
  split at hok
  · cases hok
  · dsimp only at hok
    split at hok
    · cases hok
      simp only [limit, start_setHeader, size_setHeader, heapAlign]
      omega
    · cases hok
      simp only [limit, heapAlign]
      omega

/-- A heap of which nothing is in use is one block. -/
theorem Tiled.eq_singleton (ht : h.Tiled bs) (hfree : ∀ b ∈ bs, b.used = false)
    (hlt : h.start < h.limit) : bs = [⟨h.start, h.size, false⟩] := by
  have hcont := ht.contiguous
  match bs, hcont, hfree, ht.separate with
  | [], hcont, _, _ => exact absurd hcont (Nat.ne_of_lt hlt)
  | [⟨address, size, used⟩], ⟨haddress, hnext⟩, hfree, _ =>
    have hused : used = false := hfree _ List.mem_cons_self
    simp only [Contiguous, Block.next, limit] at hnext haddress
    rw [haddress] at hnext
    rw [hused, haddress, Nat.add_left_cancel hnext]
  | b :: c :: _, _, hfree, hseparate =>
    have hb := hfree b List.mem_cons_self
    have hc := hfree c (List.mem_cons_of_mem _ List.mem_cons_self)
    rcases (List.isChain_cons_cons.mp hseparate).1 with hu | hu
    · rw [hb] at hu
      cases hu
    · rw [hc] at hu
      cases hu

/-- A heap of which nothing is in use serves whatever fits into it, at its very beginning. -/
theorem alloc_of_free (ht : h.Tiled bs) (hfree : ∀ b ∈ bs, b.used = false)
    (hneed : blockSizeFor? n = some need) (hroom : need ≤ h.size) :
    h.alloc n = .ok (h.start + headerSize, h.carve ⟨h.start, h.size, false⟩ need) := by
  obtain ⟨-, hmin, -⟩ := blockSizeFor?_eq_some hneed
  have hlt : h.start < h.limit := by
    simp only [minBlock, headerSize, heapAlign] at hmin
    simp only [limit]
    omega
  rw [alloc_eq ht, hneed, ht.eq_singleton hfree hlt]
  simp only [List.find?_cons, Bool.not_false, Bool.true_and, decide_eq_true hroom, Block.payload]

/-- A heap over 64 KiB that do not begin at a multiple of 16, and its first 100 bytes. -/
theorem exists_fresh : ∃ h, ofRange .zero 4097 65536 = .ok h ∧ h.limit < 2 ^ 64 ∧
    h.Tiled [⟨4112, 65520, false⟩] ∧
    h.alloc 100 = .ok (4128, h.carve ⟨4112, 65520, false⟩ 128) := by
  let h := (Heap.mk 4112 65520 .zero).setHeader 4112 65520 freeTag
  have hok : ofRange .zero 4097 65536 = .ok h := rfl
  have hlimit : h.limit < 2 ^ 64 := by decide
  obtain ⟨bs, ht, hfree, -⟩ := tiled_of_ofRange hok hlimit
  have heq := ht.eq_singleton hfree (by decide)
  exact ⟨h, hok, hlimit, heq ▸ ht, alloc_of_free ht hfree (by decide) (by decide)⟩

end Heap

end KernelCore
