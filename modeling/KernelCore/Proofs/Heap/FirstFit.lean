/-
# What an allocation takes, and when it is refused

`Heap.alloc` walks over the headers to the first free block that is large enough.  On a tiled heap
this is `List.find?` over the blocks (`alloc_eq`), and the blocks stand in address order, so that the
first one is the one with the lowest address.

* `takesFirst_of_alloc`: what an allocation does to the list of blocks;
* `exists_calloc`: what clearing its payload adds to that;
* `Sound.serves`: a request is served exactly if the statistic `largestFree` has room for it, from
  the lowest block that is large enough, which is cut (`Block.carved`) and is all that changes in the
  list of blocks;
* `Sound.clears`: a cleared request is the same request, but for the bytes of its payload, and is
  refused of its own accord only if the number of bytes leaves the 64-bit range;
* `Tenancy.firstFit_of_reaches`: both hold of every reachable state and every request.
-/
import KernelCore.Proofs.Heap.Integrity
import KernelCore.Proofs.Heap.Room

namespace KernelCore

/-! ## 1. The first block that is large enough -/

/-- The size of the block that a request needs: its bytes, one at least, rounded up, and a header. -/
def needFor (n : Nat) : Nat := alignUp (max n 1) heapAlign + headerSize

/-- **First fit.**  Of the blocks that are free and large enough, the block is the one with the lowest
address. -/
structure FirstFit (n : Nat) (bs : List Block) (b : Block) : Prop where
  mem : b ∈ bs
  free : b.used = false
  room : needFor n ≤ b.size
  first : ∀ c ∈ bs, c.used = false → needFor n ≤ c.size → b.address ≤ c.address

/-- **Taking `n` bytes at `address`.**  The blocks `bs'` are the blocks `bs` with the first that fits
cut into the block that is taken and the rest, if the rest is large enough to be a block. -/
def TakesFirst (n address : Nat) (bs bs' : List Block) : Prop :=
  ∃ pre b post, bs = pre ++ b :: post ∧ FirstFit n bs b ∧ address = b.payload ∧
    bs' = pre ++ b.carved (needFor n) ++ post

variable {bs bs' : List Block} {b : Block} {n need address : Nat}

/-- The block that is taken has room for the request behind its header. -/
theorem TakesFirst.exists_block (ht : TakesFirst n address bs bs') :
    ∃ c ∈ bs', c.used = true ∧ c.payload = address ∧ n ≤ c.capacity := by
  obtain ⟨pre, b, post, -, hfirst, rfl, rfl⟩ := ht
  obtain ⟨c, hcons, hu, hpay, hend, -⟩ := Heap.exists_used_carved hfirst.room
  refine ⟨c, ?_, hu, hpay, ?_⟩
  · rw [hcons]
    simp
  · simp only [needFor, alignUp, heapAlign, headerSize, Block.payload, Block.next,
      Block.capacity] at hend hpay ⊢
    omega

namespace Heap

variable {h h' : Heap}

/-- The size that is searched for is the size that is needed. -/
theorem eq_needFor (hneed : blockSizeFor? n = some need) : need = needFor n := by
  simp only [blockSizeFor?_eq, Option.ite_none_left_eq_some, Option.some.injEq] at hneed
  simp only [needFor, alignUp, heapAlign, headerSize]
  omega

/-- **An allocation that is served takes the first block that fits.** -/
theorem takesFirst_of_alloc (ht : h.Tiled bs) (hok : h.alloc n = .ok (address, h')) :
    h'.start = h.start ∧ ∃ bs', h'.Tiled bs' ∧ TakesFirst n address bs bs' := by
  obtain ⟨pre, b, post, need, rfl, hfree, hroom, hneed, hpre, rfl, ht', hconf, -⟩ :=
    tiled_of_alloc ht hok
  obtain rfl := eq_needFor hneed
  refine ⟨hconf.start_eq, _, ht', pre, b, post, rfl, ⟨by simp, hfree, hroom, ?_⟩, rfl, rfl⟩
  intro c hc hcfree hcroom
  -- what the search has passed over does not fit
  have hbehind : c ∈ b :: post :=
    (List.mem_append.mp hc).resolve_left fun hcpre => hpre c hcpre hcfree hcroom
  exact ht.contiguous.address_le hbehind

theorem calloc_of_le {count size : Nat} (hle : 2 ^ 64 ≤ count * size) :
    h.calloc count size = .error (.refused .overflow) := if_pos hle

/-- A cleared request is the request for as many bytes, and the clearing of them. -/
theorem calloc_of_lt {count size : Nat} (hlt : count * size < 2 ^ 64) : h.calloc count size =
    (h.alloc (count * size)).map fun (address, h₁) =>
      (address, { h₁ with memory := h₁.memory.fill address (count * size) 0 }) := by
  rw [calloc, if_neg (Nat.not_le_of_lt hlt)]
  cases h.alloc (count * size) <;> rfl

/-- A request by number of bytes is refused for want of memory only. -/
theorem Tiled.eq_outOfMemory (ht : h.Tiled bs) {e : Stop HeapError} (he : h.alloc n = .error e) :
    e = .refused .outOfMemory := by
  by_cases hroom : max n 1 ≤ (statsOf h.size bs).largestFree
  · obtain ⟨r, hok⟩ := ht.exists_alloc_iff.mpr hroom
    rw [he] at hok
    cases hok
  · rw [ht.alloc_eq_error (by omega)] at he
    exact (Except.error.inj he).symm

theorem Tiled.calloc_eq_overflow_iff (ht : h.Tiled bs) {count size : Nat} :
    h.calloc count size = .error (.refused .overflow) ↔ 2 ^ 64 ≤ count * size := by
  refine ⟨fun he => ?_, calloc_of_le⟩
  by_contra hlt
  rw [calloc_of_lt (by omega)] at he
  cases halloc : h.alloc (count * size) with
  | ok r =>
    rw [halloc] at he
    cases he
  | error e =>
    rw [halloc, ht.eq_outOfMemory halloc] at he
    cases he

/-- **Clearing what was allocated** leaves the blocks what they are, and every byte behind and in
front of it. -/
theorem exists_calloc (ht : h.Tiled bs) {count size : Nat} (hlt : count * size < 2 ^ 64)
    (hok : h.alloc (count * size) = .ok (address, h')) :
    ∃ h'', h.calloc count size = .ok (address, h'') ∧
      (∃ bs', h'.blocks = .ok bs' ∧ h''.blocks = .ok bs') ∧
      (∀ x, address ≤ x → x < address + count * size → h''.memory.byte x = 0) ∧
      ∀ x, x < address ∨ address + count * size ≤ x → h''.memory.byte x = h'.memory.byte x := by
  obtain ⟨bs', c, hadm, hpay, hend⟩ := admits_of_alloc ht hok
  have hout : ∀ x, x < address ∨ address + count * size ≤ x →
      (h'.memory.fill address (count * size) 0).byte x = h'.memory.byte x := fun x hx =>
    Memory.byte_fill_of_outside _ _ _ _ _ hx
  obtain ⟨ht', -⟩ := hadm.tiled.store hadm.mem fun x hx => hout x (by omega)
  refine ⟨_, by rw [calloc_of_lt hlt, hok]; rfl, ⟨bs', hadm.tiled.blocks_eq, ht'.blocks_eq⟩, ?_, hout⟩
  exact fun x hle hlt => Memory.byte_fill_of_inside _ _ _ _ _ ⟨hle, hlt⟩

end Heap

/-! ## 2. What a request does -/

/-- **What a request for `n` bytes does**, in a state with these blocks and statistics.  It is served
exactly if the statistic has room for it, by taking the first block that fits, and has its bytes
there; otherwise there is no memory, and nothing changes. -/
structure Tenancy.Serves (t : Tenancy) (bs : List Block) (s : HeapStats) (n : Nat) : Prop where
  serves_iff : (∃ r, t.heap.alloc n = .ok r) ↔ max n 1 ≤ s.largestFree
  takes : ∀ address h', t.heap.alloc n = .ok (address, h') → h'.start = t.heap.start ∧
    ∃ bs', h'.blocks = .ok bs' ∧ TakesFirst n address bs bs' ∧
      ∃ c ∈ bs', c.used = true ∧ c.payload = address ∧ n ≤ c.capacity
  refuses : s.largestFree < max n 1 →
    t.heap.alloc n = .error (.refused .outOfMemory) ∧ t.step (.alloc n) = .ok t

/-- **What a request for `count * size` cleared bytes does.**  If the product does not fit into a
word it is refused for that; otherwise it does what a request for as many bytes does, and clears
them.  If it is refused, nothing changes. -/
structure Tenancy.Clears (t : Tenancy) (count size : Nat) : Prop where
  overflows_iff : t.heap.calloc count size = .error (.refused .overflow) ↔ 2 ^ 64 ≤ count * size
  serves : count * size < 2 ^ 64 → ∀ address h₁, t.heap.alloc (count * size) = .ok (address, h₁) →
    ∃ h', t.heap.calloc count size = .ok (address, h') ∧
      (∃ bs, h₁.blocks = .ok bs ∧ h'.blocks = .ok bs) ∧
      (∀ x, address ≤ x → x < address + count * size → h'.memory.byte x = 0) ∧
      ∀ x, x < address ∨ address + count * size ≤ x → h'.memory.byte x = h₁.memory.byte x
  refuses : count * size < 2 ^ 64 → ∀ e, t.heap.alloc (count * size) = .error e →
    t.heap.calloc count size = .error e
  unchanged : ∀ e, t.heap.calloc count size = .error e → t.step (.calloc count size) = .ok t

namespace Tenancy.Sound

variable {t : Tenancy} {bs : List Block}

theorem serves (hs : t.Sound bs) (n : Nat) : t.Serves bs (Heap.statsOf t.heap.size bs) n := by
  refine ⟨hs.tiled.exists_alloc_iff, fun address h' hok => ?_, fun hlt => ?_⟩
  · obtain ⟨hstart, bs', ht', htakes⟩ := Heap.takesFirst_of_alloc hs.tiled hok
    exact ⟨hstart, bs', ht'.blocks_eq, htakes, htakes.exists_block⟩
  · have hno := hs.tiled.alloc_eq_error hlt
    exact ⟨hno, by rw [step, hno]; rfl⟩

theorem clears (hs : t.Sound bs) (count size : Nat) : t.Clears count size := by
  refine ⟨hs.tiled.calloc_eq_overflow_iff, fun hlt _ _ => Heap.exists_calloc hs.tiled hlt,
    fun hlt e he => by rw [Heap.calloc_of_lt hlt, he]; rfl, fun e he => ?_⟩
  rcases Heap.calloc_cases hs.tiled count size with ⟨e', he'⟩ | ⟨address, h', hok, -⟩
  · rw [step, he']
    rfl
  · rw [he] at hok
    cases hok

end Tenancy.Sound

/-! ## 3. Every reachable state -/

namespace Tenancy

variable {t : Tenancy} {memory : Memory} {start size : Nat} {heap : Heap}

/-- **First fit.**  From the first state of a heap that ends inside the 64-bit range on, whatever calls
its owners make: a request is served exactly if the statistics say that there is room, from the lowest
free block that is large enough, and refused for want of memory otherwise; and so is a cleared request,
if its bytes can be counted. -/
theorem firstFit_of_reaches (hok : Heap.ofRange memory start size = .ok heap)
    (hlimit : heap.limit < 2 ^ 64) (hr : Reaches ⟨heap, []⟩ t) :
    ∃ bs s, t.heap.blocks = .ok bs ∧ t.heap.stats = .ok s ∧ (∀ n, t.Serves bs s n) ∧
      ∀ count size, t.Clears count size := by
  obtain ⟨bs₀, ht₀, hfree, -⟩ := Heap.tiled_of_ofRange hok hlimit
  obtain ⟨⟨bs, hs⟩, -⟩ := (Sound.of_free ht₀ hfree).of_reaches hr
  exact ⟨bs, _, hs.tiled.blocks_eq, hs.tiled.stats_eq, hs.serves, hs.clears⟩

/-- A heap over 64 KiB of which 100 bytes are allocated. -/
theorem firstFit_oneAllocation : ∃ heap t, Heap.ofRange .zero 4097 65536 = .ok heap ∧
    heap.limit < 2 ^ 64 ∧ Reaches ⟨heap, []⟩ t ∧
    ∃ bs s, t.heap.blocks = .ok bs ∧ t.heap.stats = .ok s ∧
      bs = [⟨4112, 128, true⟩, ⟨4240, 65392, false⟩] ∧ s.largestFree = 65376 ∧
      (∀ n, t.Serves bs s n) ∧ ∀ count size, t.Clears count size := by
  obtain ⟨heap, hok, hlimit, ht, halloc⟩ := Heap.exists_fresh
  have hr : Reaches ⟨heap, []⟩ ⟨heap.carve ⟨4112, 65520, false⟩ 128, [⟨4128, 100, none, 4128⟩]⟩ :=
    Reaches.refl.call (show HeapCall.Allowed _ (.alloc 100) from trivial)
      (by rw [step, halloc]; rfl)
  have ht' : (heap.carve ⟨4112, 65520, false⟩ 128).Tiled
      ([] ++ Block.carved ⟨4112, 65520, false⟩ 128 ++ []) :=
    Heap.tiled_carve ht rfl rfl (by decide) (by decide)
  obtain ⟨bs, s, hblocks, hstats, hserves, hclears⟩ := firstFit_of_reaches hok hlimit hr
  cases hblocks.symm.trans ht'.blocks_eq
  cases hstats.symm.trans ht'.stats_eq
  exact ⟨heap, _, hok, hlimit, hr, _, _, hblocks, hstats, rfl, rfl, hserves, hclears⟩

end Tenancy

end KernelCore
