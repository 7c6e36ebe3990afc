/-
# Walks over whatever is in memory

The headers lie among the data of their owners, so anything may have been written over them.  Nothing is
assumed of the memory here: neither that the blocks tile the heap, nor that there are any.  What the walks
rely on is that a header is looked at in one place, `Heap.blockAt`, which lets a walk go on only by at least
the smallest block, and not beyond the end of the heap.

* `Heap.walk`: every loop over the blocks, as one loop that keeps what it saw;
* `safe_walk`: the blocks that it accepts lie one behind the other inside the heap, so it comes to an end
  after as many headers as there is room for, and at most one that it does not accept;
* `alloc_eq_walk`, `blocks_eq_walk`, `seek_eq_walk`: the operations read what this loop reads;
* `walksSafely`: so none of them goes astray, and none writes outside the heap.
-/
import KernelCore.Proofs.Heap.Transitions

namespace KernelCore

/-! ## 1. The walk -/

namespace Heap

/-- How a walk ends. -/
inductive Ending where
  /-- In front of the header at this address, which is not looked at. -/
  | past (address : Nat)
  /-- At a block that was looked for, the last of those accepted. -/
  | found (b : Block)
  /-- At a header that cannot be right. -/
  | halted (address : Nat) (halt : Halt)

/-- What a walk saw: the blocks whose headers it accepted, in this order, and how it ended. -/
structure Walk where
  accepted : List Block
  ending : Ending

/-- The header that ends a walk, if it ends at one that cannot be right. -/
def Ending.refused : Ending → List Nat
  | .halted address _ => [address]
  | _ => []

theorem Ending.length_refused : ∀ e : Ending, e.refused.length ≤ 1
  | .past _ => Nat.zero_le 1
  | .found _ => Nat.zero_le 1
  | .halted _ _ => Nat.le_refl 1

/-- Where the headers are that a walk looked at, in this order. -/
def Walk.headers (w : Walk) : List Nat := w.accepted.map Block.address ++ w.ending.refused

/-- The walk with a block in front. -/
def Walk.after (w : Walk) (b : Block) : Walk := ⟨b :: w.accepted, w.ending⟩

/-- **The walk from header to header**, up to `bound` or to the first block that stops it. -/
def walk (h : Heap) (bound : Nat) (stops : Block → Bool) (address : Nat) : Walk :=
  if address < bound then
    match _hb : h.blockAt address with
    | .error halt => ⟨[], .halted address halt⟩
    | .ok b => if stops b then ⟨[b], .found b⟩ else (h.walk bound stops b.next).after b
  else ⟨[], .past address⟩
termination_by bound - address
decreasing_by
  have := lt_next_of_blockAt ‹_›
  omega

variable {h h' : Heap} {b : Block} {a z x n need target bound : Nat} {halt : Halt} {stops : Block → Bool}
  {w : Walk}

/-- One step of the walk. -/
theorem walk_eq (h : Heap) (bound : Nat) (stops : Block → Bool) (a : Nat) : h.walk bound stops a =
    if a < bound then
      match h.blockAt a with
      | .error halt => ⟨[], .halted a halt⟩
      | .ok b => if stops b then ⟨[b], .found b⟩ else (h.walk bound stops b.next).after b
    else ⟨[], .past a⟩ := by
  rw [walk]
  split
  · split <;> next he => rw [he]
  · rfl

theorem walk_past (ha : bound ≤ a) : h.walk bound stops a = ⟨[], .past a⟩ := by
  rw [walk_eq, if_neg (Nat.not_lt_of_le ha)]

theorem walk_halted (ha : a < bound) (hb : h.blockAt a = .error halt) :
    h.walk bound stops a = ⟨[], .halted a halt⟩ := by
  rw [walk_eq, if_pos ha, hb]

theorem walk_found (ha : a < bound) (hb : h.blockAt a = .ok b) (hstop : stops b = true) :
    h.walk bound stops a = ⟨[b], .found b⟩ := by
  rw [walk_eq, if_pos ha, hb]
  exact if_pos hstop

theorem walk_step (ha : a < bound) (hb : h.blockAt a = .ok b) (hstop : ¬stops b = true) :
    h.walk bound stops a = (h.walk bound stops b.next).after b := by
  rw [walk_eq, if_pos ha, hb]
  exact if_neg hstop

/-! ## 2. What a walk sees -/

/-- **Why a header is not accepted**, and the halt that says so. -/
inductive Flaw (h : Heap) (a : Nat) : Halt → Prop where
  | misaligned : a % 8 ≠ 0 → Flaw h a (.misaligned a)
  | tag : usedOfTag? (h.memory.word (a + 8)) = none →
      Flaw h a (.blockTag a (h.memory.word (a + 8)).toNat)
  | short : (h.memory.word a).toNat < minBlock → Flaw h a (.blockSize a (h.memory.word a).toNat)
  | overflow : 2 ^ 64 ≤ a + (h.memory.word a).toNat → Flaw h a .addOverflow
  | long : h.limit < a + (h.memory.word a).toNat → Flaw h a (.blockSize a (h.memory.word a).toNat)

theorem flaw_of_blockAt (hb : h.blockAt a = .error halt) : h.Flaw a halt := by
  unfold blockAt at hb
  split at hb
  · next hcrooked => cases hb; exact .misaligned hcrooked
  dsimp only at hb
  split at hb
  · next htag => cases hb; exact .tag htag
  split at hb
  · next hshort => cases hb; exact .short hshort
  split at hb
  · next hover => cases hb; exact .overflow hover
  split at hb
  · next hlong => cases hb; exact .long hlong
  · cases hb

/-- A header is accepted at a multiple of eight only. -/
theorem aligned_of_blockAt (hb : h.blockAt a = .ok b) : a % 8 = 0 := by
  by_contra hcrooked
  rw [blockAt, if_pos hcrooked] at hb
  cases hb

/-- **A walk that goes from block to block**, from `a` up to `z`: the blocks that it accepts follow each
other, and what it stops at, if it is not the last of them, is what lies behind them. -/
structure Walk.Runs (w : Walk) (h : Heap) (a z : Nat) : Prop where
  run : Contiguous a z w.accepted
  accepted : ∀ b ∈ w.accepted, h.blockAt b.address = .ok b
  ending : match w.ending with
    | .past x => x = z
    | .found b => w.accepted.getLast? = some b
    | .halted x halt => x = z ∧ z < h.limit ∧ h.blockAt z = .error halt

theorem exists_runs (hbound : bound ≤ h.limit) (stops : Block → Bool) (a : Nat) :
    ∃ z, (h.walk bound stops a).Runs h a z := by
  induction a using walk.induct h bound stops with
  | case1 a ha halt hb =>
    rw [walk_halted ha hb]
    exact ⟨a, rfl, fun c hc => absurd hc List.not_mem_nil, rfl, Nat.lt_of_lt_of_le ha hbound, hb⟩
  | case2 a ha b hb hstop =>
    have hat := (blockAt_bounds hb).1
    rw [walk_found ha hb hstop]
    refine ⟨b.next, ⟨hat, rfl⟩, fun c hc => ?_, rfl⟩
    cases List.mem_singleton.mp hc
    rwa [hat]
  | case3 a ha b hb hstop ih =>
    have hat := (blockAt_bounds hb).1
    obtain ⟨z, hrun, haccepted, hending⟩ := ih
    rw [walk_step ha hb hstop]
    refine ⟨z, ⟨hat, hrun⟩, fun c hc => ?_, ?_⟩
    · rcases List.mem_cons.mp hc with rfl | hc
      · rwa [hat]
      · exact haccepted c hc
    · simp only [Walk.after] at hending ⊢
      split at hending
      · exact hending
      · next hfound =>
        rw [List.getLast?_cons, hending]
        rfl
      · exact hending
  | case4 a ha =>
    rw [walk_past (Nat.le_of_not_lt ha)]
    exact ⟨a, rfl, fun c hc => absurd hc List.not_mem_nil, rfl⟩

/-! ## 3. How far it goes -/

/-- Accepted blocks take up at least the room of smallest ones. -/
theorem length_le_of_contiguous : ∀ {bs : List Block} {a : Nat}, Contiguous a z bs →
    (∀ b ∈ bs, minBlock ≤ b.size) → a + minBlock * bs.length ≤ z
  | [], _, h, _ => Nat.le_of_eq h
  | b :: bs, a, ⟨hat, hrun⟩, hsize => by
    have ih := length_le_of_contiguous hrun fun c hc => hsize c (List.mem_cons_of_mem _ hc)
    have hb := hsize b List.mem_cons_self
    rw [List.length_cons, Nat.mul_succ]
    simp only [Block.next] at ih
    omega

/-- Each begins behind those before. -/
theorem increasing_of_contiguous : ∀ {bs : List Block} {a : Nat}, Contiguous a z bs →
    (∀ b ∈ bs, b.address < b.next) → bs.Pairwise fun b c => b.address < c.address
  | [], _, _, _ => .nil
  | b :: bs, a, ⟨_, hrun⟩, hsize => by
    refine .cons (fun c hc => ?_)
      (increasing_of_contiguous hrun fun c hc => hsize c (List.mem_cons_of_mem _ hc))
    exact Nat.lt_of_lt_of_le (hsize b List.mem_cons_self) (hrun.mem_bounds c hc).1

/-- A block that lies wholly inside the heap. -/
structure Encloses (h : Heap) (b : Block) : Prop where
  start_le : h.start ≤ b.address
  next_le : b.next ≤ h.limit
  min_le : minBlock ≤ b.size

/-- **A walk that cannot do harm.** -/
structure Walk.Safe (w : Walk) (h : Heap) : Prop where
  /-- The blocks that it accepts follow each other from the start of the heap on. -/
  consecutive : ∃ z, Contiguous h.start z w.accepted
  /-- Each of them lies wholly inside the heap. -/
  inside : ∀ b ∈ w.accepted, h.Encloses b
  /-- Their offsets increase. -/
  increasing : w.accepted.Pairwise fun b c => b.address - h.start < c.address - h.start
  /-- What it finds is one of them. -/
  found : ∀ b, w.ending = .found b → b ∈ w.accepted
  /-- It looks at no more headers than there is room for, and one that it does not accept. -/
  few : w.accepted.length ≤ h.size / minBlock
  headers : w.headers.length ≤ h.size / minBlock + 1
  /-- It halts at a header that cannot be right, behind the blocks that it accepted. -/
  flaw : ∀ x halt, w.ending = .halted x halt → h.start ≤ x ∧ x < h.limit ∧ h.Flaw x halt
  /-- If the header at the start is where a header can be, it is a claimed size that leads the walk to
  an address where none can be. -/
  crooked : h.start % 8 = 0 → ∀ x, w.ending = .halted x (.misaligned x) →
    ∃ b ∈ w.accepted, b.next = x ∧ b.size % 8 ≠ 0

/-- What lies behind the accepted blocks is the start of the heap, or it is where the last one ends. -/
theorem Walk.Runs.behind (hw : w.Runs h a z) : (w.accepted = [] ∧ z = a) ∨
    ∃ b ∈ w.accepted, b.next = z := by
  rcases List.eq_nil_or_concat w.accepted with hnil | ⟨pre, b, hlast⟩
  · have hrun := hw.run
    rw [hnil] at hrun
    exact .inl ⟨hnil, hrun.symm⟩
  · have hrun := hw.run
    rw [hlast, List.concat_eq_append] at hrun
    obtain ⟨_, -, -, hnext⟩ := Contiguous.append_iff.mp hrun
    refine .inr ⟨b, ?_, hnext⟩
    rw [hlast, List.concat_eq_append]
    exact List.mem_concat_self

theorem Walk.Runs.safe (hw : w.Runs h h.start z) : w.Safe h := by
  have hinside : ∀ b ∈ w.accepted, h.Encloses b := fun b hb =>
    have hbounds := blockAt_bounds (hw.accepted b hb)
    ⟨(hw.run.mem_bounds b hb).1, hbounds.2.2, hbounds.2.1⟩
  have hz : z ≤ h.limit := by
    rcases hw.behind with ⟨-, rfl⟩ | ⟨b, hb, rfl⟩
    · exact Nat.le_add_right _ _
    · exact (hinside b hb).next_le
  have hroom := length_le_of_contiguous hw.run fun b hb => (hinside b hb).min_le
  have hfew : w.accepted.length ≤ h.size / minBlock := by
    refine (Nat.le_div_iff_mul_le (by decide)).mpr ?_
    simp only [limit] at hz
    rw [Nat.mul_comm]
    omega
  refine ⟨⟨z, hw.run⟩, hinside, ?_, fun b hb => ?_, hfew, ?_, fun x halt hx => ?_, fun hstart x hx => ?_⟩
  · have hlt := increasing_of_contiguous hw.run fun b hb => lt_next_of_blockAt (hw.accepted b hb)
    refine hlt.imp_of_mem fun hb hc h => ?_
    have hb := (hinside _ hb).start_le
    omega
  · have hending := hw.ending
    rw [hb] at hending
    exact List.mem_of_getLast? hending
  · have hrefused := w.ending.length_refused
    rw [Walk.headers, List.length_append, List.length_map]
    omega
  · have hending := hw.ending
    rw [hx] at hending
    obtain ⟨rfl, hlt, hb⟩ := hending
    exact ⟨hw.run.le, hlt, flaw_of_blockAt hb⟩
  · have hending := hw.ending
    rw [hx] at hending
    obtain ⟨rfl, -, hb⟩ := hending
    have hcrooked : x % 8 ≠ 0 := by
      cases flaw_of_blockAt hb with
      | misaligned hcrooked => exact hcrooked
    rcases hw.behind with ⟨-, rfl⟩ | ⟨b, hmem, hnext⟩
    · exact absurd hstart hcrooked
    · have hal := aligned_of_blockAt (hw.accepted b hmem)
      refine ⟨b, hmem, hnext, fun hsize => hcrooked ?_⟩
      rw [← hnext, Block.next]
      omega

theorem safe_walk (hbound : bound ≤ h.limit) (stops : Block → Bool) :
    (h.walk bound stops h.start).Safe h :=
  have ⟨_, hw⟩ := exists_runs hbound stops h.start
  hw.safe

/-! ## 4. The loops -/

/-- A walk that nothing stops. -/
def walkAll (h : Heap) : Walk := h.walk h.limit (fun _ => false) h.start

/-- The walk to the first free block of at least `need` bytes. -/
def walkFit (h : Heap) (need : Nat) : Walk :=
  h.walk h.limit (fun b => !b.used && decide (need ≤ b.size)) h.start

/-- A walk that looks for a block in use ends here: the block reaches beyond the target and is not
the one, or it is the one behind. -/
def leaves (target : Nat) (b : Block) : Bool :=
  decide (target < b.next) && !(decide (b.address = target) && b.used)

/-- The walk to the block in use at the target, and to the one behind it. -/
def walkTo (h : Heap) (target : Nat) : Walk := h.walk h.limit (leaves target) h.start

/-- One step of each loop. -/
theorem blocksFrom_of_lt (ha : a < h.limit) : h.blocksFrom a =
    match h.blockAt a with
    | .error halt => .error halt
    | .ok b => do return b :: (← h.blocksFrom b.next) := by
  rw [blocksFrom, if_pos ha]
  split <;> next he => rw [he]

theorem firstFit_of_lt (ha : a < h.limit) (need : Nat) : h.firstFit need a =
    match h.blockAt a with
    | .error halt => .error halt
    | .ok b => if !b.used && need ≤ b.size then .ok (some b) else h.firstFit need b.next := by
  rw [firstFit, if_pos ha]
  split <;> next he => rw [he]

theorem seek_of_lt (ha : a < target) (previous : Option Block) : h.seek target previous a =
    match h.blockAt a with
    | .error halt => .error halt
    | .ok b => h.seek target (some b) b.next := by
  rw [seek, if_pos ha]
  split <;> next he => rw [he]

theorem blocksFrom_eq_walk (h : Heap) (a : Nat) : h.blocksFrom a =
    match (h.walk h.limit (fun _ => false) a).ending with
    | .halted _ halt => .error halt
    | _ => .ok (h.walk h.limit (fun _ => false) a).accepted := by
  induction a using walk.induct h h.limit (fun _ => false) with
  | case1 a ha halt hb => rw [walk_halted ha hb, blocksFrom_of_lt ha, hb]
  | case2 a ha b hb hstop => cases hstop
  | case3 a ha b hb hstop ih =>
    rw [walk_step ha hb hstop, blocksFrom_of_lt ha, hb]
    simp only [ih, Walk.after]
    split <;> rfl
  | case4 a ha => rw [walk_past (Nat.le_of_not_lt ha), blocksFrom, if_neg ha]

theorem firstFit_eq_walk (h : Heap) (need a : Nat) : h.firstFit need a =
    match (h.walk h.limit (fun b => !b.used && decide (need ≤ b.size)) a).ending with
    | .past _ => .ok none
    | .found b => .ok (some b)
    | .halted _ halt => .error halt := by
  induction a using walk.induct h h.limit (fun b => !b.used && decide (need ≤ b.size)) with
  | case1 a ha halt hb => rw [walk_halted ha hb, firstFit_of_lt ha, hb]
  | case2 a ha b hb hstop =>
    rw [walk_found ha hb hstop, firstFit_of_lt ha, hb]
    exact if_pos hstop
  | case3 a ha b hb hstop ih =>
    rw [walk_step ha hb hstop, firstFit_of_lt ha, hb]
    exact (if_neg hstop).trans ih
  | case4 a ha => rw [walk_past (Nat.le_of_not_lt ha), firstFit, if_neg ha]

/-- What a walk to a target that is not beyond the end of the heap comes to, and the walk up to it that
it begins with. -/
inductive Seeks (h : Heap) (target : Nat) (previous : Option Block) (a : Nat) : Prop where
  /-- A header in front of the target cannot be right. -/
  | halted {x : Nat} {halt : Halt} (hseek : h.seek target previous a = .error halt)
      (hending : (h.walk h.limit (leaves target) a).ending = .halted x halt) : Seeks h target previous a
  /-- A block reaches beyond the target. -/
  | passed {z : Nat} {p : Option Block} {b : Block} (hseek : h.seek target previous a = .ok (p, z))
      (hz : z ≠ target) (hending : (h.walk h.limit (leaves target) a).ending = .found b)
      (hnone : ∀ c ∈ (h.walk h.limit (leaves target) a).accepted, c.address < target) :
      Seeks h target previous a
  /-- A block ends in front of the target, or the walk begins there. -/
  | reached {front : List Block} (hseek : h.seek target previous a = .ok (front.getLast?.or previous, target))
      (hwalk : h.walk h.limit (leaves target) a =
        ⟨front ++ (h.walk h.limit (leaves target) target).accepted,
          (h.walk h.limit (leaves target) target).ending⟩)
      (hfront : ∀ c ∈ front, c.address < target) : Seeks h target previous a

theorem leaves_iff : leaves target b = true ↔
    target < b.next ∧ ¬(b.address = target ∧ b.used = true) := by
  simp only [leaves, Bool.and_eq_true, Bool.not_eq_true', Bool.and_eq_false_iff, decide_eq_true_eq,
    decide_eq_false_iff_not, not_and, Bool.not_eq_true, imp_iff_not_or]

theorem seeks (htarget : target ≤ h.limit) (previous : Option Block) (a : Nat) (ha : a ≤ target) :
    h.Seeks target previous a := by
  induction previous, a using seek.induct h target with
  | case1 previous a hlt halt hb =>
    have hseek : h.seek target previous a = .error halt := by rw [seek_of_lt hlt, hb]
    have hwalk : h.walk h.limit (leaves target) a = ⟨[], .halted a halt⟩ := walk_halted (by omega) hb
    exact .halted hseek (congrArg Walk.ending hwalk)
  | case2 previous a hlt b hb ih =>
    have hat := (blockAt_bounds hb).1
    have hseek : h.seek target previous a = h.seek target (some b) b.next := by rw [seek_of_lt hlt, hb]
    rcases Nat.lt_or_ge target b.next with hover | hfront
    · have hwalk : h.walk h.limit (leaves target) a = ⟨[b], .found b⟩ :=
        walk_found (by omega) hb (leaves_iff.mpr ⟨hover, fun h => by omega⟩)
      refine .passed (z := b.next) (p := some b) (b := b) ?_ (Nat.ne_of_gt hover) ?_ fun c hc => ?_
      · rw [hseek, seek, if_neg (Nat.not_lt_of_lt hover)]
      · rw [hwalk]
      · rw [hwalk] at hc
        rwa [List.mem_singleton.mp hc, hat]
    · have hwalk : h.walk h.limit (leaves target) a = (h.walk h.limit (leaves target) b.next).after b :=
        walk_step (by omega) hb fun hleaves => Nat.not_lt_of_le hfront (leaves_iff.mp hleaves).1
      have hbefore : ∀ {bs : List Block}, (∀ c ∈ bs, c.address < target) →
          ∀ c ∈ b :: bs, c.address < target := fun hbs c hc =>
        (List.mem_cons.mp hc).elim (fun h => by rwa [h, hat]) (hbs c)
      cases ih hfront with
      | halted hrest hending => exact .halted (hseek.trans hrest) (by rw [hwalk]; exact hending)
      | passed hrest hz hending hnone =>
        refine .passed (hseek.trans hrest) hz (by rw [hwalk]; exact hending) ?_
        rw [hwalk]
        exact hbefore hnone
      | @reached front hrest hsplit hfront =>
        have hlast : h.seek target previous a = .ok ((b :: front).getLast?.or previous, target) := by
          rw [hseek, hrest, List.getLast?_cons]
          cases front.getLast? <;> rfl
        refine .reached hlast ?_ (hbefore hfront)
        rw [hwalk, hsplit]
        rfl
  | case3 previous a hge =>
    obtain rfl : a = target := by omega
    have hseek : h.seek a previous a = .ok (([] : List Block).getLast?.or previous, a) := by
      rw [seek, if_neg hge]
      rfl
    exact .reached hseek rfl fun c hc => absurd hc List.not_mem_nil

/-! ## 5. What is written -/

theorem Confined.refl (h : Heap) : h.Confined h := ⟨rfl, rfl, fun _ _ => rfl⟩

/-- A header that is written inside the heap. -/
theorem confined_setHeader (hstart : h.start ≤ a) (hlimit : a + headerSize ≤ h.limit) (size : Nat)
    (tag : UInt64) : h.Confined (h.setHeader a size tag) := by
  refine ⟨start_setHeader h a size tag, size_setHeader h a size tag, fun x hx => ?_⟩
  exact byte_setHeader_of_outside h a size tag x (by omega)

/-- The same, over the range of another heap. -/
theorem Confined.setHeader (hc : h.Confined h') (hstart : h.start ≤ a)
    (hlimit : a + headerSize ≤ h.limit) (size : Nat) (tag : UInt64) :
    h.Confined (h'.setHeader a size tag) :=
  hc.trans (confined_setHeader (by rwa [hc.start_eq]) (by rwa [hc.limit_eq]) size tag)

theorem Confined.setBlock (hc : h.Confined h') (hb : h.Encloses b) (size : Nat) (tag : UInt64) :
    h.Confined (h'.setHeader b.address size tag) := by
  have := hb.next_le
  have := hb.min_le
  simp only [minBlock, headerSize, heapAlign, Block.next] at *
  exact hc.setHeader hb.start_le (by simp only [headerSize]; omega) size tag

theorem confined_carve (hb : h.Encloses b) (need : Nat) : h.Confined (h.carve b need) := by
  have hstart := hb.start_le
  have hnext := hb.next_le
  unfold carve
  split
  · next hrest =>
    refine (confined_setHeader ?_ ?_ _ _).setBlock hb _ _
    · omega
    · simp only [minBlock, headerSize, heapAlign, Block.next] at *
      omega
  · exact (Confined.refl h).setBlock hb _ _

/-- What a free does once it has found its block. -/
def release (h : Heap) (previous : Option Block) (b : Block) : Except (Stop HeapError) Heap := do
  let (b, h) ← Stop.ofHalt (h.absorbNext b)
  let (b, h) := h.absorbPrevious previous b
  return h.setHeader b.address b.size freeTag

/-- The block behind is merged, stays, or has a header that cannot be right. -/
theorem absorbNext_cases (hb : h.Encloses b) (hover : target < b.next) :
    (∃ x halt, (h.walk h.limit (leaves target) b.next).ending = .halted x halt ∧
      h.absorbNext b = .error halt) ∨
    (h.walk h.limit (leaves target) b.next).ending.refused = [] ∧
      ∃ c h', h.absorbNext b = .ok (c, h') ∧ c.address = b.address ∧ h.Confined h' := by
  unfold absorbNext
  rcases Nat.lt_or_ge b.next h.limit with hlt | hge
  · rw [if_pos hlt]
    cases hnext : h.blockAt b.next with
    | error halt =>
      rw [walk_halted hlt hnext]
      exact .inl ⟨b.next, halt, rfl, rfl⟩
    | ok c =>
      obtain ⟨hat, hmin, hle⟩ := blockAt_bounds hnext
      have hstart : h.start ≤ c.address :=
        hat ▸ Nat.le_trans hb.start_le (Nat.le_add_right b.address b.size)
      have hleaves : leaves target c = true :=
        leaves_iff.mpr ⟨Nat.lt_trans hover (lt_next_of_blockAt hnext), fun h => by omega⟩
      rw [walk_found hlt hnext hleaves]
      refine .inr ⟨rfl, ?_⟩
      cases hused : c.used with
      | true => exact ⟨b, h, by simp [hused, bind, Except.bind, pure, Except.pure], rfl, .refl h⟩
      | false =>
        refine ⟨{ b with size := b.size + c.size }, h.clearHeader c.address, ?_, rfl, ?_⟩
        · simp [hused, bind, Except.bind, pure, Except.pure]
        · exact (Confined.refl h).setBlock ⟨hstart, hle, hmin⟩ 0 0
  · rw [if_neg (Nat.not_lt_of_le hge), walk_past hge]
    exact .inr ⟨rfl, b, h, rfl, rfl, .refl h⟩

/-- The header that is written last is one of the block's or of the block in front. -/
theorem confined_absorbPrevious {previous : Option Block} {c : Block} (hb : h.Encloses b)
    (hat : c.address = b.address) (hprevious : ∀ p ∈ previous, h.Encloses p) (hc : h.Confined h')
    (size : Nat) (tag : UInt64) : h.Confined
      ((h'.absorbPrevious previous c).2.setHeader (h'.absorbPrevious previous c).1.address size tag) := by
  unfold absorbPrevious
  cases previous with
  | none => exact hat ▸ hc.setBlock hb size tag
  | some p =>
    simp only
    cases p.used with
    | true => exact hat ▸ hc.setBlock hb size tag
    | false =>
      have hwiped : h.Confined (h'.clearHeader c.address) := hat ▸ hc.setBlock hb 0 0
      exact hwiped.setBlock (hprevious p rfl) size tag

theorem release_cases {previous : Option Block} (hb : h.Encloses b) (hover : target < b.next)
    (hprevious : ∀ p ∈ previous, h.Encloses p) :
    (∃ x halt, (h.walk h.limit (leaves target) b.next).ending = .halted x halt ∧
      h.release previous b = .error (.halted halt)) ∨
    (h.walk h.limit (leaves target) b.next).ending.refused = [] ∧
      ∃ h', h.release previous b = .ok h' ∧ h.Confined h' := by
  unfold release
  rcases absorbNext_cases hb hover with ⟨x, halt, hending, hmerge⟩ | ⟨hending, c, h₁, hmerge, hat, hc⟩
  · rw [hmerge]
    exact .inl ⟨x, halt, hending, rfl⟩
  · rw [hmerge]
    exact .inr ⟨hending, _, rfl, confined_absorbPrevious hb hat hprevious hc _ _⟩

/-! ## 6. The operations -/

theorem checkedLimit_of_lt (hlimit : h.limit < 2 ^ 64) : h.checkedLimit = .ok h.limit :=
  if_neg (Nat.not_le_of_lt hlimit)

theorem checkedLimit_of_le (hlimit : 2 ^ 64 ≤ h.limit) : h.checkedLimit = .error .addOverflow :=
  if_pos hlimit

theorem alloc_eq_walk (hlimit : h.limit < 2 ^ 64) {n : Nat} (hneed : blockSizeFor? n = some need) :
    h.alloc n = match (h.walkFit need).ending with
      | .past _ => .error (.refused .outOfMemory)
      | .found b => .ok (b.payload, h.carve b need)
      | .halted _ halt => .error (.halted halt) := by
  unfold alloc
  simp only [hneed, checkedLimit_of_lt hlimit, firstFit_eq_walk]
  unfold walkFit
  split <;> rfl

theorem blocks_eq_walk (hlimit : h.limit < 2 ^ 64) : h.blocks = match h.walkAll.ending with
    | .halted _ halt => .error halt
    | _ => .ok h.walkAll.accepted := by
  unfold blocks
  rw [checkedLimit_of_lt hlimit]
  exact blocksFrom_eq_walk h h.start

/-- **What becomes of a free**, by what its walk saw, and the headers that it looks at: those of the walk
and, if a block is freed, once more the one of the block in front. -/
inductive Frees (h : Heap) (address : Nat) (w : Walk) : Except (Stop HeapError) Heap → List Nat → Prop where
  | halted {x : Nat} {halt : Halt} (hending : w.ending = .halted x halt) :
      Frees h address w (.error (.halted halt)) w.headers
  | refused (hending : w.ending.refused = [])
      (hnone : ∀ b ∈ w.accepted, b.payload = address → b.used = false) :
      Frees h address w (.error (.refused (.invalidFree address))) w.headers
  | freed {front back : List Block} {b : Block} {h' : Heap} (hending : w.ending.refused = [])
      (haccepted : w.accepted = front ++ b :: back) (hpayload : b.payload = address)
      (hused : b.used = true) (hc : h.Confined h') :
      Frees h address w (.ok h') (w.headers ++ (front.getLast?.map Block.address).toList)

/-- A free that comes to its target looks at the header there. -/
theorem frees_of_reached {front : List Block} (hstart : h.start ≤ target) (htarget : target < h.limit)
    (hwalk : h.walkTo target = ⟨front ++ (h.walk h.limit (leaves target) target).accepted,
      (h.walk h.limit (leaves target) target).ending⟩)
    (hfront : ∀ c ∈ front, c.address < target) {result : Except (Stop HeapError) Heap}
    (hresult : result = do
      let b ← Stop.ofHalt (h.blockAt target)
      if !b.used then .error (.refused (.invalidFree (target + headerSize)))
      else h.release (front.getLast?.or none) b) :
    ∃ looks, h.Frees (target + headerSize) (h.walkTo target) result looks := by
  have hsafe : (h.walkTo target).Safe h := safe_walk (Nat.le_refl _) (leaves target)
  cases hb : h.blockAt target with
  | error halt =>
    rw [walk_halted htarget hb] at hwalk
    rw [hresult, hb]
    exact ⟨_, .halted (congrArg Walk.ending hwalk)⟩
  | ok b =>
    obtain ⟨hat, hmin, hle⟩ := blockAt_bounds hb
    have hover : target < b.next := lt_next_of_blockAt hb
    rw [hb] at hresult
    cases hused : b.used with
    | false =>
      rw [walk_found htarget hb (leaves_iff.mpr ⟨hover, fun h => by simp [hused] at h⟩)] at hwalk
      have hresult : result = .error (.refused (.invalidFree (target + headerSize))) := by
        rw [hresult]
        simp [hused, bind, Except.bind]
      rw [hresult]
      refine ⟨_, .refused (congrArg (fun w => w.ending.refused) hwalk) fun c hc hpayload => ?_⟩
      rw [hwalk] at hc
      rcases List.mem_append.mp hc with hc | hc
      · have := hfront c hc
        simp only [Block.payload] at hpayload
        omega
      · rwa [List.mem_singleton.mp hc]
    | true =>
      rw [walk_step htarget hb fun h => (leaves_iff.mp h).2 ⟨hat, hused⟩] at hwalk
      have hresult : result = h.release (front.getLast?.or none) b := by
        rw [hresult]
        simp [hused, bind, Except.bind]
      have haccepted := congrArg Walk.accepted hwalk
      have hprevious : ∀ p ∈ front.getLast?.or none, h.Encloses p := fun p hp => by
        refine hsafe.inside p ?_
        rw [haccepted, Option.or_none] at *
        exact List.mem_append_left _ (List.mem_of_getLast? hp)
      rw [hresult]
      rcases release_cases ⟨hat ▸ hstart, hle, hmin⟩ hover hprevious with
        ⟨x, halt, hending, heq⟩ | ⟨hending, h', heq, hc⟩
      · rw [heq]
        exact ⟨_, .halted ((congrArg Walk.ending hwalk).trans hending)⟩
      · rw [heq]
        refine ⟨_, .freed ?_ haccepted (congrArg (· + headerSize) hat) hused hc⟩
        rw [hwalk]
        exact hending

theorem frees (hlimit : h.limit < 2 ^ 64) (hstart : h.start ≤ target) (htarget : target < h.limit) :
    ∃ looks, h.Frees (target + headerSize) (h.walkTo target) (h.free (target + headerSize)) looks := by
  unfold free
  simp only [Nat.add_sub_cancel]
  rw [if_neg (by omega), checkedLimit_of_lt hlimit]
  simp only [Stop.ofHalt_ok, bind, Except.bind]
  rw [if_neg (Nat.not_le_of_lt htarget)]
  cases h.seeks (Nat.le_of_lt htarget) none h.start hstart with
  | halted hseek hending =>
    rw [hseek]
    exact ⟨_, .halted hending⟩
  | passed hseek hz hending hnone =>
    rw [hseek]
    simp only [Stop.ofHalt_ok]
    rw [if_pos hz]
    refine ⟨_, .refused (congrArg Ending.refused hending) fun b hb hpayload => ?_⟩
    have := hnone b hb
    simp only [Block.payload] at hpayload
    omega
  | @reached front hseek hwalk hfront =>
    refine frees_of_reached hstart htarget hwalk hfront ?_
    rw [hseek]
    simp only [Stop.ofHalt_ok]
    rw [if_neg (not_not.mpr rfl)]
    rfl

/-- A free that completes has room for its second look at the block in front. -/
theorem Frees.length_le {result : Except (Stop HeapError) Heap} {looks : List Nat}
    (hf : h.Frees x w result looks) (hw : w.Safe h) : looks.length ≤ h.size / minBlock + 1 := by
  cases hf with
  | halted => exact hw.headers
  | refused => exact hw.headers
  | @freed front =>
    have hfew := hw.few
    have hsecond : (front.getLast?.map Block.address).toList.length ≤ 1 := by
      cases front.getLast? <;> simp
    rw [List.length_append, Walk.headers, ‹w.ending.refused = []›, List.append_nil, List.length_map]
    omega

theorem safe_walkFit (h : Heap) (need : Nat) : (h.walkFit need).Safe h := safe_walk (Nat.le_refl _) _

theorem safe_walkTo (h : Heap) (target : Nat) : (h.walkTo target).Safe h := safe_walk (Nat.le_refl _) _

/-- Without room for the address of its end, a heap is not walked at all. -/
theorem alloc_of_overflow (hlimit : 2 ^ 64 ≤ h.limit) (n : Nat) :
    h.alloc n = .error (.refused .outOfMemory) ∨ h.alloc n = .error (.halted .addOverflow) := by
  unfold alloc
  cases blockSizeFor? n with
  | none => exact .inl rfl
  | some need =>
    rw [checkedLimit_of_le hlimit]
    exact .inr rfl

theorem free_of_overflow (hlimit : 2 ^ 64 ≤ h.limit) (x : Nat) :
    h.free x = .error (.refused (.invalidFree x)) ∨ h.free x = .error (.halted .addOverflow) := by
  unfold free
  dsimp only
  split
  · exact .inl rfl
  · rw [checkedLimit_of_le hlimit]
    exact .inr rfl

/-- A free of an address outside the heap is refused without a look. -/
theorem free_of_outside (hlimit : h.limit < 2 ^ 64)
    (hx : x < headerSize ∨ x - headerSize < h.start ∨ h.limit ≤ x - headerSize) :
    h.free x = .error (.refused (.invalidFree x)) := by
  unfold free
  dsimp only
  split
  · rfl
  · rw [checkedLimit_of_lt hlimit]
    simp only [Stop.ofHalt_ok, bind, Except.bind]
    rw [if_pos (by omega)]

/-- **Neither of the two writes outside the heap.** -/
theorem confined_of_alloc (hok : h.alloc n = .ok (x, h')) : h.Confined h' := by
  rcases Nat.lt_or_ge h.limit (2 ^ 64) with hlimit | hlimit
  · cases hneed : blockSizeFor? n with
    | none =>
      simp only [alloc, hneed] at hok
      cases hok
    | some need =>
      rw [alloc_eq_walk hlimit hneed] at hok
      split at hok
      · cases hok
      · next b hb =>
        have hsafe := h.safe_walkFit need
        cases hok
        exact confined_carve (hsafe.inside b (hsafe.found b hb)) need
      · cases hok
  · rcases alloc_of_overflow hlimit n with he | he <;> rw [he] at hok <;> cases hok

theorem confined_of_free (hok : h.free x = .ok h') : h.Confined h' := by
  rcases Nat.lt_or_ge h.limit (2 ^ 64) with hlimit | hlimit
  · by_cases hx : x < headerSize ∨ x - headerSize < h.start ∨ h.limit ≤ x - headerSize
    · rw [free_of_outside hlimit hx] at hok
      cases hok
    · have hstart : h.start ≤ x - headerSize := by omega
      obtain ⟨looks, hfrees⟩ := frees hlimit hstart (by omega)
      rw [Nat.sub_add_cancel (by omega), hok] at hfrees
      cases hfrees with
      | freed _ _ _ _ hc => exact hc
  · rcases free_of_overflow hlimit x with he | he <;> rw [he] at hok <;> cases hok

/-! ## 7. Whatever is in memory -/

/-- **Walks that are safe on any memory.**

Every walk of an operation is safe (`Walk.Safe`), and what it ends with decides what becomes of the
operation: it halts at a header that cannot be right, before anything is written, or it completes.  Only a
free looks at a header twice, and that fits under the same bound. -/
structure WalksSafely (h : Heap) : Prop where
  walkAll : h.walkAll.Safe h
  walkFit : ∀ need, (h.walkFit need).Safe h
  walkTo : ∀ target, (h.walkTo target).Safe h
  blocks : h.limit < 2 ^ 64 → h.blocks = match h.walkAll.ending with
    | .halted _ halt => .error halt
    | _ => .ok h.walkAll.accepted
  stats : h.limit < 2 ^ 64 → h.stats = match h.walkAll.ending with
    | .halted _ halt => .error halt
    | _ => .ok (statsOf h.size h.walkAll.accepted)
  alloc : h.limit < 2 ^ 64 → ∀ n, h.alloc n = match blockSizeFor? n with
    | none => .error (.refused .outOfMemory)
    | some need =>
      match (h.walkFit need).ending with
      | .past _ => .error (.refused .outOfMemory)
      | .found b => .ok (b.payload, h.carve b need)
      | .halted _ halt => .error (.halted halt)
  free : h.limit < 2 ^ 64 → ∀ x,
    (x < headerSize ∨ x - headerSize < h.start ∨ h.limit ≤ x - headerSize) ∧
        h.free x = .error (.refused (.invalidFree x)) ∨
      ∃ looks, h.Frees x (h.walkTo (x - headerSize)) (h.free x) looks ∧
        looks.length ≤ h.size / minBlock + 1
  /-- If the address of the end leaves the 64-bit range, the operations stop before they look. -/
  overflow : 2 ^ 64 ≤ h.limit → h.blocks = .error .addOverflow ∧ h.stats = .error .addOverflow ∧
    (∀ n, h.alloc n = .error (.refused .outOfMemory) ∨ h.alloc n = .error (.halted .addOverflow)) ∧
      ∀ x, h.free x = .error (.refused (.invalidFree x)) ∨ h.free x = .error (.halted .addOverflow)
  alloc_confined : ∀ {n x h'}, h.alloc n = .ok (x, h') → h.Confined h'
  free_confined : ∀ {x h'}, h.free x = .ok h' → h.Confined h'

/-- **No walk goes astray**, whatever the headers have been overwritten with. -/
theorem walksSafely (h : Heap) : h.WalksSafely := by
  refine ⟨safe_walk (Nat.le_refl _) _, h.safe_walkFit, h.safe_walkTo, blocks_eq_walk, fun hlimit => ?_,
    fun hlimit n => ?_, fun hlimit x => ?_, fun hlimit => ⟨?_, ?_, alloc_of_overflow hlimit,
      free_of_overflow hlimit⟩, confined_of_alloc, confined_of_free⟩
  · unfold stats
    rw [blocks_eq_walk hlimit]
    cases h.walkAll.ending <;> rfl
  · cases hneed : blockSizeFor? n with
    | none => simp only [alloc, hneed]
    | some need => exact alloc_eq_walk hlimit hneed
  · by_cases hx : x < headerSize ∨ x - headerSize < h.start ∨ h.limit ≤ x - headerSize
    · exact .inl ⟨hx, free_of_outside hlimit hx⟩
    · have hstart : h.start ≤ x - headerSize := by omega
      obtain ⟨looks, hfrees⟩ := frees hlimit hstart (by omega)
      rw [Nat.sub_add_cancel (by omega)] at hfrees
      exact .inr ⟨looks, hfrees, hfrees.length_le (h.safe_walkTo _)⟩
  · unfold blocks
    rw [checkedLimit_of_le hlimit]
    rfl
  · unfold stats blocks
    rw [checkedLimit_of_le hlimit]
    rfl

end Heap

end KernelCore
