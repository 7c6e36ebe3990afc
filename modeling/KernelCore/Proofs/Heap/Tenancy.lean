/-
# Allocations and the blocks they lie in

A heap has owners: those who got an address and a number of bytes from it and have not given them
back.  `Tenancy` is a heap with the allocations that are live on it, `HeapCall` is what an owner may
ask for or do, and `Tenancy.step` runs the operation of the heap and keeps the account.

A tenancy is *sound* over a list of blocks (`Tenancy.Sound`) if the blocks are the heap, every live
allocation lies in a block in use, and the blocks in use are those of the live allocations, each
counted once.  The steps of the account are then two, and each preserves soundness:

* `Sound.house`: one block more in use, and one allocation that lies in it;
* `Sound.vacate`: one block less in use, and the allocation that lay in it gone.

What the operations of the heap do is said in their terms: `alloc_cases` and its like for those that
serve or refuse, `exists_giveBack` for the release, which always succeeds.
-/
import KernelCore.Heap.Layout
import KernelCore.Proofs.Heap.Transitions

namespace KernelCore

/-! ## 1. Tenancies -/

/-- Bytes of the heap that someone holds. -/
structure Allocation where
  address : Nat
  size : Nat
  /-- What it was obtained for, if it was obtained by layout. -/
  layout : Option Layout
  /-- The address that frees it. -/
  handle : Nat
  deriving DecidableEq

/-- The address is one of the allocation's. -/
def Allocation.Holds (a : Allocation) (x : Nat) : Prop := a.address ≤ x ∧ x < a.address + a.size

/-- The address that `Heap.freeAligned` frees for what was obtained at `address`. -/
def Heap.handleAt (h : Heap) (address : Nat) (layout : Layout) : Nat :=
  if layout.align ≤ heapAlign then address else (h.memory.word (address - 8)).toNat

/-- What someone holds who obtained `address` for a layout. -/
def Heap.allocationAt (h : Heap) (address : Nat) (layout : Layout) : Allocation :=
  ⟨address, layout.size, some layout, h.handleAt address layout⟩

/-- A heap, and the allocations that are live on it. -/
structure Tenancy where
  heap : Heap
  live : List Allocation

/-- What the owners of a heap ask it for, and what they do with what they hold. -/
inductive HeapCall where
  | alloc (n : Nat)
  | calloc (count size : Nat)
  | free (address : Nat)
  | obtain (layout : Layout)
  | obtainZeroed (layout : Layout)
  | giveBack (a : Allocation)
  | resize (a : Allocation) (size : Nat)
  | store (a : Allocation) (offset : Nat) (bytes : List UInt8)

namespace Tenancy

/-- The account after an answer of the heap: a refusal leaves it as it is. -/
def answer {α : Type} (t : Tenancy) (f : α → Tenancy) :
    Except (Stop HeapError) α → Except Halt Tenancy
  | .ok a => .ok (f a)
  | .error (.refused _) => .ok t
  | .error (.halted halt) => .error halt

/-- The account without the allocation that a handle frees. -/
def vacate (t : Tenancy) (heap : Heap) (handle : Nat) : Tenancy :=
  ⟨heap, t.live.filter fun a => a.handle ≠ handle⟩

/-- The account after a request by layout. -/
def house (t : Tenancy) (layout : Layout) : Option Nat × Heap → Tenancy
  | (some address, heap) => ⟨heap, heap.allocationAt address layout :: t.live⟩
  | (none, heap) => ⟨heap, t.live⟩

/-- One call, and the account after it. -/
def step (t : Tenancy) : HeapCall → Except Halt Tenancy
  | .alloc n => t.answer (fun (address, heap) => ⟨heap, ⟨address, n, none, address⟩ :: t.live⟩)
      (t.heap.alloc n)
  | .calloc count size =>
    t.answer (fun (address, heap) => ⟨heap, ⟨address, count * size, none, address⟩ :: t.live⟩)
      (t.heap.calloc count size)
  | .free address => t.answer (fun heap => t.vacate heap address) (t.heap.free address)
  | .obtain layout => do return t.house layout (← t.heap.obtain? layout)
  | .obtainZeroed layout => do return t.house layout (← t.heap.obtainZeroed? layout)
  | .giveBack a =>
    match a.layout with
    | some layout => do return t.vacate (← t.heap.giveBack a.address layout) a.handle
    | none => .ok t
  | .resize a size =>
    match a.layout with
    | some layout => do
      match ← t.heap.resize? a.address layout size with
      | (some address, heap) =>
        return (t.vacate heap a.handle).house { layout with size } (some address, heap)
      | (none, heap) => return ⟨heap, t.live⟩
    | none => .ok t
  | .store a offset bytes =>
    .ok { t with heap := { t.heap with memory := t.heap.memory.write (a.address + offset) bytes } }

end Tenancy

namespace HeapCall

/-- What an owner has to see to: alignments are powers of two, only live allocations are given back
or resized, with the layout that they were obtained for, and writes stay inside of them. -/
def Allowed (t : Tenancy) : HeapCall → Prop
  | .obtain layout | .obtainZeroed layout => isWordPowerOfTwo layout.align = true
  | .giveBack a | .resize a _ => a ∈ t.live ∧ a.layout.isSome = true
  | .store a offset bytes => a ∈ t.live ∧ offset + bytes.length ≤ a.size
  | _ => True

/-- The addresses that the owner writes. -/
def Writes : HeapCall → Nat → Prop
  | .store a offset bytes, x => a.address + offset ≤ x ∧ x < a.address + offset + bytes.length
  | _, _ => False

end HeapCall

/-! ## 2. Sound tenancies -/

namespace Allocation

/-- The allocation lies in the payload of the block, and the heap knows how to find the block from
it. -/
structure HousedIn (a : Allocation) (h : Heap) (b : Block) : Prop where
  used : b.used = true
  handle_eq : a.handle = b.payload
  payload_le : b.payload ≤ a.address
  end_le : a.address + a.size ≤ b.next
  aligned : a.address % heapAlign = 0
  laidOut : ∀ l ∈ a.layout, l.size = a.size ∧ isWordPowerOfTwo l.align = true ∧
    a.address % l.align = 0 ∧ (heapAlign < l.align → b.payload + 8 ≤ a.address) ∧
    h.handleAt a.address l = a.handle

variable {a : Allocation} {h h' : Heap} {b : Block}

theorem HousedIn.covers (ha : a.HousedIn h b) {x : Nat} (hx : a.Holds x) : b.Covers x := by
  have h₁ := ha.payload_le
  have h₂ := ha.end_le
  simp only [Block.payload] at h₁
  simp only [Holds] at hx
  simp only [Block.Covers]
  omega

/-- What the heap has to know about an allocation stands in the payload in front of it. -/
theorem HousedIn.congr (ha : a.HousedIn h b)
    (hm : h.memory.AgreeOn h'.memory b.payload a.address) : a.HousedIn h' b := by
  refine ⟨ha.used, ha.handle_eq, ha.payload_le, ha.end_le, ha.aligned, ?_⟩
  intro l hl
  obtain ⟨hsize, hpow, hal, hfront, hhandle⟩ := ha.laidOut l hl
  refine ⟨hsize, hpow, hal, hfront, ?_⟩
  rw [← hhandle]
  unfold Heap.handleAt
  split
  · rfl
  · next hlt =>
    have := hfront (by omega)
    rw [hm.word (by omega) (by omega)]

theorem HousedIn.of_keeps (ha : a.HousedIn h b) (hk : h.Keeps h' b) : a.HousedIn h' b := by
  have hle := ha.end_le
  refine ha.congr (hk.mono ?_ (by omega))
  simp only [Block.payload]
  omega

end Allocation

/-- **One allocation more.**  The second heap has one block more in use, and the allocation lies in
it. -/
def Heap.Houses (h h' : Heap) (bs : List Block) (a : Allocation) : Prop :=
  ∃ bs' c, h.Admits h' bs bs' c ∧ a.HousedIn h' c

/-- **The account is right.**  The blocks are the heap, every live allocation lies in one of them,
and the blocks in use are those of the live allocations, each counted once. -/
structure Tenancy.Sound (t : Tenancy) (bs : List Block) : Prop where
  tiled : t.heap.Tiled bs
  housed : ∀ a ∈ t.live, ∃ b ∈ bs, a.HousedIn t.heap b
  handles : (t.live.map Allocation.handle).Perm ((bs.filter Block.used).map Block.payload)

/-- The bytes of the allocations that are live before and after, and those outside the heap, are the
same, but for those that the call writes. -/
structure Tenancy.Spares (t : Tenancy) (call : HeapCall) (t' : Tenancy) : Prop where
  confined : t.heap.Confined t'.heap
  kept : ∀ a ∈ t.live, a ∈ t'.live → ∀ x, a.Holds x → ¬call.Writes x →
    t'.heap.memory.byte x = t.heap.memory.byte x

namespace Tenancy.Sound

variable {t : Tenancy} {bs bs' : List Block} {h' : Heap} {a : Allocation} {b c : Block}

theorem nodup_handle (hs : t.Sound bs) : (t.live.map Allocation.handle).Nodup :=
  hs.handles.nodup_iff.mpr (hs.tiled.nodup_payload.sublist (List.filter_sublist.map _))

/-- Two live allocations that share a byte are one allocation. -/
theorem eq_of_holds (hs : t.Sound bs) {a' : Allocation} (ha : a ∈ t.live) (ha' : a' ∈ t.live)
    {x : Nat} (hx : a.Holds x) (hx' : a'.Holds x) : a = a' := by
  obtain ⟨b, hb, hab⟩ := hs.housed a ha
  obtain ⟨b', hb', hab'⟩ := hs.housed a' ha'
  have hbb := hs.tiled.eq_of_covers hb hb' (hab.covers hx) (hab'.covers hx')
  refine List.inj_on_of_nodup_map hs.nodup_handle ha ha' ?_
  rw [hab.handle_eq, hab'.handle_eq, hbb]

/-- **One block more in use, and an allocation that lies in it.** -/
theorem house (hs : t.Sound bs) (hh : t.heap.Houses h' bs a) :
    ∃ bs', Sound ⟨h', a :: t.live⟩ bs' ∧ ∀ call, t.Spares call ⟨h', a :: t.live⟩ := by
  obtain ⟨bs', c, hadm, ha⟩ := hh
  refine ⟨bs', ⟨hadm.tiled, ?_, ?_⟩, fun call => ⟨hadm.confined, ?_⟩⟩
  · intro d hd
    rcases List.mem_cons.mp hd with rfl | hd
    · exact ⟨c, hadm.mem, ha⟩
    · obtain ⟨b, hb, hdb⟩ := hs.housed d hd
      have hmem : b ∈ bs'.filter Block.used :=
        hadm.perm.mem_iff.mpr (List.mem_cons_of_mem _ (List.mem_filter.mpr ⟨hb, hdb.used⟩))
      exact ⟨b, List.mem_of_mem_filter hmem, hdb.of_keeps (hadm.keeps b hb hdb.used)⟩
  · refine List.Perm.trans ?_ (hadm.perm.map Block.payload).symm
    rw [List.map_cons, List.map_cons, ha.handle_eq]
    exact hs.handles.cons _
  · intro d hd _ x hx _
    obtain ⟨b, hb, hdb⟩ := hs.housed d hd
    have hbx := hdb.covers hx
    exact hadm.keeps b hb hdb.used x hbx.1 hbx.2

/-- **One block less in use, and the allocation that lay in it gone.** -/
theorem vacate (hs : t.Sound bs) (hrel : t.heap.Releases h' bs bs' b) :
    (t.vacate h' b.payload).Sound bs' ∧ ∀ call, t.Spares call (t.vacate h' b.payload) := by
  have hhandles := hs.handles.trans (hrel.perm.map Block.payload)
  have hnodup := hhandles.nodup_iff.mp hs.nodup_handle
  have hstays : ∀ d ∈ t.live, d.handle ≠ b.payload →
      ∃ c ∈ bs', c.used = true ∧ d.HousedIn t.heap c := by
    intro d hd hne
    obtain ⟨c, hc, hdc⟩ := hs.housed d hd
    have hcb : c ∈ b :: bs'.filter Block.used :=
      hrel.perm.mem_iff.mp (List.mem_filter.mpr ⟨hc, hdc.used⟩)
    rcases List.mem_cons.mp hcb with rfl | hcb
    · exact absurd hdc.handle_eq hne
    · exact ⟨c, List.mem_of_mem_filter hcb, hdc.used, hdc⟩
  have hmem : ∀ d ∈ (t.vacate h' b.payload).live, d ∈ t.live ∧ d.handle ≠ b.payload := by
    intro d hd
    simpa [Tenancy.vacate] using hd
  refine ⟨⟨hrel.tiled, ?_, ?_⟩, fun call => ⟨hrel.confined, ?_⟩⟩
  · intro d hd
    obtain ⟨hd, hne⟩ := hmem d hd
    obtain ⟨c, hc, hu, hdc⟩ := hstays d hd hne
    exact ⟨c, hc, hdc.of_keeps (hrel.keeps c hc hu)⟩
  · have hfilter := hhandles.filter fun handle => decide (handle ≠ b.payload)
    rw [List.map_cons] at hnodup hfilter
    have hrest : ∀ handle ∈ (bs'.filter Block.used).map Block.payload,
        decide (handle ≠ b.payload) = true := by
      rintro handle hhandle
      refine decide_eq_true ?_
      rintro rfl
      exact (List.nodup_cons.mp hnodup).1 hhandle
    rw [List.filter_map, List.filter_cons_of_neg (by simp), List.filter_eq_self.mpr hrest] at hfilter
    exact hfilter
  · intro d hd hd' x hx _
    obtain ⟨c, hc, hu, hdc⟩ := hstays d hd (hmem d hd').2
    have hcx := hdc.covers hx
    exact hrel.keeps c hc hu x hcx.1 hcx.2

end Tenancy.Sound

/-! ## 3. Alignments -/

theorem eq_two_pow_of_isWordPowerOfTwo {n : Nat} (hn : isWordPowerOfTwo n = true) :
    n = 2 ^ n.log2 := by
  simp only [isWordPowerOfTwo, Bool.and_eq_true, beq_iff_eq] at hn
  exact hn.2.symm

/-- Of two powers of two the smaller one divides the larger one. -/
theorem dvd_of_isWordPowerOfTwo {m n : Nat} (hm : isWordPowerOfTwo m = true)
    (hn : isWordPowerOfTwo n = true) (hle : m ≤ n) : m ∣ n := by
  rw [eq_two_pow_of_isWordPowerOfTwo hm, eq_two_pow_of_isWordPowerOfTwo hn] at hle ⊢
  exact Nat.pow_dvd_pow 2 ((Nat.pow_le_pow_iff_right (by decide)).mp hle)

theorem isWordPowerOfTwo_heapAlign : isWordPowerOfTwo heapAlign = true := by decide

/-! ## 4. What the operations do to a tiled heap -/

namespace Heap

variable {h h' : Heap} {bs bs' : List Block} {b c : Block} {l : Layout} {a : Allocation}

/-- **What is written into the newest allocation** changes nothing else. -/
theorem Houses.write {m : Memory} (hh : h.Houses h' bs a)
    (hm : ∀ x, ¬a.Holds x → m.byte x = h'.memory.byte x) :
    h.Houses { h' with memory := m } bs a := by
  obtain ⟨bs', c, hadm, ha⟩ := hh
  refine ⟨bs', c, hadm.store fun x hx => hm x ?_, ha.congr fun x _ hx => hm x ?_⟩
  · have := ha.payload_le
    have := ha.end_le
    simp only [Allocation.Holds]
    omega
  · simp only [Allocation.Holds]
    omega

/-- A block that came into use houses what was asked for. -/
theorem Admits.housedIn (hadm : h.Admits h' bs bs' c) {n : Nat} (hend : c.payload + n ≤ c.next) :
    (⟨c.payload, n, none, c.payload⟩ : Allocation).HousedIn h' c := by
  refine ⟨hadm.used, rfl, Nat.le_refl _, hend, ?_, by simp⟩
  have := hadm.tiled.address_aligned hadm.mem
  simp only [heapAlign, Block.payload, headerSize] at this ⊢
  omega

/-- An allocation is served or refused. -/
theorem alloc_cases (ht : h.Tiled bs) (n : Nat) : (∃ e, h.alloc n = .error (.refused e)) ∨
    ∃ address h', h.alloc n = .ok (address, h') ∧ h.Houses h' bs ⟨address, n, none, address⟩ := by
  cases ha : h.alloc n with
  | ok r =>
    obtain ⟨bs', c, hadm, hpay, hend⟩ := admits_of_alloc ht ha
    rw [← hpay] at hend
    exact Or.inr ⟨r.1, r.2, rfl, bs', c, hadm, hpay ▸ hadm.housedIn hend⟩
  | error stop =>
    cases stop with
    | refused e => exact Or.inl ⟨e, rfl⟩
    | halted halt => exact absurd ha (alloc_ne_halted ht n halt)

theorem calloc_cases (ht : h.Tiled bs) (count size : Nat) :
    (∃ e, h.calloc count size = .error (.refused e)) ∨
      ∃ address h', h.calloc count size = .ok (address, h') ∧
        h.Houses h' bs ⟨address, count * size, none, address⟩ := by
  unfold calloc
  split
  · exact Or.inl ⟨_, rfl⟩
  · rcases alloc_cases ht (count * size) with ⟨e, he⟩ | ⟨address, h', hok, hh⟩
    · rw [he]
      exact Or.inl ⟨e, rfl⟩
    · rw [hok]
      refine Or.inr ⟨address, _, rfl, hh.write fun x hx => ?_⟩
      refine Memory.byte_fill_of_outside _ _ _ _ _ ?_
      simp only [Allocation.Holds] at hx
      omega

theorem allocAligned_ne_halted (ht : h.Tiled bs) (l : Layout) (halt : Halt) :
    h.allocAligned l ≠ .error (.halted halt) := by
  unfold allocAligned
  split
  · exact alloc_ne_halted ht _ halt
  · split
    · simp
    · rcases alloc_cases ht (l.size + l.align) with ⟨e, he⟩ | ⟨address, h', hok, -⟩
      · simp [he, bind, Except.bind]
      · simp [hok, bind, Except.bind, pure, Except.pure]

/-- **A request by layout that is served** houses what was asked for. -/
theorem houses_of_allocAligned (ht : h.Tiled bs) (hp : isWordPowerOfTwo l.align = true)
    {address : Nat} (hok : h.allocAligned l = .ok (address, h')) :
    h.Houses h' bs (h'.allocationAt address l) := by
  unfold allocAligned at hok
  split at hok
  · next hle =>
    obtain ⟨bs', c, hadm, rfl, hend⟩ := admits_of_alloc ht hok
    have hin := hadm.housedIn hend
    have hhandle : h'.handleAt c.payload l = c.payload := if_pos hle
    have hdvd := dvd_of_isWordPowerOfTwo hp isWordPowerOfTwo_heapAlign hle
    refine ⟨bs', c, hadm, hin.used, hhandle, hin.payload_le, hin.end_le, hin.aligned, ?_⟩
    rintro _ ⟨⟩
    exact ⟨rfl, hp, Nat.mod_eq_zero_of_dvd (Nat.dvd_trans hdvd (Nat.dvd_of_mod_eq_zero hin.aligned)),
      fun hlt => by omega, rfl⟩
  · next hlt =>
    have hlt := Nat.lt_of_not_le hlt
    split at hok
    · cases hok
    · cases ha : h.alloc (l.size + l.align) with
      | error stop => rw [ha] at hok; cases hok
      | ok r =>
        obtain ⟨p, h₁⟩ := r
        rw [ha] at hok
        cases hok
        obtain ⟨bs', c, hadm, rfl, hend⟩ := admits_of_alloc ht ha
        have hpal := (hadm.housedIn hend).aligned
        obtain ⟨hup, hle, hal⟩ := alignUp_bounds (c.payload + 1) l.align (by omega)
        generalize alignUp (c.payload + 1) l.align = address at hup hle hal ⊢
        have hdvd := dvd_of_isWordPowerOfTwo isWordPowerOfTwo_heapAlign hp (Nat.le_of_lt hlt)
        have hal16 : address % heapAlign = 0 :=
          Nat.mod_eq_zero_of_dvd (Nat.dvd_trans hdvd (Nat.dvd_of_mod_eq_zero hal))
        -- both are multiples of 16, so that there is room for a word between them
        have hfront : c.payload + 16 ≤ address := by
          simp only [heapAlign] at hpal hal16
          omega
        have hstash : c.payload + 8 ≤ address := by omega
        refine ⟨bs', c, hadm.store fun x hx => Memory.byte_setWord_of_outside _ _ _ _ (by omega),
          hadm.used, ?_, Nat.le_of_add_right_le hstash, ?_, hal16, ?_⟩
        · simp only [allocationAt, handleAt]
          rw [if_neg (by omega), Memory.word_setWord_self, UInt64.toNat_ofNat']
          have := hadm.tiled.next_le hadm.mem
          have := hadm.tiled.limit_lt
          exact Nat.mod_eq_of_lt (by omega)
        · simp only [allocationAt]
          omega
        · rintro _ ⟨⟩
          exact ⟨rfl, hp, hal, fun _ => hstash, rfl⟩

/-- A request by layout is served, or there is no room and nothing has happened. -/
theorem obtain?_cases (ht : h.Tiled bs) (hp : isWordPowerOfTwo l.align = true) :
    h.obtain? l = .ok (none, h) ∨ ∃ address h', h.obtain? l = .ok (some address, h') ∧
      h.Houses h' bs (h'.allocationAt address l) := by
  unfold obtain?
  cases ha : h.allocAligned l with
  | ok r => exact Or.inr ⟨r.1, r.2, rfl, houses_of_allocAligned ht hp ha⟩
  | error stop =>
    cases stop with
    | refused e => exact Or.inl rfl
    | halted halt => exact absurd ha (allocAligned_ne_halted ht l halt)

/-- The address that frees an allocation stands in front of it, where its owner does not write. -/
theorem Houses.writeAt {m : Memory} {address : Nat} (hh : h.Houses h' bs (h'.allocationAt address l))
    (hm : ∀ x, x < address ∨ address + l.size ≤ x → m.byte x = h'.memory.byte x) :
    ({ h' with memory := m } : Heap).handleAt address l = h'.handleAt address l ∧
      h.Houses { h' with memory := m } bs
        (({ h' with memory := m } : Heap).allocationAt address l) := by
  obtain ⟨bs', c, hadm, ha⟩ : h.Houses { h' with memory := m } bs (h'.allocationAt address l) := by
    refine hh.write fun x hx => hm x ?_
    simp only [Allocation.Holds, allocationAt] at hx
    omega
  have hhandle : ({ h' with memory := m } : Heap).handleAt address l = h'.handleAt address l :=
    (ha.laidOut l rfl).2.2.2.2
  refine ⟨hhandle, bs', c, hadm, ?_⟩
  rw [allocationAt, hhandle]
  exact ha

theorem obtainZeroed?_cases (ht : h.Tiled bs) (hp : isWordPowerOfTwo l.align = true) :
    h.obtainZeroed? l = .ok (none, h) ∨ ∃ address h', h.obtainZeroed? l = .ok (some address, h') ∧
      h.Houses h' bs (h'.allocationAt address l) := by
  unfold obtainZeroed?
  rcases obtain?_cases ht hp with hno | ⟨address, h', hok, hh⟩
  · rw [hno]
    exact Or.inl rfl
  · rw [hok]
    refine Or.inr ⟨address, _, rfl, (hh.writeAt fun x hx => ?_).2⟩
    exact Memory.byte_fill_of_outside _ _ _ _ _ (by omega)

/-- **What is housed can be freed by its layout**: that frees its block. -/
theorem freeAligned_eq (ht : h.Tiled bs) (hb : b ∈ bs) (ha : a.HousedIn h b) (hl : l ∈ a.layout) :
    h.freeAligned a.address l = h.free b.payload := by
  obtain ⟨-, -, -, hfront, hhandle⟩ := ha.laidOut l hl
  have hge := ht.start_le hb
  have hle := ht.next_le hb
  have hend := ha.end_le
  rw [ha.handle_eq] at hhandle
  unfold handleAt at hhandle
  unfold freeAligned
  split
  · next hle =>
    rw [if_pos hle] at hhandle
    rw [hhandle]
  · next hlt =>
    have hfront := hfront (by omega)
    simp only [Block.payload] at hfront
    rw [if_neg hlt] at hhandle
    simp only
    rw [if_neg (by omega), ht.checkedLimit_eq]
    simp only [Stop.ofHalt_ok, bind, Except.bind]
    rw [if_neg (by omega), hhandle]

/-- What is housed can be given back, and that releases its block. -/
theorem exists_giveBack (ht : h.Tiled bs) (hb : b ∈ bs) (ha : a.HousedIn h b) (hl : l ∈ a.layout) :
    ∃ h' bs', h.giveBack a.address l = .ok h' ∧ h.Releases h' bs bs' b := by
  obtain ⟨h', bs', hfree, hrel⟩ := exists_free_payload ht hb ha.used
  refine ⟨h', bs', ?_, hrel⟩
  rw [giveBack, freeAligned_eq ht hb ha hl, hfree]

end Heap

end KernelCore
