/-
# The heap stays intact, and its owners stay apart

The states that a heap reaches from its first one, by any calls that its owners may make in any
order, are `Tenancy.Reaches`.  All of them are sound (`Tenancy.Sound`), because one call is
(`Sound.exists_step`), and a sound tenancy is what its owners want to see:

* `Sound.intact`: the walk over the headers finds blocks that tile the heap, and their sizes add up;
* `Sound.isolated`: the live allocations share no byte with each other or with a header;
* `Tenancy.intact_of_reaches`: so it is in every reachable state, and the next call does not halt
  and changes no byte that it should not change.
-/
import KernelCore.Proofs.Heap.Tenancy

namespace KernelCore

/-! ## 1. One call -/

namespace Tenancy

variable {t t' t'' : Tenancy} {call : HeapCall} {bs : List Block} {h' : Heap} {a : Allocation}

theorem Spares.refl (t : Tenancy) (call : HeapCall) : t.Spares call t :=
  ⟨⟨rfl, rfl, fun _ _ => rfl⟩, fun _ _ _ _ _ _ => rfl⟩

theorem Spares.trans (h₁ : t.Spares call t') (h₂ : t'.Spares call t'')
    (hlive : ∀ d ∈ t.live, d ∈ t''.live → d ∈ t'.live) : t.Spares call t'' := by
  refine ⟨h₁.confined.trans h₂.confined, ?_⟩
  intro d hd hd'' x hx hw
  have hd' := hlive d hd hd''
  exact (h₂.kept d hd' hd'' x hx hw).trans (h₁.kept d hd hd' x hx hw)

namespace Sound

/-- **A live allocation can be given back**, and then it is gone. -/
theorem exists_giveBack (hs : t.Sound bs) (ha : a ∈ t.live) {l : Layout} (hl : l ∈ a.layout) :
    ∃ h' bs', t.heap.giveBack a.address l = .ok h' ∧ (t.vacate h' a.handle).Sound bs' ∧
      ∀ call, t.Spares call (t.vacate h' a.handle) := by
  obtain ⟨b, hb, hab⟩ := hs.housed a ha
  obtain ⟨h', bs', hok, hrel⟩ := Heap.exists_giveBack hs.tiled hb hab hl
  rw [hab.handle_eq]
  exact ⟨h', bs', hok, hs.vacate hrel⟩

/-- **Any address can be passed to free**: either it is the handle of a live allocation, which is
released, or it is refused. -/
theorem free_cases (hs : t.Sound bs) (address : Nat) :
    (t.heap.free address = .error (.refused (.invalidFree address))) ∨
      ∃ h' bs', t.heap.free address = .ok h' ∧ (t.vacate h' address).Sound bs' ∧
        ∀ call, t.Spares call (t.vacate h' address) := by
  by_cases hex : ∃ b ∈ bs, b.used = true ∧ b.payload = address
  · obtain ⟨b, hb, hu, rfl⟩ := hex
    obtain ⟨h', bs', hok, hrel⟩ := Heap.exists_free_payload hs.tiled hb hu
    exact Or.inr ⟨h', bs', hok, hs.vacate hrel⟩
  · refine Or.inl (Heap.free_of_forall_ne hs.tiled ?_)
    intro b hb hu he
    exact hex ⟨b, hb, hu, he⟩

/-- A write inside a live allocation. -/
theorem store (hs : t.Sound bs) (ha : a ∈ t.live) {offset : Nat} {bytes : List UInt8}
    (hle : offset + bytes.length ≤ a.size) :
    let m := t.heap.memory.write (a.address + offset) bytes
    Sound { t with heap := { t.heap with memory := m } } bs ∧
      t.Spares (.store a offset bytes) { t with heap := { t.heap with memory := m } } := by
  intro m
  obtain ⟨b, hb, hab⟩ := hs.housed a ha
  have hpay := hab.payload_le
  have hend := hab.end_le
  have hm : ∀ x, x < a.address + offset ∨ a.address + offset + bytes.length ≤ x →
      m.byte x = t.heap.memory.byte x := fun x => Memory.byte_write_of_outside _ _ _ _
  obtain ⟨htiled, hconf, hkeeps⟩ := hs.tiled.store hb fun x hx => hm x (by omega)
  refine ⟨⟨htiled, ?_, hs.handles⟩, ⟨hconf, ?_⟩⟩
  · intro d hd
    obtain ⟨c, hc, hdc⟩ := hs.housed d hd
    refine ⟨c, hc, ?_⟩
    by_cases hcb : c = b
    · have hda : d = a := by
        refine List.inj_on_of_nodup_map hs.nodup_handle hd ha ?_
        rw [hdc.handle_eq, hab.handle_eq, hcb]
      subst hda
      exact hdc.congr fun x _ hx => hm x (by omega)
    · exact hdc.of_keeps (hkeeps c hc hcb)
  · intro d _ _ x _ hw
    refine hm x ?_
    simp only [HeapCall.Writes] at hw
    omega

/-- Once there is a new allocation an old one can be given back. -/
theorem exists_replace (hs : t.Sound bs) (ha : a ∈ t.live) {l : Layout} (hl : l ∈ a.layout)
    {h₁ : Heap} {n : Allocation} (hh : t.heap.Houses h₁ bs n) :
    ∃ h' bs', h₁.giveBack a.address l = .ok h' ∧
      Sound ⟨h', n :: (t.vacate h' a.handle).live⟩ bs' ∧
      ∀ call, t.Spares call ⟨h', n :: (t.vacate h' a.handle).live⟩ := by
  obtain ⟨bs₁, hs₁, hspares₁⟩ := hs.house hh
  obtain ⟨h', bs', hback, hs', hspares'⟩ := hs₁.exists_giveBack (List.mem_cons_of_mem n ha) hl
  have hne : n.handle ≠ a.handle := by
    have hnodup := hs₁.nodup_handle
    rw [List.map_cons, List.nodup_cons] at hnodup
    exact fun he => hnodup.1 (he ▸ List.mem_map_of_mem ha)
  have hlive : (Tenancy.mk h₁ (n :: t.live)).vacate h' a.handle =
      ⟨h', n :: (t.vacate h' a.handle).live⟩ := by
    unfold Tenancy.vacate
    rw [List.filter_cons_of_pos (by simpa using hne)]
  rw [hlive] at hs' hspares'
  refine ⟨h', bs', hback, hs', fun call => ?_⟩
  exact (hspares₁ call).trans (hspares' call) fun d hd _ => List.mem_cons_of_mem n hd

/-- **Moving a live allocation** to one of another size: either there is no room and nothing has
happened, or the new one is there, with the handle that it was obtained with, and the old one is
gone. -/
theorem resize_cases (hs : t.Sound bs) (ha : a ∈ t.live) {l : Layout} (hl : l ∈ a.layout)
    (size : Nat) : t.heap.resize? a.address l size = .ok (none, t.heap) ∨
      ∃ address h' bs', t.heap.resize? a.address l size = .ok (some address, h') ∧
        (∃ h₁, t.heap.obtain? { l with size } = .ok (some address, h₁) ∧
          h'.handleAt address { l with size } = h₁.handleAt address { l with size }) ∧
        ((t.vacate h' a.handle).house { l with size } (some address, h')).Sound bs' ∧
        ∀ call, t.Spares call ((t.vacate h' a.handle).house { l with size } (some address, h')) := by
  obtain ⟨b, hb, hab⟩ := hs.housed a ha
  have hp := (hab.laidOut l hl).2.1
  unfold Heap.resize?
  rcases Heap.obtain?_cases (l := { l with size }) hs.tiled hp with hno | ⟨address, h₁, hok, hh⟩
  · rw [hno]
    exact Or.inl rfl
  · rw [hok]
    simp only [bind, Except.bind]
    -- the bytes that both have are copied into the new one, before the old one is given back
    have hcopy : ∀ x, x < address ∨ address + size ≤ x →
        (h₁.memory.write address (h₁.memory.read a.address (min l.size size))).byte x =
          h₁.memory.byte x := fun x hx =>
      Memory.byte_write_of_outside _ _ _ _ (by rw [Memory.length_read]; omega)
    generalize h₁.memory.write address (h₁.memory.read a.address (min l.size size)) = m at hcopy ⊢
    obtain ⟨hkept, hhoused⟩ := hh.writeAt hcopy
    obtain ⟨h', bs', hback, hs', hspares⟩ := hs.exists_replace ha hl hhoused
    -- the address that frees the new one has not moved meanwhile
    have hhandle : h'.handleAt address { l with size } =
        ({ h₁ with memory := m } : Heap).handleAt address { l with size } := by
      obtain ⟨c, -, hc⟩ := hs'.housed _ List.mem_cons_self
      exact (hc.laidOut _ rfl).2.2.2.2
    rw [hback]
    refine Or.inr ⟨address, h', bs', rfl, ⟨h₁, rfl, hhandle.trans hkept⟩, ?_⟩
    simp only [Tenancy.house, Heap.allocationAt, hhandle]
    exact ⟨hs', hspares⟩

/-- The heap answers or refuses, and the account stays right. -/
theorem exists_answer {r : Except (Stop HeapError) (Nat × Heap)} {n : Nat} (hs : t.Sound bs)
    (call : HeapCall) (hr : (∃ e, r = .error (.refused e)) ∨ ∃ address h', r = .ok (address, h') ∧
      t.heap.Houses h' bs ⟨address, n, none, address⟩) :
    ∃ t' bs', t.answer (fun (address, heap) => ⟨heap, ⟨address, n, none, address⟩ :: t.live⟩) r =
      .ok t' ∧ t'.Sound bs' ∧ t.Spares call t' := by
  rcases hr with ⟨e, rfl⟩ | ⟨address, h', rfl, hh⟩
  · exact ⟨t, bs, rfl, hs, Spares.refl t call⟩
  · obtain ⟨bs', hs', hspares⟩ := hs.house hh
    exact ⟨_, bs', rfl, hs', hspares call⟩

theorem exists_house {r : Except Halt (Option Nat × Heap)} {l : Layout} (hs : t.Sound bs)
    (call : HeapCall) (hr : r = .ok (none, t.heap) ∨ ∃ address h', r = .ok (some address, h') ∧
      t.heap.Houses h' bs (h'.allocationAt address l)) :
    ∃ t' bs', (do return t.house l (← r) : Except Halt Tenancy) = .ok t' ∧ t'.Sound bs' ∧
      t.Spares call t' := by
  rcases hr with rfl | ⟨address, h', rfl, hh⟩
  · exact ⟨t, bs, rfl, hs, Spares.refl t call⟩
  · obtain ⟨bs', hs', hspares⟩ := hs.house hh
    exact ⟨_, bs', rfl, hs', hspares call⟩

/-- **One call.**  It does not halt, the account stays right, and no byte changes that should not
change. -/
theorem exists_step (hs : t.Sound bs) (hc : call.Allowed t) :
    ∃ t' bs', t.step call = .ok t' ∧ t'.Sound bs' ∧ t.Spares call t' := by
  cases call with
  | alloc n => exact hs.exists_answer _ (Heap.alloc_cases hs.tiled n)
  | calloc count size => exact hs.exists_answer _ (Heap.calloc_cases hs.tiled count size)
  | free address =>
    rcases hs.free_cases address with he | ⟨h', bs', hok, hs', hspares⟩
    · exact ⟨t, bs, by rw [step, he]; rfl, hs, Spares.refl t _⟩
    · exact ⟨_, bs', by rw [step, hok]; rfl, hs', hspares _⟩
  | obtain l => exact hs.exists_house _ (Heap.obtain?_cases hs.tiled hc)
  | obtainZeroed l => exact hs.exists_house _ (Heap.obtainZeroed?_cases hs.tiled hc)
  | giveBack a =>
    obtain ⟨ha, hl⟩ := hc
    obtain ⟨l, hl⟩ := Option.isSome_iff_exists.mp hl
    obtain ⟨h', bs', hok, hs', hspares⟩ := hs.exists_giveBack ha hl
    exact ⟨_, bs', by rw [step, hl]; simp only [hok]; rfl, hs', hspares _⟩
  | resize a size =>
    obtain ⟨ha, hl⟩ := hc
    obtain ⟨l, hl⟩ := Option.isSome_iff_exists.mp hl
    rcases hs.resize_cases ha hl size with hno | ⟨address, h', bs', hok, -, hs', hspares⟩
    · exact ⟨t, bs, by rw [step, hl]; simp only [hno]; rfl, hs, Spares.refl t _⟩
    · exact ⟨_, bs', by rw [step, hl]; simp only [hok]; rfl, hs', hspares _⟩
  | store a offset bytes =>
    obtain ⟨hs', hspares⟩ := hs.store hc.1 hc.2
    exact ⟨_, bs, rfl, hs', hspares⟩

end Sound

end Tenancy

/-! ## 2. What the owners see -/

/-- The sizes of a run of blocks add up to its length. -/
theorem Contiguous.sum_size {z : Nat} : ∀ {a : Nat} {bs : List Block}, Contiguous a z bs →
    a + ((bs.filter Block.used).foldr (fun b n => b.size + n) 0 +
      (bs.filter fun b => !b.used).foldr (fun b n => b.size + n) 0) = z
  | _, [], h => h
  | a, b :: bs, ⟨h₁, h₂⟩ => by
    have ih := h₂.sum_size
    simp only [Block.next] at ih
    cases hu : b.used <;> simp only [List.filter_cons, hu, Bool.not_true, Bool.not_false, if_true,
      if_false, Bool.false_eq_true, List.foldr_cons] <;> omega

/-- **An intact heap.**  The walk over the headers finds blocks that tile the heap, each of a size
that the heap hands out, no two free ones next to each other, and the sums of their sizes account
for every byte. -/
structure Heap.Intact (h : Heap) (bs : List Block) : Prop where
  walk : h.blocks = .ok bs
  tile : Contiguous h.start h.limit bs
  sizes : ∀ b ∈ bs, b.size % 16 = 0 ∧ 32 ≤ b.size
  separate : bs.IsChain Block.Separate
  stats : ∃ s, h.stats = .ok s ∧ s.used + s.free = s.total ∧ s.total = h.size

/-- **Isolated owners.**  The live allocations lie in the region from `start` up to `limit`, aligned
as they were asked for, and none has a byte in common with another or with a header; and there is
one block in use for each of them. -/
structure Tenancy.Isolated (t : Tenancy) (bs : List Block) (start limit : Nat) : Prop where
  inside : ∀ a ∈ t.live, start ≤ a.address ∧ a.address + a.size ≤ limit
  aligned : ∀ a ∈ t.live, a.address % 16 = 0 ∧ ∀ l ∈ a.layout, a.address % l.align = 0
  disjoint : t.live.Pairwise fun a a' => ∀ x, a.Holds x → ¬a'.Holds x
  headers : ∀ a ∈ t.live, ∀ b ∈ bs, ∀ x, a.Holds x → ¬(b.address ≤ x ∧ x < b.payload)
  blocks : (t.live.map Allocation.handle).Perm ((bs.filter Block.used).map Block.payload)

theorem Heap.Tiled.intact {h : Heap} {bs : List Block} (ht : h.Tiled bs) : h.Intact bs := by
  refine ⟨ht.blocks_eq, ht.contiguous, fun b hb => ht.sized b hb, ht.separate, _, ht.stats_eq, ?_,
    rfl⟩
  have := ht.contiguous.sum_size
  simp only [limit] at this
  simp only [statsOf]
  omega

theorem Tenancy.Sound.isolated {t : Tenancy} {bs : List Block} {start limit : Nat}
    (hs : t.Sound bs)
    (hin : ∀ x, t.heap.start ≤ x → x < t.heap.limit → start ≤ x ∧ x < limit) :
    t.Isolated bs start limit := by
  refine ⟨?_, ?_, ?_, ?_, hs.handles⟩
  · intro a ha
    obtain ⟨b, hb, hab⟩ := hs.housed a ha
    have hlt := (hs.tiled.sized b hb).lt_next
    have hge := hs.tiled.start_le hb
    have hle := hs.tiled.next_le hb
    have hfirst := (hin b.address hge (by omega)).1
    have hlast := (hin (b.next - 1) (by omega) (by omega)).2
    have hpay := hab.payload_le
    have hend := hab.end_le
    simp only [Block.payload] at hpay
    omega
  · intro a ha
    obtain ⟨b, hb, hab⟩ := hs.housed a ha
    exact ⟨hab.aligned, fun l hl => (hab.laidOut l hl).2.2.1⟩
  · have hnodup : t.live.Nodup := hs.nodup_handle.of_map
    refine hnodup.imp_of_mem ?_
    intro a a' ha ha' hne x hx hx'
    exact hne (hs.eq_of_holds ha ha' hx hx')
  · intro a ha b hb x hx hbx
    obtain ⟨c, hc, hac⟩ := hs.housed a ha
    have hlt := (hs.tiled.sized b hb).payload_lt_next
    have hbc := hs.tiled.eq_of_covers hb hc ⟨hbx.1, by omega⟩ (hac.covers hx)
    have hpay := hac.payload_le
    have := hx.1
    rw [hbc] at hbx
    omega

/-! ## 3. Every reachable state -/

/-- The states that a heap and its owners come to by calls that the owners may make. -/
inductive Tenancy.Reaches (t : Tenancy) : Tenancy → Prop where
  | refl : Reaches t t
  | call {t' t'' : Tenancy} {call : HeapCall} : Reaches t t' → call.Allowed t' →
      t'.step call = .ok t'' → Reaches t t''

namespace Tenancy

variable {t t' : Tenancy} {bs : List Block}

/-- A heap of which nothing is in use is sound without owners. -/
theorem Sound.of_free {h : Heap} (ht : h.Tiled bs) (hfree : ∀ b ∈ bs, b.used = false) :
    Sound ⟨h, []⟩ bs := by
  refine ⟨ht, by simp, ?_⟩
  rw [Heap.filter_used_of_free hfree]
  exact List.Perm.nil

/-- What one call preserves holds of every run. -/
theorem Sound.of_reaches (hs : t.Sound bs) (hr : t.Reaches t') :
    (∃ bs', t'.Sound bs') ∧ t.heap.Confined t'.heap := by
  induction hr with
  | refl => exact ⟨⟨bs, hs⟩, ⟨rfl, rfl, fun _ _ => rfl⟩⟩
  | call _ hc hstep ih =>
    obtain ⟨⟨bs₁, hs₁⟩, hconf⟩ := ih
    obtain ⟨t₂, bs₂, hok, hs₂, hspares⟩ := hs₁.exists_step hc
    rw [hok] at hstep
    cases hstep
    exact ⟨⟨bs₂, hs₂⟩, hconf.trans hspares.confined⟩

/-- **Integrity and isolation.**  There is a heap over every region whose start can be aligned.  From the
first state of a heap over a region on, whatever calls its owners make: the heap is intact, the owners are
isolated, nothing outside the region has changed, and no call halts or changes a byte of an allocation that
stays live, but for those that its owner writes. -/
theorem intact_of_reaches (memory : Memory) {start size : Nat} (hlt : start + size + 15 < 2 ^ 64) :
    (start + heapAlign < 2 ^ 64 → ∃ heap, Heap.ofRange memory start size = .ok heap) ∧
    ∀ heap, Heap.ofRange memory start size = .ok heap → ∀ t, Reaches ⟨heap, []⟩ t →
      (∃ bs, t.heap.Intact bs ∧ t.Isolated bs start (start + size)) ∧
      (∀ x, x < start ∨ start + size ≤ x → t.heap.memory.byte x = memory.byte x) ∧
      ∀ call : HeapCall, call.Allowed t → ∃ t', t.step call = .ok t' ∧ t.Spares call t' := by
  refine ⟨Heap.exists_ofRange memory size, fun heap hok t hr => ?_⟩
  obtain ⟨bs₀, ht₀, hfree, hin, hout⟩ := Heap.tiled_of_ofRange hok (Heap.limit_lt_of_ofRange hok hlt)
  obtain ⟨⟨bs, hs⟩, hconf⟩ := (Sound.of_free ht₀ hfree).of_reaches hr
  refine ⟨⟨bs, hs.tiled.intact, hs.isolated ?_⟩, ?_, ?_⟩
  · intro x h₁ h₂
    rw [hconf.limit_eq] at h₂
    rw [hconf.start_eq] at h₁
    exact hin x h₁ h₂
  · intro x hx
    have hx' : x < heap.start ∨ heap.limit ≤ x := by
      by_contra hno
      have := hin x (by omega) (by omega)
      omega
    exact (hconf.outside x hx').trans (hout x hx')
  · intro call hc
    obtain ⟨t', -, hstep, -, hspares⟩ := hs.exists_step hc
    exact ⟨t', hstep, hspares⟩

/-- A heap over 64 KiB that do not begin at a multiple of 16. -/
theorem intact_of_reaches_misaligned : 4097 + 65536 + 15 < 2 ^ 64 ∧ 4097 + heapAlign < 2 ^ 64 ∧
    ∃ heap, Heap.ofRange .zero 4097 65536 = .ok heap ∧ ∀ t, Reaches ⟨heap, []⟩ t →
      (∃ bs, t.heap.Intact bs ∧ t.Isolated bs 4097 (4097 + 65536)) ∧
      (∀ x, x < 4097 ∨ 4097 + 65536 ≤ x → t.heap.memory.byte x = Memory.zero.byte x) ∧
      ∀ call : HeapCall, call.Allowed t → ∃ t', t.step call = .ok t' ∧ t.Spares call t' := by
  obtain ⟨hexists, hintact⟩ := intact_of_reaches .zero (show 4097 + 65536 + 15 < 2 ^ 64 by decide)
  obtain ⟨heap, hok⟩ := hexists (by decide)
  exact ⟨by decide, by decide, heap, hok, hintact heap hok⟩

end Tenancy

end KernelCore
