/-
# Aligned allocations: where they lie, and that they can be given back

A request for a large alignment gets an address inside a block, and the address that frees the block is
kept in the eight bytes in front of it.  Nothing but these bytes tells which block to release, and they
are read only when the allocation is given back, after whatever has happened to the heap meanwhile.

* `Tenancy.Placed`: an allocation lies in a block, aligned, with those bytes in the same payload in front
  of it, and giving it back takes away just that block;
* `Sound.inUse_of_step`: the block of an allocation is not touched by a call that leaves the allocation
  live, so that `Sound.placed_of_retains` places it at the end of every such run;
* `Sound.exists_moves`: what moving an allocation does to the blocks and the bytes;
* `Tenancy.lays_of_reaches`: requests by layout, cleared ones and moves in every reachable state.
-/
import KernelCore.Proofs.Heap.Undoing

namespace KernelCore

/-! ## 1. Allocations in their blocks -/

/-- The heap can give back what is at an address, and loses that block and no other. -/
def Heap.GivesBack (h : Heap) (address : Nat) (l : Layout) (c : Block) : Prop :=
  ∃ h', h.giveBack address l = .ok h' ∧ ∀ b, h'.InUse b ↔ h.InUse b ∧ b ≠ c

/-- **An allocation in its block.**  It is aligned and lies in the payload of the block.  Beyond the
alignment of every block the address of the payload is kept in front of it, in the same payload.  The
allocation can be given back, and that releases the block. -/
structure Tenancy.Placed (t : Tenancy) (a : Allocation) (l : Layout) (c : Block) : Prop where
  size_eq : a.size = l.size
  aligned : a.address % l.align = 0
  inUse : t.heap.InUse c
  inside : c.payload ≤ a.address ∧ a.address + l.size ≤ c.next
  stash : heapAlign < l.align → c.payload + 8 ≤ a.address ∧
    (t.heap.memory.word (a.address - 8)).toNat = c.payload
  released : t.heap.GivesBack a.address l c

/-- The states that a tenancy comes to by calls that leave an allocation live. -/
inductive Tenancy.Retains (a : Allocation) (t : Tenancy) : Tenancy → Prop where
  | refl : a ∈ t.live → Retains a t t
  | call {t' t'' : Tenancy} {call : HeapCall} : Retains a t t' → call.Allowed t' →
      t'.step call = .ok t'' → a ∈ t''.live → Retains a t t''

/-- **A request by layout that was served.**  The second state has one live allocation more.  It lies in
a block that was not in use, and stays there until it is given up. -/
structure Tenancy.Grants (t t' : Tenancy) (a : Allocation) (l : Layout) (c : Block) : Prop where
  fresh : ¬t.heap.InUse c
  live : a ∈ t'.live
  stays : ∀ t'', t'.Retains a t'' → t''.Placed a l c

namespace Tenancy

variable {t t' : Tenancy} {bs : List Block} {call : HeapCall} {a d : Allocation} {b c : Block}
  {h' : Heap} {l : Layout} {address size : Nat}

namespace Sound

/-- What a live allocation is placed in is the block in use that has its handle. -/
theorem housedIn_of_inUse (hs : t.Sound bs) (ha : a ∈ t.live) (hc : t.heap.InUse c)
    (hhandle : a.handle = c.payload) : c ∈ bs ∧ a.HousedIn t.heap c := by
  obtain ⟨b, hb, hab⟩ := hs.housed a ha
  have hcb := List.mem_of_mem_filter (hs.tiled.inUse_iff.mp hc)
  rw [← hs.tiled.eq_of_payload_eq hb hcb (hab.handle_eq.symm.trans hhandle)]
  exact ⟨hb, hab⟩

theorem placed (hs : t.Sound bs) (ha : a ∈ t.live) (hl : l ∈ a.layout) (hc : t.heap.InUse c)
    (hhandle : a.handle = c.payload) : t.Placed a l c := by
  obtain ⟨hcb, hac⟩ := hs.housedIn_of_inUse ha hc hhandle
  obtain ⟨hsize, -, hal, hfront, hkept⟩ := hac.laidOut l hl
  refine ⟨hsize.symm, hal, hc, ⟨hac.payload_le, hsize ▸ hac.end_le⟩, fun hlt => ⟨hfront hlt, ?_⟩, ?_⟩
  · rw [Heap.handleAt, if_neg (Nat.not_le.mpr hlt)] at hkept
    exact hkept.trans hhandle
  · obtain ⟨h', bs', hok, hrel⟩ := Heap.exists_giveBack hs.tiled hcb hac hl
    refine ⟨h', hok, fun b => ?_⟩
    rw [(hrel.inUse_iff hs.tiled).2 b]
    refine and_congr_right fun hb => not_congr ⟨fun he => ?_, fun he => he ▸ rfl⟩
    exact hs.tiled.eq_of_payload_eq (List.mem_of_mem_filter (hs.tiled.inUse_iff.mp hb)) hcb he

end Sound

/-! ## 2. Moving an allocation -/

/-- **What a move does**: it takes a new block, copies the bytes that both allocations have into it, and
only then returns the old one. -/
structure Moves (t : Tenancy) (a : Allocation) (l : Layout) (size address : Nat) (h' : Heap)
    (c : Block) : Prop where
  fresh : ¬t.heap.InUse c
  handle_eq : h'.handleAt address { l with size } = c.payload
  payload_ne : c.payload ≠ a.handle
  inUse_iff : ∀ b, h'.InUse b ↔ b = c ∨ (t.heap.InUse b ∧ b.payload ≠ a.handle)
  copied : ∀ i < min l.size size,
    h'.memory.byte (address + i) = t.heap.memory.byte (a.address + i)

/-- The bytes that are read from one place are at the other once they are written there. -/
theorem byte_write_read (m : Memory) (target source : Nat) {n i : Nat} (hi : i < n) :
    (m.write target (m.read source n)).byte (target + i) = m.byte (source + i) := by
  rw [Memory.byte_write, Memory.length_read, if_pos (by omega), Nat.add_sub_cancel_left]
  simp [Memory.read, hi]

namespace Sound

/-- Once there is a new allocation, an old one can be given back: of the two blocks in use only the old
one goes, and the bytes of the new allocation stay. -/
theorem exists_giveBack_besides {new : Allocation} {h₁ : Heap} (hs : t.Sound bs) (ha : a ∈ t.live)
    (hl : l ∈ a.layout) (hh : t.heap.Houses h₁ bs new) :
    ∃ h' c, h₁.giveBack a.address l = .ok h' ∧ ¬t.heap.InUse c ∧ c.payload ≠ a.handle ∧
      new.handle = c.payload ∧ (∃ c', new.HousedIn h' c') ∧
      (∀ b, h'.InUse b ↔ b = c ∨ (t.heap.InUse b ∧ b.payload ≠ a.handle)) ∧
      ∀ x, new.Holds x → h'.memory.byte x = h₁.memory.byte x := by
  -- the account with both allocations in it
  obtain ⟨bs₁, hs₁, -⟩ := hs.house hh
  obtain ⟨bs₁', c, hadm, hnew⟩ := hh
  obtain ⟨hfresh, hadmitted⟩ := hadm.inUse_iff hs.tiled
  obtain ⟨b, hb, hab⟩ := hs₁.housed a (List.mem_cons_of_mem _ ha)
  obtain ⟨h', bs', hback, hrel⟩ := Heap.exists_giveBack hs₁.tiled hb hab hl
  have hne : c.payload ≠ a.handle := by
    have hnodup := hs₁.nodup_handle
    rw [List.map_cons, List.nodup_cons] at hnodup
    exact fun he => hnodup.1 (hnew.handle_eq ▸ he ▸ List.mem_map_of_mem ha)
  obtain ⟨hs', hspares⟩ := hs₁.vacate hrel
  have hstays : new ∈ ((Tenancy.mk h₁ (new :: t.live)).vacate h' b.payload).live := by
    refine List.mem_filter.mpr ⟨List.mem_cons_self, decide_eq_true ?_⟩
    rw [hnew.handle_eq, ← hab.handle_eq]
    exact hne
  obtain ⟨c', -, hnew'⟩ := hs'.housed new hstays
  refine ⟨h', c, hback, hfresh, hne, hnew.handle_eq, ⟨c', hnew'⟩, fun d => ?_, fun x hx => ?_⟩
  · rw [(hrel.inUse_iff hs₁.tiled).2 d, hadmitted d, ← hab.handle_eq, or_and_right]
    exact or_congr_left ⟨And.left, fun hd => ⟨hd, hd ▸ hne⟩⟩
  · exact (hspares (.alloc 0)).kept new List.mem_cons_self hstays x hx id

theorem exists_moves (hs : t.Sound bs) (ha : a ∈ t.live) (hl : l ∈ a.layout)
    (hok : t.heap.resize? a.address l size = .ok (some address, h')) :
    ∃ c, t.Moves a l size address h' c := by
  obtain ⟨b, hb, hab⟩ := hs.housed a ha
  obtain ⟨hsize, hp, -⟩ := hab.laidOut l hl
  unfold Heap.resize? at hok
  rcases Heap.obtain?_cases (l := { l with size }) hs.tiled hp with hno | ⟨target, h₁, hobtain, hh⟩
  · rw [hno] at hok
    cases hok
  · rw [hobtain] at hok
    simp only [bind, Except.bind] at hok
    have hcopy := fun i (hi : i < min l.size size) =>
      byte_write_read h₁.memory target a.address hi
    have hout : ∀ x, x < target ∨ target + size ≤ x →
        (h₁.memory.write target (h₁.memory.read a.address (min l.size size))).byte x =
          h₁.memory.byte x := fun x hx =>
      Memory.byte_write_of_outside _ _ _ _ (by rw [Memory.length_read]; omega)
    generalize h₁.memory.write target (h₁.memory.read a.address (min l.size size)) = m
      at hok hcopy hout
    obtain ⟨h₂, c, hback, hfresh, hne, hhandle, ⟨c', hnew⟩, hiff, hbytes⟩ :=
      hs.exists_giveBack_besides ha hl (hh.writeAt hout).2
    rw [hback] at hok
    simp only [pure, Except.pure, Except.ok.injEq, Prod.mk.injEq, Option.some.injEq] at hok
    obtain ⟨rfl, rfl⟩ := hok
    refine ⟨c, hfresh, (hnew.laidOut _ rfl).2.2.2.2.trans hhandle, hne, hiff, fun i hi => ?_⟩
    have hi' := Nat.lt_min.mp hi
    obtain ⟨-, -, hspares⟩ := hs.house hh
    calc h₂.memory.byte (target + i)
        = m.byte (target + i) :=
          hbytes _ ⟨Nat.le_add_right _ _, Nat.add_lt_add_left hi'.2 _⟩
      _ = h₁.memory.byte (a.address + i) := hcopy i hi
      _ = t.heap.memory.byte (a.address + i) :=
          (hspares (.alloc 0)).kept a ha (List.mem_cons_of_mem _ ha) _
            ⟨Nat.le_add_right _ _, Nat.add_lt_add_left (hsize ▸ hi'.1) _⟩ id

/-! ## 3. The block of a live allocation stays -/

/-- **A call that leaves an allocation live** does not touch its block. -/
theorem inUse_of_step (hs : t.Sound bs) (hcall : call.Allowed t) (hstep : t.step call = .ok t')
    (ha : a ∈ t.live) (ha' : a ∈ t'.live) (hc : t.heap.InUse c) (hhandle : a.handle = c.payload) :
    t'.heap.InUse c := by
  have hrequest : call.Requests → t'.heap.InUse c := by
    intro hr
    rcases hs.request_cases hr hcall with hno | ⟨h', a', hok, bs', c', hadm, -⟩
    · cases hno.symm.trans hstep
      exact hc
    · cases hok.symm.trans hstep
      exact ((hadm.inUse_iff hs.tiled).2 c).mpr (.inr hc)
  -- a release of another handle
  have hrelease : ∀ {h' : Heap} {bs' : List Block} {b : Block}, t.heap.Releases h' bs bs' b →
      a ∈ (t.vacate h' b.payload).live → h'.InUse c := by
    intro h' bs' b hrel hstays
    refine ((hrel.inUse_iff hs.tiled).2 c).mpr ⟨hc, ?_⟩
    rw [← hhandle]
    simpa using (List.mem_filter.mp hstays).2
  cases call with
  | alloc _ | calloc _ _ | obtain _ | obtainZeroed _ => exact hrequest trivial
  | free address =>
    rw [step] at hstep
    by_cases hex : ∃ b ∈ bs, b.used = true ∧ b.payload = address
    · obtain ⟨b, hb, hu, rfl⟩ := hex
      obtain ⟨h', bs', hok, hrel⟩ := Heap.exists_free_payload hs.tiled hb hu
      rw [hok] at hstep
      cases hstep
      exact hrelease hrel ha'
    · rw [Heap.free_of_forall_ne hs.tiled fun b hb hu he => hex ⟨b, hb, hu, he⟩] at hstep
      cases hstep
      exact hc
  | giveBack d =>
    obtain ⟨hd, hl⟩ := hcall
    obtain ⟨l, hl⟩ := Option.isSome_iff_exists.mp hl
    obtain ⟨b, hb, hdb⟩ := hs.housed d hd
    obtain ⟨h', bs', hok, hrel⟩ := Heap.exists_giveBack hs.tiled hb hdb hl
    rw [step, hl] at hstep
    simp only [hok] at hstep
    cases hstep
    rw [hdb.handle_eq] at ha'
    exact hrelease hrel ha'
  | resize d size =>
    obtain ⟨hd, hl⟩ := hcall
    obtain ⟨l, hl⟩ := Option.isSome_iff_exists.mp hl
    rw [step, hl] at hstep
    rcases hs.resize_cases hd hl size with hno | ⟨address, h', bs', hok, -⟩
    · simp only [hno] at hstep
      cases hstep
      exact hc
    · simp only [hok] at hstep
      cases hstep
      obtain ⟨new, hmoves⟩ := hs.exists_moves hd hl hok
      refine (hmoves.inUse_iff c).mpr (.inr ⟨hc, fun he => ?_⟩)
      rw [← hhandle] at he
      rcases List.mem_cons.mp ha' with rfl | hkept
      · exact hmoves.payload_ne (hmoves.handle_eq.symm.trans he)
      · exact absurd he (by simpa using (List.mem_filter.mp hkept).2)
  | store d offset bytes =>
    obtain ⟨hs', -⟩ := hs.store hcall.1 hcall.2
    cases hstep
    exact hs'.tiled.inUse_iff.mpr (hs.tiled.inUse_iff.mp hc)

/-- **The end of a run that leaves an allocation live** has it placed where it was. -/
theorem placed_of_retains (hs : t.Sound bs) (hl : l ∈ a.layout) (hc : t.heap.InUse c)
    (hhandle : a.handle = c.payload) (hr : t.Retains a t') : t'.Placed a l c := by
  obtain ⟨bs', hs', hc', ha'⟩ : ∃ bs', t'.Sound bs' ∧ t'.heap.InUse c ∧ a ∈ t'.live := by
    induction hr with
    | refl ha => exact ⟨bs, hs, hc, ha⟩
    | call _ hcall hstep hstays ih =>
      obtain ⟨bs₁, hs₁, hc₁, ha₁⟩ := ih
      obtain ⟨t₂, bs₂, hok, hs₂, -⟩ := hs₁.exists_step hcall
      cases hok.symm.trans hstep
      exact ⟨bs₂, hs₂, hs₁.inUse_of_step hcall hstep ha₁ hstays hc₁ hhandle, hstays⟩
  exact hs'.placed ha' hl hc' hhandle

/-! ## 4. Requests by layout -/

/-- What houses a request by layout grants it. -/
theorem grants_of_houses (hs : t.Sound bs) (hh : t.heap.Houses h' bs (h'.allocationAt address l)) :
    ∃ c, t.Grants (t.house l (some address, h')) (h'.allocationAt address l) l c ∧
      ∀ b, h'.InUse b ↔ b = c ∨ t.heap.InUse b := by
  obtain ⟨bs₁, hs₁, -⟩ := hs.house hh
  obtain ⟨bs', c, hadm, hac⟩ := hh
  obtain ⟨hfresh, hiff⟩ := hadm.inUse_iff hs.tiled
  refine ⟨c, ⟨hfresh, List.mem_cons_self, fun t'' hr => ?_⟩, hiff⟩
  exact hs₁.placed_of_retains rfl ((hiff c).mpr (.inl rfl)) hac.handle_eq hr

end Sound

/-- **Requests by layout in a state.**  For every alignment and size, a request is refused and nothing
has happened, or it is granted, with one block more in use.  So is a cleared request, and its bytes are
zero.  A live allocation can be moved to any size: that is refused and nothing has happened, or it is
granted in a new block with the bytes that both have, the old block is gone, and the bytes of all others
stay. -/
structure Lays (t : Tenancy) : Prop where
  obtains : ∀ l : Layout, isWordPowerOfTwo l.align = true →
    t.heap.obtain? l = .ok (none, t.heap) ∨
    ∃ address h' c, t.heap.obtain? l = .ok (some address, h') ∧
      t.Grants (t.house l (some address, h')) (h'.allocationAt address l) l c ∧
      ∀ b, h'.InUse b ↔ b = c ∨ t.heap.InUse b
  clears : ∀ l : Layout, isWordPowerOfTwo l.align = true →
    t.heap.obtainZeroed? l = .ok (none, t.heap) ∨
    ∃ address h' c, t.heap.obtainZeroed? l = .ok (some address, h') ∧
      t.Grants (t.house l (some address, h')) (h'.allocationAt address l) l c ∧
      (∀ b, h'.InUse b ↔ b = c ∨ t.heap.InUse b) ∧
      ∀ x, address ≤ x → x < address + l.size → h'.memory.byte x = 0
  moves : ∀ a ∈ t.live, ∀ l ∈ a.layout, ∀ size,
    t.heap.resize? a.address l size = .ok (none, t.heap) ∨
    ∃ address h' old c, t.heap.resize? a.address l size = .ok (some address, h') ∧
      t.Placed a l old ∧
      t.Grants ((t.vacate h' a.handle).house { l with size } (some address, h'))
        (h'.allocationAt address { l with size }) { l with size } c ∧
      (∀ b, h'.InUse b ↔ b = c ∨ (t.heap.InUse b ∧ b ≠ old)) ∧
      (∀ i < min l.size size,
        h'.memory.byte (address + i) = t.heap.memory.byte (a.address + i)) ∧
      ∀ d ∈ t.live, d ≠ a → ∀ x, d.Holds x → h'.memory.byte x = t.heap.memory.byte x

namespace Sound

/-- A cleared request. -/
theorem lays_cleared (hs : t.Sound bs) (hp : isWordPowerOfTwo l.align = true) :
    t.heap.obtainZeroed? l = .ok (none, t.heap) ∨
    ∃ address h' c, t.heap.obtainZeroed? l = .ok (some address, h') ∧
      t.Grants (t.house l (some address, h')) (h'.allocationAt address l) l c ∧
      (∀ b, h'.InUse b ↔ b = c ∨ t.heap.InUse b) ∧
      ∀ x, address ≤ x → x < address + l.size → h'.memory.byte x = 0 := by
  unfold Heap.obtainZeroed?
  rcases Heap.obtain?_cases hs.tiled hp with hno | ⟨address, h', hok, hh⟩
  · rw [hno]
    exact .inl rfl
  · rw [hok]
    have hzero := (hh.writeAt fun x hx =>
      Memory.byte_fill_of_outside h'.memory address x l.size 0 (by omega)).2
    obtain ⟨c, hgrants, hiff⟩ := hs.grants_of_houses hzero
    refine .inr ⟨address, _, c, rfl, hgrants, hiff, fun x hle hlt => ?_⟩
    exact Memory.byte_fill_of_inside _ _ _ _ _ ⟨hle, hlt⟩

/-- A move. -/
theorem lays_moved (hs : t.Sound bs) (ha : a ∈ t.live) (hl : l ∈ a.layout) (size : Nat) :
    t.heap.resize? a.address l size = .ok (none, t.heap) ∨
    ∃ address h' old c, t.heap.resize? a.address l size = .ok (some address, h') ∧
      t.Placed a l old ∧
      t.Grants ((t.vacate h' a.handle).house { l with size } (some address, h'))
        (h'.allocationAt address { l with size }) { l with size } c ∧
      (∀ b, h'.InUse b ↔ b = c ∨ (t.heap.InUse b ∧ b ≠ old)) ∧
      (∀ i < min l.size size,
        h'.memory.byte (address + i) = t.heap.memory.byte (a.address + i)) ∧
      ∀ d ∈ t.live, d ≠ a → ∀ x, d.Holds x → h'.memory.byte x = t.heap.memory.byte x := by
  rcases hs.resize_cases ha hl size with hno | ⟨address, h', bs', hok, -, hs', hspares⟩
  · exact .inl hno
  obtain ⟨c, hmoves⟩ := hs.exists_moves ha hl hok
  obtain ⟨old, hold, haold⟩ := hs.housed a ha
  have hin : t.heap.InUse old := hs.tiled.inUse_iff.mpr (List.mem_filter.mpr ⟨hold, haold.used⟩)
  refine .inr ⟨address, h', old, c, hok, hs.placed ha hl hin haold.handle_eq, ?_, fun b => ?_,
    hmoves.copied, fun d hd hda x hx => ?_⟩
  · refine ⟨hmoves.fresh, List.mem_cons_self, fun t'' hr => ?_⟩
    exact hs'.placed_of_retains rfl ((hmoves.inUse_iff c).mpr (.inl rfl)) hmoves.handle_eq hr
  · rw [hmoves.inUse_iff b, haold.handle_eq]
    refine or_congr_right (and_congr_right fun hb => not_congr ⟨fun he => ?_, fun he => he ▸ rfl⟩)
    exact hs.tiled.eq_of_payload_eq (List.mem_of_mem_filter (hs.tiled.inUse_iff.mp hb)) hold he
  · refine (hspares (.resize a size)).kept d hd (List.mem_cons_of_mem _ ?_) x hx id
    refine List.mem_filter.mpr ⟨hd, decide_eq_true fun he => hda ?_⟩
    exact List.inj_on_of_nodup_map hs.nodup_handle hd ha he

theorem lays (hs : t.Sound bs) : t.Lays := by
  refine ⟨fun l hp => ?_, fun l hp => hs.lays_cleared hp, fun a ha l hl size => hs.lays_moved ha hl size⟩
  rcases Heap.obtain?_cases hs.tiled hp with hno | ⟨address, h', hok, hh⟩
  · exact .inl hno
  · obtain ⟨c, hgrants, hiff⟩ := hs.grants_of_houses hh
    exact .inr ⟨address, h', c, hok, hgrants, hiff⟩

end Sound

/-! ## 5. Every reachable state -/

/-- **Aligned allocations.**  From the first state of a heap that ends inside the 64-bit range on,
whatever calls its owners make: requests by layout are granted or refused, what is granted stays in its
block until it is given up, and giving it back releases that block. -/
theorem lays_of_reaches {memory : Memory} {start size : Nat} {heap : Heap}
    (hok : Heap.ofRange memory start size = .ok heap) (hlimit : heap.limit < 2 ^ 64)
    (hr : Reaches ⟨heap, []⟩ t) : t.Lays := by
  obtain ⟨bs, ht, hfree, -⟩ := Heap.tiled_of_ofRange hok hlimit
  obtain ⟨⟨bs', hs⟩, -⟩ := (Sound.of_free ht hfree).of_reaches hr
  exact hs.lays

/-- On a heap over 64 KiB, 100 bytes are live that were asked for at a multiple of 64.  The payload of
their block begins 32 bytes in front of them. -/
theorem lays_overAligned : ∃ heap t, Heap.ofRange .zero 4097 65536 = .ok heap ∧
    heap.limit < 2 ^ 64 ∧ Reaches ⟨heap, []⟩ t ∧
    t.live = [⟨4160, 100, some ⟨100, 64⟩, 4128⟩] ∧ t.Lays := by
  obtain ⟨heap, hok, hlimit, ht, -⟩ := Heap.exists_fresh
  have hrange : heap.start = 4112 ∧ heap.size = 65520 := by cases hok; exact ⟨rfl, rfl⟩
  have halloc := Heap.alloc_of_free ht (by simp) (show Heap.blockSizeFor? 164 = some 192 by decide)
    (by rw [hrange.2]; decide)
  simp only [hrange.1, hrange.2, headerSize] at halloc
  generalize heap.carve ⟨4112, 65520, false⟩ 192 = h₁ at halloc
  let h₂ : Heap := { h₁ with memory := h₁.memory.setWord 4152 (UInt64.ofNat 4128) }
  have hobtain : heap.obtain? ⟨100, 64⟩ = .ok (some 4160, h₂) := by
    rw [Heap.obtain?, Heap.allocAligned, if_neg (by decide), if_neg (by decide)]
    simp only [Nat.reduceAdd, halloc, bind, Except.bind, pure, Except.pure,
      show alignUp (4128 + 1) 64 = 4160 from rfl, h₂]
  have hhandle : h₂.handleAt 4160 ⟨100, 64⟩ = 4128 := by
    rw [Heap.handleAt, if_neg (by decide), Memory.word_setWord_self]
    rfl
  have hr : Reaches ⟨heap, []⟩ ⟨h₂, [⟨4160, 100, some ⟨100, 64⟩, 4128⟩]⟩ := by
    have hcall : HeapCall.Allowed ⟨heap, []⟩ (.obtain ⟨100, 64⟩) :=
      show isWordPowerOfTwo 64 = true by decide
    refine Reaches.refl.call hcall ?_
    rw [step, hobtain, ← hhandle]
    rfl
  exact ⟨heap, _, hok, hlimit, hr, rfl, lays_of_reaches hok hlimit hr⟩

end Tenancy

end KernelCore
