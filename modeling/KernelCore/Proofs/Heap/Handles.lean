/-
# Which addresses can be freed

`Heap.free` looks an address up among the headers, and has no other record of what it handed out.
This module keeps the record that it does not have, from what its callers see alone: a receipt for
each request that was served, with the address that the owner got and the handle that `Heap.alloc`
returned for it, crossed off when the handle is freed or the address is given back
(`HeapCall.ledger`).  Which receipts are outstanding at the end of a run is `Tenancy.ReachesWith`.

* `Sound.map_receipt`: one call does to the live allocations what it does to the receipts;
* `Sound.of_reachesWith`: so the outstanding receipts are those of the live allocations;
* `Tenancy.frees_of_reachesWith`: an address can be freed exactly if an outstanding receipt has it
  as its handle, which releases that block and leaves every other one where it is.

The handle of a receipt is what `alloc` returned at the time.  A release by layout reads it again from
memory, in front of the address that it gets.  That this is the same one is what a live allocation is
known by (`Allocation.HousedIn`), once the word that was put there is the handle
(`handle?_of_allocAligned`).
-/
import KernelCore.Proofs.Heap.Integrity
import KernelCore.Proofs.Heap.Room

namespace KernelCore

/-! ## 1. Receipts -/

/-- What the owner of an allocation was told, and the handle of the block that it lies in. -/
structure Receipt where
  address : Nat
  handle : Nat
  deriving DecidableEq

/-- What the owner of a live allocation has in hand. -/
def Allocation.receipt (a : Allocation) : Receipt := ⟨a.address, a.handle⟩

/-- The bytes that `Heap.alloc` is asked for to serve a layout, if they can be counted. -/
def Layout.request? (l : Layout) : Option Nat :=
  if l.align ≤ heapAlign then some l.size
  else if 2 ^ 64 ≤ l.size + l.align then none
  else some (l.size + l.align)

/-- The handle that `Heap.alloc` returns, if it is asked and serves. -/
def Heap.handle? (h : Heap) (request : Option Nat) : Option Nat :=
  request.bind fun n => (h.alloc n).toOption.map Prod.fst

namespace HeapCall

/-- The bytes that `Heap.alloc` is asked for in the course of a call. -/
def request? : HeapCall → Option Nat
  | .alloc n => some n
  | .calloc count size => if 2 ^ 64 ≤ count * size then none else some (count * size)
  | .obtain layout | .obtainZeroed layout => layout.request?
  | .resize a size => a.layout.bind fun layout => Layout.request? { layout with size }
  | _ => none

/-- The address that the owner gets. -/
def address? (h : Heap) : HeapCall → Option Nat
  | .alloc n => (h.alloc n).toOption.map Prod.fst
  | .calloc count size => (h.calloc count size).toOption.map Prod.fst
  | .obtain layout => (h.obtain? layout).toOption.bind Prod.fst
  | .obtainZeroed layout => (h.obtainZeroed? layout).toOption.bind Prod.fst
  | .resize a size =>
    a.layout.bind fun layout => (h.resize? a.address layout size).toOption.bind Prod.fst
  | _ => none

/-- The receipt for a call that is served with an address. -/
def receipt? (h : Heap) (call : HeapCall) : Option Receipt :=
  (call.address? h).bind fun address => (h.handle? call.request?).map fun handle => ⟨address, handle⟩

/-- The call uses up a receipt: its handle is freed, or its address is given back, or is moved. -/
def Cancels (h : Heap) (call : HeapCall) (r : Receipt) : Prop :=
  match call with
  | .free handle => r.handle = handle
  | .giveBack a => r.address = a.address
  | .resize a _ => r.address = a.address ∧ (call.address? h).isSome
  | _ => False

instance (h : Heap) (call : HeapCall) (r : Receipt) : Decidable (call.Cancels h r) := by
  unfold Cancels; split <;> infer_instance

/-- The receipts that are outstanding after a call. -/
def ledger (h : Heap) (call : HeapCall) (receipts : List Receipt) : List Receipt :=
  (call.receipt? h).toList ++ receipts.filter fun r => ¬call.Cancels h r

end HeapCall

/-- The states that a heap and its owners come to by calls that the owners may make, with the
receipts that are outstanding there. -/
inductive Tenancy.ReachesWith (t : Tenancy) : Tenancy → List Receipt → Prop where
  | refl : ReachesWith t t []
  | call {t' t'' : Tenancy} {call : HeapCall} {receipts : List Receipt} :
      ReachesWith t t' receipts → call.Allowed t' → t'.step call = .ok t'' →
      ReachesWith t t'' (call.ledger t'.heap receipts)

/-! ## 2. The handle behind an address -/

namespace Heap

variable {h h' : Heap} {bs : List Block} {l : Layout} {address : Nat}

/-- **What a request by layout keeps in front of its result** is the handle that `alloc` returned. -/
theorem handle?_of_allocAligned (ht : h.Tiled bs) (hok : h.allocAligned l = .ok (address, h')) :
    h.handle? l.request? = some (h'.handleAt address l) := by
  unfold allocAligned at hok
  unfold handle? Layout.request? handleAt
  split at hok
  · next hle =>
    simp only [if_pos hle, Option.bind_some, hok]
    rfl
  · next hlt =>
    split at hok
    · cases hok
    · next hsum =>
      cases ha : h.alloc (l.size + l.align) with
      | error stop => rw [ha] at hok; cases hok
      | ok r =>
        rw [ha] at hok
        cases hok
        obtain ⟨bs', c, hadm, hpay, hend⟩ := admits_of_alloc ht ha
        have hnext := hadm.tiled.next_le hadm.mem
        have hlimit := hadm.tiled.limit_lt
        have hword : r.1 < 2 ^ 64 := by omega
        simp only [if_neg hlt, if_neg hsum, Option.bind_some, ha, Except.toOption, Option.map_some,
          Memory.word_setWord_self, UInt64.toNat_ofNat', Nat.mod_eq_of_lt hword]

theorem handle?_of_obtain? (ht : h.Tiled bs) (hok : h.obtain? l = .ok (some address, h')) :
    h.handle? l.request? = some (h'.handleAt address l) := by
  unfold obtain? at hok
  split at hok
  · next heq =>
    cases hok
    exact handle?_of_allocAligned ht heq
  · cases hok
  · cases hok

/-- Clearing what was obtained leaves the handle in front of it. -/
theorem handle?_of_obtainZeroed? (ht : h.Tiled bs) (hp : isWordPowerOfTwo l.align = true)
    (hok : h.obtainZeroed? l = .ok (some address, h')) :
    h.handle? l.request? = some (h'.handleAt address l) := by
  unfold obtainZeroed? at hok
  rcases obtain?_cases ht hp with hno | ⟨address, h₁, hobtain, hh⟩
  · rw [hno] at hok
    cases hok
  · rw [hobtain] at hok
    cases hok
    have hkept := (hh.writeAt fun x hx =>
      Memory.byte_fill_of_outside h₁.memory address x l.size 0 (by omega)).1
    rw [hkept]
    exact handle?_of_obtain? ht hobtain

/-- A cleared allocation has the handle of the allocation. -/
theorem handle?_of_calloc {count size : Nat} (hok : h.calloc count size = .ok (address, h')) :
    h.handle? (HeapCall.calloc count size).request? = some address := by
  unfold calloc at hok
  split at hok
  · cases hok
  · next hlt =>
    cases ha : h.alloc (count * size) with
    | error stop => rw [ha] at hok; cases hok
    | ok r =>
      rw [ha] at hok
      cases hok
      simp [handle?, HeapCall.request?, hlt, ha, Except.toOption]

end Heap

/-! ## 3. One call -/

namespace HeapCall

variable {h : Heap} {call : HeapCall} {receipts : List Receipt} {address handle : Nat}

theorem receipt?_of_address? (ha : call.address? h = none) : call.receipt? h = none := by
  rw [receipt?, ha, Option.bind_none]

theorem receipt?_eq_some (ha : call.address? h = some address)
    (hh : h.handle? call.request? = some handle) : call.receipt? h = some ⟨address, handle⟩ := by
  rw [receipt?, ha, hh, Option.bind_some, Option.map_some]

/-- A call without a receipt that uses up none leaves the record as it is. -/
theorem ledger_of_none (ha : call.address? h = none) (hno : ∀ r ∈ receipts, ¬call.Cancels h r) :
    call.ledger h receipts = receipts := by
  rw [ledger, receipt?_of_address? ha, Option.toList_none, List.nil_append, List.filter_eq_self]
  exact fun r hr => decide_eq_true (hno r hr)

/-- A call with a receipt that uses up none puts one in front. -/
theorem ledger_of_some (ha : call.address? h = some address)
    (hh : h.handle? call.request? = some handle) (hno : ∀ r ∈ receipts, ¬call.Cancels h r) :
    call.ledger h receipts = ⟨address, handle⟩ :: receipts := by
  rw [ledger, receipt?_eq_some ha hh, Option.toList_some, List.singleton_append,
    List.filter_eq_self.mpr fun r hr => decide_eq_true (hno r hr)]

/-- What is moved is crossed off, and stands in front under its new address. -/
theorem ledger_resize {a : Allocation} {size : Nat}
    (ha : (resize a size).address? h = some address)
    (hh : h.handle? (resize a size).request? = some handle) :
    (resize a size).ledger h receipts =
      ⟨address, handle⟩ :: receipts.filter fun r => r.address ≠ a.address := by
  simp only [ledger, receipt?_eq_some ha hh, Option.toList_some, List.singleton_append, Cancels, ha,
    Option.isSome_some, and_true, ne_eq]

end HeapCall

namespace Tenancy

variable {t t' : Tenancy} {call : HeapCall} {bs : List Block} {h' : Heap} {a d : Allocation}
  {receipts : List Receipt} {address : Nat}

theorem map_receipt_vacate (t : Tenancy) (h' : Heap) (handle : Nat) :
    (t.vacate h' handle).live.map Allocation.receipt =
      (t.live.map Allocation.receipt).filter fun r => r.handle ≠ handle := by
  rw [List.filter_map]
  rfl

/-- A request by number of bytes. -/
theorem map_receipt_of_answer {r : Except (Stop HeapError) (Nat × Heap)} {n : Nat}
    (hstep : t.answer (fun (address, heap) => ⟨heap, ⟨address, n, none, address⟩ :: t.live⟩) r =
      .ok t')
    (haddress : call.address? t.heap = r.toOption.map Prod.fst)
    (hhandle : ∀ address h', r = .ok (address, h') →
      t.heap.handle? call.request? = some address)
    (hno : ∀ r, ¬call.Cancels t.heap r) :
    t'.live.map Allocation.receipt = call.ledger t.heap (t.live.map Allocation.receipt) := by
  rcases r with ⟨e | halt⟩ | ⟨address, h'⟩
  · cases hstep
    rw [HeapCall.ledger_of_none haddress fun r _ => hno r]
  · cases hstep
  · cases hstep
    rw [HeapCall.ledger_of_some haddress (hhandle address h' rfl) fun r _ => hno r]
    rfl

/-- A request by layout. -/
theorem map_receipt_of_house {r : Except Halt (Option Nat × Heap)} {l : Layout}
    (hstep : (do return t.house l (← r) : Except Halt Tenancy) = .ok t')
    (haddress : call.address? t.heap = r.toOption.bind Prod.fst)
    (hhandle : ∀ address h', r = .ok (some address, h') →
      t.heap.handle? call.request? = some (h'.handleAt address l))
    (hno : ∀ r, ¬call.Cancels t.heap r) :
    t'.live.map Allocation.receipt = call.ledger t.heap (t.live.map Allocation.receipt) := by
  rcases r with halt | ⟨_ | address, h'⟩
  · cases hstep
  · cases hstep
    rw [HeapCall.ledger_of_none haddress fun r _ => hno r]
    rfl
  · cases hstep
    rw [HeapCall.ledger_of_some haddress (hhandle address h' rfl) fun r _ => hno r]
    rfl

namespace Sound

/-- **The handles of the live allocations are the payloads of the blocks in use.** -/
theorem exists_handle_iff (hs : t.Sound bs) :
    (∃ a ∈ t.live, a.handle = address) ↔ ∃ b ∈ bs, b.used = true ∧ b.payload = address := by
  have hmem := hs.handles.mem_iff (a := address)
  simpa only [List.mem_map, List.mem_filter, and_assoc] using hmem

/-- The handles that can be freed are those of the live allocations. -/
theorem exists_free_iff (hs : t.Sound bs) :
    (∃ h', t.heap.free address = .ok h') ↔ ∃ a ∈ t.live, a.handle = address := by
  rw [hs.exists_handle_iff]
  constructor
  · rintro ⟨h', hok⟩
    by_contra hno
    rw [Heap.free_of_forall_ne hs.tiled fun b hb hu he => hno ⟨b, hb, hu, he⟩] at hok
    cases hok
  · rintro ⟨b, hb, hu, rfl⟩
    obtain ⟨h', bs', hok, -⟩ := Heap.exists_free_payload hs.tiled hb hu
    exact ⟨h', hok⟩

/-- Two live allocations at one address are one allocation.  An empty one may begin where its block
ends, but the byte in front of it is still the block's. -/
theorem eq_of_address_eq (hs : t.Sound bs) (hd : d ∈ t.live) (ha : a ∈ t.live)
    (he : d.address = a.address) : d = a := by
  obtain ⟨b, hb, hab⟩ := hs.housed a ha
  obtain ⟨c, hc, hdc⟩ := hs.housed d hd
  have hcovers : ∀ {e : Allocation} {b : Block}, e.HousedIn t.heap b → b.Covers (e.address - 1) := by
    intro e b heb
    have hpay := heb.payload_le
    have hend := heb.end_le
    simp only [Block.payload, headerSize] at hpay
    simp only [Block.Covers]
    omega
  have hcb : c = b := hs.tiled.eq_of_covers hc hb (hcovers hdc) (he ▸ hcovers hab)
  refine List.inj_on_of_nodup_map hs.nodup_handle hd ha ?_
  rw [hdc.handle_eq, hab.handle_eq, hcb]

/-- The allocation at an address is gone when its handle is freed. -/
theorem map_receipt_vacate (hs : t.Sound bs) (ha : a ∈ t.live) (h' : Heap) :
    (t.vacate h' a.handle).live.map Allocation.receipt =
      (t.live.map Allocation.receipt).filter fun r => r.address ≠ a.address := by
  rw [Tenancy.map_receipt_vacate]
  refine List.filter_congr fun r hr => ?_
  obtain ⟨d, hd, rfl⟩ := List.mem_map.mp hr
  refine decide_eq_decide.mpr (not_congr ⟨fun he => ?_, fun he => ?_⟩)
  · rw [List.inj_on_of_nodup_map hs.nodup_handle hd ha he]
    rfl
  · rw [hs.eq_of_address_eq hd ha he]
    rfl

/-- A free that is accepted crosses off the receipts with that handle; one that is refused finds
none. -/
theorem map_receipt_free (hs : t.Sound bs) (hstep : t.step (.free address) = .ok t') :
    t'.live.map Allocation.receipt =
      (HeapCall.free address).ledger t.heap (t.live.map Allocation.receipt) := by
  rw [step] at hstep
  rcases hfree : t.heap.free address with ⟨e | halt⟩ | h'
  · rw [hfree] at hstep
    cases hstep
    refine (HeapCall.ledger_of_none rfl fun r hr hcancels => ?_).symm
    obtain ⟨a, ha, rfl⟩ := List.mem_map.mp hr
    obtain ⟨h', hok⟩ := hs.exists_free_iff.mpr ⟨a, ha, hcancels⟩
    rw [hfree] at hok
    cases hok
  · rw [hfree] at hstep
    cases hstep
  · rw [hfree] at hstep
    cases hstep
    exact Tenancy.map_receipt_vacate t h' address

/-- A move that is served crosses off the old address and puts the new one in front; one that is not
leaves the old one. -/
theorem map_receipt_resize {size : Nat} (hs : t.Sound bs) (ha : a ∈ t.live) {l : Layout}
    (hl : a.layout = some l) (hstep : t.step (.resize a size) = .ok t') :
    t'.live.map Allocation.receipt =
      (HeapCall.resize a size).ledger t.heap (t.live.map Allocation.receipt) := by
  have haddress : (HeapCall.resize a size).address? t.heap =
      (t.heap.resize? a.address l size).toOption.bind Prod.fst := by
    rw [HeapCall.address?, hl, Option.bind_some]
  rw [step, hl] at hstep
  rcases hs.resize_cases ha hl size with hno | ⟨address, h', bs', hok, ⟨h₁, hobtain, hkept⟩, -, -⟩
  · simp only [hno] at hstep
    cases hstep
    rw [hno] at haddress
    refine (HeapCall.ledger_of_none haddress fun r _ hcancels => ?_).symm
    simp [HeapCall.Cancels, haddress, Except.toOption] at hcancels
  · simp only [hok] at hstep
    cases hstep
    rw [hok] at haddress
    have hhandle : t.heap.handle? (HeapCall.resize a size).request? =
        some (h'.handleAt address { l with size }) := by
      rw [HeapCall.request?, hl, Option.bind_some, hkept]
      exact Heap.handle?_of_obtain? hs.tiled hobtain
    rw [HeapCall.ledger_resize haddress hhandle, ← hs.map_receipt_vacate ha h']
    rfl

/-- **One call** does to the live allocations what it does to the receipts. -/
theorem map_receipt (hs : t.Sound bs) (hc : call.Allowed t) (hstep : t.step call = .ok t') :
    t'.live.map Allocation.receipt = call.ledger t.heap (t.live.map Allocation.receipt) := by
  cases call with
  | alloc n =>
    refine map_receipt_of_answer hstep rfl (fun address h' hok => ?_) fun _ => id
    simp [Heap.handle?, HeapCall.request?, hok, Except.toOption]
  | calloc count size =>
    exact map_receipt_of_answer hstep rfl (fun address h' => Heap.handle?_of_calloc) fun _ => id
  | free address => exact hs.map_receipt_free hstep
  | obtain l =>
    exact map_receipt_of_house hstep rfl (fun address h' => Heap.handle?_of_obtain? hs.tiled)
      fun _ => id
  | obtainZeroed l =>
    exact map_receipt_of_house hstep rfl
      (fun address h' => Heap.handle?_of_obtainZeroed? hs.tiled hc) fun _ => id
  | giveBack a =>
    obtain ⟨ha, hl⟩ := hc
    obtain ⟨l, hl⟩ := Option.isSome_iff_exists.mp hl
    obtain ⟨h', bs', hok, -⟩ := hs.exists_giveBack ha hl
    rw [step, hl] at hstep
    simp only [hok] at hstep
    cases hstep
    exact hs.map_receipt_vacate ha h'
  | resize a size =>
    obtain ⟨ha, hl⟩ := hc
    obtain ⟨l, hl⟩ := Option.isSome_iff_exists.mp hl
    exact hs.map_receipt_resize ha hl hstep
  | store a offset bytes =>
    cases hstep
    exact (HeapCall.ledger_of_none rfl fun _ _ => id).symm

end Sound

end Tenancy

/-! ## 4. Every reachable state -/

namespace Tenancy

variable {t t' : Tenancy} {bs : List Block} {receipts : List Receipt} {address : Nat}

/-- The record is kept whatever the owners do. -/
theorem Reaches.exists_receipts (hr : t.Reaches t') : ∃ receipts, t.ReachesWith t' receipts := by
  induction hr with
  | refl => exact ⟨[], .refl⟩
  | call _ hc hstep ih =>
    obtain ⟨receipts, hr⟩ := ih
    exact ⟨_, hr.call hc hstep⟩

/-- **The outstanding receipts are those of the live allocations**, at the end of every run from a
state without any. -/
theorem Sound.of_reachesWith (hs : t.Sound bs) (hnone : t.live = [])
    (hr : t.ReachesWith t' receipts) :
    (∃ bs', t'.Sound bs') ∧ t'.live.map Allocation.receipt = receipts := by
  induction hr with
  | refl => exact ⟨⟨bs, hs⟩, by rw [hnone, List.map_nil]⟩
  | call _ hc hstep ih =>
    obtain ⟨⟨bs₁, hs₁⟩, hreceipts⟩ := ih
    obtain ⟨t₂, bs₂, hok, hs₂, -⟩ := hs₁.exists_step hc
    have hkept := hs₁.map_receipt hc hstep
    rw [hok] at hstep
    cases hstep
    exact ⟨⟨bs₂, hs₂⟩, hkept.trans (congrArg _ hreceipts)⟩

end Tenancy

/-- **The second heap has lost one block**: the one in use with that payload is no longer, and all
other blocks in use are where they were, and as large. -/
def Heap.Loses (h h' : Heap) (payload : Nat) : Prop :=
  ∃ bs bs' b, h.blocks = .ok bs ∧ h'.blocks = .ok bs' ∧ h'.start = h.start ∧
    b ∈ bs ∧ b.used = true ∧ b.payload = payload ∧
    ∀ c, c.used = true → (c ∈ bs' ↔ c ∈ bs ∧ c ≠ b)

/-- **What `free` does with an address**, in a state with these receipts outstanding: it accepts the
handles among them, which takes one block away; and it refuses all other addresses, which changes
nothing. -/
structure Tenancy.Frees (t : Tenancy) (receipts : List Receipt) (address : Nat) : Prop where
  accepts_iff : (∃ h', t.heap.free address = .ok h') ↔ ∃ r ∈ receipts, r.handle = address
  loses : ∀ h', t.heap.free address = .ok h' → t.heap.Loses h' address
  refuses : (∀ r ∈ receipts, r.handle ≠ address) →
    t.heap.free address = .error (.refused (.invalidFree address)) ∧ t.step (.free address) = .ok t

theorem Heap.Releases.loses {h h' : Heap} {bs bs' : List Block} {b : Block}
    (hr : h.Releases h' bs bs' b) (ht : h.Tiled bs) : h.Loses h' b.payload := by
  obtain ⟨hb, hiff⟩ := hr.inUse_iff ht
  obtain ⟨hmem, hu⟩ := List.mem_filter.mp (ht.inUse_iff.mp hb)
  refine ⟨bs, bs', b, ht.blocks_eq, hr.tiled.blocks_eq, hr.confined.start_eq, hmem, hu, rfl, ?_⟩
  intro c hcu
  have hc := hiff c
  simp only [hr.tiled.inUse_iff, ht.inUse_iff, List.mem_filter, hcu, and_true] at hc
  rw [hc]
  exact and_congr_right fun hcmem =>
    not_congr ⟨ht.eq_of_payload_eq hcmem hmem, fun he => congrArg _ he⟩

namespace Tenancy

variable {t t' : Tenancy} {bs : List Block} {receipts : List Receipt} {address : Nat}

theorem Sound.frees (hs : t.Sound bs) (address : Nat) :
    t.Frees (t.live.map Allocation.receipt) address := by
  have hiff : (∃ h', t.heap.free address = .ok h') ↔
      ∃ r ∈ t.live.map Allocation.receipt, r.handle = address := by
    simp only [hs.exists_free_iff, List.mem_map, exists_exists_and_eq_and, Allocation.receipt]
  refine ⟨hiff, fun h' hok => ?_, fun hno => ?_⟩
  · obtain ⟨b, hb, hu, rfl⟩ := hs.exists_handle_iff.mp (hs.exists_free_iff.mp ⟨h', hok⟩)
    obtain ⟨h₁, bs', hfree, hrel⟩ := Heap.exists_free_payload hs.tiled hb hu
    rw [hok] at hfree
    cases hfree
    exact hrel.loses hs.tiled
  · rcases hs.free_cases address with he | ⟨h', _, hok, -⟩
    · exact ⟨he, by rw [step, he]; rfl⟩
    · obtain ⟨r, hr, hhandle⟩ := hiff.mp ⟨h', hok⟩
      exact absurd hhandle (hno r hr)

/-- **Freeing.**  From the first state of a heap that ends inside the 64-bit range on, whatever calls
its owners make: an address can be freed exactly if it is the handle of an outstanding receipt, one
that `alloc` returned and that has not been freed since.  This takes one block away and leaves every
other one where it is.  Every other address is refused, and nothing changes. -/
theorem frees_of_reachesWith {memory : Memory} {start size : Nat} {heap : Heap}
    (hok : Heap.ofRange memory start size = .ok heap) (hlimit : heap.limit < 2 ^ 64)
    (hr : ReachesWith ⟨heap, []⟩ t receipts) (address : Nat) : t.Frees receipts address := by
  obtain ⟨bs, ht, hfree, -⟩ := Heap.tiled_of_ofRange hok hlimit
  obtain ⟨⟨bs', hs⟩, rfl⟩ := (Sound.of_free ht hfree).of_reachesWith rfl hr
  exact hs.frees address

/-- On a heap over 64 KiB, 100 bytes are allocated and freed.  The handle can be freed once, and no
address next to it. -/
theorem frees_once : ∃ heap t t', Heap.ofRange .zero 4097 65536 = .ok heap ∧
    heap.limit < 2 ^ 64 ∧ ReachesWith ⟨heap, []⟩ t [⟨4128, 4128⟩] ∧ ReachesWith ⟨heap, []⟩ t' [] ∧
    t.Frees [⟨4128, 4128⟩] 4128 ∧ t.Frees [⟨4128, 4128⟩] 4129 ∧ t'.Frees [] 4128 := by
  obtain ⟨heap, hok, hlimit, -, halloc⟩ := Heap.exists_fresh
  have hr : ReachesWith ⟨heap, []⟩ ⟨heap.carve ⟨4112, 65520, false⟩ 128, [⟨4128, 100, none, 4128⟩]⟩
      [⟨4128, 4128⟩] := by
    have hcall := ReachesWith.refl.call (t := ⟨heap, []⟩)
      (show HeapCall.Allowed _ (.alloc 100) from trivial) (by rw [step, halloc]; rfl)
    rwa [HeapCall.ledger_of_some (by rw [HeapCall.address?, halloc]; rfl)
      (by rw [Heap.handle?, HeapCall.request?, Option.bind_some, halloc]; rfl) (by simp)] at hcall
  have hfrees := frees_of_reachesWith hok hlimit hr
  obtain ⟨h', hfreed⟩ := (hfrees 4128).accepts_iff.mpr ⟨_, List.mem_singleton_self _, rfl⟩
  have hr' : ReachesWith ⟨heap, []⟩ ⟨h', []⟩ [] :=
    hr.call (show HeapCall.Allowed _ (.free 4128) from trivial) (by rw [step, hfreed]; rfl)
  exact ⟨heap, _, _, hok, hlimit, hr, hr', hfrees 4128, hfrees 4129,
    frees_of_reachesWith hok hlimit hr' 4128⟩

end Tenancy

end KernelCore
