/-
# Releasing undoes allocating, in any order

A block that is released is merged with a free block behind it and with a free block in front of it,
so that every order of releases has its own lists of blocks on the way.  None of them matters: what is
free between blocks in use is one block (`Tiled.unique`), and one relation says which blocks are in use,
whatever happened in between.

* `Heap.Without`: the second heap is over the range of the first, and its blocks in use are those of
  the first but for some payloads.  A request that is served is this relation backwards
  (`Houses.without`), and a release is it forwards (`Releases.without`);
* `Without.blocks_eq`: two heaps that lack the same payloads have one list of blocks;
* `Sound.exists_takeBackAll`: live allocations can be released one after the other, in any order;
* `Sound.of_obtains`: a run of requests, read backwards;
* `Tenancy.undoes_of_reaches`: so releasing undoes allocating in every reachable state, and a heap of
  which everything was released is one free block.
-/
import KernelCore.Proofs.Heap.Handles

namespace KernelCore

/-! ## 1. Releases and requests -/

/-- Releases an allocation: by its layout, if it was obtained by layout, and by its address
otherwise. -/
def Heap.takeBack (h : Heap) (a : Allocation) : Except (Stop HeapError) Heap :=
  match a.layout with
  | some layout => Stop.ofHalt (h.giveBack a.address layout)
  | none => h.free a.address

/-- Releases allocations one after the other, and stops at the first one that is refused. -/
def Heap.takeBackAll (h : Heap) (as : List Allocation) : Except (Stop HeapError) Heap :=
  as.foldlM Heap.takeBack h

/-- The call asks for memory, and for nothing else. -/
def HeapCall.Requests : HeapCall → Prop
  | .alloc _ | .calloc _ _ | .obtain _ | .obtainZeroed _ => True
  | _ => False

/-- Requests one after the other, all of which are served: what they obtained, the last one in front,
and the state that they lead to. -/
inductive Tenancy.Obtains (t : Tenancy) : List Allocation → Tenancy → Prop where
  | nil : Obtains t [] t
  | cons {t' : Tenancy} {call : HeapCall} {heap : Heap} {a : Allocation} {got : List Allocation} :
      Obtains t got t' → call.Requests → call.Allowed t' →
      t'.step call = .ok ⟨heap, a :: t'.live⟩ → Obtains t (a :: got) ⟨heap, a :: t'.live⟩

/-- What was obtained without a layout is released by the address that its owner got. -/
def Tenancy.Plain (t : Tenancy) : Prop := ∀ a ∈ t.live, a.layout = none → a.handle = a.address

/-- **The second heap without some of the blocks in use.**  It is over the range of the first, and of
the blocks in use it has those with other payloads. -/
structure Heap.Without (h h' : Heap) (payloads : List Nat) : Prop where
  start_eq : h'.start = h.start
  size_eq : h'.size = h.size
  inUse_iff : ∀ b, h'.InUse b ↔ h.InUse b ∧ b.payload ∉ payloads

/-! ## 2. Heaps without some of their blocks -/

namespace Heap

variable {h h' h'' h₁ h₂ : Heap} {bs bs' bs₁ bs₂ : List Block} {b c : Block} {a : Allocation}
  {payloads payloads' : List Nat}

namespace Without

theorem refl (h : Heap) : h.Without h [] := ⟨rfl, rfl, fun b => by simp⟩

theorem trans (hw : h.Without h' payloads) (hw' : h'.Without h'' payloads') :
    h.Without h'' (payloads ++ payloads') := by
  refine ⟨hw'.start_eq.trans hw.start_eq, hw'.size_eq.trans hw.size_eq, fun b => ?_⟩
  rw [hw'.inUse_iff, hw.inUse_iff, List.mem_append, not_or, and_assoc]

/-- **Which blocks are missing decides the list of blocks**, and not how they went missing. -/
theorem blocks_eq (hw₁ : h.Without h₁ payloads) (hw₂ : h.Without h₂ payloads')
    (hmem : ∀ p, p ∈ payloads ↔ p ∈ payloads') (ht₁ : h₁.Tiled bs₁) (ht₂ : h₂.Tiled bs₂) :
    bs₁ = bs₂ := by
  refine ht₂.unique ht₁ (hw₁.start_eq.trans hw₂.start_eq.symm) (hw₁.size_eq.trans hw₂.size_eq.symm) ?_
  intro b
  rw [hw₁.inUse_iff, hw₂.inUse_iff, hmem]

end Without

/-- A release takes the block away that it is about. -/
theorem Releases.without (hr : h.Releases h' bs bs' b) (ht : h.Tiled bs) :
    h.Without h' [b.payload] :=
  ⟨hr.confined.start_eq, hr.confined.size_eq, fun c => by
    rw [(hr.inUse_iff ht).2 c, List.mem_singleton]⟩

/-- A request that is served, backwards: the first heap is the second one without the new block. -/
theorem Houses.without (hh : h.Houses h' bs a) (ht : h.Tiled bs) : h'.Without h [a.handle] := by
  obtain ⟨bs', c, hadm, ha⟩ := hh
  obtain ⟨hnew, hiff⟩ := hadm.inUse_iff ht
  refine ⟨hadm.confined.start_eq.symm, hadm.confined.size_eq.symm, fun b => ?_⟩
  rw [hiff b, List.mem_singleton, ha.handle_eq]
  constructor
  · intro hb
    refine ⟨.inr hb, fun hpayload => hnew ?_⟩
    have hb' := hadm.tiled.inUse_iff.mp ((hiff b).mpr (.inr hb))
    rw [← hadm.tiled.eq_of_payload_eq (List.mem_of_mem_filter hb') hadm.mem hpayload]
    exact hb
  · rintro ⟨rfl | hb, hne⟩
    · exact absurd rfl hne
    · exact hb

/-- What is housed can be released, by whichever of the two ways it was obtained. -/
theorem exists_takeBack (ht : h.Tiled bs) (hb : b ∈ bs) (ha : a.HousedIn h b)
    (hplain : a.layout = none → a.handle = a.address) :
    ∃ h' bs', h.takeBack a = .ok h' ∧ h.Releases h' bs bs' b := by
  cases hl : a.layout with
  | some l =>
    obtain ⟨h', bs', hok, hrel⟩ := exists_giveBack ht hb ha hl
    exact ⟨h', bs', by simp only [takeBack, hl, hok, Stop.ofHalt_ok], hrel⟩
  | none =>
    obtain ⟨h', bs', hok, hrel⟩ := exists_free_payload ht hb ha.used
    rw [← ha.handle_eq, hplain hl] at hok
    exact ⟨h', bs', by simp only [takeBack, hl, hok], hrel⟩

end Heap

/-! ## 3. Runs of releases, and runs of requests -/

namespace Tenancy

variable {t t' : Tenancy} {bs : List Block} {h' : Heap} {a : Allocation} {call : HeapCall}
  {as got : List Allocation}

theorem Plain.of_subset (hp : t.Plain) (hsub : t'.live ⊆ t.live) : t'.Plain :=
  fun a ha => hp a (hsub ha)

theorem Plain.cons (hp : t.Plain) (ha : a.layout = none → a.handle = a.address) :
    Plain ⟨h', a :: t.live⟩ := by
  intro d hd
  rcases List.mem_cons.mp hd with rfl | hd
  · exact ha
  · exact hp d hd

theorem Plain.vacate (hp : t.Plain) (h' : Heap) (handle : Nat) : (t.vacate h' handle).Plain :=
  hp.of_subset fun _ hd => List.mem_of_mem_filter hd

theorem Plain.house (hp : t.Plain) (l : Layout) (r : Option Nat × Heap) : (t.house l r).Plain := by
  obtain ⟨_ | address, h'⟩ := r
  · exact hp
  · exact hp.cons nofun

theorem Plain.answer {α : Type} {f : α → Tenancy} {r : Except (Stop HeapError) α} (hp : t.Plain)
    (hf : ∀ x, (f x).Plain) (hok : t.answer f r = .ok t') : t'.Plain := by
  rcases r with ⟨e | halt⟩ | x
  · cases hok
    exact hp
  · cases hok
  · cases hok
    exact hf x

/-- A call leaves the owners the addresses that they can release. -/
theorem Plain.of_step (hp : t.Plain) (hstep : t.step call = .ok t') : t'.Plain := by
  cases call with
  | alloc n => exact hp.answer (fun r => hp.cons fun _ => rfl) hstep
  | calloc count size => exact hp.answer (fun r => hp.cons fun _ => rfl) hstep
  | free address => exact hp.answer (fun h' => hp.vacate h' address) hstep
  | obtain l =>
    rw [step] at hstep
    rcases hr : t.heap.obtain? l with halt | r <;> rw [hr] at hstep <;> cases hstep
    exact hp.house l r
  | obtainZeroed l =>
    rw [step] at hstep
    rcases hr : t.heap.obtainZeroed? l with halt | r <;> rw [hr] at hstep <;> cases hstep
    exact hp.house l r
  | giveBack a =>
    rw [step] at hstep
    cases hl : a.layout with
    | none =>
      rw [hl] at hstep
      cases hstep
      exact hp
    | some l =>
      simp only [hl] at hstep
      rcases hr : t.heap.giveBack a.address l with halt | h' <;> rw [hr] at hstep <;> cases hstep
      exact hp.vacate h' a.handle
  | resize a size =>
    rw [step] at hstep
    cases hl : a.layout with
    | none =>
      rw [hl] at hstep
      cases hstep
      exact hp
    | some l =>
      simp only [hl] at hstep
      rcases hr : t.heap.resize? a.address l size with halt | ⟨_ | address, h'⟩ <;>
        rw [hr] at hstep <;> cases hstep
      · exact hp
      · exact (hp.vacate h' a.handle).house { l with size } (some address, h')
  | store a offset bytes =>
    cases hstep
    exact hp

theorem Plain.of_reaches (hp : t.Plain) (hr : t.Reaches t') : t'.Plain := by
  induction hr with
  | refl => exact hp
  | call _ _ hstep ih => exact ih.of_step hstep

/-- **Live allocations can be released one after the other**, and what is missing then are their
blocks. -/
theorem Sound.exists_takeBackAll (hs : t.Sound bs) (hp : t.Plain) (hnodup : as.Nodup)
    (hsub : as ⊆ t.live) : ∃ h' bs', t.heap.takeBackAll as = .ok h' ∧ h'.Tiled bs' ∧
      t.heap.Without h' (as.map Allocation.handle) := by
  induction as generalizing t bs with
  | nil => exact ⟨t.heap, bs, rfl, hs.tiled, .refl t.heap⟩
  | cons a as ih =>
    obtain ⟨hnew, hnodup⟩ := List.nodup_cons.mp hnodup
    obtain ⟨ha, hsub⟩ := List.cons_subset.mp hsub
    obtain ⟨b, hb, hab⟩ := hs.housed a ha
    obtain ⟨h₁, bs₁, hok₁, hrel⟩ := Heap.exists_takeBack hs.tiled hb hab (hp a ha)
    -- the others are live still, as no two have one handle
    have hsub₁ : as ⊆ (t.vacate h₁ b.payload).live := by
      intro d hd
      refine List.mem_filter.mpr ⟨hsub hd, decide_eq_true fun he => hnew ?_⟩
      rw [← hab.handle_eq] at he
      rwa [← List.inj_on_of_nodup_map hs.nodup_handle (hsub hd) ha he]
    obtain ⟨h', bs', hok, ht', hw⟩ := ih (hs.vacate hrel).1 (hp.vacate h₁ b.payload) hnodup hsub₁
    refine ⟨h', bs', ?_, ht', ?_⟩
    · rw [Heap.takeBackAll, List.foldlM_cons, hok₁]
      exact hok
    · rw [List.map_cons, hab.handle_eq]
      exact (hrel.without hs.tiled).trans hw

/-- **A request** is refused and nothing has happened, or what it obtained lies in a new block. -/
theorem Sound.request_cases (hs : t.Sound bs) (hr : call.Requests) (hc : call.Allowed t) :
    t.step call = .ok t ∨
      ∃ h' a, t.step call = .ok ⟨h', a :: t.live⟩ ∧ t.heap.Houses h' bs a := by
  cases call with
  | alloc n =>
    rcases Heap.alloc_cases hs.tiled n with ⟨e, he⟩ | ⟨address, h', hok, hh⟩
    · exact .inl (by rw [step, he]; rfl)
    · exact .inr ⟨h', _, by rw [step, hok]; rfl, hh⟩
  | calloc count size =>
    rcases Heap.calloc_cases hs.tiled count size with ⟨e, he⟩ | ⟨address, h', hok, hh⟩
    · exact .inl (by rw [step, he]; rfl)
    · exact .inr ⟨h', _, by rw [step, hok]; rfl, hh⟩
  | obtain l =>
    rcases Heap.obtain?_cases hs.tiled hc with hno | ⟨address, h', hok, hh⟩
    · exact .inl (by rw [step, hno]; rfl)
    · exact .inr ⟨h', _, by rw [step, hok]; rfl, hh⟩
  | obtainZeroed l =>
    rcases Heap.obtainZeroed?_cases hs.tiled hc with hno | ⟨address, h', hok, hh⟩
    · exact .inl (by rw [step, hno]; rfl)
    · exact .inr ⟨h', _, by rw [step, hok]; rfl, hh⟩
  | free _ | giveBack _ | resize _ _ | store _ _ _ => exact hr.elim

theorem Sound.houses_of_requests (hs : t.Sound bs) (hr : call.Requests) (hc : call.Allowed t)
    (hstep : t.step call = .ok ⟨h', a :: t.live⟩) : t.heap.Houses h' bs a := by
  rcases hs.request_cases hr hc with hrefused | ⟨h₁, a₁, hserved, hh⟩
  · have hlive := congrArg Tenancy.live (Except.ok.inj (hrefused.symm.trans hstep))
    simp at hlive
  · cases hserved.symm.trans hstep
    exact hh

/-- **A run of requests, backwards**: the heap that it began with is the one that it led to, without
the blocks that were obtained. -/
theorem Sound.of_obtains (hs : t.Sound bs) (hp : t.Plain) (ho : t.Obtains got t') :
    (∃ bs', t'.Sound bs') ∧ t'.Plain ∧ t'.live = got ++ t.live ∧
      t'.heap.Without t.heap (got.map Allocation.handle) := by
  induction ho with
  | nil => exact ⟨⟨bs, hs⟩, hp, rfl, .refl t.heap⟩
  | cons _ hr hc hstep ih =>
    obtain ⟨⟨bs₁, hs₁⟩, hp₁, hlive, hw⟩ := ih
    have hh := hs₁.houses_of_requests hr hc hstep
    obtain ⟨bs', hs', -⟩ := hs₁.house hh
    refine ⟨⟨bs', hs'⟩, hp₁.of_step hstep, ?_, ?_⟩
    · rw [hlive, List.cons_append]
    · exact (hh.without hs₁.tiled).trans hw

end Tenancy

/-! ## 4. Every reachable state -/

/-- **Releasing undoes allocating**, from a state on.  What requests obtained can be released in any
order, and then the list of blocks is the one in front of the requests; what is released decides the
list of blocks, and not the order; and once everything is released there is one free block, if there is
room for one. -/
structure Tenancy.Undoes (t : Tenancy) : Prop where
  restores : ∃ bs, t.heap.blocks = .ok bs ∧ ∀ got t', t.Obtains got t' →
    ∀ order, order.Perm got → ∃ h', t'.heap.takeBackAll order = .ok h' ∧ h'.blocks = .ok bs
  commutes : ∀ as, as.Nodup → as ⊆ t.live → ∃ bs, ∀ order, order.Perm as →
    ∃ h', t.heap.takeBackAll order = .ok h' ∧ h'.blocks = .ok bs
  empties : 0 < t.heap.size → ∀ order, order.Perm t.live →
    ∃ h', t.heap.takeBackAll order = .ok h' ∧ h'.start = t.heap.start ∧ h'.size = t.heap.size ∧
      h'.blocks = .ok [⟨t.heap.start, t.heap.size, false⟩]

namespace Tenancy

variable {t : Tenancy} {bs : List Block}

theorem Sound.nodup_live (hs : t.Sound bs) : t.live.Nodup := hs.nodup_handle.of_map

/-- Without the blocks of all live allocations no block is in use. -/
theorem Sound.free_of_without {h' : Heap} {bs' : List Block} {order : List Allocation}
    (hs : t.Sound bs) (hperm : order.Perm t.live) (ht' : h'.Tiled bs')
    (hw : t.heap.Without h' (order.map Allocation.handle)) : ∀ b ∈ bs', b.used = false := by
  intro b hb
  by_contra hu
  have hin : h'.InUse b := ht'.inUse_iff.mpr (List.mem_filter.mpr ⟨hb, by simpa using hu⟩)
  obtain ⟨hold, hno⟩ := (hw.inUse_iff b).mp hin
  refine hno ((hperm.map Allocation.handle).mem_iff.mpr (hs.handles.mem_iff.mpr ?_))
  exact List.mem_map_of_mem (hs.tiled.inUse_iff.mp hold)

/-- What a state has to be like for releases to undo requests: a right account. -/
theorem Sound.undoes (hs : t.Sound bs) (hp : t.Plain) : t.Undoes := by
  refine ⟨⟨bs, hs.tiled.blocks_eq, ?_⟩, ?_, ?_⟩
  · intro got t' ho order hperm
    obtain ⟨⟨bs', hs'⟩, hp', hlive, hw⟩ := hs.of_obtains hp ho
    have hgot : got.Nodup := (List.nodup_append.mp (hlive ▸ hs'.nodup_live)).1
    have hsub : order ⊆ t'.live := fun a ha => by
      rw [hlive]
      exact List.mem_append_left _ (hperm.mem_iff.mp ha)
    obtain ⟨h', bs₁, hok, ht₁, hw₁⟩ := hs'.exists_takeBackAll hp' (hperm.nodup_iff.mpr hgot) hsub
    have heq := hw₁.blocks_eq hw (fun p => (hperm.map _).mem_iff) ht₁ hs.tiled
    exact ⟨h', hok, heq ▸ ht₁.blocks_eq⟩
  · intro as hnodup hsub
    obtain ⟨h₀, bs₀, -, ht₀, hw₀⟩ := hs.exists_takeBackAll hp hnodup hsub
    refine ⟨bs₀, fun order hperm => ?_⟩
    obtain ⟨h', bs₁, hok, ht₁, hw₁⟩ := hs.exists_takeBackAll hp (hperm.nodup_iff.mpr hnodup)
      fun a ha => hsub (hperm.mem_iff.mp ha)
    have heq := hw₁.blocks_eq hw₀ (fun p => (hperm.map _).mem_iff) ht₁ ht₀
    exact ⟨h', hok, heq ▸ ht₁.blocks_eq⟩
  · intro hsize order hperm
    obtain ⟨h', bs₁, hok, ht₁, hw⟩ := hs.exists_takeBackAll hp (hperm.nodup_iff.mpr hs.nodup_live)
      hperm.subset
    have hlt : h'.start < h'.limit := by
      rw [Heap.limit, hw.size_eq]
      omega
    have heq := ht₁.eq_singleton (hs.free_of_without hperm ht₁ hw) hlt
    rw [hw.start_eq, hw.size_eq] at heq
    exact ⟨h', hok, hw.start_eq, hw.size_eq, heq ▸ ht₁.blocks_eq⟩

/-- **Any order.**  From the first state of a heap that ends inside the 64-bit range on, whatever
calls its owners make: releasing undoes allocating. -/
theorem undoes_of_reaches {memory : Memory} {start size : Nat} {heap : Heap}
    (hok : Heap.ofRange memory start size = .ok heap) (hlimit : heap.limit < 2 ^ 64)
    (hr : Reaches ⟨heap, []⟩ t) : t.Undoes := by
  obtain ⟨bs, ht, hfree, -⟩ := Heap.tiled_of_ofRange hok hlimit
  obtain ⟨⟨bs', hs⟩, -⟩ := (Sound.of_free ht hfree).of_reaches hr
  have hnone : Plain ⟨heap, []⟩ := fun a ha => absurd ha List.not_mem_nil
  exact hs.undoes (hnone.of_reaches hr)

/-- On a heap over 64 KiB, 100 bytes are live.  Releasing them leaves one block, and what is allocated
besides them can be released before. -/
theorem undoes_oneAllocation : ∃ heap t, Heap.ofRange .zero 4097 65536 = .ok heap ∧
    heap.limit < 2 ^ 64 ∧ Reaches ⟨heap, []⟩ t ∧ t.live = [⟨4128, 100, none, 4128⟩] ∧
    0 < t.heap.size ∧ t.Undoes := by
  obtain ⟨heap, hok, hlimit, -, halloc⟩ := Heap.exists_fresh
  have hr : Reaches ⟨heap, []⟩ ⟨heap.carve ⟨4112, 65520, false⟩ 128, [⟨4128, 100, none, 4128⟩]⟩ :=
    Reaches.refl.call (show HeapCall.Allowed _ (.alloc 100) from trivial) (by rw [step, halloc]; rfl)
  have hsize : heap.size = 65520 := by cases hok; rfl
  refine ⟨heap, _, hok, hlimit, hr, rfl, ?_, undoes_of_reaches hok hlimit hr⟩
  rw [Heap.size_carve, hsize]
  decide

end Tenancy

end KernelCore
