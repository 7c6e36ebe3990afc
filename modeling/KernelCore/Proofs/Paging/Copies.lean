/-
# Copies are exact to the byte

A copy goes page by page, in pieces of different lengths, through frames that need not lie one behind the
other.  What it does to bytes can be said without pieces.  The addresses of the range lead to physical
addresses, its images, up to the end of the range or up to the first address that leads nowhere
(`Memory.Extent`); reading reads these, one after the other, and writing stores there
(`readBytesFrom_eq`, `writeBytesFrom_eq`).  For writing this takes two things that hold of the tables of
spaces: what is stored is in none of the tables that are being followed, and no two addresses of a space
lead to one byte.

* `Memory.exists_extent`: a range that no walk halts in has an extent;
* `World.Sound.eq_of_address_eq`: two addresses of a space lead to different bytes;
* `World.Sound.reads`, `World.Sound.writes`: what a copy does in a world that is sound and linked;
* `World.copies_of_arises`: so in every run of honest callers.
-/
import KernelCore.Proofs.Paging.Addresses
import KernelCore.Proofs.Paging.Isolation
import KernelCore.Proofs.Paging.Sharing

namespace KernelCore

/-! ## 1. How far a range is mapped -/

namespace Memory

/-- Bytes stored each at its own address, one after the other. -/
def store (m : Memory) : List Nat → List UInt8 → Memory
  | p :: ps, v :: vs => (m.setByte p v).store ps vs
  | _, _ => m

/-- **How far a range is mapped.**  The addresses from the number `first` on lead to `images`, one after the
other.  There are as many of them as the range is long, and a copy of it is complete; or there are fewer,
the next address leads nowhere, and a copy stops there, because its page is not mapped. -/
structure Extent (m : Memory) (root first length : Nat) (images : List Nat) (ending : CopyResult) :
    Prop where
  leads : ∀ i p, images[i]? = some p → ∃ (a : VirtAddr) (t : Target),
    a.val = first + i ∧ m.translate root a = .ok (some t) ∧ t.address = p
  ends : (images.length = length ∧ ending = .ok ()) ∨
    (images.length < length ∧ ∃ a : VirtAddr, a.val = first + images.length ∧
      m.translate root a = .ok none ∧ ending = .error (.refused (.notMapped (.containing a))))

namespace Extent

variable {m m' : Memory} {root first length n : Nat} {images : List Nat} {ending : CopyResult}
  {a : VirtAddr} {t : Target}

theorem nil : m.Extent root first 0 [] (.ok ()) :=
  ⟨fun _ _ h => absurd h nofun, Or.inl ⟨rfl, rfl⟩⟩

/-- A range whose first address leads nowhere. -/
theorem stop (ha : a.val = first) (hnone : m.translate root a = .ok none) :
    m.Extent root first (n + 1) [] (.error (.refused (.notMapped (.containing a)))) :=
  ⟨fun _ _ h => absurd h nofun, Or.inr ⟨Nat.succ_pos n, a, ha, hnone, rfl⟩⟩

/-- A range whose first address leads somewhere. -/
theorem cons (ha : a.val = first) (hsome : m.translate root a = .ok (some t))
    (h : m.Extent root (first + 1) n images ending) :
    m.Extent root first (n + 1) (t.address :: images) ending := by
  refine ⟨fun i p hi => ?_, ?_⟩
  · cases i with
    | zero =>
      cases hi
      exact ⟨a, t, ha, hsome, rfl⟩
    | succ i =>
      obtain ⟨b, t', hb, htarget, hp⟩ := h.leads i p hi
      exact ⟨b, t', by omega, htarget, hp⟩
  · rcases h.ends with ⟨hlength, hend⟩ | ⟨hlt, b, hb, hnone, hend⟩
    · exact Or.inl ⟨by rw [List.length_cons, hlength], hend⟩
    · refine Or.inr ⟨by rw [List.length_cons]; omega, b, ?_, hnone, hend⟩
      rw [List.length_cons]
      omega

theorem of_zero (h : m.Extent root first 0 images ending) : images = [] ∧ ending = .ok () := by
  rcases h.ends with ⟨hlength, hend⟩ | ⟨hlt, -⟩
  · exact ⟨List.eq_nil_of_length_eq_zero hlength, hend⟩
  · exact absurd hlt (Nat.not_lt_zero _)

/-- **A range that is not empty** begins with an address that leads nowhere, or somewhere. -/
theorem cases_succ (h : m.Extent root first (n + 1) images ending) :
    (∃ a : VirtAddr, a.val = first ∧ m.translate root a = .ok none ∧ images = [] ∧
      ending = .error (.refused (.notMapped (.containing a)))) ∨
    ∃ (a : VirtAddr) (t : Target) (rest : List Nat), a.val = first ∧
      m.translate root a = .ok (some t) ∧ images = t.address :: rest ∧
      m.Extent root (first + 1) n rest ending := by
  cases images with
  | nil =>
    rcases h.ends with ⟨hlength, -⟩ | ⟨-, a, ha, hnone, hend⟩
    · cases hlength
    · exact Or.inl ⟨a, ha, hnone, rfl, hend⟩
  | cons p rest =>
    obtain ⟨a, t, ha, hsome, rfl⟩ := h.leads 0 p rfl
    refine Or.inr ⟨a, t, rest, ha, hsome, rfl, fun i q hi => ?_, ?_⟩
    · obtain ⟨b, t', hb, htarget, hq⟩ := h.leads (i + 1) q hi
      exact ⟨b, t', by omega, htarget, hq⟩
    · have hends := h.ends
      simp only [List.length_cons] at hends
      rcases hends with ⟨hlength, hend⟩ | ⟨hlt, b, hb, hnone, hend⟩
      · exact Or.inl ⟨by omega, hend⟩
      · exact Or.inr ⟨by omega, b, by omega, hnone, hend⟩

/-- It depends on where addresses lead, and on nothing else in memory. -/
theorem congr (h : m.Extent root first length images ending)
    (hm : ∀ a, m'.translate root a = m.translate root a) : m'.Extent root first length images ending := by
  refine ⟨fun i p hi => ?_, h.ends.imp_right fun ⟨hlt, a, ha, hnone, hend⟩ => ?_⟩
  · obtain ⟨a, t, ha, hsome, hp⟩ := h.leads i p hi
    exact ⟨a, t, ha, (hm a).trans hsome, hp⟩
  · exact ⟨hlt, a, ha, (hm a).trans hnone, hend⟩

/-- **A piece** that does not leave its page leads to bytes that lie one behind the other. -/
theorem piece (h : m.Extent root a.val length images ending) (hsome : m.translate root a = .ok (some t)) :
    ∀ {n : Nat}, n ≤ pieceLength a length → ∃ rest, images = List.range' t.address n ++ rest ∧
      m.Extent root (a.val + n) (length - n) rest ending
  | 0, _ => ⟨images, rfl, h⟩
  | n + 1, hn => by
    obtain ⟨hinside, hleft⟩ := Nat.le_min.mp hn
    obtain ⟨rest, himages, hrest⟩ := h.piece hsome (Nat.le_of_succ_le hn)
    obtain ⟨b, t', hb, hsome', haddress⟩ := exists_translate_add hsome (Nat.lt_of_succ_le hinside)
    rw [show length - n = length - (n + 1) + 1 by omega] at hrest
    rcases hrest.cases_succ with ⟨c, hc, hnone, -⟩ | ⟨c, t'', rest', hc, hsome'', rfl, hrest'⟩
    · cases VirtAddr.eq_of_val (hc.trans hb.symm)
      rw [hsome'] at hnone
      cases hnone
    · cases VirtAddr.eq_of_val (hc.trans hb.symm)
      cases hsome'.symm.trans hsome''
      refine ⟨rest', ?_, hrest'⟩
      rw [himages, haddress, List.range'_concat, Nat.one_mul, List.append_assoc, List.singleton_append]

end Extent

variable {m m' : Memory} {root first length n p : Nat} {images ps : List Nat} {vs : List UInt8}
  {ending : CopyResult}

/-- **A range has an extent** if no walk from one of its addresses halts. -/
theorem exists_extent (m : Memory) (root : Nat) : ∀ (length first : Nat), (∀ i < length, ∃ a : VirtAddr,
    a.val = first + i ∧ ∃ t?, m.translate root a = .ok t?) →
      ∃ images ending, m.Extent root first length images ending
  | 0, _, _ => ⟨[], .ok (), .nil⟩
  | length + 1, first, h => by
    obtain ⟨a, ha, t?, htranslate⟩ := h 0 (Nat.succ_pos length)
    cases t? with
    | none => exact ⟨[], _, .stop ha htranslate⟩
    | some t =>
      obtain ⟨images, ending, hrest⟩ := exists_extent m root length (first + 1) fun i hi => by
        obtain ⟨b, hb, hb'⟩ := h (i + 1) (Nat.succ_lt_succ hi)
        exact ⟨b, by omega, hb'⟩
      exact ⟨_, ending, .cons ha htranslate hrest⟩

/-! ## 2. Bytes at their own addresses -/

theorem byte_store_of_not_mem : ∀ {ps : List Nat} {vs : List UInt8} {m : Memory}, p ∉ ps →
    (m.store ps vs).byte p = m.byte p
  | [], _, _, _ => rfl
  | _ :: _, [], _, _ => rfl
  | q :: ps, v :: vs, m, hp => by
    rw [List.mem_cons, not_or] at hp
    obtain ⟨hne, hp⟩ := hp
    rw [store, byte_store_of_not_mem hp, byte_setByte, if_neg (Ne.symm hne)]

/-- At different addresses each byte is there. -/
theorem byte_store_of_nodup {v : UInt8} : ∀ {i : Nat} {ps : List Nat} {vs : List UInt8}
    {m : Memory}, ps.Nodup → ps[i]? = some p → vs[i]? = some v → (m.store ps vs).byte p = v
  | _, [], _, _, _, hp, _ => absurd hp nofun
  | _, _ :: _, [], _, _, _, hv => absurd hv nofun
  | 0, q :: ps, u :: vs, m, hd, hp, hv => by
    cases hp
    cases hv
    rw [store, byte_store_of_not_mem (List.nodup_cons.mp hd).1, byte_setByte, if_pos rfl]
  | i + 1, q :: ps, u :: vs, m, hd, hp, hv => by
    rw [List.getElem?_cons_succ] at hp hv
    exact byte_store_of_nodup (m := m.setByte q u) (List.nodup_cons.mp hd).2 hp hv

/-- A run of bytes is stored at addresses one behind the other. -/
theorem write_eq_store (vs : List UInt8) : ∀ (m : Memory) (p : Nat),
    m.write p vs = m.store (List.range' p vs.length) vs := by
  induction vs with
  | nil => exact fun _ _ => rfl
  | cons v vs ih => exact fun m p => ih (m.setByte p v) (p + 1)

theorem store_append {ps' : List Nat} {vs' : List UInt8} : ∀ {ps : List Nat} {vs : List UInt8}
    {m : Memory}, ps.length = vs.length → (m.store ps vs).store ps' vs' = m.store (ps ++ ps') (vs ++ vs')
  | [], [], _, _ => rfl
  | p :: _, v :: _, m, h => store_append (m := m.setByte p v) (Nat.succ.inj h)

theorem read_eq_map_range' (m : Memory) (p n : Nat) : m.read p n = (List.range' p n).map m.byte := by
  rw [List.range'_eq_map_range, List.map_map]
  rfl

/-! ## 3. What a copy does -/

/-- Where a copy that is not at its end goes on, or stops. -/
theorem Extent.locateAt {start : VirtAddr} {copied left : Nat} (hne : left ≠ 0)
    (h : m.Extent root (start.val + copied) left images ending) :
    (∃ stop, m.locateAt root start copied = .error stop ∧ images = [] ∧ ending = .error stop) ∨
      ∃ a t, m.locateAt root start copied = .ok (a, t.address) ∧ a.val = start.val + copied ∧
        m.translate root a = .ok (some t) := by
  obtain ⟨n, rfl⟩ := Nat.exists_eq_succ_of_ne_zero hne
  rcases h.cases_succ with ⟨a, ha, hnone, himages, hend⟩ | ⟨a, t, rest, ha, hsome, -⟩
  · refine Or.inl ⟨_, ?_, himages, hend⟩
    rw [locateAt_of_ok root (VirtAddr.advance_eq ha.symm), locate, hnone]
    rfl
  · refine Or.inr ⟨a, t, ?_, ha, hsome⟩
    rw [locateAt_of_ok root (VirtAddr.advance_eq ha.symm), locate, hsome]
    rfl

/-- **Reading a range** reads the bytes at its images, and ends as its extent does. -/
theorem readBytesFrom_eq (start : VirtAddr) (copied left : Nat) : ∀ {images : List Nat},
    m.Extent root (start.val + copied) left images ending →
      m.readBytesFrom root start copied left = (images.map m.byte, ending) := by
  fun_induction readBytesFrom m root start copied left with
  | case1 =>
    intro images h
    obtain ⟨rfl, rfl⟩ := h.of_zero
    rfl
  | case2 copied left hne stop hstop =>
    intro images h
    rcases h.locateAt hne with ⟨stop', hlocate, rfl, rfl⟩ | ⟨a, t, hlocate, -⟩
    · cases hstop.symm.trans hlocate
      rfl
    · cases hstop.symm.trans hlocate
  | case3 copied left hne a physical hlocate n bytes rest hrest =>
    rename_i ih
    intro images h
    rcases h.locateAt hne with ⟨stop, hstop, -⟩ | ⟨a', t, hok, ha, hsome⟩
    · cases hlocate.symm.trans hstop
    · cases hlocate.symm.trans hok
      rw [← ha] at h
      obtain ⟨images', rfl, hextent⟩ := h.piece hsome (Nat.le_refl _)
      rw [ha, Nat.add_assoc] at hextent
      cases hrest.symm.trans (ih hextent)
      rw [List.map_append, read_eq_map_range']

/-- **Writing a range** stores the bytes at its images, and ends as its extent does, if what is stored there
does not matter to where addresses lead. -/
theorem writeBytesFrom_eq (start : VirtAddr) (copied : Nat) (bytes : List UInt8) (written : List Nat)
    (hstable : ∀ m' : Memory, (∀ x ∉ written, m'.byte x = m.byte x) →
      ∀ a, m'.translate root a = m.translate root a) : ∀ {images : List Nat}, images ⊆ written →
    m.Extent root (start.val + copied) bytes.length images ending →
      m.writeBytesFrom root start copied bytes = (m.store images bytes, ending) := by
  fun_induction writeBytesFrom m root start copied bytes with
  | case1 m copied bytes hzero =>
    intro images hsub h
    rw [hzero] at h
    obtain ⟨rfl, rfl⟩ := h.of_zero
    rfl
  | case2 m copied bytes hne stop hstop =>
    intro images hsub h
    rcases h.locateAt hne with ⟨stop', hlocate, rfl, rfl⟩ | ⟨a, t, hlocate, -⟩
    · cases hstop.symm.trans hlocate
      rfl
    · cases hstop.symm.trans hlocate
  | case3 m copied bytes hne a physical hlocate n ih =>
    intro images hsub h
    rcases h.locateAt hne with ⟨stop, hstop, -⟩ | ⟨a', t, hok, ha, hsome⟩
    · cases hlocate.symm.trans hstop
    · cases hlocate.symm.trans hok
      rw [← ha] at h
      obtain ⟨images', rfl, hextent⟩ := h.piece hsome (Nat.le_refl _)
      rw [ha, Nat.add_assoc, ← List.length_drop] at hextent
      have hlength : (bytes.take n).length = n := List.length_take_of_le (Nat.min_le_right _ _)
      have hpiece : m.write t.address (bytes.take n) =
          m.store (List.range' t.address n) (bytes.take n) := by
        rw [write_eq_store, hlength]
      -- the piece is stored where nothing is told about where addresses lead
      have hsame : ∀ x ∉ written, (m.write t.address (bytes.take n)).byte x = m.byte x := fun x hx => by
        rw [hpiece]
        exact byte_store_of_not_mem fun hin => hx (hsub (List.mem_append_left _ hin))
      have htranslate := hstable _ hsame
      have hrest := ih (fun m' hm' a => (hstable m' (fun x hx => (hm' x hx).trans (hsame x hx)) a).trans
        (htranslate a).symm) (fun _ hx => hsub (List.mem_append_right _ hx)) (hextent.congr htranslate)
      rw [hrest, hpiece, store_append (by rw [List.length_range', hlength]), List.take_append_drop]

end Memory

/-! ## 4. Where the addresses of a space lead -/

/-- No frame is mapped for two pages, if the frames of the space are all different. -/
theorem AddressSpace.eq_of_frameAt?_eq {s : AddressSpace} {g h : Page} {f : Nat}
    (hd : s.ownedFrames.Nodup) (hg : s.frameAt? g = some f) (hh : s.frameAt? h = some f) : g = h := by
  have hmem : ∀ {p : Page}, s.frameAt? p = some f → (p, f) ∈ s.pages := fun hp => by
    obtain ⟨l₁, l₂, heq, -⟩ := List.lookup_eq_some_iff.mp hp
    rw [heq]
    exact List.mem_append_right _ List.mem_cons_self
  have hdata : (s.pages.map Prod.snd).Nodup :=
    (List.nodup_append.mp (show (s.tableFrames ++ s.pages.map Prod.snd).Nodup from hd)).2.1
  exact congrArg Prod.fst (List.inj_on_of_nodup_map hdata (hmem hg) (hmem hh) rfl)

/-- An address that leads somewhere is in a page that is mapped, and leads into its frame. -/
theorem Tree.exists_frame {m : Memory} {s : AddressSpace} {asked : Page → Flags} {τ : Tables}
    (ht : Tree m s asked τ) {a : VirtAddr} {t : Memory.Target}
    (ha : s.accepts (.containing a) = true) (hsome : m.translate s.root a = .ok (some t)) :
    ∃ f, s.frameAt? (.containing a) = some f ∧ t.address = f * pageSize + a.offset := by
  rw [ht.translate_eq ha] at hsome
  cases hf : s.frameAt? (.containing a) with
  | none =>
    rw [hf] at hsome
    cases hsome
  | some f =>
    rw [hf] at hsome
    cases hsome
    exact ⟨f, rfl, rfl⟩

/-- What is taken over leads nowhere, or where it leads there. -/
theorem Memory.Borrows.translate_cases {m : Memory} {root source : Nat} {a : VirtAddr}
    (h : m.Borrows root source (.containing a)) :
    m.translate root a = .ok none ∨ m.translate root a = m.translate source a := by
  rcases h with hunused | ⟨t, hlead, hsource⟩
  · exact Or.inl (translate_of_unused hunused)
  · exact Or.inr ((translate_of_leadsTo hlead).trans (translate_of_leadsTo hsource).symm)

namespace World

variable {map : MemoryMap} {base i : Nat} {w : World} {g : Guest} {m : Memory} {s s' : AddressSpace}
  {i? : Option Nat} {a b start : VirtAddr} {t t' : Memory.Target} {images : List Nat}
  {bytes : List UInt8} {ending : Memory.CopyResult} {length : Nat}

/-- **Following an address** of a space does not halt. -/
theorem Sound.exists_translate (h : w.Sound base) (hl : w.Linked) (hspace : space? i? w = some s)
    (a : VirtAddr) : ∃ t?, w.vm.ram.memory.translate s.root a = .ok t? := by
  have hkernel : ∃ t?, w.vm.ram.memory.translate w.vm.kernel.root a = .ok t? := by
    obtain ⟨hkind, τ, ht⟩ := h.kernel
    cases hin : w.vm.kernel.accepts (.containing a) with
    | true => exact ⟨_, ht.translate_eq hin⟩
    | false => exact ⟨_, ht.translate_eq_none hkind hin⟩
  cases i? with
  | none =>
    cases hspace
    exact hkernel
  | some i =>
    obtain ⟨g, hi, rfl⟩ := Option.map_eq_some_iff.mp hspace
    have hg := List.mem_of_getElem? hi
    rcases Nat.lt_or_ge a.val (2 ^ 47) with ha | ha
    · obtain ⟨hkind, τ, ht⟩ := h.guests g hg
      have hin : g.space.accepts (.containing a) = true :=
        (accepts_user hkind).trans (congrArg (!·) (Memory.isUpper_containing ha))
      exact ⟨_, ht.translate_eq hin⟩
    · rcases (hl g hg _ (Page.isUpper_containing ha)).translate_cases with hnone | heq
      · exact ⟨none, hnone⟩
      · rw [heq]
        exact hkernel

/-- **Which space maps an address** that leads somewhere: in the lower half the space itself, which is a
user space then, and in the upper half the kernel's. -/
theorem Sound.exists_frame (h : w.Sound base) (hl : w.Linked) (hspace : space? i? w = some s)
    (hsome : w.vm.ram.memory.translate s.root a = .ok (some t)) :
    ∃ f, t.address = f * pageSize + a.offset ∧
      ((s.frameAt? (.containing a) = some f ∧ ∃ i g, guest? i w = some g ∧ g.space = s) ∨
        w.vm.kernel.frameAt? (.containing a) = some f) := by
  have hkernel : w.vm.ram.memory.translate w.vm.kernel.root a = .ok (some t) →
      ∃ f, t.address = f * pageSize + a.offset ∧ w.vm.kernel.frameAt? (.containing a) = some f := by
    intro hsome
    obtain ⟨hkind, τ, ht⟩ := h.kernel
    cases hin : w.vm.kernel.accepts (.containing a) with
    | true => exact (ht.exists_frame hin hsome).imp fun f hf => hf.symm
    | false =>
      rw [ht.translate_eq_none hkind hin] at hsome
      cases hsome
  cases i? with
  | none =>
    cases hspace
    exact (hkernel hsome).imp fun f hf => hf.imp_right Or.inr
  | some i =>
    obtain ⟨g, hi, rfl⟩ := Option.map_eq_some_iff.mp hspace
    have hg := List.mem_of_getElem? hi
    rcases Nat.lt_or_ge a.val (2 ^ 47) with ha | ha
    · obtain ⟨hkind, τ, ht⟩ := h.guests g hg
      have hin : g.space.accepts (.containing a) = true :=
        (accepts_user hkind).trans (congrArg (!·) (Memory.isUpper_containing ha))
      obtain ⟨f, hf, haddress⟩ := ht.exists_frame hin hsome
      exact ⟨f, haddress, Or.inl ⟨hf, i, g, hi, rfl⟩⟩
    · rcases (hl g hg _ (Page.isUpper_containing ha)).translate_cases with hnone | heq
      · rw [hnone] at hsome
        cases hsome
      · exact (hkernel (heq.symm.trans hsome)).imp fun f hf => hf.imp_right Or.inr

/-- **Two addresses of a space lead to different bytes.** -/
theorem Sound.eq_of_address_eq (h : w.Sound base) (hl : w.Linked) (hspace : space? i? w = some s)
    (ha : w.vm.ram.memory.translate s.root a = .ok (some t))
    (hb : w.vm.ram.memory.translate s.root b = .ok (some t')) (he : t.address = t'.address) : a = b := by
  obtain ⟨f, haddress, hf⟩ := h.exists_frame hl hspace ha
  obtain ⟨f', haddress', hf'⟩ := h.exists_frame hl hspace hb
  have hoffset : a.offset < pageSize := Nat.mod_lt _ (by decide)
  have hoffset' : b.offset < pageSize := Nat.mod_lt _ (by decide)
  obtain ⟨rfl, hsame⟩ : f = f' ∧ a.offset = b.offset := by
    simp only [pageSize] at haddress haddress' hoffset hoffset'
    omega
  have hkernel : w.vm.kernel.ownedFrames.Nodup := (List.nodup_append.mp h.books.nodup).1
  have hbeside : ∀ {i : Nat} {g : Guest}, guest? i w = some g → ∀ {p q : Page},
      g.space.frameAt? p = some f → w.vm.kernel.frameAt? q ≠ some f := fun hi _ _ hp hq =>
    ne_of_holds (h.books_of hi) (AddressSpace.mem_owned_of_frameAt? hp)
      (List.mem_append_left _ (List.mem_append_left _ (AddressSpace.mem_owned_of_frameAt? hq))) rfl
  have hpage : Page.containing a = Page.containing b := by
    rcases hf with ⟨hf, i, g, hi, rfl⟩ | hf <;> rcases hf' with ⟨hf', j, g', hj, hg'⟩ | hf'
    · exact AddressSpace.eq_of_frameAt?_eq (List.nodup_append.mp (h.books_of hi).nodup).1 hf hf'
    · exact absurd hf' (hbeside hi hf)
    · subst hg'
      exact absurd hf (hbeside hj hf')
    · exact AddressSpace.eq_of_frameAt?_eq hkernel hf hf'
  refine VirtAddr.eq_of_val ?_
  have hnumber : a.val / pageSize = b.val / pageSize := congrArg Page.number hpage
  simp only [VirtAddr.offset, pageSize] at hsame hnumber
  omega

/-! ## 5. Ranges of a space -/

/-- Every number of the range is an address. -/
def CanonicalRange (first length : Nat) : Prop := ∀ i < length, IsCanonical (first + i)

theorem Sound.exists_extent (h : w.Sound base) (hl : w.Linked) (hspace : space? i? w = some s)
    (hrange : CanonicalRange start.val length) :
    ∃ images ending, w.vm.ram.memory.Extent s.root start.val length images ending :=
  Memory.exists_extent _ _ _ _ fun i hi =>
    ⟨⟨start.val + i, hrange i hi⟩, rfl, h.exists_translate hl hspace _⟩

variable {first first' : Nat} {images' : List Nat} {ending' : Memory.CopyResult} {length' : Nat}

/-- Ranges of a space that have no address in common have no image in common. -/
theorem Sound.disjoint_of_extents (h : w.Sound base) (hl : w.Linked) (hspace : space? i? w = some s)
    (hext : w.vm.ram.memory.Extent s.root first length images ending)
    (hext' : w.vm.ram.memory.Extent s.root first' length' images' ending')
    (hdisjoint : ∀ x, first ≤ x → x < first + length → ¬(first' ≤ x ∧ x < first' + length')) :
    ∀ p ∈ images, p ∉ images' := by
  have hlt : ∀ {first length : Nat} {images : List Nat} {ending : Memory.CopyResult} {i p : Nat},
      w.vm.ram.memory.Extent s.root first length images ending → images[i]? = some p → i < length := by
    intro first length images ending i p hext hi
    have hi := (List.getElem?_eq_some_iff.mp hi).1
    rcases hext.ends with ⟨he, -⟩ | ⟨hlt, -⟩ <;> omega
  intro p hp hp'
  obtain ⟨i, hi⟩ := List.mem_iff_getElem?.mp hp
  obtain ⟨j, hj⟩ := List.mem_iff_getElem?.mp hp'
  obtain ⟨a, t, ha, htarget, rfl⟩ := hext.leads i p hi
  obtain ⟨b, t', hb, htarget', he⟩ := hext'.leads j _ hj
  have hab := congrArg VirtAddr.val (h.eq_of_address_eq hl hspace htarget htarget' he.symm)
  have := hlt hext hi
  have := hlt hext' hj
  exact hdisjoint a.val (by omega) (by omega) (by omega)

/-- The images of a range are all different. -/
theorem Sound.nodup_images (h : w.Sound base) (hl : w.Linked) (hspace : space? i? w = some s)
    (hext : w.vm.ram.memory.Extent s.root first length images ending) : images.Nodup := by
  rw [List.nodup_iff_getElem?_ne_getElem?]
  intro i j hij hj he
  obtain ⟨p, hp⟩ : ∃ p, images[j]? = some p := ⟨_, List.getElem?_eq_getElem hj⟩
  obtain ⟨a, t, ha, htarget, hat⟩ := hext.leads i p (he.trans hp)
  obtain ⟨b, t', hb, htarget', hbt⟩ := hext.leads j p hp
  have hab := congrArg VirtAddr.val (h.eq_of_address_eq hl hspace htarget htarget' (hat.trans hbt.symm))
  omega

/-- **Where only images of a range have changed**, no table has, and every address of every space leads
where it led. -/
theorem Sound.sameTables_of_images (h : w.Sound base) (hl : w.Linked) (hspace : space? i? w = some s)
    (hext : w.vm.ram.memory.Extent s.root first length images ending)
    (hm : ∀ x ∉ images, m.byte x = w.vm.ram.memory.byte x) :
    w.SameTables m ∧ ∀ j? s', space? j? w = some s' → ∀ a,
      m.translate s'.root a = w.vm.ram.memory.translate s'.root a := by
  have hsame : w.SameTables m := by
    refine h.sameTables fun f hf x hx => hm x fun hin => hf ?_
    obtain ⟨i, hi⟩ := List.mem_iff_getElem?.mp hin
    obtain ⟨a, t, -, htarget, rfl⟩ := hext.leads i x hi
    obtain ⟨f', hf', haddress⟩ := h.lands hl hspace (.refl w) a t htarget
    have hoffset : a.offset < pageSize := Nat.mod_lt _ (by decide)
    have hframe : f' = f := by
      simp only [pageSize] at haddress hoffset hx
      omega
    rcases List.mem_append.mp hf' with hown | hkernel
    · exact hframe ▸ mem_dataFrames hspace hown
    · exact hframe ▸ List.mem_append_left _ hkernel
  refine ⟨hsame, fun j? s' hspace' a => h.translate_congr hl hspace' hsame.1 ?_ a⟩
  cases j? with
  | none =>
    cases hspace'
    exact hsame.1
  | some j =>
    obtain ⟨g, hj, rfl⟩ := Option.map_eq_some_iff.mp hspace'
    exact hsame.2 g (List.mem_of_getElem? hj)

/-! ## 6. Copies in a world -/

/-- A copy that has ended, and what it leaves. -/
def ended (ending : Memory.CopyResult) (vm : Vm) : EStateM.Result (Stop PagingError) Vm Unit :=
  match ending with
  | .ok () => .ok () vm
  | .error stop => .error stop vm

/-- **What writing to a range leaves.**  Each byte is stored at the image of its address, as far as there
are images, and nothing else has changed; every address of every space leads where it led.  So a complete
write can be read back, and what is read of the space elsewhere is as before. -/
structure Stores (w : World) (s : AddressSpace) (start : VirtAddr) (bytes : List UInt8)
    (images : List Nat) (ending : Memory.CopyResult) (vm : Vm) : Prop where
  memory : vm = { w.vm with ram := { w.vm.ram with memory := vm.ram.memory } }
  stored : ∀ (i p : Nat) (v : UInt8), images[i]? = some p → bytes[i]? = some v → vm.ram.memory.byte p = v
  outside : ∀ x ∉ images, vm.ram.memory.byte x = w.vm.ram.memory.byte x
  translate : ∀ j? s', space? j? w = some s' → ∀ a, vm.translate s' a = w.vm.translate s' a
  back : ending = .ok () → vm.readBytes s start bytes.length = (bytes, .ok ())
  elsewhere : ∀ (start' : VirtAddr) (length' : Nat), CanonicalRange start'.val length' →
    (∀ x, start.val ≤ x → x < start.val + bytes.length →
      ¬(start'.val ≤ x ∧ x < start'.val + length')) →
    vm.readBytes s start' length' = w.vm.readBytes s start' length'

/-- Reading a range reads its images, whichever memory the tables are the same in. -/
theorem readBytes_eq (vm : Vm) {images : List Nat}
    (hext : w.vm.ram.memory.Extent s.root start.val length images ending)
    (hm : ∀ a, vm.ram.memory.translate s.root a = w.vm.ram.memory.translate s.root a) :
    vm.readBytes s start length = (images.map vm.ram.memory.byte, ending) :=
  Memory.readBytesFrom_eq start 0 length (hext.congr hm)

/-- **Writing.** -/
theorem Sound.writes (h : w.Sound base) (hl : w.Linked) (hspace : space? i? w = some s)
    (hext : w.vm.ram.memory.Extent s.root start.val bytes.length images ending) :
    ∃ vm, Vm.writeBytes s start bytes w.vm = ended ending vm ∧
      vm.ram.memory = (w.vm.ram.memory.writeBytes s.root start bytes).1 ∧
      w.Stores s start bytes images ending vm := by
  have hstable := fun m => h.sameTables_of_images (m := m) hl hspace hext
  have hwrite : w.vm.ram.memory.writeBytes s.root start bytes =
      (w.vm.ram.memory.store images bytes, ending) :=
    Memory.writeBytesFrom_eq start 0 bytes images (fun m hm => (hstable m hm).2 i? s hspace)
      (fun _ hp => hp) hext
  have hnodup := h.nodup_images hl hspace hext
  have houtside : ∀ x ∉ images, (w.vm.ram.memory.store images bytes).byte x =
      w.vm.ram.memory.byte x := fun x hx => Memory.byte_store_of_not_mem hx
  have htranslate := (hstable _ houtside).2
  let vm : Vm := { w.vm with ram := { w.vm.ram with memory := w.vm.ram.memory.store images bytes } }
  refine ⟨vm, ?_, by rw [hwrite], rfl, fun i p v hp hv => Memory.byte_store_of_nodup hnodup hp hv,
    houtside, htranslate, fun hend => ?_, fun start' length' hrange hdisjoint => ?_⟩
  · exact congrArg (fun r : Memory × Memory.CopyResult =>
      ended r.2 { w.vm with ram := { w.vm.ram with memory := r.1 } }) hwrite
  · subst hend
    rw [readBytes_eq vm hext (htranslate i? s hspace)]
    have hlength : images.length = bytes.length := by
      rcases hext.ends with ⟨hlength, -⟩ | ⟨_, _, _, _, hend⟩
      · exact hlength
      · cases hend
    refine congrArg (·, _) (List.ext_getElem (by rw [List.length_map, hlength]) fun i hi hi' => ?_)
    rw [List.getElem_map]
    exact Memory.byte_store_of_nodup hnodup (List.getElem?_eq_getElem _) (List.getElem?_eq_getElem hi')
  · obtain ⟨images', ending', hext'⟩ := h.exists_extent hl hspace hrange
    have hapart := h.disjoint_of_extents hl hspace hext hext' hdisjoint
    rw [readBytes_eq vm hext' (htranslate i? s hspace), readBytes_eq w.vm hext' fun _ => rfl]
    refine congrArg (·, _) (List.map_congr_left fun p hp => houtside p fun hin => hapart p hin hp)

/-- What is written to the lower half of a user space is not seen in any other space. -/
theorem Sound.readBytes_of_others (h : w.Sound base) (hl : w.Linked) {vm : Vm} {j? : Option Nat}
    (hi : guest? i w = some g) (hlow : start.val + bytes.length ≤ 2 ^ 47)
    (hmemory : vm.ram.memory = (w.vm.ram.memory.writeBytes g.space.root start bytes).1)
    (hkernel : vm.kernel = w.vm.kernel) (hsame : w.SameTables vm.ram.memory) (hne : j? ≠ some i)
    (hspace : space? j? w = some s') (start' : VirtAddr) (length' : Nat) :
    vm.readBytes s' start' length' = w.vm.readBytes s' start' length' := by
  have hbeside := h.confined_writeBytes hi hlow
  rw [← hmemory] at hbeside
  have hsame' := Confined.refl i w
  have hc : w.Confined i { w with vm } := ⟨hkernel, hbeside, hsame'.others, hsame'.own⟩
  have he : w.Evolves { w with vm } := .of_sameTables hkernel hsame fun _ hg => hg
  exact ((hc.isolates he h hl).others j? s' hne hspace).2.read start' length' fun _ _ _ => True.intro

/-- **Copies are exact to the byte.**  For every space and every range of addresses, reading reads the bytes
that the addresses lead to, up to the end or to the first address that leads nowhere, whose page is named;
writing stores there, and ends alike.  What is written to the lower half of a user space is not seen in any
other space. -/
structure Copies (w : World) : Prop where
  reads : ∀ i? s, space? i? w = some s → ∀ (start : VirtAddr) (length : Nat),
    CanonicalRange start.val length → ∃ images ending,
      w.vm.ram.memory.Extent s.root start.val length images ending ∧
      w.vm.readBytes s start length = (images.map w.vm.ram.memory.byte, ending)
  writes : ∀ i? s, space? i? w = some s → ∀ (start : VirtAddr) (bytes : List UInt8),
    CanonicalRange start.val bytes.length → ∃ images ending vm,
      w.vm.ram.memory.Extent s.root start.val bytes.length images ending ∧
      Vm.writeBytes s start bytes w.vm = ended ending vm ∧ w.Stores s start bytes images ending vm ∧
      (i?.isSome → start.val + bytes.length ≤ 2 ^ 47 → ∀ j? s', j? ≠ i? → space? j? w = some s' →
        ∀ (start' : VirtAddr) (length' : Nat),
          vm.readBytes s' start' length' = w.vm.readBytes s' start' length')

/-- **In every run of honest callers**, copies are exact to the byte. -/
theorem copies_of_arises (ha : Arises map w) : w.Copies := by
  obtain ⟨h, hl⟩ := sound_of_arises ha
  refine ⟨fun i? s hspace start length hrange => ?_, fun i? s hspace start bytes hrange => ?_⟩
  · obtain ⟨images, ending, hext⟩ := h.exists_extent hl hspace hrange
    exact ⟨images, ending, hext, readBytes_eq w.vm hext fun _ => rfl⟩
  · obtain ⟨images, ending, hext⟩ := h.exists_extent hl hspace hrange
    obtain ⟨vm, hwrite, hmemory, hstores⟩ := h.writes hl hspace hext
    refine ⟨images, ending, vm, hext, hwrite, hstores, fun hsome hlow j? s' hne hspace' start' length' => ?_⟩
    obtain ⟨i, rfl⟩ := Option.isSome_iff_exists.mp hsome
    obtain ⟨g, hi, rfl⟩ := Option.map_eq_some_iff.mp hspace
    exact h.readBytes_of_others hl hi hlow hmemory (by rw [hstores.memory])
      (h.sameTables_of_images hl hspace hext hstores.outside).1 hne hspace' start' length'

/-- In the world where only the first page of the upper half is mapped, to the third frame, its first byte
is read there. -/
theorem copies_sixFrames : ∃ w, Arises sixFrames w ∧ w.Copies ∧
    w.vm.readBytes w.vm.kernel firstUpper 1 = ([w.vm.ram.memory.byte (2 * pageSize)], .ok ()) := by
  obtain ⟨w, g, hr, -, -, hkernel⟩ := exists_unshared
  have hcopies := copies_of_arises hr.arises
  have hrange : CanonicalRange firstUpper.val 1 := fun i hi => by
    cases Nat.lt_one_iff.mp hi
    exact firstUpper.canonical
  obtain ⟨images, ending, hext, hread⟩ := hcopies.reads none _ rfl firstUpper 1 hrange
  refine ⟨w, hr.arises, hcopies, hread.trans ?_⟩
  rcases hext.cases_succ with ⟨a, ha, hnone, -⟩ | ⟨a, t, rest, ha, hsome, rfl, hrest⟩
  · cases VirtAddr.eq_of_val ha
    cases hkernel.symm.trans hnone
  · cases VirtAddr.eq_of_val ha
    cases hkernel.symm.trans hsome
    obtain ⟨rfl, rfl⟩ := hrest.of_zero
    rfl

end World

end KernelCore
