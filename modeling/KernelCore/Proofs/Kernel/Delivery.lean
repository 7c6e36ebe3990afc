/-
# What a `write` delivers

A range is checked page by page and its bytes are copied in pieces, and a piece is cut again where a page
ends, since pages that follow each other need not lie in frames that do.  All this cutting leaves no trace.
A range is accepted exactly if each of its addresses is the caller's and leads somewhere
(`UserBuffer.Admissible`), and what is printed is, byte by byte, what is stored where its addresses lead
(`Memory.Spells`).  This holds whatever the tables are: two addresses of a page lead as far apart as they
lie, also under a large entry.

* `validate_eq_ok_iff`: when a range is accepted;
* `spells_copyFrom`, `length_copyFrom`, `pieces_copyFrom`: what is copied out of it;
* `delivers_of_proceeds`: on every course a `write` prints the bytes of its range and leaves their number,
  or prints nothing and leaves the status of a bad argument.
-/
import KernelCore.Proofs.Kernel.Answers

namespace KernelCore

/-! ## 1. When a range is accepted -/

namespace UserBuffer

variable {vm : Vm} {space : AddressSpace} {b : UserBuffer} {pointer length : UInt64}

/-- **The range is the caller's**: it begins at an address that is not zero, it is not too long, it does not
leave the addresses, and each of its addresses is in the half of the space and leads somewhere. -/
structure Admissible (vm : Vm) (space : AddressSpace) (pointer length : UInt64) : Prop where
  pointer_ne : pointer ≠ 0
  canonical : IsCanonical pointer.toNat
  short : length.toNat ≤ maxWriteLength
  inside : pointer.toNat + length.toNat ≤ 2 ^ 64 - 1
  mapped : length = 0 ∨ ∀ x, pointer.toNat ≤ x → x < pointer.toNat + length.toNat →
    ∃ a : VirtAddr, a.val = x ∧ space.accepts (.containing a) = true ∧
      ∃ target, vm.translate space a = .ok (some target)

/-- The first address of a page leads somewhere if another of its addresses does. -/
theorem checkPage_of_address {a : VirtAddr} {target : Memory.Target}
    (haccepts : space.accepts (.containing a) = true)
    (htarget : vm.translate space a = .ok (some target)) : checkPage vm space (.containing a) = .ok () := by
  obtain ⟨first, hfirst, -⟩ := Memory.exists_translate_of_page (Page.containing_start _).symm htarget
  exact checkPage_eq_ok_iff.mpr ⟨haccepts, first, hfirst⟩

/-- **A walk over pages that are all good enough** gets to its end, or halts. -/
theorem checkPages_of_forall {n : Nat} {page : Page}
    (h : ∀ g : Page, page.number ≤ g.number → g.number < page.number + n → checkPage vm space g = .ok ()) :
    checkPages vm space n page = .ok () ∨ ∃ halt, checkPages vm space n page = .error (.halted halt) := by
  induction n generalizing page with
  | zero => exact Or.inl rfl
  | succ n ih =>
    have hpage := h page (Nat.le_refl _) (by omega)
    unfold checkPages
    by_cases hlast : page = Page.lastLower
    · rw [hlast, Page.next_lastLower]
      exact Or.inr ⟨_, rfl⟩
    · rcases Page.next_cases hlast with ⟨hnext, -⟩ | ⟨next, hnext, hnumber⟩
      · rw [hnext]
        exact Or.inl hpage
      · rw [hnext, hpage]
        exact ih fun g hle hlt => h g (by omega) (by omega)

/-- Every page of a range holds one of its addresses. -/
theorem exists_address_of_page {start last : VirtAddr} {g : Page} (hle : start.val ≤ last.val)
    (hfirst : (Page.containing start).number ≤ g.number)
    (hend : g.number < (Page.containing start).number + Vm.pageCount start last) :
    ∃ x, start.val ≤ x ∧ x ≤ last.val ∧ x / pageSize = g.number := by
  simp only [Vm.pageCount, Page.containing, pageSize] at hfirst hend
  exact ⟨max start.val (g.number * pageSize), by omega, by simp only [pageSize]; omega,
    by simp only [pageSize]; omega⟩

/-- An accepted range is the caller's. -/
theorem admissible_of_validate (h : validate vm space pointer length = .ok b) :
    Admissible vm space pointer length := by
  obtain ⟨hstart, hlength, hpages⟩ := checkPage_of_validate h
  have hrange : ¬(pointer = 0 ∨ maxWriteLength < length.toNat ∨
      2 ^ 64 ≤ pointer.toNat + length.toNat) := by
    intro hbad
    unfold validate at h
    dsimp only at h
    rw [if_pos hbad] at h
    cases h
  obtain ⟨hne, hshort, hinside⟩ := not_or.mp hrange |>.imp_right not_or.mp
  refine ⟨hne, hstart ▸ b.start.canonical, Nat.le_of_not_lt hshort, by omega, Or.inr fun x hle hlt => ?_⟩
  obtain ⟨a, ha, hcheck⟩ := hpages x (hstart ▸ hle) (by omega)
  obtain ⟨haccepts, first, hfirst⟩ := checkPage_eq_ok_iff.mp hcheck
  obtain ⟨target, htarget, -⟩ := Memory.exists_translate_of_page (Page.containing_start _) hfirst
  exact ⟨a, ha, haccepts, target, htarget⟩

/-- The caller's range is accepted, unless the walk over its pages halts. -/
theorem exists_validate_of_admissible (h : Admissible vm space pointer length) :
    (∃ b, validate vm space pointer length = .ok b) ∨
      ∃ halt, validate vm space pointer length = .error (.halted halt) := by
  have hrange : ¬(pointer = 0 ∨ maxWriteLength < length.toNat ∨
      2 ^ 64 ≤ pointer.toNat + length.toNat) := by
    rintro (hzero | hlong | hover)
    · exact h.pointer_ne hzero
    · exact Nat.not_le_of_lt hlong h.short
    · have := h.inside
      omega
  let start : VirtAddr := ⟨pointer.toNat, h.canonical⟩
  unfold validate
  dsimp only
  rw [if_neg hrange, VirtAddr.of?_eq_some_iff.mpr (show start.val = pointer.toNat from rfl)]
  dsimp only
  by_cases hempty : length = 0
  · rw [if_pos hempty]
    exact Or.inl ⟨_, rfl⟩
  rw [if_neg hempty]
  have hmapped := h.mapped.resolve_left hempty
  have hpos : 0 < length.toNat := Nat.pos_of_ne_zero fun he => hempty (UInt64.toNat_inj.mp he)
  obtain ⟨last, hlast, -⟩ := hmapped (pointer.toNat + length.toNat - 1) (by omega) (by omega)
  rw [VirtAddr.of?_eq_some_iff.mpr hlast]
  dsimp only
  have hgood : ∀ g : Page, (Page.containing start).number ≤ g.number →
      g.number < (Page.containing start).number + Vm.pageCount start last →
        checkPage vm space g = .ok () := by
    intro g hfirst hend
    obtain ⟨x, hle, hlt, hnumber⟩ := exists_address_of_page
      (show start.val ≤ last.val by rw [hlast]; show pointer.toNat ≤ _; omega) hfirst hend
    obtain ⟨a, rfl, haccepts, target, htarget⟩ := hmapped x hle (by omega)
    rw [Page.eq_of_number (show g.number = (Page.containing a).number from hnumber.symm)]
    exact checkPage_of_address haccepts htarget
  rcases checkPages_of_forall hgood with hok | ⟨halt, hhalt⟩
  · rw [hok]
    exact Or.inl ⟨_, rfl⟩
  · rw [hhalt]
    exact Or.inr ⟨halt, rfl⟩

/-- **A range is accepted exactly if it is the caller's**, where the walk over its pages does not halt. -/
theorem validate_eq_ok_iff (hreturns : ∀ halt, validate vm space pointer length ≠ .error (.halted halt)) :
    (∃ b, validate vm space pointer length = .ok b) ↔ Admissible vm space pointer length := by
  refine ⟨fun ⟨b, hb⟩ => admissible_of_validate hb, fun h => ?_⟩
  exact (exists_validate_of_admissible h).resolve_right fun ⟨halt, hhalt⟩ => hreturns halt hhalt

end UserBuffer

/-! ## 2. The bytes behind a range -/

namespace Memory

variable {m : Memory} {root first : Nat} {xs ys : List UInt8}

/-- **The bytes behind a range**: each is stored where its address leads. -/
def Spells (m : Memory) (root first : Nat) (bytes : List UInt8) : Prop :=
  ∀ (i : Nat) (v : UInt8), bytes[i]? = some v → ∃ (a : VirtAddr) (target : Target),
    a.val = first + i ∧ m.translate root a = .ok (some target) ∧ m.byte target.address = v

theorem Spells.nil : m.Spells root first [] := fun _ _ h => absurd h nofun

theorem Spells.append (hxs : m.Spells root first xs) (hys : m.Spells root (first + xs.length) ys) :
    m.Spells root first (xs ++ ys) := by
  intro i v hi
  rcases Nat.lt_or_ge i xs.length with hlt | hge
  · exact hxs i v (by rwa [List.getElem?_append_left hlt] at hi)
  · rw [List.getElem?_append_right hge] at hi
    obtain ⟨a, target, ha, htarget, hv⟩ := hys (i - xs.length) v hi
    exact ⟨a, target, by omega, htarget, hv⟩

/-- A piece that does not leave its page can be read in one go. -/
theorem spells_piece {a : VirtAddr} {target : Target} (htarget : m.translate root a = .ok (some target))
    (left : Nat) : m.Spells root a.val (m.read target.address (pieceLength a left)) := by
  intro i v hi
  have hlt : i < pieceLength a left := by
    have := (List.getElem?_eq_some_iff.mp hi).1
    rwa [length_read] at this
  have hbyte : m.byte (target.address + i) = v := by
    simpa [read, hlt] using hi
  obtain ⟨b, target', hb, htarget', haddress⟩ :=
    exists_translate_add htarget (Nat.lt_of_lt_of_le hlt (Nat.min_le_left _ _))
  exact ⟨b, target', hb, htarget', by rw [haddress, hbyte]⟩

/-- **What a copy reads** is what is behind the range, as far as it gets. -/
theorem spells_readBytesFrom (m : Memory) (root : Nat) (start : VirtAddr) (copied left : Nat) :
    m.Spells root (start.val + copied) (m.readBytesFrom root start copied left).1 := by
  fun_induction readBytesFrom m root start copied left with
  | case1 => exact .nil
  | case2 => exact .nil
  | case3 copied left hne a physical hlocate n bytes ending hrest ih =>
    obtain ⟨ha, target, htarget, rfl⟩ := exists_of_locateAt hlocate
    rw [hrest] at ih
    refine .append (ha ▸ spells_piece htarget left) ?_
    rw [length_read, Nat.add_assoc]
    exact ih

/-- A copy that gets to its end has read all bytes. -/
theorem length_readBytesFrom (m : Memory) (root : Nat) (start : VirtAddr) (copied left : Nat)
    (h : (m.readBytesFrom root start copied left).2 = .ok ()) :
    (m.readBytesFrom root start copied left).1.length = left := by
  fun_induction readBytesFrom m root start copied left with
  | case1 => rfl
  | case2 => cases h
  | case3 copied left hne a physical hlocate n bytes ending hrest ih =>
    have hpiece : n ≤ left := Nat.min_le_right _ _
    rw [hrest] at ih
    rw [List.length_append, length_read, ih h]
    omega

end Memory

namespace UserBuffer

variable {vm : Vm} {space : AddressSpace} {b : UserBuffer} {pointer length : UInt64}

/-- What is behind the range, also when it is copied in pieces. -/
theorem spells_copyFrom (vm : Vm) (space : AddressSpace) (start : VirtAddr) (offset left : Nat) :
    vm.ram.memory.Spells space.root (start.val + offset) (copyFrom vm space start offset left).1.flatten := by
  fun_induction copyFrom vm space start offset left with
  | case1 => exact .nil
  | case2 => exact .nil
  | case3 => exact .nil
  | case4 offset left hne n a hadvance bytes hread chunks ending hrest ih =>
    have hread : vm.ram.memory.readBytesFrom space.root a 0 n = (bytes, .ok ()) := hread
    have hspells := Memory.spells_readBytesFrom vm.ram.memory space.root a 0 n
    have hlength := Memory.length_readBytesFrom vm.ram.memory space.root a 0 n (by rw [hread])
    rw [hread] at hspells hlength
    rw [hrest] at ih
    rw [Nat.add_zero, VirtAddr.val_of_advance hadvance] at hspells
    rw [List.flatten_cons]
    refine hspells.append ?_
    rw [hlength, Nat.add_assoc]
    exact ih

/-- A copy in pieces that gets to its end has copied all bytes. -/
theorem length_copyFrom (vm : Vm) (space : AddressSpace) (start : VirtAddr) (offset left : Nat)
    (h : (copyFrom vm space start offset left).2 = .ok ()) :
    (copyFrom vm space start offset left).1.flatten.length = left := by
  fun_induction copyFrom vm space start offset left with
  | case1 => rfl
  | case2 => cases h
  | case3 => cases h
  | case4 offset left hne n a hadvance bytes hread chunks ending hrest ih =>
    have hread : vm.ram.memory.readBytesFrom space.root a 0 n = (bytes, .ok ()) := hread
    have hlength := Memory.length_readBytesFrom vm.ram.memory space.root a 0 n (by rw [hread])
    have hpiece : n ≤ left := Nat.min_le_right _ _
    rw [hread] at hlength
    rw [hrest] at ih
    rw [List.flatten_cons, List.length_append, hlength, ih h]
    omega

/-- **No piece is empty, and none is too long.** -/
theorem pieces_copyFrom (vm : Vm) (space : AddressSpace) (start : VirtAddr) (offset left : Nat) :
    ∀ chunk ∈ (copyFrom vm space start offset left).1, chunk ≠ [] ∧ chunk.length ≤ copyChunk := by
  fun_induction copyFrom vm space start offset left with
  | case1 => exact List.forall_mem_nil _
  | case2 => exact List.forall_mem_nil _
  | case3 => exact List.forall_mem_nil _
  | case4 offset left hne n a hadvance bytes hread chunks ending hrest ih =>
    have hread : vm.ram.memory.readBytesFrom space.root a 0 n = (bytes, .ok ()) := hread
    have hlength := Memory.length_readBytesFrom vm.ram.memory space.root a 0 n (by rw [hread])
    rw [hread] at hlength
    rw [hrest] at ih
    rintro chunk (_ | ⟨_, hchunk⟩)
    · refine ⟨fun hnil => ?_, hlength ▸ Nat.min_le_left _ _⟩
      have hpos : 0 < n := Nat.lt_min.mpr ⟨by decide, Nat.pos_of_ne_zero hne⟩
      rw [hnil] at hlength
      exact absurd hlength.symm (Nat.ne_of_gt hpos)
    · exact ih chunk hchunk

end UserBuffer

/-! ## 3. What a `write` delivers -/

namespace Kernel

variable {k₀ k : Kernel} {pid : Nat} {p : Process} {map : MemoryMap} {bootRoot : Option Nat}
  {pointer length : UInt64} {b : UserBuffer} {e : SyscallError} {frame : Context}

/-- The registers ask for the bytes of a range. -/
structure AsksFor (frame : Context) (pointer length : UInt64) : Prop where
  call : frame.rax = Syscall.write.number
  pointer : frame.rdi = pointer
  length : frame.rsi = length

/-- **What a `write` of the running process comes to.**  The range is accepted exactly if it is the
caller's.  If it is, its bytes are appended to the console in pieces of at most `copyChunk`, and their number
is left; and if it is refused, nothing is printed and the status of a bad argument is left. -/
structure Delivers (k : Kernel) (p : Process) (pointer length : UInt64) : Prop where
  accepted_iff : (∃ b, UserBuffer.validate k.vm p.space pointer length = .ok b) ↔
    UserBuffer.Admissible k.vm p.space pointer length
  delivered : ∀ b, UserBuffer.validate k.vm p.space pointer length = .ok b →
    ∃ chunks, b.copyChunks k.vm p.space = (chunks, .ok ()) ∧
      (∀ chunk ∈ chunks, chunk ≠ [] ∧ chunk.length ≤ copyChunk) ∧
      chunks.flatten.length = length.toNat ∧
      k.vm.ram.memory.Spells p.space.root pointer.toNat chunks.flatten ∧
      ∀ frame, AsksFor frame pointer length → syscall { k with trap := frame } =
        .ok () { k with trap := { frame with rax := length }, console := k.console ++ chunks.flatten }
  refused : ∀ e, UserBuffer.validate k.vm p.space pointer length = .error (.refused e) →
    ∀ frame, AsksFor frame pointer length → ∃ record, syscall { k with trap := frame } =
      .ok () { k with trap := { frame with rax := .ofInt Status.invalid }, journal := k.journal ++ [record] }

/-- **A process may ask for any part of its page.** -/
theorem exists_validate_of_lodges {vm : Vm} {space : AddressSpace}
    (h : Vm.Lodges vm.ram.memory space dataPage) (hfirst : dataPage.start.val ≤ pointer.toNat)
    (hend : pointer.toNat + length.toNat ≤ dataPage.start.val + pageSize) :
    ∃ b, UserBuffer.validate vm space pointer length = .ok b := by
  have hfirst : 0x40000000 ≤ pointer.toNat := hfirst
  have hend : pointer.toNat + length.toNat ≤ 0x40001000 := hend
  obtain ⟨asked, τ, ht⟩ := h.tree
  have hadmissible : UserBuffer.Admissible vm space pointer length := by
    refine ⟨?_, Or.inl (by omega), by simp only [maxWriteLength]; omega, by omega, Or.inr fun x hle hlt => ?_⟩
    · rintro rfl
      exact absurd hfirst (by decide)
    · let a : VirtAddr := ⟨x, .inl (by omega)⟩
      have hpage : Page.containing a = dataPage := by
        refine Page.eq_of_number ?_
        show x / 4096 = 0x40000
        omega
      have haccepts : space.accepts (.containing a) = true := by
        rw [hpage, World.accepts_user h.kind]
        decide
      obtain ⟨f, hf⟩ := Option.isSome_iff_exists.mp ((h.pages dataPage).mpr rfl)
      have htranslate := ht.translate_eq (a := a) haccepts
      rw [hpage, hf] at htranslate
      exact ⟨a, rfl, haccepts, _, htranslate⟩
  have hnot : ¬UserBuffer.TouchesEnd pointer length := by
    rintro ⟨hlast, -⟩
    simp only [pageSize] at hlast
    omega
  have hreturns : ∀ halt, UserBuffer.validate vm space pointer length ≠ .error (.halted halt) := by
    intro halt hhalt
    rcases UserBuffer.validate_cases ht h.kind (fun _ => frameAt?_before_lastLower h) hnot with he | ⟨b, hok⟩
    · cases hhalt.symm.trans he
    · cases hhalt.symm.trans hok
  exact (UserBuffer.validate_eq_ok_iff hreturns).mpr hadmissible

/-- The bytes of a range that was accepted are all there. -/
theorem exists_chunks_of_validate (hb : UserBuffer.validate k.vm p.space pointer length = .ok b) :
    ∃ chunks, b.copyChunks k.vm p.space = (chunks, .ok ()) ∧
      (∀ chunk ∈ chunks, chunk ≠ [] ∧ chunk.length ≤ copyChunk) ∧
      chunks.flatten.length = length.toNat ∧
      k.vm.ram.memory.Spells p.space.root pointer.toNat chunks.flatten := by
  obtain ⟨hstart, hlength, hbacks⟩ := UserBuffer.backs_of_validate hb
  have hend := UserBuffer.ending_copyChunks hbacks
  refine ⟨(b.copyChunks k.vm p.space).1, Prod.ext rfl hend, ?_, ?_, ?_⟩
  · exact UserBuffer.pieces_copyFrom k.vm p.space b.start 0 b.length
  · exact (UserBuffer.length_copyFrom k.vm p.space b.start 0 b.length hend).trans hlength
  · rw [← hstart]
    exact UserBuffer.spells_copyFrom k.vm p.space b.start 0 b.length

/-- What the interrupt of an accepted range leaves. -/
theorem syscall_of_accepted (hp : k.processes.running? = some p) (hasks : AsksFor frame pointer length)
    (hb : UserBuffer.validate k.vm p.space pointer length = .ok b) : syscall { k with trap := frame } =
      .ok () { k with trap := { frame with rax := length },
                      console := k.console ++ (b.copyChunks k.vm p.space).1.flatten } := by
  obtain ⟨hrax, rfl, rfl⟩ := hasks
  have hwrite := write_of_validate (k := { k with trap := frame }) hp hb
  exact syscall_of_ok ((serve_write (k := { k with trap := frame }) hrax).trans hwrite)

/-- What the interrupt of a refused range leaves. -/
theorem syscall_of_not_accepted (hp : k.processes.running? = some p) (hasks : AsksFor frame pointer length)
    (he : UserBuffer.validate k.vm p.space pointer length = .error (.refused e)) :
    ∃ record, syscall { k with trap := frame } = .ok () { k with
      trap := { frame with rax := .ofInt Status.invalid }, journal := k.journal ++ [record] } := by
  obtain ⟨hrax, rfl, rfl⟩ := hasks
  exact syscall_of_rejects (k := { k with trap := frame }) (.range hrax hp he)

theorem delivers (hp : k.processes.running? = some p)
    (hreturns : ∀ halt, UserBuffer.validate k.vm p.space pointer length ≠ .error (.halted halt)) :
    k.Delivers p pointer length := by
  refine ⟨UserBuffer.validate_eq_ok_iff hreturns, fun b hb => ?_, fun e he frame hasks => ?_⟩
  · obtain ⟨chunks, hchunks, hpieces, hlength, hspells⟩ := exists_chunks_of_validate hb
    refine ⟨chunks, hchunks, hpieces, hlength, hspells, fun frame hasks => ?_⟩
    have hsyscall := syscall_of_accepted hp hasks hb
    rwa [hchunks] at hsyscall
  · exact syscall_of_not_accepted hp hasks he

/-- **From booting on a `write` delivers exactly the caller's bytes or nothing**, for every process that
runs and every range whose check does not halt the machine. -/
theorem delivers_of_proceeds (hb : Booted map bootRoot k₀) (hc : Proceeds k₀ k)
    (hcur : k.processes.current = some pid) : ∃ p, p.pid = pid ∧ k.processes.running? = some p ∧
      ∀ pointer length,
        (∀ halt, UserBuffer.validate k.vm p.space pointer length ≠ .error (.halted halt)) →
          k.Delivers p pointer length := by
  obtain ⟨p, hp, -⟩ := (inOrder_of_course hb.inOrder.2 hc).settled.consistent.exists_current hcur
  have hrunning : k.processes.running? = some p := by
    unfold ProcessTable.running?
    rw [hcur]
    exact hp
  exact ⟨p, ProcessTable.pid_of_find? hp, hrunning, fun _ _ => delivers hrunning⟩

/-- On a machine of six frames a process runs and asks for the last two bytes of its page, which are
accepted. -/
theorem delivers_sixFrames : ∃ k₀ k p, (Booted World.sixFrames none k₀ ∧ Proceeds k₀ k ∧
    k.processes.current = some 1) ∧ k.processes.running? = some p ∧
      k.Delivers p 0x40000ffe 2 ∧ ∃ b, UserBuffer.validate k.vm p.space 0x40000ffe 2 = .ok b := by
  obtain ⟨k₀, k, hb, hc, hcur, -⟩ := exists_running
  obtain ⟨p, -, hp, hdelivers⟩ := delivers_of_proceeds hb hc hcur
  have hs := (inOrder_of_course hb.inOrder.2 hc).settled
  obtain ⟨p', hp', hlodges⟩ := (housed_of_proceeds hb hc).lodges_of_current hs hcur
  cases hp.symm.trans hp'
  obtain ⟨b, haccepted⟩ := exists_validate_of_lodges hlodges
    (show dataPage.start.val ≤ (0x40000ffe : UInt64).toNat by decide)
    (show (0x40000ffe : UInt64).toNat + (2 : UInt64).toNat ≤ dataPage.start.val + pageSize by decide)
  have hreturns : ∀ halt, UserBuffer.validate k.vm p.space 0x40000ffe 2 ≠ .error (.halted halt) := by
    intro halt hhalt
    cases haccepted.symm.trans hhalt
  exact ⟨k₀, k, p, ⟨hb, hc, hcur⟩, hp, hdelivers _ _ hreturns, b, haccepted⟩

end Kernel

end KernelCore
