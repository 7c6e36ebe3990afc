/-
# What becomes of a caller's range

A range that a caller names is checked page by page, and the walk over the pages steps on before it
deals with a page.  From the last page of the lower half there is no such step: there the walk halts,
whatever is mapped.  Everywhere else a page that is not mapped refuses the range, and a range that was
not refused can be copied to its end.

* `checkPages_cases`: how a walk over pages ends, in a space whose tables are its record;
* `validate_of_touchesEnd`: a range in the last page of the lower half halts;
* `validate_cases`: any other range of a space that has nothing just before that page is refused or
  accepted;
* `backs_of_validate`: whatever the tables are, each address of a range that was accepted leads to
  memory (`Memory.Backs`);
* `ending_copyChunks`: such a range is copied to its end.
-/
import KernelCore.Kernel.UserBuffer
import KernelCore.Proofs.Paging.Addresses
import KernelCore.Proofs.Paging.Spaces

namespace KernelCore

/-! ## 1. Pages that are mapped -/

namespace AddressSpace

variable {s : AddressSpace} {g : Page} {first n k : Nat}

/-- Every page of a number in the range is mapped. -/
def CoversPages (s : AddressSpace) (first n : Nat) : Prop :=
  ∀ g : Page, first ≤ g.number → g.number < first + n → (s.frameAt? g).isSome

theorem CoversPages.cons (hg : (s.frameAt? g).isSome) (h : s.CoversPages (g.number + 1) n) :
    s.CoversPages g.number (n + 1) := by
  intro g' hle hlt
  rcases Nat.eq_or_lt_of_le hle with he | hlt'
  · rw [← Page.eq_of_number he]
    exact hg
  · exact h g' hlt' (by omega)

end AddressSpace

/-! ## 2. Checking a range -/

namespace UserBuffer

variable {vm : Vm} {space : AddressSpace} {asked : Page → Flags} {τ : Tables} {b : UserBuffer}

/-- A page is good enough if it is mapped. -/
theorem checkPage_eq (ht : Tree vm.ram.memory space asked τ) (page : Page) :
    checkPage vm space page = if (space.frameAt? page).isSome then .ok () else invalid := by
  unfold checkPage
  cases hin : space.accepts page with
  | false =>
    have hnone : space.frameAt? page = none := by
      cases hf : space.frameAt? page with
      | none => rfl
      | some frame =>
        rw [(ht.mapped hf).1] at hin
        cases hin
    rw [hnone]
    rfl
  | true =>
    have htranslate := ht.translate_eq (a := page.start) (by rw [Page.containing_start]; exact hin)
    rw [Page.containing_start] at htranslate
    rw [Vm.translate, htranslate]
    cases space.frameAt? page <;> rfl

/-- **How a walk over pages of a user space ends**: with all of them mapped, at one that is not, or
at the end of the lower half if all pages up to there are mapped. -/
theorem checkPages_cases (ht : Tree vm.ram.memory space asked τ) (hkind : space.kind = .user)
    (n : Nat) (page : Page) :
    (checkPages vm space n page = .ok () ∧ space.CoversPages page.number n) ∨
      checkPages vm space n page = invalid ∨
        (checkPages vm space n page = .error (.halted (.nonCanonical (2 ^ 47))) ∧
          ∃ before, page.number + before = Page.lastLower.number ∧
            space.CoversPages page.number before) := by
  induction n generalizing page with
  | zero => exact Or.inl ⟨rfl, fun g hle hlt => absurd hlt (Nat.not_lt_of_le hle)⟩
  | succ n ih =>
    by_cases hlast : page = Page.lastLower
    · subst hlast
      refine Or.inr (Or.inr ⟨?_, 0, rfl, fun g hle hlt => absurd hlt (Nat.not_lt_of_le hle)⟩)
      unfold checkPages
      rw [Page.next_lastLower]
    · unfold checkPages
      rcases Page.next_cases hlast with ⟨hnext, hupper, -⟩ | ⟨next, hnext, hnumber⟩
      · -- The very last page is not the caller's.
        refine Or.inr (Or.inl ?_)
        unfold checkPage AddressSpace.accepts
        rw [hnext, hkind]
        simp only [hupper]
        rfl
      · rw [hnext]
        simp only [checkPage_eq ht page]
        split
        · next hmapped =>
          rcases ih next with ⟨hok, hcovers⟩ | hinvalid | ⟨hhalt, before, hbefore, hcovers⟩
          · exact Or.inl ⟨hok, .cons hmapped (hnumber ▸ hcovers)⟩
          · exact Or.inr (Or.inl hinvalid)
          · exact Or.inr (Or.inr ⟨hhalt, before + 1, by omega, .cons hmapped (hnumber ▸ hcovers)⟩)
        · exact Or.inr (Or.inl rfl)

/-- The range is not empty, and lies in the last page of the lower half. -/
def TouchesEnd (pointer length : UInt64) : Prop :=
  2 ^ 47 - pageSize ≤ pointer.toNat ∧ 0 < length.toNat ∧ pointer.toNat + length.toNat ≤ 2 ^ 47

/-- **A range in the last page of the lower half** halts the machine, whatever is mapped. -/
theorem validate_of_touchesEnd (vm : Vm) (space : AddressSpace) {pointer length : UInt64}
    (h : TouchesEnd pointer length) :
    validate vm space pointer length = .error (.halted (.nonCanonical (2 ^ 47))) := by
  obtain ⟨hstart, hlength, hstop⟩ := h
  simp only [pageSize] at hstart
  have hpointer : pointer ≠ 0 := by
    rintro rfl
    exact absurd hstart (by decide)
  have hne : length ≠ 0 := by
    rintro rfl
    exact absurd hlength (by decide)
  let start : VirtAddr := ⟨pointer.toNat, .inl (by omega)⟩
  let last : VirtAddr := ⟨pointer.toNat + length.toNat - 1, .inl (by omega)⟩
  have hfirst : Page.containing start = Page.lastLower := by
    refine Page.eq_of_number ?_
    simp only [Page.containing, Page.lastLower, pageSize, start]
    omega
  obtain ⟨n, hcount⟩ : ∃ n, Vm.pageCount start last = n + 1 := by
    refine Nat.exists_eq_succ_of_ne_zero ?_
    simp only [Vm.pageCount, Page.containing, pageSize, start, last]
    omega
  have hrange : ¬(pointer = 0 ∨ maxWriteLength < length.toNat ∨
      2 ^ 64 ≤ pointer.toNat + length.toNat) := by
    rintro (he | hlong | hover)
    · exact hpointer he
    · simp only [maxWriteLength] at hlong
      omega
    · omega
  unfold validate
  dsimp only
  rw [if_neg hrange, VirtAddr.of?_eq_some_iff.mpr (show start.val = pointer.toNat from rfl)]
  dsimp only
  rw [if_neg hne, VirtAddr.of?_eq_some_iff.mpr (show last.val = _ from rfl)]
  dsimp only
  rw [hcount, hfirst]
  unfold checkPages
  rw [Page.next_lastLower]
  rfl

/-- A range that begins in the last page of the lower half does not leave it. -/
theorem touchesEnd_of_first {start last : VirtAddr} {pointer length : UInt64}
    (hfirst : Page.containing start = Page.lastLower) (hstart : start.val = pointer.toNat)
    (hlast : last.val = pointer.toNat + length.toNat - 1) (hlength : 0 < length.toNat)
    (hshort : length.toNat ≤ maxWriteLength) : TouchesEnd pointer length := by
  have hnumber : start.val / 4096 = 2 ^ 35 - 1 := congrArg Page.number hfirst
  have hcanonical := last.canonical
  simp only [IsCanonical] at hcanonical
  simp only [maxWriteLength] at hshort
  refine ⟨?_, hlength, ?_⟩
  · simp only [pageSize]
    omega
  · omega

/-- **Any other range** is refused or accepted, if nothing is mapped just before the last page of the
lower half. -/
theorem validate_cases (ht : Tree vm.ram.memory space asked τ) (hkind : space.kind = .user)
    (hbefore : ∀ g : Page, g.number + 1 = Page.lastLower.number → space.frameAt? g = none)
    {pointer length : UInt64} (h : ¬TouchesEnd pointer length) :
    validate vm space pointer length = invalid ∨ ∃ b, validate vm space pointer length = .ok b := by
  unfold validate
  dsimp only
  split
  · exact Or.inl rfl
  next hrange =>
  split
  · exact Or.inl rfl
  next start hstart =>
  have hstart := VirtAddr.of?_eq_some_iff.mp hstart
  split
  · exact Or.inr ⟨_, rfl⟩
  next hne =>
  split
  · exact Or.inl rfl
  next last hlast =>
  have hlast := VirtAddr.of?_eq_some_iff.mp hlast
  have hlength : 0 < length.toNat :=
    Nat.pos_of_ne_zero fun he => hne (UInt64.toNat_inj.mp he)
  have hshort : length.toNat ≤ maxWriteLength := Nat.le_of_not_lt fun hlong => hrange (Or.inr (Or.inl hlong))
  rcases checkPages_cases ht hkind (Vm.pageCount start last) (.containing start) with
    ⟨hok, -⟩ | hinvalid | ⟨-, before, hnumber, hcovers⟩
  · exact Or.inr ⟨⟨start, length.toNat⟩, by rw [hok]; rfl⟩
  · rw [hinvalid]
    exact Or.inl rfl
  · -- The walk would have to begin at the end, or to meet a mapped page just before it.
    cases before with
    | zero =>
      refine absurd (touchesEnd_of_first ?_ hstart hlast hlength hshort) h
      exact Page.eq_of_number hnumber
    | succ before =>
      let g : Page := ⟨2 ^ 35 - 2, .inl (by decide)⟩
      have hnext : g.number + 1 = Page.lastLower.number := rfl
      have hmapped := hcovers g (by omega) (by omega)
      rw [hbefore g hnext] at hmapped
      cases hmapped

/-- Whatever is wrong with a page, the caller hears the same. -/
theorem eq_invalidArgument_of_checkPage {vm : Vm} {space : AddressSpace} {page : Page}
    {e : SyscallError} (h : checkPage vm space page = .error (.refused e)) : e = .invalidArgument := by
  unfold checkPage at h
  split at h
  · cases h
    rfl
  · split at h
    · cases h
    · cases h
      rfl
    · cases h

theorem eq_invalidArgument_of_checkPages {vm : Vm} {space : AddressSpace} {e : SyscallError} {n : Nat}
    {page : Page} (h : checkPages vm space n page = .error (.refused e)) : e = .invalidArgument := by
  induction n generalizing page with
  | zero => cases h
  | succ n ih =>
    unfold checkPages at h
    split at h
    · cases h
    · exact eq_invalidArgument_of_checkPage h
    · next next _ =>
      cases hpage : checkPage vm space page with
      | error stop =>
        simp only [hpage] at h
        cases h
        exact eq_invalidArgument_of_checkPage hpage
      | ok _ =>
        simp only [hpage] at h
        exact ih h

/-- **A range is refused for one reason**, whatever is wrong with it. -/
theorem eq_invalidArgument_of_validate {vm : Vm} {space : AddressSpace} {pointer length : UInt64}
    {e : SyscallError} (h : validate vm space pointer length = .error (.refused e)) :
    e = .invalidArgument := by
  unfold validate at h
  dsimp only at h
  split at h
  · cases h
    rfl
  split at h
  · cases h
    rfl
  next start _ =>
  split at h
  · cases h
  split at h
  · cases h
    rfl
  next last _ =>
  cases hpages : checkPages vm space (Vm.pageCount start last) (.containing start) with
  | error stop =>
    rw [hpages] at h
    cases h
    exact eq_invalidArgument_of_checkPages hpages
  | ok _ =>
    rw [hpages] at h
    cases h

end UserBuffer

/-! ## 3. Memory behind a range -/

namespace Memory

variable {m : Memory} {root first n k : Nat}

/-- **There is memory behind a range**: every number in it is an address that leads somewhere. -/
def Backs (m : Memory) (root first n : Nat) : Prop :=
  ∀ x, first ≤ x → x < first + n →
    ∃ a : VirtAddr, a.val = x ∧ ∃ target, m.translate root a = .ok (some target)

theorem Backs.take (h : m.Backs root first n) (hk : k ≤ n) : m.Backs root first k :=
  fun x hle hlt => h x hle (by omega)

theorem Backs.drop (h : m.Backs root first n) (hk : k ≤ n) : m.Backs root (first + k) (n - k) :=
  fun x hle hlt => h x (by omega) (by omega)

/-- Where the range begins there is an address that leads somewhere, unless it is empty. -/
theorem Backs.head (h : m.Backs root first n) (hn : n ≠ 0) :
    ∃ a : VirtAddr, a.val = first ∧ ∃ target, m.translate root a = .ok (some target) :=
  h first (Nat.le_refl _) (by omega)

end Memory

namespace UserBuffer

variable {vm : Vm} {space : AddressSpace} {b : UserBuffer}

/-- **A page is good enough** if the caller may use it and it leads somewhere. -/
theorem checkPage_eq_ok_iff {page : Page} : checkPage vm space page = .ok () ↔
    space.accepts page = true ∧ ∃ target, vm.translate space page.start = .ok (some target) := by
  unfold checkPage
  cases space.accepts page with
  | false => exact ⟨nofun, nofun⟩
  | true =>
    rcases vm.translate space page.start with halt | _ | target
    · exact ⟨nofun, nofun⟩
    · exact ⟨nofun, nofun⟩
    · exact ⟨fun _ => ⟨rfl, target, rfl⟩, fun _ => rfl⟩

/-- A walk that gets to its end has dealt with every page on its way. -/
theorem checkPage_of_checkPages {n : Nat} {page g : Page} (h : checkPages vm space n page = .ok ())
    (hle : page.number ≤ g.number) (hlt : g.number < page.number + n) :
    checkPage vm space g = .ok () := by
  induction n generalizing page with
  | zero => exact absurd hlt (Nat.not_lt_of_le hle)
  | succ n ih =>
    have hlast : page ≠ Page.lastLower := by
      rintro rfl
      unfold checkPages at h
      rw [Page.next_lastLower] at h
      cases h
    unfold checkPages at h
    rcases Page.next_cases hlast with ⟨hnext, -, hend⟩ | ⟨next, hnext, hnumber⟩
    · have hg : g.number < 2 ^ 52 := by
        have := g.canonical
        omega
      rw [hnext] at h
      rwa [Page.eq_of_number (show g.number = page.number by omega)]
    · rw [hnext] at h
      cases hpage : checkPage vm space page with
      | error stop =>
        simp only [hpage] at h
        cases h
      | ok _ =>
        simp only [hpage] at h
        rcases Nat.eq_or_lt_of_le hle with he | hlt'
        · rwa [← Page.eq_of_number he]
        · exact ih h (by omega) (by omega)

/-- **What a range that was accepted tells**: it is the range that was asked for, and each of its numbers is
an address of a page that is good enough. -/
theorem checkPage_of_validate {pointer length : UInt64} (h : validate vm space pointer length = .ok b) :
    b.start.val = pointer.toNat ∧ b.length = length.toNat ∧
      ∀ x, b.start.val ≤ x → x < b.start.val + b.length →
        ∃ a : VirtAddr, a.val = x ∧ checkPage vm space (.containing a) = .ok () := by
  unfold validate at h
  dsimp only at h
  split at h
  · cases h
  next hrange =>
  split at h
  · cases h
  next start hstart =>
  have hstart := VirtAddr.of?_eq_some_iff.mp hstart
  split at h
  · next hempty =>
    cases h
    subst hempty
    exact ⟨hstart, rfl, fun x hle hlt => absurd hlt (Nat.not_lt_of_le hle)⟩
  split at h
  · cases h
  next last hlast =>
  have hlast := VirtAddr.of?_eq_some_iff.mp hlast
  have hshort : length.toNat ≤ maxWriteLength :=
    Nat.le_of_not_lt fun hlong => hrange (Or.inr (Or.inl hlong))
  cases hpages : checkPages vm space (Vm.pageCount start last) (.containing start) with
  | error stop =>
    rw [hpages] at h
    cases h
  | ok _ =>
    rw [hpages] at h
    cases h
    refine ⟨hstart, rfl, fun x hfirst hend => ?_⟩
    -- a short range does not reach over the gap between the halves
    have hcanonical : IsCanonical x := by
      have hs := start.canonical
      have hl := last.canonical
      simp only [IsCanonical] at hs hl ⊢
      simp only [maxWriteLength] at hshort
      dsimp only at hfirst hend
      omega
    refine ⟨⟨x, hcanonical⟩, rfl, ?_⟩
    have hpage : (Page.containing ⟨x, hcanonical⟩).number <
        (Page.containing start).number + Vm.pageCount start last := by
      simp only [Vm.pageCount, Page.containing, pageSize]
      dsimp only at hfirst hend
      omega
    exact checkPage_of_checkPages hpages (Nat.div_le_div_right hfirst) hpage

/-- **There is memory behind a range that was accepted**, whatever the tables are. -/
theorem backs_of_validate {pointer length : UInt64} (h : validate vm space pointer length = .ok b) :
    b.start.val = pointer.toNat ∧ b.length = length.toNat ∧
      vm.ram.memory.Backs space.root b.start.val b.length := by
  obtain ⟨hstart, hlength, hpages⟩ := checkPage_of_validate h
  refine ⟨hstart, hlength, fun x hfirst hend => ?_⟩
  obtain ⟨a, ha, hcheck⟩ := hpages x hfirst hend
  obtain ⟨-, target, htarget⟩ := checkPage_eq_ok_iff.mp hcheck
  obtain ⟨target', htarget', -⟩ := Memory.exists_translate_of_page (Page.containing_start _) htarget
  exact ⟨a, ha, target', htarget'⟩

end UserBuffer

/-! ## 4. Copying it -/

namespace Memory

variable {m : Memory} {root : Nat}

/-- **Reading a range with memory behind it** gets to its end. -/
theorem ending_readBytesFrom (start : VirtAddr) (copied left : Nat)
    (h : m.Backs root (start.val + copied) left) :
    (m.readBytesFrom root start copied left).2 = .ok () := by
  fun_induction readBytesFrom m root start copied left with
  | case1 => rfl
  | case2 copied left hne stop hstop =>
    obtain ⟨a, ha, target, htarget⟩ := h.head hne
    rw [locateAt_of_ok _ (VirtAddr.advance_eq ha.symm), locate, htarget] at hstop
    cases hstop
  | case3 copied left hne a physical hlocate n bytes ending hrest ih =>
    rw [hrest] at ih
    refine ih ?_
    rw [← Nat.add_assoc]
    exact h.drop (Nat.min_le_right _ _)

end Memory

namespace UserBuffer

variable {vm : Vm} {space : AddressSpace} {b : UserBuffer}

theorem ending_copyFrom (start : VirtAddr) (offset left : Nat)
    (h : vm.ram.memory.Backs space.root (start.val + offset) left) :
    (copyFrom vm space start offset left).2 = .ok () := by
  fun_induction copyFrom vm space start offset left with
  | case1 => rfl
  | case2 offset left hne halt hadvance =>
    obtain ⟨a, ha, -⟩ := h.head hne
    rw [VirtAddr.advance_eq ha.symm] at hadvance
    cases hadvance
  | case3 offset left hne n a hadvance chunk stop hread =>
    have hbacks : vm.ram.memory.Backs space.root (a.val + 0) n := by
      rw [VirtAddr.val_of_advance hadvance]
      exact h.take (Nat.min_le_right _ _)
    have hend := Memory.ending_readBytesFrom a 0 n hbacks
    rw [show Memory.readBytesFrom _ _ a 0 n = _ from hread] at hend
    cases hend
  | case4 offset left hne n a hadvance bytes hread chunks ending hrest ih =>
    rw [hrest] at ih
    refine ih ?_
    rw [← Nat.add_assoc]
    exact h.drop (Nat.min_le_right _ _)

/-- **A buffer with memory behind it** is copied to its end. -/
theorem ending_copyChunks (h : vm.ram.memory.Backs space.root b.start.val b.length) :
    (b.copyChunks vm space).2 = .ok () :=
  ending_copyFrom b.start 0 b.length h

end UserBuffer

end KernelCore
