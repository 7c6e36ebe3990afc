/-
# Addresses and pages one after the other

Whoever goes over a range of addresses takes it page by page.  From a page there is a step to the next one,
but for two pages: the very last one, where a walk is at its end, and the last one of the lower half, where
it halts (`Page.next_cases`, `Page.next_lastLower`).  Inside a page addresses lead as far apart as they lie,
also under a large entry, so that where one of them leads tells where all of them do
(`Memory.exists_translate_of_page`, `Memory.exists_translate_add`).
-/
import KernelCore.Proofs.Paging.Entries

namespace KernelCore

/-! ## 1. One page after the other -/

/-- An address is its number. -/
theorem VirtAddr.eq_of_val {a b : VirtAddr} (h : a.val = b.val) : a = b := by
  cases a
  cases b
  cases h
  rfl

namespace Page

variable {g h : Page}

theorem eq_of_number (he : g.number = h.number) : g = h := by
  cases g
  cases h
  cases he
  rfl

/-- The last page of the lower half. -/
def lastLower : Page := ⟨2 ^ 35 - 1, .inl (by decide)⟩

/-- The address behind the lower half is none. -/
theorem next_lastLower : lastLower.next = .error (.nonCanonical (2 ^ 47)) := by
  have hof : VirtAddr.of? (lastLower.start.val + pageSize) = none := dif_neg (by decide)
  unfold next VirtAddr.advance
  rw [if_neg (by decide), if_neg (by decide), hof]
  rfl

/-- From any other page there is a step, or it is the very last one. -/
theorem next_cases (hne : g ≠ lastLower) :
    (g.next = .ok none ∧ g.isUpper = true ∧ g.number = 2 ^ 52 - 1) ∨
      ∃ next, g.next = .ok (some next) ∧ next.number = g.number + 1 := by
  have hcanonical := g.canonical
  by_cases hlast : g.number = 2 ^ 52 - 1
  · refine Or.inl ⟨if_pos hlast, decide_eq_true ?_, hlast⟩
    rw [upperHalfIndex, index, hlast]
    decide
  · have hnumber : g.number ≠ 2 ^ 35 - 1 := fun he => hne (eq_of_number he)
    let next : Page := ⟨g.number + 1, by omega⟩
    have hstart : g.start.val + pageSize = next.start.val := (Nat.succ_mul g.number pageSize).symm
    exact Or.inr ⟨next, by rw [next_eq hstart, containing_start], rfl⟩

end Page

/-! ## 2. Addresses of one page -/

namespace Memory

variable {m : Memory} {root n : Nat}

/-- Two addresses of a page lie as far apart under an entry of any level. -/
theorem mod_span_add_offset {a b : VirtAddr} (hpage : Page.containing a = Page.containing b) (level : Nat) :
    b.val % span level + a.offset = a.val % span level + b.offset := by
  have hnumber : a.val / pageSize = b.val / pageSize := congrArg Page.number hpage
  simp only [span, Nat.mod_mul, hnumber, VirtAddr.offset]
  omega

/-- **A walk down the tables** leads all addresses of a page somewhere or none, and as far apart as they
lie. -/
theorem exists_translateFrom {a b : VirtAddr} (hpage : Page.containing a = Page.containing b)
    (level table : Nat) {target : Target} (h : m.translateFrom a level table = .ok (some target)) :
    ∃ target', m.translateFrom b level table = .ok (some target') ∧
      target'.address + a.offset = target.address + b.offset := by
  have hindex : ∀ level, b.index level = a.index level := fun level => by
    rw [VirtAddr.index_eq, VirtAddr.index_eq a, hpage]
  induction level generalizing table with
  | zero =>
    unfold translateFrom at h ⊢
    dsimp only at h ⊢
    rw [hindex]
    split at h
    · cases h
    · next hne =>
      cases h
      exact ⟨_, if_neg hne, by dsimp only; omega⟩
  | succ level ih =>
    unfold translateFrom at h ⊢
    dsimp only at h ⊢
    rw [hindex]
    split at h
    · cases h
    next hpresent =>
    rw [if_neg hpresent]
    split at h
    · split at h
      · cases h
      · next hhuge hlevel =>
        cases h
        refine ⟨_, by rw [if_pos hhuge, if_neg hlevel], ?_⟩
        have := mod_span_add_offset hpage (level + 1)
        dsimp only
        omega
    · next hhuge =>
      rw [if_neg hhuge]
      exact ih _ h

/-- All addresses of a page lead somewhere if one of them does. -/
theorem exists_translate_of_page {a b : VirtAddr} {target : Target}
    (hpage : Page.containing a = Page.containing b) (h : m.translate root a = .ok (some target)) :
    ∃ target', m.translate root b = .ok (some target') ∧
      target'.address + a.offset = target.address + b.offset :=
  exists_translateFrom hpage 3 root h

/-- An address that is so many bytes further on in a page leads so many bytes further on. -/
theorem exists_translate_add {a : VirtAddr} {target : Target} (h : m.translate root a = .ok (some target))
    (hn : n < pageSize - a.offset) : ∃ (b : VirtAddr) (target' : Target), b.val = a.val + n ∧
      m.translate root b = .ok (some target') ∧ target'.address = target.address + n := by
  have hcanonical : IsCanonical (a.val + n) := by
    have := a.canonical
    simp only [VirtAddr.offset, IsCanonical, pageSize] at this hn ⊢
    omega
  let b : VirtAddr := ⟨a.val + n, hcanonical⟩
  have hpage : Page.containing a = Page.containing b := by
    refine Page.eq_of_number ?_
    simp only [Page.containing, VirtAddr.offset, pageSize, b] at hn ⊢
    omega
  have hfar : b.offset = a.offset + n := by
    simp only [VirtAddr.offset, pageSize, b] at hn ⊢
    omega
  obtain ⟨target', htarget', haddress⟩ := exists_translate_of_page hpage h
  exact ⟨b, target', rfl, htarget', by omega⟩

end Memory

end KernelCore
