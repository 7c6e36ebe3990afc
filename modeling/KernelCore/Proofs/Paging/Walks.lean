/-
# The frames that an address depends on

Following an address looks into one table on each level.  Those tables, and the frame that the address
leads to, are all of memory that it depends on (`Memory.Guarded`), whatever the tables say and whoever
made them: so a boot loader's tables, of which nothing is known, are covered too.

* `Memory.translateFrom_congr`: if the tables that a walk looks into are the same, so is where it ends;
* `Vm.SameView.of_guarded`: if those frames stay, the same is seen of a space;
* `Tree.guarded`, `Memory.Borrows.guarded`: what a right space depends on is the space's, and in the
  upper half the kernel's.
-/
import KernelCore.Proofs.Paging.Views

namespace KernelCore

namespace Memory

variable {m m' : Memory} {a : VirtAddr} {root source level table t : Nat} {kept kept' : Nat → Prop}

/-- The tables that a walk for an address looks into, from a table of a level on. -/
def walkFrames (m : Memory) (a : VirtAddr) : Nat → Nat → List Nat
  | 0, table => [table]
  | level + 1, table =>
    let e := m.entry table (a.index (level + 1))
    table :: if e.isPresent && !e.isHuge then m.walkFrames a level e.frame.toNat else []

/-- **Where a walk ends is written in the tables that it looks into.** -/
theorem translateFrom_congr (h : ∀ t ∈ m.walkFrames a level table, m.SameFrame m' t) :
    m'.translateFrom a level table = m.translateFrom a level table := by
  have hindex : ∀ level, a.index level < tableEntries := fun level =>
    VirtAddr.index_eq a level ▸ (Page.containing a).index_lt level
  induction level generalizing table with
  | zero =>
    have hentry := (h table List.mem_cons_self).entry_eq (hindex 0)
    unfold translateFrom
    rw [hentry]
  | succ level ih =>
    have hentry := (h table List.mem_cons_self).entry_eq (hindex (level + 1))
    unfold translateFrom
    dsimp only
    rw [hentry]
    cases hpresent : (m.entry table (a.index (level + 1))).isPresent with
    | false => simp only [Bool.not_false, if_true]
    | true =>
      cases hhuge : (m.entry table (a.index (level + 1))).isHuge with
      | true => simp only [Bool.not_true, Bool.false_eq_true, if_false, if_true]
      | false =>
        simp only [Bool.not_true, Bool.false_eq_true, if_false]
        refine ih fun t ht => h t (List.mem_cons_of_mem _ ?_)
        rw [hpresent, hhuge]
        exact ht

/-- **The address depends on kept frames only**: the tables that a walk looks into are kept, and so is the
frame that it leads to, if any. -/
structure Guarded (m : Memory) (kept : Nat → Prop) (root : Nat) (a : VirtAddr) : Prop where
  tables : ∀ t ∈ m.walkFrames a 3 root, kept t
  target : ∀ t, m.translate root a = .ok (some t) → ∃ f, kept f ∧ t.address = f * pageSize + a.offset

theorem Guarded.mono (h : m.Guarded kept root a) (hle : ∀ f, kept f → kept' f) : m.Guarded kept' root a :=
  ⟨fun t ht => hle t (h.tables t ht), fun t ht => (h.target t ht).imp fun f hf => ⟨hle f hf.1, hf.2⟩⟩

/-- What an address depends on that leads into a table of another root is what it depends on there. -/
theorem walkFrames_of_leadsTo (h : (m.entry root ((Page.containing a).index 3)).LeadsTo (some t)) :
    m.walkFrames a 3 root = root :: m.walkFrames a 2 t := by
  obtain ⟨hpresent, hhuge, hframe⟩ := h
  rw [walkFrames]
  simp only [Nat.reduceAdd, VirtAddr.index_eq, hpresent, hhuge, hframe, Bool.not_false, Bool.and_true,
    if_true]

/-- An address whose root entry is not in use depends on the root. -/
theorem Guarded.of_unused (h : m.entry root ((Page.containing a).index 3) = .unused) (hroot : kept root) :
    m.Guarded kept root a := by
  refine ⟨fun t ht => ?_, fun t ht => ?_⟩
  · have hpresent : Entry.unused.isPresent = false := by decide
    rw [walkFrames] at ht
    simp only [Nat.reduceAdd, VirtAddr.index_eq, h, hpresent, Bool.false_and, Bool.false_eq_true, if_false,
      List.mem_singleton] at ht
    exact ht ▸ hroot
  · rw [translate_of_unused h] at ht
    cases ht

/-- What is taken over depends on what it was taken over from. -/
theorem Borrows.guarded (h : m.Borrows root source (.containing a)) (hroot : kept root)
    (hs : m.Guarded kept source a) : m.Guarded kept root a := by
  rcases h with hunused | ⟨t, hlead, hsource⟩
  · exact .of_unused hunused hroot
  · refine ⟨fun f hf => ?_, fun f hf => hs.target f ?_⟩
    · rw [walkFrames_of_leadsTo hlead] at hf
      rcases List.mem_cons.mp hf with rfl | hf
      · exact hroot
      · refine hs.tables f ?_
        rw [walkFrames_of_leadsTo hsource]
        exact List.mem_cons_of_mem _ hf
    · rw [translate_of_leadsTo hsource, ← translate_of_leadsTo hlead]
      exact hf

end Memory

namespace Tree

variable {m : Memory} {s : AddressSpace} {asked : Page → Flags} {τ : Tables} {a : VirtAddr}
  {kept : Nat → Prop}

/-- A walk in a space's own half looks into the space's tables. -/
theorem walkFrames_subset (ht : Tree m s asked τ) (ha : s.accepts (.containing a) = true) :
    ∀ {l t}, l ≤ 3 → τ l ((Page.containing a).stem l) = some t →
      ∀ f ∈ m.walkFrames a l t, f ∈ s.tableFrames := by
  intro l
  induction l with
  | zero =>
    intro t _ htable f hf
    rw [List.mem_singleton.mp hf]
    exact ht.owned htable
  | succ l ih =>
    intro t hl htable f hf
    have hlead := ht.inner ha (by omega) htable
    unfold Memory.walkFrames at hf
    simp only [VirtAddr.index_eq] at hf
    rcases List.mem_cons.mp hf with rfl | hf
    · exact ht.owned htable
    · split at hf
      · next hcond =>
        cases hnext : τ l ((Page.containing a).stem l) with
        | none =>
          rw [hlead.eq_unused hnext] at hcond
          exact absurd hcond (by decide)
        | some next =>
          rw [hnext] at hlead
          rw [hlead.2.2] at hf
          exact ih (by omega) hnext f hf
      · cases hf

/-- **An address of a space's own half depends on frames of the space.** -/
theorem guarded (ht : Tree m s asked τ) (ha : s.accepts (.containing a) = true)
    (hkept : ∀ f ∈ s.ownedFrames, kept f) : m.Guarded kept s.root a := by
  refine ⟨fun f hf => hkept f ?_, fun t htranslate => ?_⟩
  · exact AddressSpace.mem_ownedFrames (ht.walkFrames_subset ha (Nat.le_refl 3) (ht.root ha) f hf)
  · obtain ⟨f, hf, haddress⟩ := ht.lands ha t htranslate
    exact ⟨f, hkept f (s.data_subset_ownedFrames hf), haddress⟩

end Tree

/-- **The same is seen at every address that depends on kept frames only.** -/
theorem Vm.SameView.of_guarded {s : AddressSpace} {vm vm' : Vm} {kept : Nat → Prop}
    (hm : ∀ f, kept f → vm.ram.memory.SameFrame vm'.ram.memory f) :
    vm.SameView (vm.ram.memory.Guarded kept s.root) s vm' := by
  have htranslate : ∀ a, vm.ram.memory.Guarded kept s.root a → vm'.translate s a = vm.translate s a :=
    fun a ha => Memory.translateFrom_congr fun t ht => hm t (ha.tables t ht)
  refine ⟨htranslate, fun start length hseen => ?_⟩
  refine Memory.readBytesFrom_congr s.root start 0 length fun a hfirst hlast => ?_
  have ha := hseen a hfirst hlast
  exact ⟨htranslate a ha, fun t ht => (ha.target t ht).imp fun f hf => ⟨hm f hf.1, hf.2⟩⟩

theorem Vm.SameView.mono {seen seen' : VirtAddr → Prop} {s : AddressSpace} {vm vm' : Vm}
    (h : vm.SameView seen s vm') (hle : ∀ a, seen' a → seen a) : vm.SameView seen' s vm' :=
  ⟨fun a ha => h.translate a (hle a ha),
    fun start length hseen => h.read start length fun a h₁ h₂ => hle a (hseen a h₁ h₂)⟩

end KernelCore
