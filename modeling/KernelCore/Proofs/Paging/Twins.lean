/-
# Tables do not depend on what free frames held

A frame is handed out as it is, with all that its last owner left in it.  For a table that makes no
difference: a root is cleared before the kernel's half is copied into it, any other table is cleared when it
is linked, and no entry of a table is looked at earlier.  So two managers that differ in what memory holds,
and agree on the root of the kernel, make a new space alike (`Alike`).  It is the same space, the frames of
its tables hold the same, and every other frame holds in each of them what it held before (`Memory.Joint`).
One of the others is the frame of the new space's page, which nobody clears.

* `Alike.bind`, `Alike.elim`: two runs of a sequence, step by step;
* `Vm.Blind`: what neither looks at memory nor changes it;
* `alike_map`: mapping the first page of a space;
* `alike_createSpaceWith`: making a space with its page.
-/
import KernelCore.Proofs.Paging.Spaces

namespace KernelCore

/-! ## 1. Runs that end alike -/

variable {ε σ α β : Type}

/-- **Two runs end alike**: both are done with one result, or both stop for one reason, and their states are
related as it says for either end. -/
def Alike (r r' : EStateM.Result ε σ α) (P : α → σ → σ → Prop) (Q : σ → σ → Prop) : Prop :=
  match r, r' with
  | .ok a s, .ok a' s' => a' = a ∧ P a s s'
  | .error e s, .error e' s' => e' = e ∧ Q s s'
  | _, _ => False

namespace Alike

variable {r r' : EStateM.Result ε σ α} {P P' : α → σ → σ → Prop} {Q Q' : σ → σ → Prop} {s s' : σ}

/-- Both are done, or both stop. -/
@[elab_as_elim]
theorem elim {motive : EStateM.Result ε σ α → EStateM.Result ε σ α → Prop} (h : Alike r r' P Q)
    (done : ∀ a s s', P a s s' → motive (.ok a s) (.ok a s'))
    (stopped : ∀ e s s', Q s s' → motive (.error e s) (.error e s')) : motive r r' := by
  match r, r', h with
  | .ok a s, .ok _ s', ⟨rfl, h⟩ => exact done a s s' h
  | .error e s, .error _ s', ⟨rfl, h⟩ => exact stopped e s s' h

theorem cases (h : Alike r r' P Q) : (∃ a s s', r = .ok a s ∧ r' = .ok a s' ∧ P a s s') ∨
    ∃ e s s', r = .error e s ∧ r' = .error e s' ∧ Q s s' :=
  h.elim (fun a s s' h => Or.inl ⟨a, s, s', rfl, rfl, h⟩) fun e s s' h => Or.inr ⟨e, s, s', rfl, rfl, h⟩

theorem mono (h : Alike r r' P Q) (hdone : ∀ a s s', P a s s' → P' a s s')
    (hstopped : ∀ s s', Q s s' → Q' s s') : Alike r r' P' Q' :=
  h.elim (fun a s s' h => ⟨rfl, hdone a s s' h⟩) fun _ s s' h => ⟨rfl, hstopped s s' h⟩

theorem of_ok {a : α} (hr : r = .ok a s) (hr' : r' = .ok a s') (h : P a s s') : Alike r r' P Q := by
  subst hr hr'
  exact ⟨rfl, h⟩

theorem of_error {e : ε} (hr : r = .error e s) (hr' : r' = .error e s') (h : Q s s') :
    Alike r r' P Q := by
  subst hr hr'
  exact ⟨rfl, h⟩

/-- If one is done, so is the other. -/
theorem exists_ok {a : α} (h : Alike r r' P Q) (hr : r = .ok a s) : ∃ s', r' = .ok a s' ∧ P a s s' := by
  subst hr
  match r', h with
  | .ok _ s', ⟨rfl, h⟩ => exact ⟨s', rfl, h⟩

/-- What is known of the first of them if it is done. -/
theorem and {R : α → σ → Prop} (h : Alike r r' P Q) (hr : ∀ a s, r = .ok a s → R a s) :
    Alike r r' (fun a s s' => P a s s' ∧ R a s) Q := by
  match r, r', h with
  | .ok a s, .ok _ s', ⟨rfl, h⟩ => exact ⟨rfl, h, hr a s rfl⟩
  | .error _ _, .error _ _, h => exact h

/-- Two runs that branch alike. -/
theorem ite {p q : Prop} [Decidable p] [Decidable q] {r₁ r₂ r₁' r₂' : EStateM.Result ε σ α} (hpq : q ↔ p)
    (hpos : p → Alike r₁ r₁' P Q) (hneg : ¬p → Alike r₂ r₂' P Q) :
    Alike (if p then r₁ else r₂) (if q then r₁' else r₂') P Q := by
  by_cases hp : p
  · rw [if_pos hp, if_pos (hpq.mpr hp)]
    exact hpos hp
  · rw [if_neg hp, if_neg fun hq => hp (hpq.mp hq)]
    exact hneg hp

/-- Two runs of a sequence end alike if those of its halves do. -/
theorem bind {x : EStateM ε σ α} {f : α → EStateM ε σ β} {P' : β → σ → σ → Prop}
    (hx : Alike (x s) (x s') P Q) (hf : ∀ a s₁ s₁', P a s₁ s₁' → Alike (f a s₁) (f a s₁') P' Q) :
    Alike ((x >>= f) s) ((x >>= f) s') P' Q := by
  match hr : x s, hr' : x s', hx with
  | .ok a s₁, .ok _ s₁', ⟨rfl, h⟩ =>
    rw [bind_of_ok hr, bind_of_ok hr']
    exact hf _ _ _ h
  | .error e s₁, .error _ s₁', ⟨rfl, h⟩ =>
    rw [bind_of_error hr, bind_of_error hr']
    exact ⟨rfl, h⟩

end Alike

/-! ## 2. Two memories -/

namespace Memory

variable {m₀ n₀ m n : Memory} {tables : List Nat} {table index frame source : Nat}

/-- **The tables are joint**: their frames hold the same in both memories, and every other frame holds in each
of them what it held before. -/
structure Joint (m₀ n₀ : Memory) (tables : List Nat) (m n : Memory) : Prop where
  same : ∀ t ∈ tables, m.SameFrame n t
  others : ∀ f ∉ tables, m₀.SameFrame m f ∧ n₀.SameFrame n f

/-- Before there are tables. -/
theorem Joint.start (m₀ n₀ : Memory) : Joint m₀ n₀ [] m₀ n₀ :=
  ⟨fun _ ht => (List.not_mem_nil ht).elim, fun _ _ => ⟨.refl _ _, .refl _ _⟩⟩

/-- The same bytes stored in both. -/
theorem SameFrame.write (h : m.SameFrame n frame) (a : Nat) (bytes : List UInt8) :
    (m.write a bytes).SameFrame (n.write a bytes) frame := by
  intro b hb
  rw [byte_write, byte_write, h b hb]

/-- The same entry written in both. -/
theorem SameFrame.setEntry (h : m.SameFrame n frame) (table index : Nat) (e : Entry) :
    (m.setEntry table index e).SameFrame (n.setEntry table index e) frame := h.write _ _

/-- A page that is cleared in both. -/
theorem SameFrame.clearPage (h : m.SameFrame n frame) (table : Nat) :
    (m.clearPage table).SameFrame (n.clearPage table) frame := by
  intro b hb
  rw [byte_clearPage, byte_clearPage, h b hb]

/-- A page that is cleared in both holds the same. -/
theorem sameFrame_clearPage_clearPage (m n : Memory) (table : Nat) :
    (m.clearPage table).SameFrame (n.clearPage table) table := by
  intro b hb
  rw [byte_clearPage, byte_clearPage, if_pos hb, if_pos hb]

/-- An upper half that is copied in both. -/
theorem SameFrame.copyUpperHalf (h : m.SameFrame n frame) (hsource : m.SameFrame n source) (target : Nat) :
    (m.copyUpperHalf source target).SameFrame (n.copyUpperHalf source target) frame := by
  -- The entries are read while others are being written, so both frames stay the same along the way.
  have hfold : ∀ (indices : List Nat) (m n : Memory), (∀ i ∈ indices, i < tableEntries) →
      m.SameFrame n frame → m.SameFrame n source →
        (indices.foldl (fun m i => m.setEntry target i (m.entry source i)) m).SameFrame
          (indices.foldl (fun m i => m.setEntry target i (m.entry source i)) n) frame := by
    intro indices
    induction indices with
    | nil => exact fun _ _ _ h _ => h
    | cons i rest ih =>
      intro m n hlt h hsource
      have hentry : n.entry source i = m.entry source i := hsource.entry_eq (hlt i List.mem_cons_self)
      rw [List.foldl_cons, List.foldl_cons, hentry]
      exact ih _ _ (fun j hj => hlt j (List.mem_cons_of_mem _ hj)) (h.setEntry _ _ _) (hsource.setEntry _ _ _)
  exact hfold _ m n (fun _ hi => (mem_upperIndices hi).2) h hsource

/-- An entry of a joint table. -/
theorem Joint.entry_eq (h : Joint m₀ n₀ tables m n) (ht : table ∈ tables) (hindex : index < tableEntries) :
    n.entry table index = m.entry table index := (h.same table ht).entry_eq hindex

/-- An entry of a joint table that is written in both. -/
theorem Joint.setEntry (h : Joint m₀ n₀ tables m n) (ht : table ∈ tables) (hindex : index < tableEntries)
    (e : Entry) : Joint m₀ n₀ tables (m.setEntry table index e) (n.setEntry table index e) := by
  refine ⟨fun t ht => (h.same t ht).setEntry _ _ _, fun f hf => ?_⟩
  have hne : f ≠ table := fun he => hf (he ▸ ht)
  exact ⟨(h.others f hf).1.trans (sameFrame_setEntry e hindex hne),
    (h.others f hf).2.trans (sameFrame_setEntry e hindex hne)⟩

/-- A frame that is cleared in both becomes a joint table. -/
theorem Joint.clearPage (h : Joint m₀ n₀ tables m n) (frame : Nat) :
    Joint m₀ n₀ (tables ++ [frame]) (m.clearPage frame) (n.clearPage frame) := by
  constructor
  · intro t ht
    rcases List.mem_append.mp ht with ht | ht
    · exact (h.same t ht).clearPage frame
    · rw [List.mem_singleton.mp ht]
      exact sameFrame_clearPage_clearPage m n frame
  · intro f hf
    rw [List.mem_append, not_or] at hf
    have hne : f ≠ frame := fun he => hf.2 (he ▸ List.mem_cons_self)
    exact ⟨(h.others f hf.1).1.trans (sameFrame_clearPage hne),
      (h.others f hf.1).2.trans (sameFrame_clearPage hne)⟩

/-- A new root, with the upper half of one that is the same in both. -/
theorem joint_newRoot (hsource : m₀.SameFrame n₀ source) (root : Nat) :
    Joint m₀ n₀ [root] ((m₀.clearPage root).copyUpperHalf source root)
      ((n₀.clearPage root).copyUpperHalf source root) := by
  constructor
  · intro t ht
    rw [List.mem_singleton.mp ht]
    exact (sameFrame_clearPage_clearPage m₀ n₀ root).copyUpperHalf (hsource.clearPage root) root
  · intro f hf
    have hne : f ≠ root := fun he => hf (he ▸ List.mem_cons_self)
    exact ⟨sameFrame_newRoot _ _ hne, sameFrame_newRoot _ _ hne⟩

end Memory

/-! ## 3. Mapping the first page -/

namespace Mapper

variable {m₀ n₀ : Memory} {s s' : Ram × AddressSpace} {page : Page} {leaf flags : Flags}
  {table index level frame : Nat}

/-- One space over two memories, whose tables are joint. -/
def Joint (m₀ n₀ : Memory) (s s' : Ram × AddressSpace) : Prop :=
  ∃ n, s' = ({ s.1 with memory := n }, s.2) ∧ Memory.Joint m₀ n₀ s.2.tableFrames s.1.memory n

/-- A table of a space that has no entry in use. -/
def Blank (s : Ram × AddressSpace) (table : Nat) : Prop :=
  table ∈ s.2.tableFrames ∧ ∀ index < tableEntries, s.1.memory.entry table index = .unused

/-- **A step down from an entry that is not in use** draws the same table, which is blank. -/
theorem alike_descend (h : Joint m₀ n₀ s s') (page : Page) (leaf : Flags) (htable : table ∈ s.2.tableFrames)
    (hindex : index < tableEntries) (hunused : s.1.memory.entry table index = .unused) :
    Alike (descend page leaf table index s) (descend page leaf table index s')
      (fun next s s' => Joint m₀ n₀ s s' ∧ Blank s next) (Joint m₀ n₀) := by
  obtain ⟨ram, space⟩ := s
  obtain ⟨n, rfl, hm⟩ := h
  have hunused' : n.entry table index = .unused := (hm.entry_eq htable hindex).trans hunused
  cases hok : ram.pool.allocate with
  | error e =>
    exact .of_error (descend_of_error page leaf hunused hok) (descend_of_error page leaf hunused' hok)
      ⟨n, rfl, hm⟩
  | ok r =>
    obtain ⟨frame, pool⟩ := r
    have hdrawn : frame ∈ (space.addTable frame).tableFrames := by
      rw [AddressSpace.tableFrames_addTable]
      exact List.mem_append_right _ List.mem_cons_self
    refine .of_ok (descend_of_ok page leaf hunused hok) (descend_of_ok page leaf hunused' hok)
      ⟨⟨_, rfl, ?_⟩, hdrawn, fun i hi => Memory.entry_clearPage_self hi⟩
    exact (hm.setEntry htable hindex _).clearPage frame

/-- **The way down** through tables that are missing. -/
theorem alike_reach (page : Page) (leaf : Flags) : ∀ {level table : Nat} {s s' : Ram × AddressSpace},
    Joint m₀ n₀ s s' → table ∈ s.2.tableFrames →
      s.1.memory.entry table (page.index level) = .unused →
        Alike (reach page leaf level table s) (reach page leaf level table s')
          (fun last s s' => Joint m₀ n₀ s s' ∧ last ∈ s.2.tableFrames) (Joint m₀ n₀) := by
  intro level
  induction level with
  | zero => exact fun h htable _ => ⟨rfl, h, htable⟩
  | succ level ih =>
    intro table s s' h htable hunused
    refine (alike_descend h page leaf htable (page.index_lt _) hunused).bind fun next s₁ s₁' h₁ => ?_
    exact ih h₁.1 h₁.2.1 (h₁.2.2 _ (page.index_lt _))

/-- What a table of the space says of the page is the same, and so is what becomes of it. -/
theorem alike_writeLeaf (h : Joint m₀ n₀ s s') (page : Page) (frame : Nat) (flags : Flags)
    (htable : table ∈ s.2.tableFrames) :
    Alike (writeLeaf page frame flags table s) (writeLeaf page frame flags table s')
      (fun _ => Joint m₀ n₀) (Joint m₀ n₀) := by
  obtain ⟨ram, space⟩ := s
  obtain ⟨n, rfl, hm⟩ := h
  have hsame : n.entry table (page.index 0) = ram.memory.entry table (page.index 0) :=
    hm.entry_eq htable (page.index_lt 0)
  unfold writeLeaf
  dsimp only
  rw [hsame]
  split
  · exact ⟨rfl, n, rfl, hm⟩
  · split
    · exact ⟨rfl, n, rfl, hm⟩
    · exact ⟨rfl, _, rfl, hm.setEntry htable (page.index_lt 0) _⟩

/-- **Mapping a page** in a space whose root says nothing about it. -/
theorem alike_map (h : Joint m₀ n₀ s s') (page : Page) (frame : Nat) (flags : Flags)
    (hunused : s.1.memory.entry s.2.root (page.index 3) = .unused) :
    Alike (map page frame flags s) (map page frame flags s') (fun _ => Joint m₀ n₀) (Joint m₀ n₀) := by
  obtain ⟨ram, space⟩ := s
  obtain ⟨n, rfl, hm⟩ := h
  have hstopped : Joint m₀ n₀ (ram, space) ({ ram with memory := n }, space) := ⟨n, rfl, hm⟩
  unfold map
  dsimp only
  split
  · exact ⟨rfl, hstopped⟩
  · split
    · exact ⟨rfl, hstopped⟩
    · cases Frame.address frame with
      | error halt => exact ⟨rfl, hstopped⟩
      | ok _ =>
        refine (alike_reach page _ hstopped List.mem_cons_self hunused).bind fun last s₁ s₁' h₁ => ?_
        refine (alike_writeLeaf h₁.1 page frame _ h₁.2).bind fun _ s₂ s₂' h₂ => ?_
        obtain ⟨n₂, rfl, hm₂⟩ := h₂
        exact ⟨rfl, n₂, rfl, hm₂⟩

end Mapper

/-! ## 4. Making a space -/

namespace Vm

variable {m₀ n₀ : Memory} {vm vm' : Vm} {s s' : Vm × AddressSpace} {tables : List Nat}

/-- The manager over another memory. -/
def withMemory (vm : Vm) (n : Memory) : Vm := { vm with ram := { vm.ram with memory := n } }

/-- One manager over two memories, in which some tables are joint. -/
def Joint (m₀ n₀ : Memory) (tables : List Nat) (vm vm' : Vm) : Prop :=
  ∃ n, vm' = vm.withMemory n ∧ Memory.Joint m₀ n₀ tables vm.ram.memory n

/-- One manager over the two memories. -/
def Veiled (m n : Memory) (vm vm' : Vm) : Prop := vm.ram.memory = m ∧ vm' = vm.withMemory n

/-- **The operation is blind**: it neither looks at memory nor changes it. -/
def Blind (op : Op α) : Prop := ∀ m n vm vm', Veiled m n vm vm' →
  Alike (op vm) (op vm') (fun _ => Veiled m n) (Veiled m n)

/-- What is blind leaves tables joint. -/
theorem Blind.joint {op : Op α} (hop : Blind op) (h : Joint m₀ n₀ tables vm vm') :
    Alike (op vm) (op vm') (fun _ => Joint m₀ n₀ tables) (Joint m₀ n₀ tables) := by
  obtain ⟨n, rfl, hm⟩ := h
  refine (hop _ n vm _ ⟨rfl, rfl⟩).mono ?_ ?_
  · rintro _ vm₁ _ ⟨hmemory, rfl⟩
    exact ⟨n, rfl, hmemory ▸ hm⟩
  · rintro vm₁ _ ⟨hmemory, rfl⟩
    exact ⟨n, rfl, hmemory ▸ hm⟩

theorem blind_refuse (e : PagingError) : Blind (refuse e : Op α) := fun _ _ _ _ h => ⟨rfl, h⟩

/-- A frame is given back without a look at it. -/
theorem blind_giveFrame (frame : Nat) : Blind (giveFrame frame) := by
  rintro m n vm _ ⟨rfl, rfl⟩
  unfold giveFrame
  dsimp only [withMemory]
  cases vm.ram.pool.release frame with
  | error e => exact ⟨rfl, rfl, rfl⟩
  | ok pool => exact ⟨rfl, rfl, rfl⟩

/-- And so are all frames of a space. -/
theorem blind_destroySpace (space : AddressSpace) : Blind (destroySpace space) := by
  rintro m n vm _ ⟨rfl, rfl⟩
  unfold destroySpace
  refine .ite Iff.rfl (fun _ => ⟨rfl, rfl, rfl⟩) fun _ => ?_
  dsimp only [withMemory]
  cases (releaseFrames space.ownedFrames vm.ram.pool).1 with
  | error e => exact ⟨rfl, rfl, rfl⟩
  | ok released => exact ⟨rfl, rfl, rfl⟩

/-- One manager over two memories, with one space whose tables are joint. -/
def JointOn (m₀ n₀ : Memory) (s s' : Vm × AddressSpace) : Prop :=
  s'.2 = s.2 ∧ Joint m₀ n₀ s.2.tableFrames s.1 s'.1

/-- An operation of the mapper, on a space of the caller. -/
theorem alike_onSpace {op : Mapper α} {n : Memory} {space : AddressSpace}
    (h : Alike (op (vm.ram, space)) (op ({ vm.ram with memory := n }, space))
      (fun _ => Mapper.Joint m₀ n₀) (Mapper.Joint m₀ n₀)) :
    Alike (onSpace op (vm, space)) (onSpace op (vm.withMemory n, space))
      (fun _ => JointOn m₀ n₀) (JointOn m₀ n₀) := by
  unfold onSpace
  dsimp only
  refine h.elim ?_ ?_
  · rintro a ⟨ram, space⟩ _ ⟨n, rfl, hm⟩
    exact ⟨rfl, rfl, n, rfl, hm⟩
  · rintro e ⟨ram, space⟩ _ ⟨n, rfl, hm⟩
    exact ⟨rfl, rfl, n, rfl, hm⟩

/-- Beside a space, what is blind leaves its tables joint. -/
theorem Blind.besideSpace {op : Op α} (hop : Blind op) (h : JointOn m₀ n₀ s s') :
    Alike (onVm op s) (onVm op s') (fun _ => JointOn m₀ n₀) (JointOn m₀ n₀) := by
  obtain ⟨vm, space⟩ := s
  obtain ⟨vm', space'⟩ := s'
  obtain ⟨hspace, h⟩ := h
  cases hspace
  have hends := hop.joint h
  unfold onVm
  dsimp only at hends ⊢
  refine hends.elim ?_ ?_
  · exact fun a _ _ h => ⟨rfl, rfl, h⟩
  · exact fun e _ _ h => ⟨rfl, rfl, h⟩

/-- The frame of a space's page. -/
theorem alike_mapUserPage (h : JointOn m₀ n₀ s s') (page : Page) (frame : Nat)
    (hunused : s.1.ram.memory.entry s.2.root (page.index 3) = .unused) :
    Alike (mapUserPage page frame s) (mapUserPage page frame s') (fun _ => JointOn m₀ n₀)
      (JointOn m₀ n₀) := by
  obtain ⟨vm, space⟩ := s
  obtain ⟨vm', space'⟩ := s'
  obtain ⟨hspace, n, hvm, hm⟩ := h
  cases hspace
  cases hvm
  have hmap := Mapper.alike_map (s := (vm.ram, space)) ⟨n, rfl, hm⟩ page frame .userData hunused
  unfold mapUserPage map
  refine (alike_onSpace hmap).elim ?_ ?_
  · exact fun _ _ _ h₁ => ⟨rfl, h₁⟩
  · rintro (e | halt) s₁ s₁' h₁
    · refine ((blind_giveFrame frame).besideSpace h₁).bind fun _ s₂ s₂' h₂ => ?_
      exact (blind_refuse e).besideSpace h₂
    · exact ⟨rfl, h₁⟩

theorem createSpace_eq_error {e : FrameError} (he : vm.ram.pool.allocate = .error e) :
    createSpace vm = .error (.refused (.ofFrame e)) vm := by
  unfold createSpace
  simp only [he]
  rfl

/-- A new space in both of them: its root is the frame that is handed out, and it is vacant. -/
theorem exists_createSpace {page : Page} (hlow : page.isUpper = false) {n : Memory}
    (hkernel : vm.ram.memory.SameFrame n vm.kernel.root) {root : Nat} {pool : FramePool}
    (hok : vm.ram.pool.allocate = .ok (root, pool)) : ∃ m n₁,
      createSpace vm = .ok (.ofRoot .user root) { vm with ram := ⟨m, pool⟩ } ∧
        createSpace (vm.withMemory n) = .ok (.ofRoot .user root) { vm with ram := ⟨n₁, pool⟩ } ∧
          Memory.Joint vm.ram.memory n [root] m n₁ ∧ Mapper.Vacant m (.ofRoot .user root) page := by
  have hcreated : createSpace vm = .ok (.ofRoot .user root) { vm with
      ram := ⟨(vm.ram.memory.clearPage root).copyUpperHalf vm.kernel.root root, pool⟩ } := by
    unfold createSpace
    simp only [hok]
  have hcreated' : createSpace (vm.withMemory n) = .ok (.ofRoot .user root) { vm with
      ram := ⟨(n.clearPage root).copyUpperHalf vm.kernel.root root, pool⟩ } := by
    unfold createSpace withMemory
    simp only [hok]
  have hvacant := (vacant_createSpace hlow vm).of_eq_ok hcreated
  dsimp only at hvacant
  exact ⟨_, _, hcreated, hcreated', Memory.joint_newRoot hkernel root, hvacant⟩

theorem JointOn.ofRoot {m n n₁ : Memory} {root : Nat} (hm : Memory.Joint vm.ram.memory n [root] m n₁)
    (pool : FramePool) : JointOn vm.ram.memory n ({ vm with ram := ⟨m, pool⟩ }, .ofRoot .user root)
      ({ vm with ram := ⟨n₁, pool⟩ }, .ofRoot .user root) := ⟨rfl, n₁, rfl, hm⟩

/-- **A space with its page**, in two managers that agree on the kernel's root. -/
theorem alike_createSpaceWith {page : Page} (hlow : page.isUpper = false) {n : Memory}
    (hkernel : vm.ram.memory.SameFrame n vm.kernel.root) :
    Alike (createSpaceWith page vm) (createSpaceWith page (vm.withMemory n))
      (fun space => Joint vm.ram.memory n space.tableFrames)
      fun vm₁ vm₁' => ∃ tables, Joint vm.ram.memory n tables vm₁ vm₁' := by
  have hcreate : Alike (createSpace vm) (createSpace (vm.withMemory n))
      (fun space vm₁ vm₁' => JointOn vm.ram.memory n (vm₁, space) (vm₁', space) ∧
        Mapper.Vacant vm₁.ram.memory space page)
      fun vm₁ vm₁' => ∃ tables, Joint vm.ram.memory n tables vm₁ vm₁' := by
    cases hok : vm.ram.pool.allocate with
    | error e =>
      have hrefused : createSpace (vm.withMemory n) = .error (.refused (.ofFrame e)) (vm.withMemory n) :=
        createSpace_eq_error hok
      exact .of_error (createSpace_eq_error hok) hrefused ⟨[], n, rfl, .start _ _⟩
    | ok r =>
      obtain ⟨m, n₁, hcreated, hcreated', hm, hvacant⟩ := exists_createSpace hlow hkernel hok
      exact .of_ok hcreated hcreated' ⟨.ofRoot hm r.2, hvacant⟩
  refine hcreate.bind fun space vm₁ vm₁' h₁ => ?_
  obtain ⟨⟨-, n₁, rfl, hm₁⟩, hvacant⟩ := h₁
  have hpage : Alike ((onVm takeFrame >>= mapUserPage page) (vm₁, space))
      ((onVm takeFrame >>= mapUserPage page) (vm₁.withMemory n₁, space))
      (fun _ => JointOn vm.ram.memory n) (JointOn vm.ram.memory n) := by
    cases hok : vm₁.ram.pool.allocate with
    | error e =>
      have hnone : onVm takeFrame (vm₁.withMemory n₁, space) =
          .error (.refused .outOfMemory) (vm₁.withMemory n₁, space) := takeFrame_eq_error space hok
      exact .of_error (bind_of_error (takeFrame_eq_error space hok)) (bind_of_error hnone) ⟨rfl, n₁, rfl, hm₁⟩
    | ok r =>
      have hok' : (vm₁.withMemory n₁).ram.pool.allocate = .ok (r.1, r.2) := hok
      rw [bind_of_ok (takeFrame_eq space hok), bind_of_ok (takeFrame_eq space hok')]
      have htaken : JointOn vm.ram.memory n ({ vm₁ with ram := { vm₁.ram with pool := r.2 } }, space)
          ({ vm₁.withMemory n₁ with ram := { (vm₁.withMemory n₁).ram with pool := r.2 } }, space) :=
        ⟨rfl, n₁, rfl, hm₁⟩
      exact alike_mapUserPage htaken page r.1 hvacant.unused
  unfold furnish
  refine hpage.elim ?_ ?_
  · rintro _ ⟨vm₂, space₂⟩ ⟨vm₂', space₂'⟩ ⟨hspace, h₂⟩
    cases hspace
    exact ⟨rfl, h₂⟩
  · rintro (e | halt) ⟨vm₂, space₂⟩ ⟨vm₂', space₂'⟩ ⟨hspace, h₂⟩
    · cases hspace
      refine (((blind_destroySpace space₂).joint h₂).mono (fun _ _ _ h => h) fun _ _ h => ⟨_, h⟩).bind
        fun _ vm₃ vm₃' h₃ => ?_
      exact ⟨rfl, _, h₃⟩
    · exact ⟨rfl, _, h₂⟩

end Vm

end KernelCore
