/-
# Several managers over one pool

Managers of virtual memory can share the frames of one machine.  An `Estate` is the machine with its
managers, the user spaces that they have made, and the frames that callers hold.  Callers take frames
and give them back, boot managers, make spaces and take them down, map the frames that they hold in any
space with any attributes, and have regions of a kernel's space mapped, each done or refused
(`Estate.Reaches`).  In between, memory may come to hold anything, tables included: who owns which
frame does not depend on what memory says.

* `sound_run`: each call keeps the books, whichever allocation on the way fails;
* `framesOwned_of_reaches`: in every run, each used frame was used at the start, or a caller holds it,
  or one space lists it, once.
-/
import KernelCore.Proofs.Paging.Refinement
import KernelCore.Proofs.Paging.Turnover
import Mathlib.Algebra.GroupWithZero.Nat

namespace KernelCore

/-! ## 1. Estates and what happens in them -/

/-- A manager, without the physical memory that it shares with others. -/
structure Manager where
  kernel : AddressSpace
  activeRoot : Option Nat
  enabled : Bool

/-- The manager with physical memory. -/
def Manager.over (m : Manager) (ram : Ram) : Vm :=
  { ram, kernel := m.kernel, activeRoot := m.activeRoot, enabled := m.enabled }

/-- The manager in one that has physical memory. -/
def Vm.manager (vm : Vm) : Manager :=
  { kernel := vm.kernel, activeRoot := vm.activeRoot, enabled := vm.enabled }

/-- Physical memory, the managers, the user spaces, and the frames that the callers hold. -/
structure Estate where
  ram : Ram
  managers : List Manager
  guests : List AddressSpace
  held : List Nat

/-- What callers can ask for.  Managers go by their position, and so do user spaces, which any manager
may work on. -/
inductive EstateCall where
  | take
  | give (frame : Nat)
  | boot (bootRoot : Option Nat)
  | create (j : Nat)
  | map (j i : Nat) (page : Page) (frame : Nat) (flags : Flags)
  | unmap (j i : Nat) (page : Page)
  | mapRegion (j : Nat) (start : VirtAddr) (length : Nat)
  | destroy (j i : Nat)
  | load (j root : Nat)
  | enable (j : Nat)

namespace Estate

/-- Operations on an estate. -/
abbrev Op := EStateM (Stop PagingError) Estate

/-- What a manager leaves after an operation. -/
def settle (j : Nat) (vm : Vm) (e : Estate) : Estate :=
  { e with ram := vm.ram, managers := e.managers.set j vm.manager }

/-- A user space has changed. -/
def refurnish (i : Nat) (s : AddressSpace) (e : Estate) : Estate :=
  { e with guests := e.guests.set i s }

/-- The callers have got a frame. -/
def hold (frame : Nat) (e : Estate) : Estate := { e with held := frame :: e.held }

/-- A frame is no longer the callers'. -/
def drop (frame : Nat) (e : Estate) : Estate := { e with held := e.held.erase frame }

/-- There is a user space more. -/
def addGuest (s : AddressSpace) (e : Estate) : Estate := { e with guests := e.guests ++ [s] }

/-- There is a user space less. -/
def removeGuest (i : Nat) (e : Estate) : Estate := { e with guests := e.guests.eraseIdx i }

/-- The pool has changed. -/
def trade (pool : FramePool) (e : Estate) : Estate := { e with ram := { e.ram with pool } }

/-- Does an operation of a manager, and notes what came of it.  Where there is no such manager, nothing
is done. -/
def byManager {α : Type} (j : Nat) (op : Vm.Op α) (note : α → Estate → Estate) : Op Unit := fun e =>
  match e.managers[j]? with
  | none => .ok () e
  | some m =>
    match op (m.over e.ram) with
    | .ok a vm => .ok () (note a (e.settle j vm))
    | .error stop vm => .error stop (e.settle j vm)

/-- Does an operation of a manager on a user space. -/
def onGuest {α : Type} (j i : Nat) (op : Vm.SpaceOp α) (note : α → Estate → Estate) : Op Unit :=
  fun e =>
    match e.managers[j]?, e.guests[i]? with
    | some m, some s =>
      match op (m.over e.ram, s) with
      | .ok a (vm, s) => .ok () (note a ((e.settle j vm).refurnish i s))
      | .error stop (vm, s) => .error stop ((e.settle j vm).refurnish i s)
    | _, _ => .ok () e

end Estate

/-- What is done for a call. -/
def EstateCall.run : EstateCall → Estate.Op Unit
  | .take => fun e =>
    match e.ram.pool.allocate with
    | .error err => .error (.refused (.ofFrame err)) e
    | .ok (frame, pool) => .ok () ((e.trade pool).hold frame)
  | .give frame => fun e =>
    match e.ram.pool.release frame with
    | .error err => .error (.refused (.ofFrame err)) e
    | .ok pool => .ok () ((e.trade pool).drop frame)
  | .boot bootRoot => fun e =>
    match Vm.boot e.ram bootRoot with
    | .error err => .error (.refused err) e
    | .ok vm => .ok () { e with ram := vm.ram, managers := e.managers ++ [vm.manager] }
  | .create j => Estate.byManager j Vm.createSpace Estate.addGuest
  | .map j i page frame flags =>
    Estate.onGuest j i (Vm.map page frame flags) fun _ => Estate.drop frame
  | .unmap j i page => Estate.onGuest j i (Vm.unmap page) Estate.hold
  | .mapRegion j start length =>
    Estate.byManager j (Vm.mapKernelRegion start length) fun _ e => e
  | .destroy j i => fun e =>
    match e.guests[i]? with
    | none => .ok () e
    | some s => Estate.byManager j (Vm.destroySpace s) (fun _ => Estate.removeGuest i) e
  | .load j root => Estate.byManager j (modify fun vm => vm.load root) fun _ e => e
  | .enable j => Estate.byManager j Vm.enable fun _ e => e

/-- What callers keep to: they give back and map only what they hold. -/
def EstateCall.Allowed (e : Estate) : EstateCall → Prop
  | .give frame => frame ∈ e.held
  | .map _ _ _ frame _ => frame ∈ e.held
  | _ => True

namespace Estate

/-- The estates that allowed calls lead to, from a machine on which nothing has been done yet. -/
inductive Reaches (map : MemoryMap) : Estate → Prop where
  | start (memory : Memory) : Reaches map ⟨⟨memory, .ofMap map⟩, [], [], []⟩
  | written {e : Estate} (memory : Memory) : Reaches map e →
      Reaches map { e with ram := { e.ram with memory } }
  | done {e e' : Estate} {call : EstateCall} : Reaches map e → call.Allowed e →
      call.run e = .ok () e' → Reaches map e'
  | refused {e e' : Estate} {call : EstateCall} {err : PagingError} : Reaches map e →
      call.Allowed e → call.run e = .error (.refused err) e' → Reaches map e'

/-- The kernels' spaces. -/
def kernels (e : Estate) : List AddressSpace := e.managers.map Manager.kernel

/-- All spaces that there are. -/
def spaces (e : Estate) : List AddressSpace := e.kernels ++ e.guests

/-- The frames of some spaces. -/
def frames (l : List AddressSpace) : List Nat := l.flatMap AddressSpace.ownedFrames

/-- The frames that have been handed out: those of the kernels' spaces, those of the user spaces, and
those that callers hold. -/
def owned (e : Estate) : List Nat := frames e.kernels ++ (frames e.guests ++ e.held)

variable {map : MemoryMap} {e e' : Estate} {i j frame : Nat} {m : Manager} {vm : Vm}
  {s s' : AddressSpace} {page : Page} {flags : Flags} {α : Type}

/-! ## 2. Books of an estate -/

/-- **The books of an estate.**  What has been handed out, together with what was used at the start, is a
right list of owned frames; and no user space has two entries for a page. -/
structure Sound (map : MemoryMap) (e : Estate) : Prop where
  trades : (FramePool.ofMap map).Trades e.ram.pool
  books : e.ram.pool.Holds 0 (e.owned ++ (FramePool.ofMap map).usedFrames)
  distinct : ∀ s ∈ e.guests, (s.pages.map Prod.fst).Nodup

theorem Sound.counted (h : e.Sound map) : e.ram.pool.Counted := h.trades.counted (.ofMap map)

/-- What is owned beside the kernel's space of a manager. -/
def besideKernel (e : Estate) (j : Nat) : List Nat :=
  frames (e.kernels.eraseIdx j) ++ (frames e.guests ++ e.held)

/-- What is owned beside a user space, when callers hold some frames. -/
def besideGuest (e : Estate) (i : Nat) (held : List Nat) : List Nat :=
  frames e.kernels ++ (frames (e.guests.eraseIdx i) ++ held)

theorem frames_perm {l l' : List AddressSpace} (h : l.Perm (s :: l')) :
    (frames l).Perm (s.ownedFrames ++ frames l') := h.flatMap_right _

theorem frames_append (l l' : List AddressSpace) : frames (l ++ l') = frames l ++ frames l' :=
  List.flatMap_append

theorem getElem?_kernels (hj : e.managers[j]? = some m) : e.kernels[j]? = some m.kernel := by
  rw [kernels, List.getElem?_map, hj]
  rfl

theorem kernels_settle (j : Nat) (vm : Vm) (e : Estate) :
    (e.settle j vm).kernels = e.kernels.set j vm.kernel :=
  List.map_set

/-- A manager that keeps its kernel's space changes no space. -/
theorem kernels_settle_of_eq (hj : e.managers[j]? = some m) (hkernel : vm.kernel = m.kernel) :
    (e.settle j vm).kernels = e.kernels := by
  obtain ⟨hlt, heq⟩ := List.getElem?_eq_some_iff.mp (getElem?_kernels hj)
  rw [kernels_settle, hkernel, ← heq, List.set_getElem_self]

/-- The frames of one kernel's space, taken out of all. -/
theorem owned_kernel (hj : e.managers[j]? = some m) :
    e.owned.Perm (m.kernel.ownedFrames ++ e.besideKernel j) := by
  have h := (frames_perm (perm_eraseIdx (getElem?_kernels hj))).append_right (frames e.guests ++ e.held)
  rwa [List.append_assoc] at h

theorem owned_settle (hj : e.managers[j]? = some m) (vm : Vm) :
    (e.settle j vm).owned.Perm (vm.kernel.ownedFrames ++ e.besideKernel j) := by
  have h := (frames_perm (perm_set (getElem?_kernels hj) vm.kernel)).append_right
    (frames e.guests ++ e.held)
  rw [List.append_assoc, ← kernels_settle] at h
  exact h

/-- The frames of one user space, taken out of all. -/
theorem owned_guest (hi : e.guests[i]? = some s) :
    e.owned.Perm (s.ownedFrames ++ e.besideGuest i e.held) := by
  have h := ((frames_perm (perm_eraseIdx hi)).append_right e.held).append_left (frames e.kernels)
  rw [List.append_assoc] at h
  exact h.trans (List.perm_append_comm_assoc _ _ _)

theorem owned_refurnish (hi : e.guests[i]? = some s) (s' : AddressSpace) :
    (e.refurnish i s').owned.Perm (s'.ownedFrames ++ e.besideGuest i e.held) := by
  have h := ((frames_perm (perm_set hi s')).append_right e.held).append_left (frames e.kernels)
  rw [List.append_assoc] at h
  exact h.trans (List.perm_append_comm_assoc _ _ _)

/-- A held frame, set aside. -/
theorem besideGuest_perm (e : Estate) (i : Nat) {held held' : List Nat}
    (hperm : held.Perm (frame :: held')) :
    (e.besideGuest i held).Perm (frame :: e.besideGuest i held') :=
  (((hperm.append_left _).trans List.perm_middle).append_left _).trans List.perm_middle

/-- The books, with what is owned in any order. -/
theorem Sound.books_of {l : List Nat} (h : e.Sound map) (hperm : e.owned.Perm l) :
    e.ram.pool.Holds 0 (l ++ (FramePool.ofMap map).usedFrames) :=
  h.books.perm (hperm.append_right _)

/-- The books of an estate, with the kernels' spaces given, from a list of what is owned in any order. -/
theorem Sound.of_books {ram : Ram} {managers : List Manager} {guests kernels : List AddressSpace}
    {held l : List Nat} (htrades : (FramePool.ofMap map).Trades ram.pool)
    (hbooks : ram.pool.Holds 0 (l ++ (FramePool.ofMap map).usedFrames))
    (hkernels : managers.map Manager.kernel = kernels)
    (hperm : (frames kernels ++ (frames guests ++ held)).Perm l)
    (hdistinct : ∀ s ∈ guests, (s.pages.map Prod.fst).Nodup) :
    Sound map ⟨ram, managers, guests, held⟩ := by
  subst hkernels
  exact ⟨htrades, hbooks.perm (hperm.append_right _).symm, hdistinct⟩

/-! ## 3. Each call keeps the books -/

/-- What a manager's operation leaves, with what is noted of it. -/
theorem sound_byManager {op : Vm.Op α} {note : α → Estate → Estate} (h : e.Sound map)
    (hop : ∀ m, e.managers[j]? = some m → Outcome (op (m.over e.ram))
      (fun a vm => (note a (e.settle j vm)).Sound map) fun _ vm => (e.settle j vm).Sound map) :
    Outcome (byManager j op note e) (fun _ e' => e'.Sound map) fun _ e' => e'.Sound map := by
  unfold byManager
  cases hj : e.managers[j]? with
  | none => exact h
  | some m =>
    dsimp only
    match op (m.over e.ram), hop m hj with
    | .ok a vm, h => exact h
    | .error (.refused _) vm, h => exact h
    | .error (.halted _) _, _ => exact True.intro

theorem sound_onGuest {op : Vm.SpaceOp α} {note : α → Estate → Estate} (h : e.Sound map)
    (hop : ∀ m s, e.managers[j]? = some m → e.guests[i]? = some s → Outcome (op (m.over e.ram, s))
      (fun a r => (note a ((e.settle j r.1).refurnish i r.2)).Sound map)
      fun _ r => ((e.settle j r.1).refurnish i r.2).Sound map) :
    Outcome (onGuest j i op note e) (fun _ e' => e'.Sound map) fun _ e' => e'.Sound map := by
  unfold onGuest
  cases hj : e.managers[j]? with
  | none => exact h
  | some m =>
    cases hi : e.guests[i]? with
    | none => exact h
    | some s =>
      dsimp only
      match op (m.over e.ram, s), hop m s hj hi with
      | .ok a (vm, s'), h => exact h
      | .error (.refused _) (vm, s'), h => exact h
      | .error (.halted _) _, _ => exact True.intro

/-- The pool is the same, and no space has changed. -/
theorem Sound.settle (h : e.Sound map) (hj : e.managers[j]? = some m) (hpool : vm.ram.pool = e.ram.pool)
    (hkernel : vm.kernel = m.kernel) : (e.settle j vm).Sound map := by
  refine Sound.of_books (l := e.owned) ?_ ?_ (kernels_settle_of_eq hj hkernel) (List.Perm.refl _)
    h.distinct
  · exact hpool.symm ▸ h.trades
  · exact hpool.symm ▸ h.books

theorem sound_take (h : e.Sound map) : Outcome (EstateCall.run .take e)
    (fun _ e' => e'.Sound map) fun _ e' => e'.Sound map := by
  unfold EstateCall.run
  dsimp only
  split
  · exact h
  · next frame pool hok =>
    refine Sound.of_books (l := frame :: e.owned) (h.trades.take hok) (h.books.of_allocate hok) rfl ?_
      h.distinct
    exact (List.perm_middle.append_left _).trans List.perm_middle

theorem sound_give (h : e.Sound map) (hframe : frame ∈ e.held) :
    Outcome (EstateCall.run (.give frame) e) (fun _ e' => e'.Sound map) fun _ e' => e'.Sound map := by
  have hperm : e.owned.Perm (frame :: (e.drop frame).owned) := by
    refine List.Perm.trans (List.Perm.append_left _ ?_) List.perm_middle
    exact ((List.perm_cons_erase hframe).append_left _).trans List.perm_middle
  obtain ⟨pool, hgive, hp⟩ := (h.books_of hperm).exists_release
  unfold EstateCall.run
  simp only [hgive]
  exact ⟨h.trades.give hgive, hp, h.distinct⟩

/-- **A manager more** has one frame, for its root. -/
theorem sound_boot (h : e.Sound map) (bootRoot : Option Nat) :
    Outcome (EstateCall.run (.boot bootRoot) e) (fun _ e' => e'.Sound map) fun _ e' => e'.Sound map := by
  unfold EstateCall.run
  dsimp only
  cases hboot : Vm.boot e.ram bootRoot with
  | error err => exact h
  | ok vm =>
    obtain ⟨hok, hkernel, -⟩ := Vm.eq_of_boot hboot
    have hkernels : (e.managers ++ [vm.manager]).map Manager.kernel =
        e.kernels ++ [.ofRoot .kernel vm.kernel.root] := by
      rw [← hkernel, List.map_append]
      rfl
    refine Sound.of_books (l := vm.kernel.root :: e.owned) (h.trades.take hok)
      (h.books.of_allocate hok) hkernels ?_ h.distinct
    rw [frames_append, List.append_assoc]
    exact List.perm_middle

/-- **A user space more** has one frame, for its root. -/
theorem sound_create (h : e.Sound map) (j : Nat) : Outcome (EstateCall.run (.create j) e)
    (fun _ e' => e'.Sound map) fun _ e' => e'.Sound map := by
  refine sound_byManager h fun m hj => (Vm.outcome_createSpace (m.over e.ram)).mono ?_ ?_
  · rintro s vm ⟨hok, hs, hkernel, -, -⟩
    refine Sound.of_books (l := s.root :: e.owned) (h.trades.take hok) (h.books.of_allocate hok)
      (kernels_settle_of_eq hj hkernel) ?_ ?_
    · rw [hs, frames_append, List.append_assoc]
      exact (List.perm_middle.append_left _).trans List.perm_middle
    · intro s₁ hs₁
      rcases List.mem_append.mp hs₁ with hs₁ | hs₁
      · exact h.distinct s₁ hs₁
      · rw [List.mem_singleton] at hs₁
        rw [hs₁, hs]
        exact List.nodup_nil
  · rintro _ vm rfl
    exact h.settle hj rfl rfl

/-- **A user space that is taken down** leaves everything else. -/
theorem sound_destroy (h : e.Sound map) (j i : Nat) : Outcome (EstateCall.run (.destroy j i) e)
    (fun _ e' => e'.Sound map) fun _ e' => e'.Sound map := by
  unfold EstateCall.run
  dsimp only
  cases hi : e.guests[i]? with
  | none => exact h
  | some s =>
    refine sound_byManager h fun m hj => ?_
    by_cases hactive : (m.over e.ram).activeRoot = some s.root
    · refine Outcome.of_refused (e := .activeSpace) (s := m.over e.ram) (if_pos hactive) ?_
      exact h.settle hj rfl rfl
    · have hb := h.books_of (owned_guest hi)
      rw [List.append_assoc] at hb
      have htrades : Outcome (Vm.destroySpace s (m.over e.ram)) _ _ :=
        Vm.trades_destroySpace s h.trades
      obtain ⟨pool, hgone, hp⟩ :=
        Vm.exists_destroySpace (show (m.over e.ram).ram.pool.Holds 0 _ from hb) hactive
      exact Outcome.of_ok hgone (Sound.of_books (htrades.of_eq_ok hgone) hp
        (kernels_settle_of_eq hj rfl) (List.Perm.refl _)
        fun s hs => h.distinct s (List.mem_of_mem_eraseIdx hs))

/-- **A region of a kernel's space**, as far as it could be mapped. -/
theorem sound_mapRegion (h : e.Sound map) (j : Nat) (start : VirtAddr) (length : Nat) :
    Outcome (EstateCall.run (.mapRegion j start length) e)
      (fun _ e' => e'.Sound map) fun _ e' => e'.Sound map := by
  show Outcome (byManager j (Vm.mapKernelRegion start length) (fun _ e => e) e) _ _
  refine sound_byManager h fun m hj => ?_
  have hb := h.books_of (owned_kernel hj)
  rw [List.append_assoc] at hb
  have hsound : ∀ vm, Vm.KernelBooks 0 (e.besideKernel j ++ (FramePool.ofMap map).usedFrames)
      (m.over e.ram) vm ∧ (FramePool.ofMap map).Trades vm.ram.pool → (e.settle j vm).Sound map := by
    rintro vm ⟨hbooks, htrades⟩
    have hp := hbooks.holds
    rw [← List.append_assoc] at hp
    exact Sound.of_books htrades hp rfl (owned_settle hj vm) h.distinct
  have hb : (m.over e.ram).ram.pool.Holds 0 _ := hb
  exact ((Vm.kernelBooks_mapKernelRegion start length hb).and
    (Vm.trades_mapKernelRegion start length h.trades)).mono (fun _ => hsound) fun _ => hsound

/-- A user space has changed, and what the callers hold. -/
theorem Sound.refurnish {ram : Ram} (h : e.Sound map) (held : List Nat) (hj : e.managers[j]? = some m)
    (hi : e.guests[i]? = some s) (htrades : (FramePool.ofMap map).Trades ram.pool)
    (hbooks : ram.pool.Holds 0
      (s'.ownedFrames ++ e.besideGuest i held ++ (FramePool.ofMap map).usedFrames))
    (hdistinct : (s'.pages.map Prod.fst).Nodup) :
    Sound map ⟨ram, e.managers.set j m, e.guests.set i s', held⟩ := by
  refine Sound.of_books htrades hbooks (kernels_settle_of_eq hj (show (m.over ram).kernel = m.kernel from rfl))
    (owned_refurnish (e := { e with held }) hi s') ?_
  intro s₁ hs₁
  rcases List.mem_or_eq_of_mem_set hs₁ with hs₁ | rfl
  · exact h.distinct s₁ hs₁
  · exact hdistinct

/-- The books of a user space when one of the held frames is set aside. -/
theorem Sound.books_aside (h : e.Sound map) (hi : e.guests[i]? = some s) (hframe : frame ∈ e.held) :
    Mapper.Books 0 (frame :: (e.besideGuest i (e.held.erase frame) ++ (FramePool.ofMap map).usedFrames))
      (e.ram, s) := by
  have hb := h.books_of ((owned_guest hi).trans
    ((besideGuest_perm e i (List.perm_cons_erase hframe)).append_left _))
  rw [List.append_assoc] at hb
  exact hb

/-- **A page more** in a user space, or perhaps only tables. -/
theorem sound_map (h : e.Sound map) (j i : Nat) (page : Page) (flags : Flags) (hframe : frame ∈ e.held) :
    Outcome (EstateCall.run (.map j i page frame flags) e)
      (fun _ e' => e'.Sound map) fun _ e' => e'.Sound map := by
  refine sound_onGuest h fun m s hj hi => Outcome.onSpace ?_
  have hbeside := besideGuest_perm e i (List.perm_cons_erase hframe)
  have hb := h.books_aside hi hframe
  have hdistinct := h.distinct s (List.mem_of_getElem? hi)
  refine ((Mapper.books_map (s := (e.ram, s)) page frame flags hb).and
    (Mapper.trades_map page frame flags h.trades)).mono ?_ ?_
  · rintro _ ⟨ram', s'⟩ ⟨⟨hbooks, hfree, hsame⟩, htrades⟩
    have hbooks : ram'.pool.Holds 0 (s'.ownedFrames ++ (_ ++ _)) := hbooks
    rw [← List.append_assoc] at hbooks
    refine h.refurnish (e.held.erase frame) hj hi htrades hbooks ?_
    rw [hsame.pages]
    exact AddressSpace.distinct_addPage hdistinct hfree
  · rintro err ⟨ram', s'⟩ ⟨⟨hbooks, hsame⟩, htrades⟩
    refine h.refurnish e.held hj hi htrades ?_ (hsame.pages ▸ hdistinct)
    have hbooks : ram'.pool.Holds 0 (s'.ownedFrames ++ (_ :: _ ++ _)) := hbooks
    rw [← List.append_assoc] at hbooks
    exact hbooks.perm ((hbeside.symm.append_left _).append_right _)

/-- **A page less** in a user space: whatever its tables say, the frame that is handed back is the one
that the space lists for the page. -/
theorem sound_unmap (h : e.Sound map) (j i : Nat) (page : Page) :
    Outcome (EstateCall.run (.unmap j i page) e)
      (fun _ e' => e'.Sound map) fun _ e' => e'.Sound map := by
  refine sound_onGuest h fun m s hj hi => Outcome.onSpace ?_
  have hb := h.books_of (owned_guest hi)
  have hdistinct := h.distinct s (List.mem_of_getElem? hi)
  have hrefused : ((e.settle j (m.over e.ram)).refurnish i s).Sound map :=
    h.refurnish e.held hj hi h.trades hb hdistinct
  unfold Mapper.unmap
  dsimp only
  split
  · next frame table hf _ =>
    split
    · have howned := AddressSpace.ownedFrames_removePage hdistinct hf
      have hbeside := besideGuest_perm e i (List.Perm.refl (frame :: e.held))
      have hperm := (howned.append_right _).trans (List.perm_middle.symm.trans (hbeside.symm.append_left _))
      -- What memory holds is on no book.
      generalize Memory.setEntry _ _ _ _ = memory
      exact h.refurnish (frame :: e.held) hj hi h.trades (hb.perm (hperm.append_right _))
        (AddressSpace.distinct_removePage hdistinct)
    · exact hrefused
  · exact hrefused

/-- **Every allowed call keeps the books**, whether it is done or refused. -/
theorem sound_run (h : e.Sound map) {call : EstateCall} (hallowed : call.Allowed e) :
    Outcome (call.run e) (fun _ e' => e'.Sound map) fun _ e' => e'.Sound map := by
  cases call with
  | take => exact sound_take h
  | give frame => exact sound_give h hallowed
  | boot bootRoot => exact sound_boot h bootRoot
  | create j => exact sound_create h j
  | map j i page frame flags => exact sound_map h j i page flags hallowed
  | unmap j i page => exact sound_unmap h j i page
  | mapRegion j start length => exact sound_mapRegion h j start length
  | destroy j i => exact sound_destroy h j i
  | load j root =>
    show Outcome (byManager j (modify fun vm => vm.load root) (fun _ e => e) e) _ _
    exact sound_byManager h fun m hj => h.settle hj rfl rfl
  | enable j =>
    show Outcome (byManager j Vm.enable (fun _ e => e) e) _ _
    refine sound_byManager h fun m hj => ?_
    unfold Vm.enable
    split
    · exact h.settle hj rfl rfl
    · exact h.settle hj rfl rfl

/-- **Every run keeps the books.** -/
theorem sound_of_reaches (hr : Reaches map e) : e.Sound map := by
  induction hr with
  | start memory => exact ⟨.refl, (FramePool.Counted.ofMap map).holds, fun s hs => by cases hs⟩
  | written memory _ ih => exact ⟨ih.trades, ih.books, ih.distinct⟩
  | done _ hallowed hok ih => exact (sound_run ih hallowed).of_eq_ok hok
  | refused _ hallowed he ih => exact (sound_run ih hallowed).of_eq_refused he

/-! ## 4. Whose each frame is -/

/-- **Every used frame has one owner.** -/
structure FramesOwned (map : MemoryMap) (e : Estate) : Prop where
  /-- A frame is used if it was used at the start, or if callers hold it, or if a space lists it, and
  then just one of these is so, once. -/
  once : ∀ f, (e.ram.pool.isUsed f).toNat = ((FramePool.ofMap map).isUsed f).toNat +
    e.held.count f + (e.spaces.map fun s => s.ownedFrames.count f).sum
  /-- If a page is not mapped after all, the frames that were taken on the way are tables of the space. -/
  drawn : ∀ {m s s' vm page frame flags err}, m ∈ e.managers → s ∈ e.guests → frame ∈ e.held →
    Vm.map page frame flags (m.over e.ram, s) = .error (.refused err) (vm, s') →
      s'.root = s.root ∧ s'.pages = s.pages ∧ ∀ f,
        vm.ram.pool.isUsed f = true ∧ e.ram.pool.isUsed f = false ↔ f ∈ s'.tables ∧ f ∉ s.tables
  /-- A user space that is not loaded can be taken down, and just the frames that it lists are free
  then, and as many as it counts. -/
  destroyed : ∀ {m s}, m ∈ e.managers → s ∈ e.guests → m.activeRoot ≠ some s.root →
    ∃ pool, Vm.destroySpace s (m.over e.ram) =
        .ok s.frameCount { m.over e.ram with ram := { e.ram with pool } } ∧
      ∀ f, pool.isUsed f = true ↔ e.ram.pool.isUsed f = true ∧ f ∉ s.ownedFrames

theorem count_owned (e : Estate) (f : Nat) : e.owned.count f =
    e.held.count f + (e.spaces.map fun s => s.ownedFrames.count f).sum := by
  rw [owned, ← List.append_assoc, ← frames_append, List.count_append, frames, List.count_flatMap,
    Nat.add_comm]
  rfl

theorem Sound.once (h : e.Sound map) (f : Nat) : (e.ram.pool.isUsed f).toNat =
    ((FramePool.ofMap map).isUsed f).toNat + e.held.count f +
      (e.spaces.map fun s => s.ownedFrames.count f).sum := by
  have hstart := FramePool.Counted.ofMap map
  have htotal := h.trades.total
  rw [Nat.add_assoc, ← count_owned]
  rcases Nat.lt_or_ge f e.ram.pool.total with hlt | hle
  · rw [h.books.toNat_isUsed h.counted hlt, hstart.holds.toNat_isUsed hstart (htotal ▸ hlt),
      List.count_append, Nat.add_comm]
  · have hnot : f ∉ e.owned := fun hin =>
      Nat.not_le_of_lt (h.books.used f (List.mem_append_left _ hin)).1 hle
    rw [(h.books.isUsed_iff h.counted).mpr (Or.inl hle),
      (hstart.holds.isUsed_iff hstart).mpr (Or.inl (htotal ▸ hle)), List.count_eq_zero_of_not_mem hnot,
      Nat.add_zero]

theorem Sound.drawn (h : e.Sound map) {err : PagingError} (hs : s ∈ e.guests) (hframe : frame ∈ e.held)
    (hmap : Vm.map page frame flags (m.over e.ram, s) = .error (.refused err) (vm, s')) :
    s'.root = s.root ∧ s'.pages = s.pages ∧ ∀ f,
      vm.ram.pool.isUsed f = true ∧ e.ram.pool.isUsed f = false ↔ f ∈ s'.tables ∧ f ∉ s.tables := by
  obtain ⟨i, hi⟩ := List.mem_iff_getElem?.mp hs
  have hb := h.books_aside hi hframe
  have hleft : Outcome (Vm.map page frame flags (m.over e.ram, s)) (fun _ _ => True)
      fun _ r => (Mapper.Books 0 _ (r.1.ram, r.2) ∧ Mapper.SamePages s r.2) ∧
        (FramePool.ofMap map).Trades r.1.ram.pool := Outcome.onSpace
    (((Mapper.books_map (s := (e.ram, s)) page frame flags hb).and
      (Mapper.trades_map page frame flags h.trades)).mono (fun _ _ _ => trivial) fun _ _ h => h)
  obtain ⟨⟨hb', hsame⟩, htrades⟩ := hleft.of_eq_refused hmap
  have htables : ∀ (s : AddressSpace) (rest : List Nat), (s.ownedFrames ++ rest).Perm
      (s.tables ++ (s.root :: s.pages.map Prod.snd ++ rest)) := fun s rest => by
    rw [← List.append_assoc]
    exact List.perm_middle.symm.append_right rest
  have hb := hb.perm (htables s _)
  have hb' := hb'.perm (htables s' _)
  rw [hsame.root, hsame.pages] at hb'
  refine ⟨hsame.root, hsame.pages, fun f => hb.came_iff hb' h.counted ?_ ?_⟩
  · exact htrades.counted (.ofMap map)
  · exact htrades.total.trans h.trades.total.symm

theorem Sound.destroyed (h : e.Sound map) (hs : s ∈ e.guests) (hactive : m.activeRoot ≠ some s.root) :
    ∃ pool, Vm.destroySpace s (m.over e.ram) =
        .ok s.frameCount { m.over e.ram with ram := { e.ram with pool } } ∧
      ∀ f, pool.isUsed f = true ↔ e.ram.pool.isUsed f = true ∧ f ∉ s.ownedFrames := by
  obtain ⟨i, hi⟩ := List.mem_iff_getElem?.mp hs
  have hb := h.books_of (owned_guest hi)
  rw [List.append_assoc] at hb
  have htrades : Outcome (Vm.destroySpace s (m.over e.ram)) _ _ := Vm.trades_destroySpace s h.trades
  obtain ⟨pool, hgone, hp⟩ :=
    Vm.exists_destroySpace (show (m.over e.ram).ram.pool.Holds 0 _ from hb) hactive
  have htrades : (FramePool.ofMap map).Trades pool := htrades.of_eq_ok hgone
  rw [AddressSpace.length_ownedFrames] at hgone
  exact ⟨pool, hgone, fun f => hb.isUsed_iff_of_released hp h.counted (htrades.counted (.ofMap map))
    (htrades.total.trans h.trades.total.symm)⟩

/-- **Frames have one owner each**, whatever managers and callers have done, and whichever frames could
not be had on the way. -/
theorem framesOwned_of_reaches (hr : Reaches map e) : e.FramesOwned map :=
  have h := sound_of_reaches hr
  ⟨h.once, fun _ hs hframe hmap => h.drawn hs hframe hmap, fun _ hs hactive => h.destroyed hs hactive⟩

/-- On a machine with six frames, a manager boots and makes a space, and a caller takes a frame. -/
theorem framesOwned_sixFrames : ∃ e, Reaches World.sixFrames e ∧ e.FramesOwned World.sixFrames ∧
    e.kernels.map AddressSpace.root = [0] ∧ e.guests.map AddressSpace.root = [1] ∧ e.held = [2] := by
  obtain ⟨htotal, hfresh⟩ := World.fresh_sixFrames
  obtain ⟨pool₁, hroot, htotal₁, hfresh₁⟩ := hfresh.exists_allocate (by omega)
  obtain ⟨pool₂, hcreate, htotal₂, hfresh₂⟩ := hfresh₁.exists_allocate (by omega)
  obtain ⟨pool₃, htake, -, -⟩ := hfresh₂.exists_allocate (by omega)
  let e₀ : Estate := ⟨⟨.zero, .ofMap World.sixFrames⟩, [], [], []⟩
  let m : Manager := ⟨.ofRoot .kernel 0, none, false⟩
  -- Memory stays a name, lest its entries be computed one by one.
  obtain ⟨memory, hmemory⟩ : ∃ memory, memory = Memory.zero.clearPage 0 := ⟨_, rfl⟩
  have hbooted : EstateCall.run (.boot none) e₀ = .ok () ⟨⟨memory, pool₁⟩, [m], [], []⟩ := by
    unfold EstateCall.run Vm.boot
    simp only [e₀, hroot, hmemory]
    rfl
  obtain ⟨memory', hmemory'⟩ : ∃ memory', memory' = (memory.clearPage 1).copyUpperHalf 0 1 := ⟨_, rfl⟩
  have hcreated : EstateCall.run (.create 0) ⟨⟨memory, pool₁⟩, [m], [], []⟩ =
      .ok () ⟨⟨memory', pool₂⟩, [m], [.ofRoot .user 1], []⟩ := by
    unfold EstateCall.run byManager Vm.createSpace
    simp only [m, Manager.over, AddressSpace.ofRoot, List.getElem?_cons_zero, hcreate, hmemory']
    rfl
  have htaken : EstateCall.run .take ⟨⟨memory', pool₂⟩, [m], [.ofRoot .user 1], []⟩ =
      .ok () ⟨⟨memory', pool₃⟩, [m], [.ofRoot .user 1], [2]⟩ := by
    unfold EstateCall.run
    simp only [htake]
    rfl
  have hr := (((Reaches.start .zero).done (show EstateCall.Allowed e₀ (.boot none) from trivial)
    hbooted).done (show EstateCall.Allowed _ (.create 0) from trivial) hcreated).done
      (show EstateCall.Allowed _ .take from trivial) htaken
  exact ⟨_, hr, framesOwned_of_reaches hr, rfl, rfl, rfl⟩

end Estate

end KernelCore
