/-
# What a pool can be relied on for

A pool is used through four calls: a frame is asked for or given back, by its number or by its address.
Whatever is given back, and in whatever order, the pool's own records agree (`FramePool.Regular`): its
count is that of the bitmap, the bits behind the last frame stay set, and the cursor stays at a frame.

If nobody gives back what he does not hold, the pool is a lender (`FramePool.Lends`): it never hands out
a frame that somebody holds, nor one that was not free at the start, and takes back every one.

* `regular_of_runs`: after any calls the records agree;
* `lends_of_runs`: after allowed ones the pool has lent what is held, and nothing else;
* `reliable_of_runs`: what follows for the next call.
-/
import KernelCore.Proofs.Frame.Bounds
import KernelCore.Proofs.Frame.Counts
import KernelCore.Proofs.Frame.Regions

namespace KernelCore

/-! ## 1. Records that agree -/

namespace FramePool

variable {pool pool' : FramePool} {frame : Nat} {held : List Nat} {map : MemoryMap}

/-- **The records of a pool agree.** -/
structure Regular (pool : FramePool) : Prop where
  counted : pool.Counted
  padding : ∀ f, pool.total ≤ f → pool.bitmap.isUsed f = true
  cursor : pool.cursor < pool.total ∨ pool.total = 0 ∧ pool.cursor = 0

theorem Regular.ofMap (map : MemoryMap) : (ofMap map).Regular := by
  refine ⟨.ofMap map, fun f hle => ?_, ?_⟩
  · refine Bool.not_eq_false _ ▸ fun hunused => ?_
    exact Nat.not_le_of_lt ((unused_ofMap_iff map f).mp hunused).1 hle
  · exact (Nat.eq_zero_or_pos _).symm.imp_right fun h => ⟨h, rfl⟩

theorem Regular.of_allocate (h : pool.Regular) (hok : pool.allocate = .ok (frame, pool')) :
    pool'.Regular := by
  have hcounted := h.counted.of_allocate hok
  obtain ⟨-, hlt, -, rfl⟩ := eq_of_allocate hok
  refine ⟨hcounted, fun f hle => ?_, Or.inl (wrap_lt (Nat.zero_lt_of_lt hlt) _)⟩
  show (pool.bitmap.mark frame).isUsed f = true
  rw [FrameBitmap.isUsed_mark _ _ _ (Nat.lt_of_lt_of_le hlt h.counted.total_le), h.padding f hle,
    Bool.or_true]

theorem Regular.of_release (h : pool.Regular) (hok : pool.release frame = .ok pool') :
    pool'.Regular := by
  have hcounted := h.counted.of_release hok
  obtain ⟨hlt, -, rfl⟩ := eq_of_release hok
  refine ⟨hcounted, fun f hle => ?_, h.cursor⟩
  have hne : frame ≠ f := Nat.ne_of_lt (Nat.lt_of_lt_of_le hlt hle)
  show (pool.bitmap.release frame).isUsed f = true
  rw [FrameBitmap.isUsed_release _ _ _ (Nat.lt_of_lt_of_le hlt h.counted.total_le), h.padding f hle,
    decide_eq_false hne]
  rfl

/-! ## 2. What is lent -/

/-- The pool has lent the frames of a list, all of which were free at the start. -/
structure Lends (map : MemoryMap) (pool : FramePool) (held : List Nat) : Prop where
  total : pool.total = (ofMap map).total
  holds : pool.Holds (ofMap map).used held
  /-- What was used at the start is used, and nobody has it. -/
  kept : ∀ f, (ofMap map).bitmap.isUsed f = true → f ∉ held ∧ pool.bitmap.isUsed f = true

theorem Lends.start (map : MemoryMap) : Lends map (.ofMap map) [] :=
  ⟨rfl, .ofMap map, fun _ hused => ⟨List.not_mem_nil, hused⟩⟩

/-- **A frame that is handed out** was free at the start, and nobody holds it. -/
theorem Lends.of_allocate (h : Lends map pool held) (hok : pool.allocate = .ok (frame, pool')) :
    Lends map pool' (frame :: held) := by
  have hholds := h.holds.of_allocate hok
  obtain ⟨-, hlt, hunused, rfl⟩ := eq_of_allocate hok
  refine ⟨h.total, hholds, fun f hused => ?_⟩
  obtain ⟨hnot, hused'⟩ := h.kept f hused
  constructor
  · rintro (_ | ⟨_, hin⟩)
    · rw [hunused] at hused'
      cases hused'
    · exact hnot hin
  · show (pool.bitmap.mark frame).isUsed f = true
    rw [FrameBitmap.isUsed_mark _ _ _ (Nat.lt_of_lt_of_le hlt h.holds.total_le), hused', Bool.or_true]

/-- **A frame that is held** can be given back, and is nobody's then. -/
theorem Lends.exists_release (h : Lends map pool held) (hin : frame ∈ held) :
    ∃ pool', pool.release frame = .ok pool' ∧ Lends map pool' (held.erase frame) := by
  obtain ⟨pool', hok, hholds⟩ := (h.holds.perm (List.perm_cons_erase hin)).exists_release
  refine ⟨pool', hok, ?_⟩
  obtain ⟨hlt, -, rfl⟩ := eq_of_release hok
  refine ⟨h.total, hholds, fun f hused => ?_⟩
  obtain ⟨hnot, hused'⟩ := h.kept f hused
  have hne : frame ≠ f := fun he => hnot (he ▸ hin)
  refine ⟨fun hin' => hnot (List.mem_of_mem_erase hin'), ?_⟩
  show (pool.bitmap.release frame).isUsed f = true
  rw [FrameBitmap.isUsed_release _ _ _ (h.holds.lt_maxFrames hin), hused', decide_eq_false hne]
  rfl

theorem Lends.of_release (h : Lends map pool held) (hin : frame ∈ held)
    (hok : pool.release frame = .ok pool') : Lends map pool' (held.erase frame) := by
  obtain ⟨pool₁, hok₁, h₁⟩ := h.exists_release hin
  cases hok.symm.trans hok₁
  exact h₁

end FramePool

/-! ## 3. Calls -/

/-- The calls of a pool.  A frame is named by its number or by its address. -/
inductive PoolCall where
  | allocate
  | release (frame : Nat)
  | allocateAddress
  | releaseAddress (address : Nat)

namespace PoolCall

/-- What a call does to a pool; the result is the frame that it hands out, if any. -/
def run : PoolCall → FramePool → Except (Stop FrameError) (Option Nat × FramePool)
  | .allocate, pool =>
    match pool.allocate with
    | .ok (frame, pool) => .ok (some frame, pool)
    | .error e => .error (.refused e)
  | .release frame, pool =>
    match pool.release frame with
    | .ok pool => .ok (none, pool)
    | .error e => .error (.refused e)
  | .allocateAddress, pool =>
    match pool.allocate with
    | .ok (frame, pool) => do
      let address ← Stop.ofHalt (Frame.address frame)
      return (some (Frame.containing address), pool)
    | .error _ => .ok (none, pool)
  | .releaseAddress address, pool => do
    return (none, ← Stop.ofHalt (pool.mustRelease (Frame.containing address)))

/-- The frame that a call gives back. -/
def returned? : PoolCall → Option Nat
  | .release frame => some frame
  | .releaseAddress address => some (Frame.containing address)
  | _ => none

/-- The frames that are held after a call that handed out `frame?`. -/
def heldAfter (call : PoolCall) (frame? : Option Nat) (held : List Nat) : List Nat :=
  frame?.toList ++ call.returned?.elim held held.erase

/-- Nobody gives back what he does not hold. -/
def Allowed (call : PoolCall) (held : List Nat) : Prop := ∀ frame ∈ call.returned?, frame ∈ held

end PoolCall

namespace FramePool

variable {pool pool' : FramePool} {frame : Nat} {held : List Nat} {map : MemoryMap} {call : PoolCall}
  {frame? : Option Nat} {may : PoolCall → List Nat → Prop}

/-- A frame that must be taken back is taken back. -/
theorem release_of_mustRelease (hok : pool.mustRelease frame = .ok pool') :
    pool.release frame = .ok pool' := by
  unfold mustRelease at hok
  split at hok
  · next hrelease =>
    cases hok
    exact hrelease
  · next e _ =>
    cases hmessage : e.message with
    | error halt =>
      rw [hmessage] at hok
      cases hok
    | ok text =>
      rw [hmessage] at hok
      cases hok

/-- The address of a frame is that of no other. -/
theorem containing_of_address {address : Nat} (h : Frame.address frame = .ok address) :
    Frame.containing address = frame := by
  unfold Frame.address at h
  split at h
  · cases h
  · split at h
    · cases h
    · cases h
      exact Frame.containing_mul frame

/-- **The pools that calls of a kind lead to**, with the frames that are held.  A call that is refused
leaves the pool as it was. -/
inductive Runs (map : MemoryMap) (may : PoolCall → List Nat → Prop) : FramePool → List Nat → Prop where
  | start : Runs map may (.ofMap map) []
  | step {pool pool' : FramePool} {held : List Nat} {call : PoolCall} {frame? : Option Nat} :
      Runs map may pool held → may call held → call.run pool = .ok (frame?, pool') →
      Runs map may pool' (call.heldAfter frame? held)

/-- **What a call does**: nothing, or it takes the next frame, or it gives one back. -/
theorem run_cases (hok : call.run pool = .ok (frame?, pool')) :
    (pool' = pool ∧ frame? = none ∧ call.returned? = none) ∨
      (∃ frame, pool.allocate = .ok (frame, pool') ∧ frame? = some frame ∧ call.returned? = none) ∨
        ∃ frame, pool.release frame = .ok pool' ∧ frame? = none ∧ call.returned? = some frame := by
  cases call with
  | allocate =>
    cases halloc : pool.allocate with
    | error e =>
      simp only [PoolCall.run, halloc] at hok
      cases hok
    | ok r =>
      simp only [PoolCall.run, halloc] at hok
      cases hok
      exact Or.inr (Or.inl ⟨r.1, rfl, rfl, rfl⟩)
  | release frame =>
    cases hrelease : pool.release frame with
    | error e =>
      simp only [PoolCall.run, hrelease] at hok
      cases hok
    | ok pool₁ =>
      simp only [PoolCall.run, hrelease] at hok
      cases hok
      exact Or.inr (Or.inr ⟨frame, hrelease, rfl, rfl⟩)
  | allocateAddress =>
    cases halloc : pool.allocate with
    | error e =>
      simp only [PoolCall.run, halloc] at hok
      cases hok
      exact Or.inl ⟨rfl, rfl, rfl⟩
    | ok r =>
      simp only [PoolCall.run, halloc] at hok
      cases haddress : Frame.address r.1 with
      | error halt =>
        rw [haddress] at hok
        cases hok
      | ok address =>
        rw [haddress] at hok
        cases hok
        exact Or.inr (Or.inl ⟨r.1, rfl, congrArg some (containing_of_address haddress), rfl⟩)
  | releaseAddress address =>
    cases hrelease : pool.mustRelease (Frame.containing address) with
    | error halt =>
      simp only [PoolCall.run, hrelease] at hok
      cases hok
    | ok pool₁ =>
      simp only [PoolCall.run, hrelease] at hok
      cases hok
      exact Or.inr (Or.inr ⟨_, release_of_mustRelease hrelease, rfl, rfl⟩)

/-- **After any calls** the records agree. -/
theorem regular_of_runs (h : Runs map may pool held) : pool.Regular := by
  induction h with
  | start => exact .ofMap map
  | @step pool pool' held call frame? _ _ hok ih =>
    rcases run_cases hok with ⟨rfl, -⟩ | ⟨frame, halloc, -⟩ | ⟨frame, hrelease, -⟩
    · exact ih
    · exact ih.of_allocate halloc
    · exact ih.of_release hrelease

/-- **After allowed calls** the pool has lent what is held, and nothing else. -/
theorem lends_of_runs (h : Runs map PoolCall.Allowed pool held) : Lends map pool held := by
  induction h with
  | start => exact .start map
  | @step pool pool' held call frame? _ hmay hok ih =>
    unfold PoolCall.heldAfter
    rcases run_cases hok with
      ⟨rfl, rfl, hreturned⟩ | ⟨frame, halloc, rfl, hreturned⟩ | ⟨frame, hrelease, rfl, hreturned⟩
    · rw [hreturned]
      exact ih
    · rw [hreturned]
      exact ih.of_allocate halloc
    · rw [hreturned]
      exact ih.of_release (hmay frame hreturned) hrelease

/-! ## 4. Every run -/

/-- **A pool that keeps its accounts.**  The count is that of the bitmap, the bits behind the last frame
are set, the cursor is at a frame, and no call looks at a word that is not there. -/
structure Accurate (pool : FramePool) : Prop where
  free : pool.free = pool.bitmap.countFree pool.total
  used : pool.free + pool.used = pool.total
  padding : ∀ f, pool.total ≤ f → pool.bitmap.isUsed f = true
  cursor : pool.cursor < pool.total ∨ pool.total = 0 ∧ pool.cursor = 0
  allocate : pool.allocate? = some pool.allocate
  release : ∀ frame, pool.release? frame = some (pool.release frame)

/-- **A pool that can be relied on**, by those who hold the given frames.  What it hands out was free at
the start and is held by nobody, no other frame counts as used, and what is held can be given back. -/
structure Reliable (map : MemoryMap) (pool : FramePool) (held : List Nat) : Prop where
  used : pool.used = (ofMap map).used + held.length
  fresh : ∀ (call : PoolCall) frame pool', call.run pool = .ok (some frame, pool') → frame ∉ held ∧
    (ofMap map).isUsed frame = false ∧ (∃ r ∈ map, r.kind = .usable ∧ r.Contains frame) ∧
      ∀ r ∈ map, r.kind ≠ .usable → ¬r.Touches frame
  back : ∀ (call : PoolCall), ∀ frame ∈ held, call.returned? = some frame →
    ∃ pool', call.run pool = .ok (none, pool')
  address : ∀ halt, PoolCall.allocateAddress.run pool ≠ .error (.halted halt)

theorem Regular.accurate (h : pool.Regular) : pool.Accurate := by
  have hcount := h.counted.free_add_length
  refine ⟨h.counted.free, ?_, h.padding, h.cursor, ?_, release?_eq h.counted.total_le⟩
  · unfold FramePool.used
    omega
  · exact allocate?_eq h.counted.total_le (h.cursor.symm.imp_left And.left)

/-- A frame that must be taken back is taken back if it can be. -/
theorem mustRelease_of_release (hok : pool.release frame = .ok pool') :
    pool.mustRelease frame = .ok pool' := by
  unfold mustRelease
  rw [hok]

theorem Lends.reliable (h : Lends map pool held) : Reliable map pool held := by
  refine ⟨h.holds.used_eq, fun call frame pool' hok => ?_, fun call frame hin hreturned => ?_, ?_⟩
  · obtain ⟨frame, halloc, hframe⟩ : ∃ f, pool.allocate = .ok (f, pool') ∧ some frame = some f := by
      rcases run_cases hok with ⟨-, hnone, -⟩ | ⟨f, halloc, hframe, -⟩ | ⟨f, -, hnone, -⟩
      · cases hnone
      · exact ⟨f, halloc, hframe⟩
      · cases hnone
    cases hframe
    have hnew := h.of_allocate halloc
    have hstart : (ofMap map).bitmap.isUsed frame = false := by
      refine Bool.not_eq_true _ ▸ fun hused => ?_
      exact (hnew.kept frame hused).1 List.mem_cons_self
    obtain ⟨hlt, husable, hnone⟩ := (unused_ofMap_iff map frame).mp hstart
    refine ⟨(List.nodup_cons.mp hnew.holds.nodup).1, ?_, husable, hnone⟩
    unfold FramePool.isUsed
    rw [hstart, decide_eq_false (Nat.not_le_of_lt hlt)]
    rfl
  · obtain ⟨pool', hrelease, -⟩ := h.exists_release hin
    cases call with
    | allocate => cases hreturned
    | allocateAddress => cases hreturned
    | release f =>
      cases hreturned
      exact ⟨pool', by simp only [PoolCall.run, hrelease]⟩
    | releaseAddress address =>
      cases hreturned
      exact ⟨pool', by simp only [PoolCall.run, mustRelease_of_release hrelease]; rfl⟩
  · intro halt
    cases halloc : pool.allocate with
    | error e =>
      simp only [PoolCall.run, halloc]
      exact nofun
    | ok r =>
      have hlt : r.1 < maxFrames := (h.of_allocate halloc).holds.lt_maxFrames List.mem_cons_self
      have haddress := Frame.address_of_lt (Nat.lt_trans hlt (by decide))
      simp only [PoolCall.run, halloc, haddress]
      exact nofun

/-- **What a pool can be relied on for**, on every memory map.  After any calls, with any numbers, it
keeps its accounts; and as long as nobody gives back what he does not hold, it can be relied on. -/
theorem reliable_of_runs (map : MemoryMap) : ofMap? map = some (ofMap map) ∧
    (∀ pool held, Runs map (fun _ _ => True) pool held → pool.Accurate) ∧
      ∀ pool held, Runs map PoolCall.Allowed pool held → Reliable map pool held :=
  ⟨ofMap?_eq map, fun _ _ h => (regular_of_runs h).accurate, fun _ _ h => (lends_of_runs h).reliable⟩

/-- Three frames, of which the second holds a reserved byte. -/
def threeFrames : MemoryMap := [⟨0, 3 * 4096, .usable⟩, ⟨4096, 1, .reserved⟩]

/-- On that machine the first frame is handed out by its address, and then only the third is left. -/
theorem reliable_threeFrames : ∃ pool, Runs threeFrames PoolCall.Allowed pool [0] ∧ pool.Accurate ∧
    pool.used = 2 ∧
      ∀ (call : PoolCall) frame pool', call.run pool = .ok (some frame, pool') → frame = 2 := by
  have htotal : (FramePool.ofMap threeFrames).total = 3 := by decide +kernel
  have hfree : (FramePool.ofMap threeFrames).free = 2 := by decide +kernel
  have hunused : (FramePool.ofMap threeFrames).bitmap.isUsed 0 = false := by decide +kernel
  obtain ⟨pool, halloc⟩ : ∃ pool, (FramePool.ofMap threeFrames).allocate = .ok (0, pool) :=
    ⟨_, allocate_of_unused (by rw [hfree]; decide) (by rw [htotal]; decide) hunused⟩
  have hrun : PoolCall.allocateAddress.run (.ofMap threeFrames) = .ok (some 0, pool) := by
    simp only [PoolCall.run, halloc]
    rfl
  obtain ⟨-, haccurate, hreliable⟩ := reliable_of_runs threeFrames
  have hr : Runs threeFrames PoolCall.Allowed pool [0] := Runs.start.step (fun _ h => by cases h) hrun
  have hrely := hreliable pool [0] hr
  refine ⟨pool, hr, haccurate pool [0] (Runs.start.step True.intro hrun), ?_, ?_⟩
  · rw [hrely.used]
    unfold FramePool.used
    rw [htotal, hfree]
    rfl
  · intro call frame pool' hok
    obtain ⟨hnew, -, ⟨r, hr, hkind, -, hin⟩, hnone⟩ := hrely.fresh call frame pool' hok
    have hfirst : frame ≠ 0 := fun he => hnew (List.mem_singleton.mpr he)
    have hsecond : frame ≠ 1 := by
      rintro rfl
      exact hnone ⟨4096, 1, .reserved⟩ (by decide) (by decide) ⟨by decide, by decide⟩
    have hstop : r.stop = 3 * 4096 := by
      rcases List.mem_cons.mp hr with rfl | hr
      · decide
      · rw [List.mem_singleton.mp hr] at hkind
        cases hkind
    simp only [hstop, pageSize] at hin
    omega

end FramePool

end KernelCore
