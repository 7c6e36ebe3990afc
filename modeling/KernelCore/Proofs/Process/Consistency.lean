/-
# What the process table says twice

The table says who is ready, who runs and who waits in two ways: in the state of each process, and
in the line of ready processes and the number of the running one.  `ProcessTable.Consistent` is that
both agree, and that process numbers are what they should be.

A table is asked by number, so that all of it is said about `ProcessTable.find?`:

* `find?_modify_self`, `find?_erase`, `find?_place`: what a change of the slots does to it;
* `Consistent.modify`: one process changes its state, and the records follow;
* `Consistent.place`, `Consistent.erase`: a process comes, the running process goes;
* `Consistent.push`: there is room in line for every process that is not yet in it.
-/
import KernelCore.Process.Table
import Mathlib.Data.List.Nodup
import Mathlib.Data.List.Perm.Subperm

namespace KernelCore

namespace ProcessTable

variable {t : ProcessTable} {p : Process} {pid q : Nat} {slot : Fin maxProcesses}

/-! ## 1. Looking a process up -/

@[simp] theorem ready_modify (t : ProcessTable) (pid : Nat) (f : Process → Process) :
    (t.modify pid f).ready = t.ready := rfl

@[simp] theorem current_modify (t : ProcessTable) (pid : Nat) (f : Process → Process) :
    (t.modify pid f).current = t.current := rfl

@[simp] theorem current_place (t : ProcessTable) (slot : Fin maxProcesses) (p : Process) :
    (t.place slot p).current = t.current := rfl

theorem pid_of_find? (h : t.find? pid = some p) : p.pid = pid := by
  simpa using List.find?_some h

theorem mem_live_of_find? (h : t.find? pid = some p) : p ∈ t.live := List.mem_of_find?_eq_some h

theorem find?_eq_none_iff : t.find? pid = none ↔ ∀ p ∈ t.live, p.pid ≠ pid := by
  simp [find?]

/-- With distinct numbers, every process is found. -/
theorem find?_of_mem (hd : (t.live.map Process.pid).Nodup) (hp : p ∈ t.live) :
    t.find? p.pid = some p := by
  cases hf : t.find? p.pid with
  | none => exact absurd rfl (find?_eq_none_iff.mp hf p hp)
  | some r =>
    have hr := mem_live_of_find? hf
    rw [List.inj_on_of_nodup_map hd hr hp (pid_of_find? hf)]

theorem find?_eq_some_iff (hd : (t.live.map Process.pid).Nodup) :
    t.find? pid = some p ↔ p ∈ t.live ∧ p.pid = pid := by
  constructor
  · exact fun h => ⟨mem_live_of_find? h, pid_of_find? h⟩
  · rintro ⟨hp, rfl⟩
    exact find?_of_mem hd hp

theorem find?_modify {f : Process → Process} (hf : ∀ p, (f p).pid = p.pid) :
    (t.modify pid f).find? q = (t.find? q).map fun p => if p.pid = pid then f p else p := by
  rw [find?, live_modify, List.find?_map, find?]
  congr 2
  funext r
  simp only [Function.comp_apply]
  split
  · rw [hf]
  · rfl

theorem find?_modify_self {f : Process → Process} (hf : ∀ p, (f p).pid = p.pid)
    (h : t.find? pid = some p) : (t.modify pid f).find? pid = some (f p) := by
  rw [find?_modify hf, h, Option.map_some, if_pos (pid_of_find? h)]

theorem find?_modify_of_ne {f : Process → Process} (hf : ∀ p, (f p).pid = p.pid) (h : q ≠ pid) :
    (t.modify pid f).find? q = t.find? q := by
  rw [find?_modify hf]
  cases hq : t.find? q with
  | none => rfl
  | some r => rw [Option.map_some, if_neg (by rw [pid_of_find? hq]; exact h)]

/-- Changing a process does not change its number. -/
theorem map_pid_modify {f : Process → Process} (hf : ∀ p, (f p).pid = p.pid) :
    (t.modify pid f).live.map Process.pid = t.live.map Process.pid := by
  rw [live_modify, List.map_map]
  refine List.map_congr_left fun r _ => ?_
  simp only [Function.comp_apply]
  split
  · exact hf r
  · rfl

theorem find?_erase : (t.erase pid).find? q = if q = pid then none else t.find? q := by
  split
  · next h =>
    refine find?_eq_none_iff.mpr fun r hr => ?_
    rw [live_erase, List.mem_filter] at hr
    rw [h]
    simpa using hr.2
  · next h =>
    rw [find?, live_erase, List.find?_filter, find?]
    congr 1
    funext r
    by_cases hr : r.pid = q
    · simp [hr, h]
    · simp [hr]

/-- A process that is placed in a free slot comes between the others. -/
theorem exists_live_place (h : t.slots.get slot = none) (p : Process) :
    ∃ pre post, t.live = pre ++ post ∧ (t.place slot p).live = pre ++ p :: post := by
  have hlt : slot.val < t.slots.toList.length := by simp
  have hnone : t.slots.toList[slot.val] = none := by simpa [Vector.get] using h
  refine ⟨(t.slots.toList.take slot).flatMap Option.toList,
    (t.slots.toList.drop (slot + 1)).flatMap Option.toList, ?_, ?_⟩
  · rw [live, ← List.flatMap_append]
    conv_lhs => rw [← List.take_append_drop slot t.slots.toList, List.drop_eq_getElem_cons hlt, hnone]
    simp [List.flatMap_append]
  · rw [live, place]
    simp only [Vector.toList_set]
    rw [List.set_eq_take_append_cons_drop, if_pos hlt]
    simp [List.flatMap_append]

theorem find?_place (h : t.slots.get slot = none) (hnew : t.find? p.pid = none) :
    (t.place slot p).find? q = if q = p.pid then some p else t.find? q := by
  obtain ⟨pre, post, hlive, hplace⟩ := exists_live_place h p
  rw [find?_eq_none_iff, hlive] at hnew
  rw [find?, hplace, find?, hlive, List.find?_append, List.find?_append]
  by_cases hq : q = p.pid
  · have hpre : pre.find? (·.pid == q) = none := by
      rw [List.find?_eq_none]
      intro r hr
      rw [hq]
      simpa using hnew r (List.mem_append_left _ hr)
    rw [if_pos hq, hpre, Option.none_or, List.find?_cons_of_pos (by simpa using hq.symm)]
  · rw [if_neg hq, List.find?_cons_of_neg (by simpa using Ne.symm hq)]

/-- There are at most as many processes as slots. -/
theorem length_live_le (t : ProcessTable) : t.live.length ≤ maxProcesses := by
  have hle : ∀ l : List (Option Process), (l.flatMap Option.toList).length ≤ l.length := by
    intro l
    induction l with
    | nil => exact Nat.le_refl _
    | cons slot rest ih =>
      rw [List.flatMap_cons, List.length_append, List.length_cons]
      have : slot.toList.length ≤ 1 := by cases slot <;> simp
      omega
  have := hle t.slots.toList
  rwa [Vector.length_toList] at this

/-- While there are fewer processes than slots, a slot is free. -/
theorem exists_freeSlot?_of_lt (hlive : t.live.length < maxProcesses) :
    ∃ slot, t.freeSlot? = some slot := by
  refine Option.ne_none_iff_exists'.mp fun hnone => Nat.ne_of_lt hlive ?_
  have hfull := (t.freeSlot?_eq_none_iff).mp hnone
  have hone : ∀ slot ∈ t.slots.toList, slot.toList.length = 1 := fun slot hslot => by
    obtain ⟨i, hi, rfl⟩ := List.getElem_of_mem hslot
    have hlt : i < maxProcesses := by simpa using hi
    obtain ⟨p, hp⟩ := Option.isSome_iff_exists.mp (hfull ⟨i, hlt⟩)
    have hfound : t.slots.toList[i] = some p := by simpa using hp
    rw [hfound]
    rfl
  rw [live, List.length_flatMap, List.map_congr_left hone]
  simp

/-! ## 2. Consistent tables -/

/-- A process that is in the table is ready, running or blocked. -/
def IsListed (p : Process) : Prop :=
  p.state = .ready ∨ p.state = .running ∨ p.state = .blocked

/-- **The records agree.**  Process numbers are distinct and have been given out; the line holds the
ready processes, each once; the running process is the one that is recorded; and no process has run
for longer than there has been time. -/
structure Consistent (t : ProcessTable) : Prop where
  distinct : (t.live.map Process.pid).Nodup
  nextPid_pos : 0 < t.nextPid
  numbered : ∀ {pid p}, t.find? pid = some p → 0 < pid ∧ pid < t.nextPid
  listed : ∀ {pid p}, t.find? pid = some p → IsListed p
  line : t.ready.pids.Nodup
  waits_iff : ∀ pid, pid ∈ t.ready.pids ↔ ∃ p, t.find? pid = some p ∧ p.state = .ready
  runs_iff : ∀ pid, t.current = some pid ↔ ∃ p, t.find? pid = some p ∧ p.state = .running
  ticks_le : ∀ {pid p}, t.find? pid = some p → p.ticks ≤ t.uptime

namespace Consistent

variable {t' : ProcessTable} {f : Process → Process} {ready : ReadyQueue}

/-- A table without processes is consistent. -/
theorem empty (idle : Context) : (ProcessTable.empty idle).Consistent := by
  have hnone : ∀ pid p, (ProcessTable.empty idle).find? pid ≠ some p := by
    intro pid p h
    simpa using mem_live_of_find? h
  refine ⟨by simp, Nat.zero_lt_one, fun h => absurd h (hnone _ _), fun h => absurd h (hnone _ _),
    List.nodup_nil, ?_, ?_, fun h => absurd h (hnone _ _)⟩
  · intro pid
    constructor
    · intro h
      cases h
    · rintro ⟨p, h, -⟩
      exact absurd h (hnone _ _)
  · intro pid
    constructor
    · intro h
      cases h
    · rintro ⟨p, h, -⟩
      exact absurd h (hnone _ _)

/-- The running process is in the table. -/
theorem exists_current (hc : t.Consistent) (h : t.current = some pid) :
    ∃ p, t.find? pid = some p ∧ p.state = .running := (hc.runs_iff pid).mp h

/-- The running processes, by number: the one that is recorded, and no other. -/
theorem running_eq (hc : t.Consistent) :
    (t.live.filter fun p => p.state = .running).map Process.pid = t.current.toList := by
  have hmem : ∀ q, q ∈ (t.live.filter fun p => p.state = .running).map Process.pid ↔
      t.current = some q := by
    intro q
    simp only [hc.runs_iff, find?_eq_some_iff hc.distinct, List.mem_map, List.mem_filter,
      decide_eq_true_eq]
    exact ⟨fun ⟨p, h, hq⟩ => ⟨p, ⟨h.1, hq⟩, h.2⟩, fun ⟨p, h, hq⟩ => ⟨p, ⟨h.1, hq⟩, h.2⟩⟩
  have hnodup : ((t.live.filter fun p => p.state = .running).map Process.pid).Nodup :=
    hc.distinct.sublist (List.filter_sublist.map _)
  cases hcur : t.current with
  | none =>
    refine List.perm_nil.mp ((List.perm_ext_iff_of_nodup hnodup List.nodup_nil).mpr fun q => ?_)
    rw [hmem, hcur]
    simp
  | some pid =>
    refine List.perm_singleton.mp
      ((List.perm_ext_iff_of_nodup hnodup (List.nodup_singleton pid)).mpr fun q => ?_)
    rw [hmem, hcur, Option.some.injEq, List.mem_singleton, eq_comm]

/-- **There is room in line** for every process that is not in it. -/
theorem length_ready_lt (hc : t.Consistent) (h : t.find? pid = some p)
    (hp : p.state ≠ .ready) : t.ready.pids.length < maxProcesses := by
  have hnot : pid ∉ t.ready.pids := by
    intro hin
    obtain ⟨r, hr, hready⟩ := (hc.waits_iff pid).mp hin
    rw [h] at hr
    cases hr
    exact hp hready
  have hsub : pid :: t.ready.pids ⊆ t.live.map Process.pid := by
    intro q hq
    rcases List.mem_cons.mp hq with rfl | hq
    · exact List.mem_map.mpr ⟨p, mem_live_of_find? h, pid_of_find? h⟩
    · obtain ⟨r, hr, -⟩ := (hc.waits_iff q).mp hq
      exact List.mem_map.mpr ⟨r, mem_live_of_find? hr, pid_of_find? hr⟩
  have hle := (List.nodup_cons.mpr ⟨hnot, hc.line⟩ : (pid :: t.ready.pids).Nodup).subperm hsub |>.length_le
  rw [List.length_cons, List.length_map] at hle
  exact Nat.lt_of_lt_of_le hle t.length_live_le

/-- While a slot is free, there is room in line. -/
theorem length_ready_lt_of_free (hc : t.Consistent) (h : t.slots.get slot = none) :
    t.ready.pids.length < maxProcesses := by
  have hsub : t.ready.pids ⊆ t.live.map Process.pid := by
    intro q hq
    obtain ⟨r, hr, -⟩ := (hc.waits_iff q).mp hq
    exact List.mem_map.mpr ⟨r, mem_live_of_find? hr, pid_of_find? hr⟩
  have hle := (hc.line.subperm hsub).length_le
  -- the table with the slot filled has one process more, and not more than slots
  obtain ⟨pre, post, hlive, hplace⟩ :=
    exists_live_place h (.build 0 "" 0 (.ofRoot .user 0) 0)
  have hroom := (t.place slot (.build 0 "" 0 (.ofRoot .user 0) 0)).length_live_le
  rw [hplace, List.length_append, List.length_cons] at hroom
  rw [List.length_map, hlive, List.length_append] at hle
  omega

/-- Whoever is pushed stands in line behind the others. -/
theorem exists_push (h : t.ready.pids.length < maxProcesses) (pid : Nat) :
    ∃ ready, t.ready.push pid = .ok ready ∧ ready.pids = t.ready.pids ++ [pid] := by
  cases hr : t.ready.push pid with
  | ok ready => exact ⟨ready, rfl, ReadyQueue.pids_of_push hr⟩
  | error e => exact absurd ((t.ready.push_eq_error_iff pid e).mp hr).2 (Nat.ne_of_lt h)

/-! ## 3. One process changes -/

/-- **A change that concerns one process** leaves the table consistent if the records about this
process agree again. -/
theorem change (hc : t.Consistent) (pid : Nat) (hdistinct : (t'.live.map Process.pid).Nodup)
    (hfind : ∀ q, q ≠ pid → t'.find? q = t.find? q)
    (hself : ∀ p, t'.find? pid = some p →
      (0 < pid ∧ pid < t'.nextPid) ∧ IsListed p ∧ p.ticks ≤ t'.uptime)
    (hnext : t.nextPid ≤ t'.nextPid) (huptime : t.uptime ≤ t'.uptime)
    (hline : t'.ready.pids.Nodup)
    (hwaits : ∀ q, q ≠ pid → (q ∈ t'.ready.pids ↔ q ∈ t.ready.pids))
    (hwaits_self : pid ∈ t'.ready.pids ↔ ∃ p, t'.find? pid = some p ∧ p.state = .ready)
    (hruns : ∀ q, q ≠ pid → (t'.current = some q ↔ t.current = some q))
    (hruns_self : t'.current = some pid ↔ ∃ p, t'.find? pid = some p ∧ p.state = .running) :
    t'.Consistent := by
  refine ⟨hdistinct, Nat.lt_of_lt_of_le hc.nextPid_pos hnext, ?_, ?_, hline, ?_, ?_, ?_⟩
  · intro q p hp
    by_cases hq : q = pid
    · subst hq
      exact (hself p hp).1
    · have := hc.numbered (hfind q hq ▸ hp)
      omega
  · intro q p hp
    by_cases hq : q = pid
    · subst hq
      exact (hself p hp).2.1
    · exact hc.listed (hfind q hq ▸ hp)
  · intro q
    by_cases hq : q = pid
    · rw [hq]
      exact hwaits_self
    · rw [hwaits q hq, hc.waits_iff, hfind q hq]
  · intro q
    by_cases hq : q = pid
    · rw [hq]
      exact hruns_self
    · rw [hruns q hq, hc.runs_iff, hfind q hq]
  · intro q p hp
    by_cases hq : q = pid
    · subst hq
      exact (hself p hp).2.2
    · exact Nat.le_trans (hc.ticks_le (hfind q hq ▸ hp)) huptime

/-- A process of the table changes. -/
theorem modify (hc : t.Consistent) (hp : t.find? pid = some p) (hf : ∀ p, (f p).pid = p.pid)
    {current : Option Nat} {uptime : Nat} (hlisted : IsListed (f p)) (hticks : (f p).ticks ≤ uptime)
    (huptime : t.uptime ≤ uptime) (hline : ready.pids.Nodup)
    (hwaits : ∀ q, q ≠ pid → (q ∈ ready.pids ↔ q ∈ t.ready.pids))
    (hwaits_self : pid ∈ ready.pids ↔ (f p).state = .ready)
    (hruns : ∀ q, q ≠ pid → (current = some q ↔ t.current = some q))
    (hruns_self : current = some pid ↔ (f p).state = .running) :
    { t.modify pid f with ready, current, uptime }.Consistent := by
  have hfind : ∀ q, ({ t.modify pid f with ready, current, uptime } : ProcessTable).find? q =
      (t.modify pid f).find? q := fun _ => rfl
  have hfp := find?_modify_self hf hp
  refine hc.change pid ?_ (fun q hq => find?_modify_of_ne hf hq) ?_ (Nat.le_refl _) huptime hline
    hwaits ?_ hruns ?_
  · exact (map_pid_modify hf).symm ▸ hc.distinct
  · intro r hr
    rw [hfind, hfp] at hr
    cases hr
    exact ⟨hc.numbered hp, hlisted, hticks⟩
  · rw [hfind, hfp]
    simpa using hwaits_self
  · rw [hfind, hfp]
    simpa using hruns_self

/-- A process changes in nothing that is recorded twice. -/
theorem modify_of_state_eq (hc : t.Consistent) (hp : t.find? pid = some p)
    (hf : ∀ p, (f p).pid = p.pid) (hstate : (f p).state = p.state) {uptime : Nat}
    (hticks : (f p).ticks ≤ uptime) (huptime : t.uptime ≤ uptime) :
    { t.modify pid f with uptime }.Consistent := by
  have hlisted := hc.listed hp
  refine hc.modify hp hf ?_ hticks huptime hc.line (fun _ _ => Iff.rfl) ?_ (fun _ _ => Iff.rfl) ?_
  · unfold IsListed at hlisted ⊢
    rwa [hstate]
  · rw [ready_modify, hc.waits_iff, hp, hstate]
    simp
  · rw [current_modify, hc.runs_iff, hp, hstate]
    simp

/-- Time goes on. -/
theorem tick (hc : t.Consistent) {uptime : Nat} (h : t.uptime ≤ uptime) :
    { t with uptime }.Consistent :=
  ⟨hc.distinct, hc.nextPid_pos, hc.numbered, hc.listed, hc.line, hc.waits_iff, hc.runs_iff,
    fun hp => Nat.le_trans (hc.ticks_le hp) h⟩

theorem not_mem_ready (hc : t.Consistent) (hp : t.find? pid = some p) (hs : p.state ≠ .ready) :
    pid ∉ t.ready.pids := by
  intro hin
  obtain ⟨r, hr, hready⟩ := (hc.waits_iff pid).mp hin
  rw [hp] at hr
  cases hr
  exact hs hready

/-- The number of the next process is nobody's. -/
theorem find?_nextPid (hc : t.Consistent) : t.find? t.nextPid = none := by
  cases hp : t.find? t.nextPid with
  | none => rfl
  | some p => exact absurd (hc.numbered hp).2 (Nat.lt_irrefl _)

theorem current_ne_of_state_ne (hc : t.Consistent) (hp : t.find? pid = some p)
    (hs : p.state ≠ .running) : t.current ≠ some pid := by
  intro hcur
  obtain ⟨r, hr, hrun⟩ := hc.exists_current hcur
  rw [hp] at hr
  cases hr
  exact hs hrun

theorem current_ne_nextPid (hc : t.Consistent) : t.current ≠ some t.nextPid := by
  intro hcur
  obtain ⟨r, hr, -⟩ := hc.exists_current hcur
  rw [hc.find?_nextPid] at hr
  cases hr

/-- Nobody else runs while a process does. -/
theorem current_ne (h : t.current = some pid) (hq : q ≠ pid) : t.current ≠ some q := by
  rw [h]
  exact fun e => hq (Option.some.inj e).symm

/-- The running process stops, to wait for something else. -/
theorem suspend (hc : t.Consistent) (h : t.current = some pid) (hp : t.find? pid = some p)
    (hf : ∀ p, (f p).pid = p.pid) (hstate : (f p).state = .blocked)
    (hticks : (f p).ticks = p.ticks) : { t.modify pid f with current := none }.Consistent := by
  obtain ⟨r, hr, hrun⟩ := hc.exists_current h
  rw [hp] at hr
  cases hr
  refine hc.modify hp hf (Or.inr (Or.inr hstate)) (hticks ▸ hc.ticks_le hp) (Nat.le_refl _) hc.line
    (fun _ _ => Iff.rfl) ?_ ?_ ?_
  · simp [hstate, hc.not_mem_ready hp (by simp [hrun])]
  · intro q hq
    simp [current_ne h hq]
  · simp [hstate]

/-- A process that is not ready becomes ready, and nobody else runs then. -/
theorem push (hc : t.Consistent) (current : Option Nat) (hp : t.find? pid = some p)
    (hs : p.state ≠ .ready) (hf : ∀ p, (f p).pid = p.pid) (hstate : (f p).state = .ready)
    (hticks : (f p).ticks = p.ticks) (hready : ready.pids = t.ready.pids ++ [pid])
    (hruns : ∀ q, q ≠ pid → (current = some q ↔ t.current = some q)) (hnot : current ≠ some pid) :
    { t.modify pid f with ready, current }.Consistent := by
  have hnew := hc.not_mem_ready hp hs
  refine hc.modify hp hf (Or.inl hstate) (hticks ▸ hc.ticks_le hp) (Nat.le_refl _) ?_ ?_ ?_ hruns ?_
  · rw [hready, List.nodup_append]
    refine ⟨hc.line, List.nodup_singleton _, ?_⟩
    intro q hq r hr
    rw [List.mem_singleton.mp hr]
    rintro rfl
    exact hnew hq
  · intro q hq
    simp [hready, hq]
  · simp [hready, hstate]
  · simp [hstate, hnot]

/-- The process in front of the line runs, if nobody did. -/
theorem dispatch (hc : t.Consistent) (hnone : t.current = none)
    (hready : t.ready.pids = pid :: ready.pids) (hp : t.find? pid = some p)
    (hf : ∀ p, (f p).pid = p.pid) (hstate : (f p).state = .running)
    (hticks : (f p).ticks = p.ticks) :
    { t.modify pid f with ready, current := some pid }.Consistent := by
  have hline := hc.line
  rw [hready, List.nodup_cons] at hline
  refine hc.modify hp hf (Or.inr (Or.inl hstate)) (hticks ▸ hc.ticks_le hp) (Nat.le_refl _) hline.2 ?_
    ?_ ?_ ?_
  · intro q hq
    simp [hready, hq]
  · simp [hstate, hline.1]
  · intro q hq
    simp [hnone, Ne.symm hq]
  · simp [hstate]

/-! ## 4. Processes come and go -/

/-- A new process stands in line under the next number. -/
theorem place (hc : t.Consistent) (hslot : t.slots.get slot = none) (hpid : p.pid = t.nextPid)
    (hstate : p.state = .ready) (hticks : p.ticks = 0)
    (hready : ready.pids = t.ready.pids ++ [p.pid]) :
    { t.place slot p with ready, nextPid := t.nextPid + 1 }.Consistent := by
  have hfresh : t.find? p.pid = none := hpid ▸ hc.find?_nextPid
  have hfind : ∀ q, ({ t.place slot p with ready, nextPid := t.nextPid + 1 } : ProcessTable).find? q =
      if q = p.pid then some p else t.find? q := fun q => find?_place hslot hfresh
  have hnot : p.pid ∉ t.ready.pids := by
    intro hin
    obtain ⟨r, hr, -⟩ := (hc.waits_iff _).mp hin
    rw [hfresh] at hr
    cases hr
  have hself := hfind p.pid
  rw [if_pos rfl] at hself
  refine hc.change p.pid ?_ ?_ ?_ (Nat.le_succ _) (Nat.le_refl _) ?_ ?_ ?_ (fun _ _ => Iff.rfl) ?_
  · obtain ⟨pre, post, hlive, hplace⟩ := exists_live_place hslot p
    have hd := hc.distinct
    rw [find?_eq_none_iff, hlive] at hfresh
    rw [hlive, List.map_append] at hd
    show ((t.place slot p).live.map Process.pid).Nodup
    rw [hplace, List.map_append, List.map_cons, List.nodup_middle, List.nodup_cons, ← List.map_append]
    refine ⟨?_, by rwa [List.map_append]⟩
    intro hin
    obtain ⟨r, hr, heq⟩ := List.mem_map.mp hin
    exact hfresh r hr heq
  · intro q hq
    rw [hfind, if_neg hq]
  · intro r hr
    rw [hself] at hr
    cases hr
    have hpos := hc.nextPid_pos
    exact ⟨⟨by omega, by show p.pid < t.nextPid + 1; omega⟩, Or.inl hstate,
      by rw [hticks]; exact Nat.zero_le _⟩
  · show ready.pids.Nodup
    rw [hready, List.nodup_append]
    refine ⟨hc.line, List.nodup_singleton _, ?_⟩
    intro q hq r hr
    rw [List.mem_singleton.mp hr]
    rintro rfl
    exact hnot hq
  · intro q hq
    simp [hready, hq]
  · rw [hself]
    simp [hready, hstate]
  · rw [hself]
    have := hc.runs_iff p.pid
    rw [hfresh] at this
    simpa [hstate] using this

/-- The running process is gone. -/
theorem erase (hc : t.Consistent) (h : t.current = some pid) :
    { t.erase pid with ready := t.ready.remove pid, current := none }.Consistent := by
  have hfind : ∀ q, ({ t.erase pid with ready := t.ready.remove pid, current := none } :
      ProcessTable).find? q = if q = pid then none else t.find? q := fun q => find?_erase
  have hself := hfind pid
  rw [if_pos rfl] at hself
  refine hc.change pid ?_ ?_ ?_ (Nat.le_refl _) (Nat.le_refl _) ?_ ?_ ?_ ?_ ?_
  · show ((t.erase pid).live.map Process.pid).Nodup
    rw [live_erase]
    exact hc.distinct.sublist (List.filter_sublist.map _)
  · intro q hq
    rw [hfind, if_neg hq]
  · intro r hr
    rw [hself] at hr
    cases hr
  · exact hc.line.erase pid
  · intro q hq
    simp [List.mem_erase_of_ne hq]
  · rw [hself]
    simp [hc.line.not_mem_erase]
  · intro q hq
    simp [current_ne h hq]
  · rw [hself]
    simp

end Consistent

end ProcessTable

end KernelCore
