/-
# Time alone turns the line round

When nothing happens but timer ticks, whoever runs and those who wait form a ring, `ProcessTable.ring`:
the running process first, the others in line behind it.  A tick is charged to the first of the ring and
taken from its turn; the last tick of a turn turns the ring by one place, and the next turn is a full one.
So after `n` ticks the ring has been turned as often as turns have begun, which is a quotient
(`turnsBegun`), and that is all there is to know of the scheduler:

* `exists_turnover`, `exists_tick`: what picking the next process and a tick do to the ring;
* `Ticks.turned`: what any number of ticks does to it, and which process each of them finds;
* `count_ring`: as many ticks as make a full turn for everybody find each process for a full turn;
* `rotates_of_passes`: so the process that runs after `n` ticks is the one that the quotient says, and
  everybody has been charged the ticks that it ran.

With nobody in line the ring has one place, and the same holds of a process that is alone.
-/
import KernelCore.Proofs.Kernel.Turns
import Mathlib.Data.List.Rotate

namespace KernelCore

namespace ProcessTable

variable {t t' t'' : ProcessTable} {p x : Process} {pid q : Nat} {ran ran' : List (Option Nat)}

/-! ## 1. What processes are charged -/

/-- **Ticks were counted and charged**, each to the process that ran; blocked processes have not been
touched. -/
structure Charges (t t' : ProcessTable) (ran : List (Option Nat)) : Prop where
  uptime : t'.uptime = t.uptime + ran.length
  ticks : ∀ q, (t'.find? q).map Process.ticks = (t.find? q).map fun x => x.ticks + ran.count (some q)
  blocked : ∀ {q x}, t.find? q = some x → x.state = .blocked → t'.find? q = some x

theorem Charges.refl (t : ProcessTable) : t.Charges t [] := ⟨rfl, fun _ => rfl, fun h _ => h⟩

theorem Charges.trans (h : t.Charges t' ran) (h' : t'.Charges t'' ran') :
    t.Charges t'' (ran ++ ran') := by
  refine ⟨?_, fun q => ?_, fun hx hblocked => h'.blocked (h.blocked hx hblocked) hblocked⟩
  · rw [h'.uptime, h.uptime, List.length_append, Nat.add_assoc]
  · have hq := h.ticks q
    rw [h'.ticks]
    cases hx : t.find? q with
    | none =>
      rw [hx, Option.map_none, Option.map_eq_none_iff] at hq
      rw [hq]
      rfl
    | some x =>
      rw [hx, Option.map_some, Option.map_eq_some_iff] at hq
      obtain ⟨y, hy, hticks⟩ := hq
      rw [hy, Option.map_some, Option.map_some, hticks, List.count_append, Nat.add_assoc]

/-- One process changed, which was not blocked, and was charged what is said. -/
theorem charges_modify {f : Process → Process} (hf : ∀ p, (f p).pid = p.pid) (hp : t.find? pid = some p)
    (hstate : p.state ≠ .blocked) (huptime : t'.uptime = t.uptime + ran.length)
    (hfind : ∀ q, t'.find? q = (t.modify pid f).find? q)
    (hself : (f p).ticks = p.ticks + ran.count (some pid))
    (hothers : ∀ q, q ≠ pid → ran.count (some q) = 0) : t.Charges t' ran := by
  refine ⟨huptime, fun q => ?_, fun {q x} hx hblocked => ?_⟩
  · rw [hfind]
    by_cases hq : q = pid
    · rw [hq, find?_modify_self hf hp, hp, Option.map_some, Option.map_some, hself]
    · rw [find?_modify_of_ne hf hq, hothers q hq]
      rfl
  · rw [hfind]
    by_cases hq : q = pid
    · rw [hq, hp] at hx
      cases hx
      exact absurd hblocked hstate
    · rw [find?_modify_of_ne hf hq, hx]

/-- A change that costs no ticks. -/
theorem charges_nil {f : Process → Process} (hf : ∀ p, (f p).pid = p.pid) (hp : t.find? pid = some p)
    (hstate : p.state ≠ .blocked) (hticks : (f p).ticks = p.ticks) (huptime : t'.uptime = t.uptime)
    (hfind : ∀ q, t'.find? q = (t.modify pid f).find? q) : t.Charges t' [] :=
  charges_modify hf hp hstate huptime hfind hticks fun _ _ => rfl

/-! ## 2. The ring -/

/-- The process that runs, and behind it those that wait, in their order. -/
def ring (t : ProcessTable) : List Nat := t.current.toList ++ t.ready.pids

theorem ring_of_current (hcur : t.current = some pid) : t.ring = pid :: t.ready.pids := by
  rw [ring, hcur]
  rfl

/-- Who runs and who waits, read off the ring. -/
theorem of_ring {l : List Nat} (hring : t.ring = l) (hcur : t.current.isSome) :
    t.current = l.head? ∧ t.ready.pids = l.tail := by
  obtain ⟨pid, hpid⟩ := Option.isSome_iff_exists.mp hcur
  rw [ring_of_current hpid] at hring
  rw [← hring, hpid]
  exact ⟨rfl, rfl⟩

/-- Nobody has two places in the ring. -/
theorem Consistent.nodup_ring (hc : t.Consistent) (hcur : t.current = some pid) : t.ring.Nodup := by
  obtain ⟨p, hp, hrun⟩ := hc.exists_current hcur
  rw [ring_of_current hcur]
  exact List.nodup_cons.mpr ⟨hc.not_mem_ready hp (by simp [hrun]), hc.line⟩

/-- Whoever is in the ring is in the table. -/
theorem Consistent.exists_of_mem_ring (hc : t.Consistent) (hq : q ∈ t.ring) :
    ∃ x, t.find? q = some x := by
  rcases List.mem_append.mp hq with hcur | hline
  · obtain ⟨x, hx, -⟩ := hc.exists_current (Option.mem_toList.mp hcur)
    exact ⟨x, hx⟩
  · obtain ⟨x, hx, -⟩ := (hc.waits_iff q).mp hline
    exact ⟨x, hx⟩

end ProcessTable

/-! ## 3. Picking the next process -/

namespace Kernel

variable {k k' k'' : Kernel} {p : Process} {pid : Nat} {frames frames' : List Context}
  {ran ran' : List (Option Nat)}

theorem charges_preempt (hc : k.processes.Consistent) : Outcome (preempt k)
    (fun _ k' => k.processes.Charges k'.processes []) fun _ _ => True := by
  unfold preempt
  cases hcur : k.processes.current with
  | none => exact .refl _
  | some pid =>
    obtain ⟨p, hp, hrun⟩ := hc.exists_current hcur
    let stop : Process → Process := ({ · with context := k.trap, state := .ready })
    simp only [hp, Option.isNone_some, Bool.false_eq_true, if_false]
    unfold enqueue
    split
    · exact True.intro
    · exact ProcessTable.charges_nil (f := stop) (fun _ => rfl) hp (by simp [hrun]) rfl rfl fun _ => rfl

/-- The process that gets the processor begins a full turn. -/
theorem charges_dispatch (k : Kernel) : Outcome (dispatch k)
    (fun _ k' => k.processes.Charges k'.processes [] ∧ k'.processes.turn = quantumTicks)
    fun _ _ => True := by
  unfold dispatch
  split
  · exact True.intro
  · next pid ready _ =>
    unfold dispatchTo
    split
    · exact True.intro
    · next p hp =>
      have hp : k.processes.find? pid = some p := hp
      have hpid : p.pid = pid := ProcessTable.pid_of_find? hp
      let run : Process → Process := ({ · with state := .running, quantum := quantumTicks })
      subst hpid
      split
      · exact True.intro
      · next hstate =>
        have hstate : p.state = .ready := not_not.mp hstate
        refine ⟨ProcessTable.charges_nil (f := run) (fun _ => rfl) hp (by simp [hstate]) rfl rfl
          fun _ => rfl, ?_⟩
        let t : ProcessTable :=
          { k.processes.modify p.pid run with ready, current := some p.pid }
        have hfind : t.find? p.pid = some (run p) :=
          ProcessTable.find?_modify_self (f := run) (fun _ => rfl) hp
        exact ProcessTable.turn_of_current (t := t) rfl hfind

/-- **Picking the next process turns the ring by one place**, and costs nobody a tick.  The trap frame stays
if nobody waits. -/
theorem exists_turnover (hc : k.processes.Consistent) (hcur : k.processes.current = some pid) :
    ∃ k', schedule k = .ok () k' ∧ k'.processes.Paced ∧ k'.processes.current.isSome ∧
      k'.processes.ring = k.processes.ring.rotate 1 ∧ k'.processes.turn = quantumTicks ∧
        k.processes.Charges k'.processes [] ∧ (k.processes.ready.pids = [] → k'.trap = k.trap) := by
  rw [ProcessTable.ring_of_current hcur, List.rotate_cons_succ, List.rotate_zero]
  cases hline : k.processes.ready.pids with
  | nil =>
    obtain ⟨p, hp, hrun⟩ := hc.exists_current hcur
    let renew : Process → Process := ({ · with quantum := quantumTicks })
    have hschedule : schedule k = .ok () (k.mapProcesses (·.modify pid renew)) := by
      unfold schedule
      rw [if_pos ((ReadyQueue.isEmpty_eq_true_iff _).mpr hline)]
      simp only [hcur]
      exact renewQuantum_eq hp
    obtain ⟨k', hok, hpaced, hready, hcur', -⟩ := exists_schedule_of_nil hc hline
    rw [hschedule] at hok
    cases hok
    rw [hcur] at hcur'
    refine ⟨_, hschedule, hpaced, by rw [hcur']; rfl, ?_, ?_, ?_, fun _ => rfl⟩
    · rw [ProcessTable.ring_of_current hcur', hready, hline]
      rfl
    · exact ProcessTable.turn_of_current hcur'
        (ProcessTable.find?_modify_self (f := renew) (fun _ => rfl) hp)
    · exact ProcessTable.charges_nil (f := renew) (fun _ => rfl) hp (by simp [hrun]) rfl rfl fun _ => rfl
  | cons next rest =>
    obtain ⟨k', hok, hpaced, hready, hcur', -⟩ := exists_schedule_of_cons hc hline
    have hne : k.processes.ready.isEmpty ≠ true := by
      rw [ne_eq, ReadyQueue.isEmpty_eq_true_iff, hline]
      exact List.cons_ne_nil _ _
    have hcharges : Outcome (schedule k)
        (fun _ k' => k.processes.Charges k'.processes [] ∧ k'.processes.turn = quantumTicks)
        fun _ _ => True := by
      unfold schedule
      rw [if_neg hne]
      refine (charges_preempt hc).bind fun _ k₁ h₁ => (charges_dispatch k₁).mono ?_ fun _ _ h => h
      exact fun _ _ h => ⟨h₁.trans h.1, h.2⟩
    obtain ⟨hcharges, hturn⟩ := hcharges.of_eq_ok hok
    refine ⟨k', hok, hpaced, by rw [hcur']; rfl, ?_, hturn, hcharges, fun h => by cases h⟩
    rw [ProcessTable.ring_of_current hcur', hready, hcur]
    rfl

/-! ## 4. One tick -/

/-- **What a tick does** when a process runs: it is charged to this process and taken from its turn, and if
it was the last of the turn, the ring is turned by one place. -/
structure Ticked (k k' : Kernel) : Prop where
  paced : k'.processes.Paced
  runs : k'.processes.current.isSome
  charges : k.processes.Charges k'.processes [k.processes.current]
  stays : 2 ≤ k.processes.turn →
    k'.processes.ring = k.processes.ring ∧ k'.processes.turn = k.processes.turn - 1
  turns : k.processes.turn = 1 →
    k'.processes.ring = k.processes.ring.rotate 1 ∧ k'.processes.turn = quantumTicks
  trap : k.processes.ready.pids = [] → k'.trap = k.trap

theorem exists_tick (h : k.processes.Paced) (hcur : k.processes.current = some pid)
    (hu : k.processes.uptime + 1 < 2 ^ 64) : ∃ k', countTick k = .ok () k' ∧ k.Ticked k' := by
  obtain ⟨p, hp, hrun⟩ := h.consistent.exists_current hcur
  have hticks := h.consistent.ticks_le hp
  let charged := (k.mapProcesses ({ · with uptime := k.processes.uptime + 1 })).mapProcesses
    (·.modify pid Process.afterTick)
  have hc : charged.processes.Consistent :=
    h.consistent.modify_of_state_eq (f := Process.afterTick) hp (fun _ => rfl) rfl
      (Nat.succ_le_succ hticks) (Nat.le_succ _)
  have hfind : charged.processes.find? pid = some p.afterTick :=
    ProcessTable.find?_modify_self (f := Process.afterTick) (fun _ => rfl) hp
  have hcharges : k.processes.Charges charged.processes [k.processes.current] := by
    rw [hcur]
    refine ProcessTable.charges_modify (f := Process.afterTick) (fun _ => rfl) hp (by simp [hrun]) rfl
      (fun _ => rfl) ?_ fun q hq => ?_
    · rw [List.count_singleton_self]
      rfl
    · exact List.count_eq_zero.mpr fun hin => hq (Option.some.inj (List.mem_singleton.mp hin))
  have hturn : k.processes.turn = p.quantum := ProcessTable.turn_of_current hcur hp
  have hquantum := h.quantum hcur hp
  have hless : p.afterTick.quantum = p.quantum - 1 := rfl
  unfold countTick
  rw [if_neg (Nat.not_le_of_lt hu)]
  simp only [hcur]
  unfold chargeTick
  rw [show (k.mapProcesses ({ · with uptime := k.processes.uptime + 1 })).processes.find? pid = some p
    from hp]
  simp only
  rw [if_neg (by omega)]
  split
  · next hspent =>
    obtain ⟨k', hok, hpaced, hruns, hring, hturn', hcharges', htrap⟩ :=
      exists_turnover (k := charged) hc hcur
    exact ⟨k', hok, hpaced, hruns, hcharges.trans hcharges', fun _ => by omega,
      fun _ => ⟨hring, hturn'⟩, htrap⟩
  · next hleft =>
    have hrest : charged.processes.turn = p.quantum - 1 :=
      ProcessTable.turn_of_current (t := charged.processes) hcur hfind
    refine ⟨charged, rfl, .of_current hc hcur hfind (by omega), ?_, hcharges, fun _ => ⟨rfl, ?_⟩,
      fun _ => by omega, fun _ => rfl⟩
    · exact Option.isSome_iff_exists.mpr ⟨pid, hcur⟩
    · rw [hrest, hturn]

/-! ## 5. Any number of ticks -/

/-- **Ticks and nothing else**, each on a trap frame of its own, with the process that ran when it came. -/
inductive Ticks : Kernel → List Context → List (Option Nat) → Kernel → Prop where
  | nil {k : Kernel} : Ticks k [] [] k
  | cons {k k' k'' : Kernel} {frame : Context} {frames : List Context} {ran : List (Option Nat)} :
      countTick { k with trap := frame } = .ok () k' → Ticks k' frames ran k'' →
        Ticks k (frame :: frames) (k.processes.current :: ran) k''

/-- How many turns begin in the course of `n` ticks, if `rest` ticks are left of a turn. -/
def turnsBegun (rest n : Nat) : Nat := (n + quantumTicks - rest) / quantumTicks

theorem turnsBegun_of_lt {rest n : Nat} (hn : n < rest) (hrest : rest ≤ quantumTicks) :
    turnsBegun rest n = 0 :=
  Nat.div_eq_of_lt (by omega)

theorem turnsBegun_of_le {rest n : Nat} (hn : rest ≤ n) :
    turnsBegun rest n = (n - rest) / quantumTicks + 1 := by
  simp only [turnsBegun, quantumTicks]
  omega

/-- A tick that is not the last of its turn. -/
theorem turnsBegun_succ {rest n : Nat} (hrest : 2 ≤ rest) :
    turnsBegun rest (n + 1) = turnsBegun (rest - 1) n := by
  simp only [turnsBegun]
  congr 1
  omega

/-- The last tick of a turn. -/
theorem turnsBegun_one (n : Nat) : turnsBegun 1 (n + 1) = 1 + turnsBegun quantumTicks n := by
  simp only [turnsBegun, quantumTicks]
  omega

/-- **What ticks come to.**  The ring has been turned once for each turn that began, each tick found the
first of the ring as it was then, and was charged to it. -/
structure Turned (k : Kernel) (frames : List Context) (ran : List (Option Nat)) (k' : Kernel) :
    Prop where
  paced : k'.processes.Paced
  runs : k'.processes.current.isSome
  charges : k.processes.Charges k'.processes ran
  ring : k'.processes.ring = k.processes.ring.rotate (turnsBegun k.processes.turn frames.length)
  ran : ran = (List.range frames.length).map fun i =>
    (k.processes.ring.rotate (turnsBegun k.processes.turn i)).head?
  trap : k.processes.ready.pids = [] → k'.trap = frames.getLastD k.trap

theorem Turned.nil (h : k.processes.Paced) (hcur : k.processes.current.isSome) :
    k.Turned [] [] k := by
  refine ⟨h, hcur, .refl _, ?_, rfl, fun _ => rfl⟩
  rw [List.length_nil, turnsBegun_of_lt h.turn_bounds.1 h.turn_bounds.2, List.rotate_zero]

/-- A tick does to the ring what it does to it in the long run. -/
theorem Ticked.rotate (h : k.Ticked k') (hp : k.processes.Paced) (n : Nat) :
    k'.processes.ring.rotate (turnsBegun k'.processes.turn n) =
      k.processes.ring.rotate (turnsBegun k.processes.turn (n + 1)) := by
  rcases Nat.lt_or_ge k.processes.turn 2 with hlast | hmore
  · have hone : k.processes.turn = 1 := by
      have := hp.turn_bounds.1
      omega
    obtain ⟨hring, hturn⟩ := h.turns hone
    rw [hring, hturn, hone, turnsBegun_one, List.rotate_rotate]
  · obtain ⟨hring, hturn⟩ := h.stays hmore
    rw [hring, hturn, turnsBegun_succ hmore]

/-- With nobody in line, nobody comes to be in line. -/
theorem Ticked.line_eq_nil (h : k.Ticked k') (hp : k.processes.Paced) (hcur : k.processes.current.isSome)
    (hline : k.processes.ready.pids = []) : k'.processes.ready.pids = [] := by
  obtain ⟨pid, hpid⟩ := Option.isSome_iff_exists.mp hcur
  have hone : k.processes.ring = [pid] := by rw [ProcessTable.ring_of_current hpid, hline]
  have hring : k'.processes.ring = [pid] := by
    rcases Nat.lt_or_ge k.processes.turn 2 with hlast | hmore
    · have := hp.turn_bounds.1
      rw [(h.turns (by omega)).1, hone, List.rotate_singleton]
    · rw [(h.stays hmore).1, hone]
  exact (ProcessTable.of_ring hring h.runs).2

theorem Turned.cons {frame : Context} (hp : k.processes.Paced) (hcur : k.processes.current.isSome)
    (h : { k with trap := frame }.Ticked k') (h' : k'.Turned frames ran k'') :
    k.Turned (frame :: frames) (k.processes.current :: ran) k'' := by
  have hrotate := h.rotate hp
  refine ⟨h'.paced, h'.runs, h.charges.trans h'.charges, ?_, ?_, fun hline => ?_⟩
  · rw [h'.ring, List.length_cons]
    exact hrotate frames.length
  · rw [List.length_cons, List.range_succ_eq_map, List.map_cons, List.map_map, h'.ran]
    refine List.cons_eq_cons.mpr ⟨?_, List.map_congr_left fun i _ => congrArg List.head? (hrotate i)⟩
    rw [turnsBegun_of_lt hp.turn_bounds.1 hp.turn_bounds.2, List.rotate_zero]
    exact (ProcessTable.of_ring rfl hcur).1
  · rw [List.getLastD_cons, h'.trap (h.line_eq_nil hp hcur hline), h.trap hline]

/-- A tick that was counted is one of those that can be. -/
theorem uptime_lt_of_countTick (hok : countTick k = .ok () k') : k.processes.uptime + 1 < 2 ^ 64 := by
  by_contra hu
  unfold countTick at hok
  rw [if_pos (Nat.le_of_not_lt hu)] at hok
  cases hok

/-- **What ticks come to**, by one tick after the other. -/
theorem Ticks.turned (h : Ticks k frames ran k') (hp : k.processes.Paced)
    (hcur : k.processes.current.isSome) : k.Turned frames ran k' := by
  induction h with
  | nil => exact .nil hp hcur
  | @cons k k₁ k₂ frame frames ran hok _ ih =>
    obtain ⟨pid, hpid⟩ := Option.isSome_iff_exists.mp hcur
    obtain ⟨k', hok', hticked⟩ := exists_tick (k := { k with trap := frame }) hp hpid
      (uptime_lt_of_countTick hok)
    rw [hok] at hok'
    cases hok'
    exact .cons hp hcur hticked (ih hticked.paced hticked.runs)

/-- **Ticks can come** on any trap frames, as long as they can be counted. -/
theorem exists_ticks (frames : List Context) {k : Kernel} (hp : k.processes.Paced)
    (hcur : k.processes.current.isSome) (hu : k.processes.uptime + frames.length < 2 ^ 64) :
    ∃ ran k', Ticks k frames ran k' := by
  induction frames generalizing k with
  | nil => exact ⟨[], k, .nil⟩
  | cons frame frames ih =>
    obtain ⟨pid, hpid⟩ := Option.isSome_iff_exists.mp hcur
    rw [List.length_cons] at hu
    obtain ⟨k₁, hok, hticked⟩ := exists_tick (k := { k with trap := frame }) hp hpid
      (show k.processes.uptime + 1 < 2 ^ 64 by omega)
    have huptime : k₁.processes.uptime = k.processes.uptime + 1 := hticked.charges.uptime
    obtain ⟨ran, k', hrest⟩ := ih hticked.paced hticked.runs (by omega)
    exact ⟨_, k', .cons hok hrest⟩

/-! ## 6. A full turn for everybody -/

/-- In order, everybody is found for a full turn. -/
theorem count_turns (l : List Nat) (q : Nat) :
    ((List.range (quantumTicks * l.length)).map fun i => l[i / quantumTicks]?).count (some q) =
      quantumTicks * l.count q := by
  induction l with
  | nil => rfl
  | cons x l ih =>
    have hfirst : ((List.range quantumTicks).map fun i => (x :: l)[i / quantumTicks]?) =
        List.replicate quantumTicks (some x) := by
      refine List.eq_replicate_iff.mpr ⟨by simp, fun y hy => ?_⟩
      obtain ⟨i, hi, rfl⟩ := List.mem_map.mp hy
      rw [Nat.div_eq_of_lt (List.mem_range.mp hi), List.getElem?_cons_zero]
    have hothers : ((List.range (quantumTicks * l.length)).map fun i =>
        (x :: l)[(quantumTicks + i) / quantumTicks]?) =
          (List.range (quantumTicks * l.length)).map fun i => l[i / quantumTicks]? := by
      refine List.map_congr_left fun i _ => ?_
      rw [Nat.add_div_left _ one_le_quantumTicks, List.getElem?_cons_succ]
    rw [List.length_cons, Nat.mul_succ, Nat.add_comm, List.range_add, List.map_append, List.map_map,
      List.count_append, hfirst]
    refine (congrArg (_ + List.count _ ·) hothers).trans ?_
    rw [ih, List.count_replicate, List.count_cons, Nat.mul_add, Nat.add_comm]
    by_cases hx : x = q <;> simp [hx]

/-- A window of a whole period holds the same, wherever it begins. -/
theorem count_window {g : Nat → Option Nat} {period : Nat} (hg : ∀ i, g (i + period) = g i) (c : Nat)
    (x : Option Nat) : ((List.range period).map fun i => g (i + c)).count x =
      ((List.range period).map g).count x := by
  induction c with
  | zero => rfl
  | succ c ih =>
    rw [← ih]
    -- what is left at the front is found again behind the end
    have hends : g (period + c) = g (0 + c) := by rw [Nat.add_comm, hg, Nat.zero_add]
    have hslide : g (0 + c) :: (List.range period).map (fun i => g (i + (c + 1))) =
        (List.range period).map (fun i => g (i + c)) ++ [g (period + c)] := by
      rw [← List.map_singleton (f := fun i => g (i + c)), ← List.map_append, ← List.range_succ,
        List.range_succ_eq_map, List.map_cons, List.map_map]
      refine congrArg _ (List.map_congr_left fun i _ => ?_)
      rw [Function.comp_apply, Nat.succ_add_eq_add_succ]
    have hcount := congrArg (List.count x) hslide
    rw [hends, List.count_cons, List.count_append, List.count_singleton] at hcount
    exact Nat.add_right_cancel hcount

/-- Who is found first after some turns, counted in places of the ring. -/
theorem head?_rotate_turnsBegun {l : List Nat} (hl : l ≠ []) {rest : Nat} (hrest : rest ≤ quantumTicks)
    (i : Nat) : (l.rotate (turnsBegun rest i)).head? =
      l[(i + (quantumTicks - rest)) / quantumTicks % l.length]? := by
  rw [← List.rotate_mod, List.head?_rotate (Nat.mod_lt _ (List.length_pos_of_ne_nil hl)), turnsBegun,
    Nat.add_sub_assoc hrest]

/-- **As many ticks as make a full turn for everybody** find each of the ring for a full turn, whatever
is left of the turn in which they begin. -/
theorem count_ring {l : List Nat} (hl : l.Nodup) {q : Nat} (hq : q ∈ l) {rest : Nat}
    (hrest : rest ≤ quantumTicks) : ((List.range (quantumTicks * l.length)).map fun i =>
      (l.rotate (turnsBegun rest i)).head?).count (some q) = quantumTicks := by
  let found : Nat → Option Nat := fun i => l[i / quantumTicks % l.length]?
  have hperiodic : ∀ i, found (i + quantumTicks * l.length) = found i := by
    intro i
    simp only [found]
    rw [Nat.add_mul_div_left _ _ one_le_quantumTicks, Nat.add_mod_right]
  have hfound : (List.range (quantumTicks * l.length)).map found =
      (List.range (quantumTicks * l.length)).map fun i => l[i / quantumTicks]? := by
    refine List.map_congr_left fun i hi => ?_
    have hi : i / quantumTicks < l.length := Nat.div_lt_of_lt_mul (List.mem_range.mp hi)
    simp only [found]
    rw [Nat.mod_eq_of_lt hi]
  have hwindow := count_window hperiodic (quantumTicks - rest) (some q)
  rw [hfound, count_turns, List.count_eq_one_of_mem hl hq, Nat.mul_one] at hwindow
  refine Eq.trans (congrArg _ (List.map_congr_left fun i _ => ?_)) hwindow
  exact head?_rotate_turnsBegun (List.ne_nil_of_mem hq) hrest i

theorem Turned.length_ran (h : k.Turned frames ran k') : ran.length = frames.length := by
  rw [h.ran, List.length_map, List.length_range]

/-- What everybody of the ring is charged in these ticks. -/
theorem Turned.full_turn (h : k.Turned frames ran k') (hp : k.processes.Paced)
    (hcur : k.processes.current = some pid) {q : Nat} (hq : q ∈ k.processes.ring)
    (hlength : frames.length = quantumTicks * k.processes.ring.length) :
    ∃ x y, k.processes.find? q = some x ∧ k'.processes.find? q = some y ∧
      y.ticks = x.ticks + quantumTicks := by
  obtain ⟨x, hx⟩ := hp.consistent.exists_of_mem_ring hq
  have hcount : ran.count (some q) = quantumTicks := by
    rw [h.ran, hlength]
    exact count_ring (hp.consistent.nodup_ring hcur) hq hp.turn_bounds.2
  have hticks := h.charges.ticks q
  rw [hx, hcount, Option.map_some, Option.map_eq_some_iff] at hticks
  obtain ⟨y, hy, hticks⟩ := hticks
  exact ⟨x, y, hx, hy, hticks⟩

/-- With nobody in line, every tick finds the process that runs. -/
theorem Turned.alone (h : k.Turned frames ran k') (hcur : k.processes.current = some pid)
    (hline : k.processes.ready.pids = []) :
    k'.processes.current = some pid ∧ k'.processes.ready.pids = [] ∧
      ran = List.replicate frames.length (some pid) := by
  have hone : k.processes.ring = [pid] := by rw [ProcessTable.ring_of_current hcur, hline]
  have hring := h.ring
  rw [hone, List.rotate_singleton] at hring
  obtain ⟨hcur', hline'⟩ := ProcessTable.of_ring hring h.runs
  refine ⟨hcur', hline', List.eq_replicate_iff.mpr ⟨h.length_ran, fun x hx => ?_⟩⟩
  rw [h.ran, hone] at hx
  obtain ⟨i, -, rfl⟩ := List.mem_map.mp hx
  rw [List.rotate_singleton, List.head?_cons]

/-! ## 7. Round robin -/

/-- Those who take turns after the process that runs, up to itself. -/
def cycle (k : Kernel) (p : Process) : List Nat := k.processes.ready.pids ++ [p.pid]

/-- **Exact round robin**: ticks that find a kernel with `p` running, and the kernel after them.

At first `p` goes on; then everybody of the cycle runs for a full turn, and the others stand in line behind
in the order of the cycle.  Every tick is charged to the process that ran when it came, and each further
round of the cycle charges a full turn to everybody. -/
structure RoundRobin (k : Kernel) (p : Process) (frames : List Context) (ran : List (Option Nat))
    (k' : Kernel) : Prop where
  goes_on : frames.length < p.quantum →
    k'.processes.current = some p.pid ∧ k'.processes.ready.pids = k.processes.ready.pids
  rotates : ∀ m, p.quantum ≤ frames.length → m = (frames.length - p.quantum) / quantumTicks →
    k'.processes.current = (k.cycle p)[m % (k.cycle p).length]? ∧
      k'.processes.ready.pids = ((k.cycle p).rotate m).tail
  uptime : k'.processes.uptime = k.processes.uptime + frames.length
  charges : k.processes.Charges k'.processes ran
  round : ∀ {frames' : List Context} {ran' : List (Option Nat)} {k'' : Kernel}, Ticks k' frames' ran' k'' →
    frames'.length = quantumTicks * (k.cycle p).length → ∀ q ∈ k.cycle p,
      ∃ x y, k'.processes.find? q = some x ∧ k''.processes.find? q = some y ∧
        y.ticks = x.ticks + quantumTicks
  alone : k.processes.ready.pids = [] →
    k'.processes.current = some p.pid ∧ k'.processes.ready.pids = [] ∧
      (k'.processes.find? p.pid).map Process.ticks = some (p.ticks + frames.length) ∧
        k'.trap = frames.getLastD k.trap

/-- The ring, turned by one place, is the cycle. -/
theorem ring_rotate_succ {p : Process} (hcur : k.processes.current = some p.pid) (m : Nat) :
    k.processes.ring.rotate (m + 1) = (k.cycle p).rotate m := by
  rw [ProcessTable.ring_of_current hcur, List.rotate_cons_succ]
  rfl

/-- Nobody leaves the ring, and nobody joins it. -/
theorem Turned.perm_ring (h : k.Turned frames ran k') : k'.processes.ring.Perm k.processes.ring :=
  h.ring ▸ List.rotate_perm _ _

theorem Turned.roundRobin (h : k.Turned frames ran k') (hp : k.processes.Paced)
    (hcur : k.processes.current = some p.pid) (hfind : k.processes.find? p.pid = some p) :
    k.RoundRobin p frames ran k' := by
  have hturn : k.processes.turn = p.quantum := ProcessTable.turn_of_current hcur hfind
  have hfull := hp.turn_bounds.2
  have hcycle : k.processes.ring.Perm (k.cycle p) :=
    (List.rotate_perm _ _).symm.trans (.of_eq ((ring_rotate_succ hcur 0).trans (List.rotate_zero _)))
  have hring := h.ring
  rw [hturn] at hring hfull
  refine ⟨fun hn => ?_, fun m hn hm => ?_, ?_, h.charges, fun {frames' ran' k''} hticks hlength q hq => ?_,
    fun hline => ?_⟩
  · rw [turnsBegun_of_lt hn hfull, List.rotate_zero, ProcessTable.ring_of_current hcur] at hring
    exact ProcessTable.of_ring hring h.runs
  · rw [turnsBegun_of_le hn, ← hm, ring_rotate_succ hcur] at hring
    obtain ⟨hcur', hline'⟩ := ProcessTable.of_ring hring h.runs
    have hpos : 0 < (k.cycle p).length := List.length_pos_of_mem List.mem_concat_self
    rw [← List.rotate_mod, List.head?_rotate (Nat.mod_lt _ hpos)] at hcur'
    exact ⟨hcur', hline'⟩
  · rw [h.charges.uptime, h.length_ran]
  · obtain ⟨pid, hpid⟩ := Option.isSome_iff_exists.mp h.runs
    have hperm := h.perm_ring.trans hcycle
    exact (hticks.turned h.paced h.runs).full_turn h.paced hpid (hperm.mem_iff.mpr hq)
      (by rw [hlength, hperm.length_eq])
  · obtain ⟨hcur', hline', hran⟩ := h.alone hcur hline
    refine ⟨hcur', hline', ?_, h.trap hline⟩
    rw [h.charges.ticks, hfind, hran, Option.map_some, List.count_replicate_self]

/-- **Timer ticks share the processor in equal turns, in the order of the line.**  Take any table that
operations lead to from the empty one, with a process running, and any trap frames.  Ticks on them, with
nothing in between, all go through as long as they can be counted, and they are an exact round robin. -/
theorem rotates_of_passes {idle : Context} {before : List (SchedulerCall × ProcessTable)}
    (hr : ProcessTable.Passes (.empty idle) before k.processes) (hrun : k.processes.running? = some p)
    (frames : List Context) :
    (k.processes.uptime + frames.length < 2 ^ 64 → ∃ ran k', Ticks k frames ran k') ∧
      ∀ ran k', Ticks k frames ran k' → k.RoundRobin p frames ran k' := by
  have hp := hr.paced (.empty idle)
  obtain ⟨pid, hcur, hfind⟩ := Option.bind_eq_some_iff.mp hrun
  cases ProcessTable.pid_of_find? hfind
  have hruns : k.processes.current.isSome := Option.isSome_iff_exists.mpr ⟨_, hcur⟩
  exact ⟨exists_ticks frames hp hruns, fun ran k' h => (h.turned hp hruns).roundRobin hp hcur hfind⟩

/-- Two processes run, the second has just been given the processor: after six ticks the first has it. -/
theorem rotates_after_six_ticks : ∃ before k p frames ran k',
    ProcessTable.Passes (.empty {}) before k.processes ∧ k.processes.running? = some p ∧
      p.pid = 2 ∧ p.quantum = 5 ∧ k.processes.ready.pids = [1] ∧ frames.length = 6 ∧
        Ticks k frames ran k' ∧ k.RoundRobin p frames ran k' ∧ k'.processes.current = some 1 ∧
          k'.processes.ready.pids = [2] := by
  obtain ⟨before, t, hr, hline, hidle, huptime, -⟩ := ProcessTable.exists_waiting {} 2 (by decide)
  have hp := hr.paced (.empty {})
  let k₀ : Kernel := { Kernel.withoutMemory with processes := t }
  obtain ⟨k₁, hok₁, hp₁, hready₁, hcur₁, huptime₁⟩ := exists_schedule_of_cons (k := k₀) hp.consistent hline
  obtain ⟨k₂, hok₂, hp₂, hruns₂, hring₂, hturn₂, hcharges₂, -⟩ := exists_turnover hp₁.consistent hcur₁
  have hring₁ : k₁.processes.ring = [1, 2] := by
    rw [ProcessTable.ring_of_current hcur₁, hready₁, show k₀.processes.current = none from hidle]
    rfl
  rw [hring₁] at hring₂
  obtain ⟨hcur₂, hready₂⟩ := ProcessTable.of_ring (l := [2, 1]) hring₂ hruns₂
  obtain ⟨p, hfind, -⟩ := hp₂.consistent.exists_current hcur₂
  have hpid : p.pid = 2 := ProcessTable.pid_of_find? hfind
  have hquantum : p.quantum = 5 := (ProcessTable.turn_of_current hcur₂ hfind).symm.trans hturn₂
  have hrun : k₂.processes.running? = some p := Option.bind_eq_some_iff.mpr ⟨2, hcur₂, hfind⟩
  have hcycle : k₂.cycle p = [1, 2] := by
    rw [cycle, hready₂, hpid]
    rfl
  have hstep₁ : t.Becomes .schedule k₁.processes := ⟨k₀, k₁, rfl, rfl, .inl ⟨none, bind_of_ok hok₁⟩⟩
  have hstep₂ : k₁.processes.Becomes .yield k₂.processes :=
    ⟨k₁, k₂, rfl, rfl, .inl ⟨none, bind_of_ok hok₂⟩⟩
  have hr₂ := hr.append (.cons hstep₁ (.cons hstep₂ .nil))
  obtain ⟨hgo, hall⟩ := rotates_of_passes hr₂ hrun (List.replicate 6 {})
  have huptime₀ : k₁.processes.uptime = 0 := huptime₁.trans huptime
  have hroom : k₂.processes.uptime + 6 < 2 ^ 64 := by rw [hcharges₂.uptime, huptime₀]; decide
  obtain ⟨ran, k', hticks⟩ := hgo hroom
  have hrobin := hall ran k' hticks
  obtain ⟨hcur', hready'⟩ := hrobin.rotates 0 (by rw [hquantum]; decide) (by rw [hquantum]; decide)
  rw [hcycle] at hcur' hready'
  exact ⟨_, k₂, p, _, ran, k', hr₂, hrun, hpid, hquantum, hready₂, List.length_replicate, hticks, hrobin,
    hcur', hready'⟩

end Kernel

end KernelCore
