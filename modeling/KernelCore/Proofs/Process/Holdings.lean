/-
# What the processes have

A process has a number, an address space and a stack, from its creation to its end.  The holdings of a
table are those of its processes, and whatever else may change about a process, they do not:

* `holdings_modify`: a process that changes keeps what it has;
* `holdings_place`, `holdings_erase`: what a process has comes and goes with it.
-/
import KernelCore.Proofs.Process.Consistency

namespace KernelCore

/-- What belongs to a process. -/
structure Holding where
  pid : Nat
  space : AddressSpace
  /-- The lowest address of the stack. -/
  stack : Nat

/-- What belongs to this process. -/
def Process.holding (p : Process) : Holding := ⟨p.pid, p.space, p.stack⟩

namespace ProcessTable

variable {t : ProcessTable} {p : Process} {pid : Nat} {slot : Fin maxProcesses}

/-- What belongs to the processes, in slot order. -/
def holdings (t : ProcessTable) : List Holding := t.live.map Process.holding

theorem length_holdings (t : ProcessTable) : t.holdings.length = t.live.length := List.length_map _

/-- The frames of the processes' spaces. -/
def ownedFrames (t : ProcessTable) : List Nat := t.live.flatMap (·.space.ownedFrames)

/-- Where the processes' stacks are. -/
def stackAddresses (t : ProcessTable) : List Nat := t.live.map Process.stack

theorem ownedFrames_eq (t : ProcessTable) :
    t.ownedFrames = t.holdings.flatMap (·.space.ownedFrames) := by
  rw [holdings, List.flatMap_map]
  rfl

theorem stackAddresses_eq (t : ProcessTable) : t.stackAddresses = t.holdings.map Holding.stack := by
  rw [holdings, List.map_map]
  rfl

theorem length_ownedFrames (t : ProcessTable) : t.ownedFrames.length = t.frameCount := by
  unfold ownedFrames frameCount
  induction t.live with
  | nil => rfl
  | cons p rest ih =>
    rw [List.flatMap_cons, List.length_append, ih, List.foldr_cons]
    exact congrArg (· + _) p.space.length_ownedFrames

theorem holdings_modify {f : Process → Process} (hf : ∀ p, (f p).holding = p.holding)
    (t : ProcessTable) (pid : Nat) : (t.modify pid f).holdings = t.holdings := by
  rw [holdings, live_modify, List.map_map]
  refine List.map_congr_left fun p _ => ?_
  simp only [Function.comp_apply]
  split
  · exact hf p
  · rfl

/-- What a new process has comes to the rest. -/
theorem holdings_place (h : t.slots.get slot = none) (p : Process) :
    (t.place slot p).holdings.Perm (p.holding :: t.holdings) := by
  obtain ⟨pre, post, hlive, hplace⟩ := exists_live_place h p
  rw [holdings, hplace, holdings, hlive, ← List.map_cons]
  exact List.perm_middle.map _

/-- What a process has goes with it, and the rest stays. -/
theorem holdings_erase (hd : (t.live.map Process.pid).Nodup) (hp : t.find? pid = some p) :
    t.holdings.Perm (p.holding :: (t.erase pid).holdings) := by
  obtain ⟨pre, post, hlive⟩ := List.append_of_mem (mem_live_of_find? hp)
  obtain rfl := pid_of_find? hp
  have hne : ∀ q ∈ pre ++ post, q.pid ≠ p.pid := by
    intro q hq he
    rw [hlive, List.map_append, List.map_cons] at hd
    have hnodup := List.nodup_cons.mp (List.perm_middle.nodup_iff.mp hd)
    refine hnodup.1 ?_
    rw [← List.map_append, ← he]
    exact List.mem_map_of_mem hq
  have hrest : (t.erase p.pid).live = pre ++ post := by
    rw [live_erase, hlive, List.filter_append, List.filter_cons_of_neg (by simp),
      ← List.filter_append, List.filter_eq_self]
    intro q hq
    simpa using hne q hq
  rw [holdings, holdings, hrest, hlive, ← List.map_cons]
  exact List.perm_middle.map _

end ProcessTable

end KernelCore
