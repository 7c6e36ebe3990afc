/-
# What a request comes to

A request is rejected, or it does what it asks for.  Which of the two it is can be said beforehand: the
number is none of a call, there is nobody who could have asked, or the range of a `write` is not the
caller's (`Kernel.Rejects`).  What is rejected has changed nothing but the one register in which the
caller finds why.

The other half is where something could go wrong late, after bytes have been printed or while the
processor changes hands.  It does not: behind a range that was accepted there is memory to its end,
whatever the tables hold, and in a kernel that has lost track of nothing the next process can always be
picked, and what a process had can always be given back.

* `serve_of_rejects`, `syscall_of_rejects`: what a rejected request leaves;
* `serve_of_not_rejects`: what any other leaves, call by call (`Kernel.Answered`);
* `serves_of_proceeds`: both, from booting on, with anything in the registers.
-/
import KernelCore.Proofs.Kernel.Survival
import KernelCore.Proofs.Kernel.Turns

namespace KernelCore

namespace Kernel

variable {k₀ k k' : Kernel} {base pid : Nat} {map : MemoryMap} {bootRoot : Option Nat} {status : Int}

/-! ## 1. Rejected requests -/

/-- **The request in the trap frame is rejected**, with a status. -/
inductive Rejects (k : Kernel) : Int → Prop where
  /-- There is no call of the number. -/
  | unknown : Syscall.all.length ≤ k.trap.rax.toNat → Rejects k Status.noSuchCall
  /-- Nobody runs who could write or exit. -/
  | nobody {call : Syscall} : call = .write ∨ call = .exit → k.trap.rax = call.number →
      k.processes.current = none → Rejects k Status.invalid
  /-- The range is not the caller's. -/
  | range {p : Process} {e : SyscallError} : k.trap.rax = Syscall.write.number →
      k.processes.running? = some p →
      UserBuffer.validate k.vm p.space k.trap.rdi k.trap.rsi = .error (.refused e) →
      Rejects k Status.invalid

/-- The walk over the pages of a range that somebody wants to write halts the machine. -/
def Stalls (k : Kernel) : Prop :=
  k.trap.rax = Syscall.write.number ∧ ∃ p halt, k.processes.running? = some p ∧
    UserBuffer.validate k.vm p.space k.trap.rdi k.trap.rsi = .error (.halted halt)

/-- How a request of a known number is served. -/
theorem serve_eq {call : Syscall} (hrax : k.trap.rax = call.number) :
    serve (.ofContext k.trap) k = perform (.ofContext k.trap) call k := by
  unfold serve
  rw [show (SyscallRequest.ofContext k.trap).number = call.number from hrax,
    Syscall.ofNumber?_number]

/-- **A rejected request is refused before anything has happened.** -/
theorem serve_of_rejects (h : k.Rejects status) : ∃ e, (KernelError.syscall e).status = status ∧
    serve (.ofContext k.trap) k = .error (.refused (.syscall e)) k := by
  cases h with
  | unknown hrax =>
    refine ⟨.unknownCall k.trap.rax.toNat, rfl, ?_⟩
    unfold serve
    rw [show Syscall.ofNumber? (SyscallRequest.ofContext k.trap).number = none from
      (Syscall.ofNumber?_eq_none_iff _).mpr hrax]
    rfl
  | @nobody call hcall hrax hcur =>
    refine ⟨.invalidArgument, rfl, ?_⟩
    rw [serve_eq hrax]
    rcases hcall with rfl | rfl
    · show write _ _ k = _
      unfold write ProcessTable.running?
      rw [hcur]
      rfl
    · show exitCurrent _ k = _
      unfold exitCurrent
      rw [hcur]
      rfl
  | @range p e hrax hp he =>
    refine ⟨.invalidArgument, rfl, ?_⟩
    rw [serve_eq hrax]
    cases UserBuffer.eq_invalidArgument_of_validate he
    exact write_of_error hp he

/-- **A rejected request leaves its caller a status**, and the journal a record.  All else is as it
was. -/
theorem syscall_of_rejects (h : k.Rejects status) : ∃ record, syscall k =
    .ok () { k with trap := { k.trap with rax := .ofInt status }, journal := k.journal ++ [record] } := by
  obtain ⟨e, rfl, he⟩ := serve_of_rejects h
  exact ⟨_, syscall_of_refused he⟩

/-! ## 2. Requests that are answered -/

/-- **What a request comes to that is not rejected.**  A greeting or the bytes of the range are printed,
the caller's number or nobody's is left, or somebody else gets the processor: the first of the line, and
if nobody waits, the caller goes on after a `yield` and nobody runs after an `exit`. -/
def Answered (k k' : Kernel) : Syscall → Prop
  | .hello => k' = (k.print greeting).leave 0
  | .write => ∃ p b, k.processes.running? = some p ∧
      UserBuffer.validate k.vm p.space k.trap.rdi k.trap.rsi = .ok b ∧
        k' = (k.print (b.copyChunks k.vm p.space).1.flatten).leave k.trap.rsi
  | .getpid => k' = k.leave (.ofNat (k.processes.current.getD 0))
  | .yield => schedule (k.leave 0) = .ok () k' ∧
      k'.processes.current = k.processes.ready.pids.head?.or k.processes.current
  | .exit => ∃ pid text, k.processes.current = some pid ∧
      exit pid (exitCode k.trap.rdi) (k.report .debug .handlers text) = .ok () k' ∧
        k'.processes.current = k.processes.ready.pids.head?

/-- Who runs when the next process has been picked. -/
theorem current_of_schedule (hc : k.processes.Consistent) (hok : schedule k = .ok () k') :
    k'.processes.current = k.processes.ready.pids.head?.or k.processes.current := by
  cases hline : k.processes.ready.pids with
  | nil =>
    obtain ⟨k₁, hok₁, -, -, hcur, -⟩ := exists_schedule_of_nil hc hline
    cases hok.symm.trans hok₁
    exact hcur
  | cons pid rest =>
    obtain ⟨k₁, hok₁, -, -, hcur, -⟩ := exists_schedule_of_cons hc hline
    cases hok.symm.trans hok₁
    exact hcur

/-- Who runs when the running process has ended. -/
theorem current_of_exit (hc : k.processes.Consistent) (hcur : k.processes.current = some pid)
    {code : Int32} (hok : exit pid code k = .ok () k') :
    k'.processes.current = k.processes.ready.pids.head? := by
  obtain ⟨p, hp, hrun⟩ := hc.exists_current hcur
  have hline : (k.withdraw pid).processes.ready.pids = k.processes.ready.pids :=
    List.erase_of_not_mem (hc.not_mem_ready hp (by simp [hrun]))
  unfold exit at hok
  rw [if_neg (not_not.mpr hcur), hp] at hok
  obtain ⟨released, k₁, hreclaim, hok⟩ := exists_of_bind_ok hok
  obtain ⟨_, k₂, hreport, hok⟩ := exists_of_bind_ok hok
  cases hreport
  have hsame := (sameProcesses_reclaim _ _).of_eq_ok hreclaim
  have hc₁ : k₁.processes.Consistent := hsame.processes ▸ hc.erase hcur
  have hnext := current_of_schedule (k := k₁.reportExit p code released) hc₁ hok
  rw [show (k₁.reportExit p code released).processes = (k.withdraw pid).processes from hsame.processes,
    hline] at hnext
  rw [hnext]
  exact Option.or_none

/-- **A request that is not rejected is answered**, unless the walk over its range halts the machine. -/
theorem serve_of_not_rejects (h : k.InOrder base) (hr : ∀ status, ¬k.Rejects status)
    (hs : ¬k.Stalls) : ∃ call k', k.trap.rax = call.number ∧
      serve (.ofContext k.trap) k = .ok () k' ∧ k.Answered k' call := by
  obtain ⟨call, hcall⟩ : ∃ call, Syscall.ofNumber? k.trap.rax = some call := by
    cases hcall : Syscall.ofNumber? k.trap.rax with
    | some call => exact ⟨call, rfl⟩
    | none => exact absurd (.unknown ((Syscall.ofNumber?_eq_none_iff _).mp hcall)) (hr _)
  have hrax := Syscall.eq_number hcall
  refine ⟨call, ?_⟩
  rw [serve_eq hrax]
  cases call with
  | hello => exact ⟨_, hrax, rfl, rfl⟩
  | getpid => exact ⟨_, hrax, rfl, rfl⟩
  | write =>
    cases hcur : k.processes.current with
    | none => exact absurd (.nobody (Or.inl rfl) hrax hcur) (hr _)
    | some pid =>
      obtain ⟨p, hp, -⟩ := h.settled.consistent.exists_current hcur
      have hp : k.processes.running? = some p := by
        unfold ProcessTable.running?
        rw [hcur]
        exact hp
      rcases hb : UserBuffer.validate k.vm p.space k.trap.rdi k.trap.rsi with (e | halt) | b
      · exact absurd (.range hrax hp hb) (hr _)
      · exact absurd ⟨hrax, p, halt, hp, hb⟩ hs
      · exact ⟨_, hrax, write_of_validate hp hb, p, b, hp, hb, rfl⟩
  | yield =>
    have hleft : (k.leave 0).InOrder base := h.quiet ⟨rfl, rfl, rfl⟩
    obtain ⟨k', hok, -⟩ := hleft.settled.exists_schedule
    exact ⟨k', hrax, onProcesses_of_ok hok, hok,
      current_of_schedule (k := k.leave 0) hleft.settled.consistent hok⟩
  | exit =>
    rcases exitCurrent_cases h (exitCode k.trap.rdi) with
      ⟨hcur, -⟩ | ⟨pid, text, k', hcur, hexit, hok, -⟩
    · exact absurd (.nobody (Or.inr rfl) hrax hcur) (hr _)
    · refine ⟨k', hrax, hok, pid, text, hcur, hexit, ?_⟩
      exact current_of_exit (k := k.report .debug .handlers text) h.settled.consistent hcur hexit

theorem serve_of_stalls (h : k.Stalls) :
    ∃ halt, serve (.ofContext k.trap) k = .error (.halted halt) k := by
  obtain ⟨hrax, p, halt, hp, he⟩ := h
  exact ⟨halt, (serve_eq hrax).trans (write_of_error hp he)⟩

/-! ## 3. Every request -/

/-- **The service of requests.**  A request that returns was refused exactly if it is rejected; then
only the result register and the journal are different.  Any other request that returns is done.  And
all return but a `write` whose range halts the machine. -/
structure Serves (k : Kernel) : Prop where
  refused_iff : ∀ k', syscall k = .ok () k' →
    ((∃ e k₁, serve (.ofContext k.trap) k = .error (.refused e) k₁) ↔ ∃ status, k.Rejects status)
  rejected : ∀ status, k.Rejects status → ∃ record, syscall k =
    .ok () { k with trap := { k.trap with rax := .ofInt status }, journal := k.journal ++ [record] }
  answered : ∀ k', syscall k = .ok () k' → (∀ status, ¬k.Rejects status) →
    ∃ call, k.trap.rax = call.number ∧ k.Answered k' call
  returns : (∃ k', syscall k = .ok () k') ∨ k.Stalls

theorem InOrder.serves (h : k.InOrder base) : k.Serves := by
  -- a request is rejected, halts the machine, or is answered
  have hcases : (∃ status, k.Rejects status) ∨ k.Stalls ∨ ∃ call k', k.trap.rax = call.number ∧
      serve (.ofContext k.trap) k = .ok () k' ∧ k.Answered k' call := by
    by_cases hr : ∃ status, k.Rejects status
    · exact Or.inl hr
    · by_cases hs : k.Stalls
      · exact Or.inr (Or.inl hs)
      · exact Or.inr (Or.inr (serve_of_not_rejects h (fun status hr' => hr ⟨status, hr'⟩) hs))
  refine ⟨fun k' hok => ⟨?_, ?_⟩, fun _ => syscall_of_rejects, fun k' hok hr => ?_, ?_⟩
  · rintro ⟨e, k₁, he⟩
    rcases hcases with hr | hs | ⟨call, k₂, -, hserve, -⟩
    · exact hr
    · obtain ⟨halt, hhalt⟩ := serve_of_stalls hs
      rw [hhalt] at he
      cases he
    · rw [hserve] at he
      cases he
  · rintro ⟨status, hr⟩
    obtain ⟨e, -, he⟩ := serve_of_rejects hr
    exact ⟨_, k, he⟩
  · rcases hcases with ⟨status, hr'⟩ | hs | ⟨call, k₂, hrax, hserve, hanswered⟩
    · exact absurd hr' (hr status)
    · obtain ⟨halt, hhalt⟩ := serve_of_stalls hs
      rw [syscall_of_halted hhalt] at hok
      cases hok
    · rw [syscall_of_ok hserve] at hok
      cases hok
      exact ⟨call, hrax, hanswered⟩
  · rcases hcases with ⟨status, hr⟩ | hs | ⟨call, k₂, -, hserve, -⟩
    · obtain ⟨record, hok⟩ := syscall_of_rejects hr
      exact Or.inl ⟨_, hok⟩
    · exact Or.inr hs
    · exact Or.inl ⟨k₂, syscall_of_ok hserve⟩

/-- **From booting on every request is rejected and changes nothing, or does what it asks for**, on any
registers. -/
theorem serves_of_proceeds (hb : Booted map bootRoot k₀) (hc : Proceeds k₀ k) (frame : Context) :
    { k with trap := frame }.Serves :=
  ((inOrder_of_course hb.inOrder.2 hc).trap frame).serves

/-- On a machine of six frames a process runs that asks with a number of no call and learns so, and
then asks for its own number. -/
theorem serves_sixFrames : ∃ k₀ k, (Booted World.sixFrames none k₀ ∧ Proceeds k₀ k) ∧
    (∃ record, syscall { k with trap := { rax := 5, rdi := 7 } } =
      .ok () { k with trap := { rax := .ofInt (-38), rdi := 7 }, journal := k.journal ++ [record] }) ∧
    syscall { k with trap := { rax := 2 } } = .ok () { k with trap := { rax := 1 } } := by
  obtain ⟨k₀, k, hb, hc, hcur, -⟩ := exists_running
  have hunknown := (serves_of_proceeds hb hc { rax := 5, rdi := 7 }).rejected _
    (.unknown (Nat.le_refl 5))
  have hasks := serves_of_proceeds hb hc { rax := 2 }
  have hgetpid : ∀ {call : Syscall}, (2 : UInt64) = call.number → Syscall.getpid = call :=
    fun h => Syscall.number_injective h
  have hnot : ∀ status, ¬{ k with trap := { rax := 2 } }.Rejects status := by
    rintro status (hrax | ⟨rfl | rfl, hrax, -⟩ | ⟨hrax, -, -⟩)
    · exact absurd (show 5 ≤ 2 from hrax) (by decide)
    · cases hgetpid hrax
    · cases hgetpid hrax
    · cases hgetpid hrax
  obtain ⟨k', hok⟩ : ∃ k', syscall { k with trap := { rax := 2 } } = .ok () k' := by
    rcases hasks.returns with hok | ⟨hrax, -⟩
    · exact hok
    · cases hgetpid hrax
  obtain ⟨call, hrax, hanswered⟩ := hasks.answered k' hok hnot
  cases hgetpid hrax
  refine ⟨k₀, k, ⟨hb, hc⟩, hunknown, hok.trans ?_⟩
  rw [show k' = { k with trap := { rax := .ofNat (k.processes.current.getD 0) } } from hanswered, hcur]
  rfl

end Kernel

end KernelCore
