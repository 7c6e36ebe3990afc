/-
# What an operation leaves behind

An operation that keeps its state also when it is refused has two results to speak of: the state
after it is done, and the state after a refusal.  `Outcome` says something about both, and nothing
about a halt, after which nothing runs.

* `bind_of_ok`, `bind_of_error`: what a sequence comes to;
* `Outcome.bind`: a sequence does what its second half does from where the first half leads;
* `Outcome.onVm`, `Outcome.onHeap`, `Outcome.onKernelSpace`: an operation of a part does to the
  whole what it does to the part.
-/
import KernelCore.Kernel.State

namespace KernelCore

variable {ε ε' σ α β : Type}

/-! ## Sequences -/

section

variable {x : EStateM ε σ α} {f : α → EStateM ε σ β} {s s' : σ} {a : α} {b : β} {e : ε}

/-- A sequence whose first half is done goes on with the second. -/
theorem bind_of_ok (hx : x s = .ok a s') : (x >>= f) s = f a s' :=
  (EStateM.run_bind x f).trans (by rw [EStateM.run, hx]; rfl)

/-- A sequence ends where its first half does. -/
theorem bind_of_error (hx : x s = .error e s') : (x >>= f) s = .error e s' :=
  (EStateM.run_bind x f).trans (by rw [EStateM.run, hx])

/-- A sequence that is done has both its halves done. -/
theorem exists_of_bind_ok (hok : (x >>= f) s = .ok b s') :
    ∃ a s₁, x s = .ok a s₁ ∧ f a s₁ = .ok b s' := by
  cases hx : x s with
  | ok a s₁ =>
    rw [bind_of_ok hx] at hok
    exact ⟨a, s₁, rfl, hok⟩
  | error e s₁ =>
    rw [bind_of_error hx] at hok
    cases hok

end

/-! ## Outcomes -/

/-- **What holds of the state that an operation leaves**, whether it is done or refused. -/
def Outcome (r : EStateM.Result (Stop ε) σ α) (P : α → σ → Prop) (Q : ε → σ → Prop) :
    Prop :=
  match r with
  | .ok a s => P a s
  | .error (.refused e) s => Q e s
  | .error (.halted _) _ => True

namespace Outcome

variable {P P' : α → σ → Prop} {Q Q' : ε → σ → Prop}

theorem mono {r : EStateM.Result (Stop ε) σ α} (h : Outcome r P Q)
    (hdone : ∀ a s, P a s → P' a s) (hrefused : ∀ e s, Q e s → Q' e s) : Outcome r P' Q' := by
  match r, h with
  | .ok a s, h => exact hdone a s h
  | .error (.refused e) s, h => exact hrefused e s h
  | .error (.halted _) _, _ => exact True.intro

/-- Two things that hold of what an operation leaves hold together. -/
theorem and {r : EStateM.Result (Stop ε) σ α} (h : Outcome r P Q) (h' : Outcome r P' Q') :
    Outcome r (fun a s => P a s ∧ P' a s) fun e s => Q e s ∧ Q' e s := by
  match r, h, h' with
  | .ok a s, h, h' => exact ⟨h, h'⟩
  | .error (.refused e) s, h, h' => exact ⟨h, h'⟩
  | .error (.halted _) _, _, _ => exact True.intro

/-- A sequence does what its second half does from where the first half leads. -/
theorem bind {x : EStateM (Stop ε) σ α} {f : α → EStateM (Stop ε) σ β} {s : σ}
    {P' : β → σ → Prop} (hx : Outcome (x s) P Q)
    (hf : ∀ a s', P a s' → Outcome (f a s') P' Q) :
    Outcome ((x >>= f) s) P' Q := by
  match hr : x s, hx with
  | .ok a s', h =>
    rw [bind_of_ok hr]
    exact hf a s' h
  | .error (.refused e) s', h =>
    rw [bind_of_error hr]
    exact h
  | .error (.halted _) _, _ =>
    rw [bind_of_error hr]
    exact True.intro

theorem of_ok {r : EStateM.Result (Stop ε) σ α} {a : α} {s : σ} (hr : r = .ok a s) (h : P a s) :
    Outcome r P Q := by
  subst hr
  exact h

theorem of_refused {r : EStateM.Result (Stop ε) σ α} {e : ε} {s : σ} (hr : r = .error (.refused e) s)
    (h : Q e s) : Outcome r P Q := by
  subst hr
  exact h

theorem of_halted {r : EStateM.Result (Stop ε) σ α} {h : Halt} {s : σ}
    (hr : r = .error (.halted h) s) : Outcome r P Q := by
  subst hr
  exact True.intro

/-- What an operation that is done leaves. -/
theorem of_eq_ok {r : EStateM.Result (Stop ε) σ α} {a : α} {s : σ} (h : Outcome r P Q)
    (hr : r = .ok a s) : P a s := by
  subst hr
  exact h

/-- What an operation that is refused leaves. -/
theorem of_eq_refused {r : EStateM.Result (Stop ε) σ α} {e : ε} {s : σ}
    (h : Outcome r P Q) (hr : r = .error (.refused e) s) : Q e s := by
  subst hr
  exact h

/-- An operation that does not halt is done or refused. -/
theorem ends {r : EStateM.Result (Stop ε) σ α} (h : Outcome r P Q)
    (hne : ∀ s halt, r ≠ .error (.halted halt) s) :
    (∃ a s, r = .ok a s ∧ P a s) ∨ ∃ e s, r = .error (.refused e) s ∧ Q e s := by
  match r, h with
  | .ok a s, h => exact Or.inl ⟨a, s, rfl, h⟩
  | .error (.refused e) s, h => exact Or.inr ⟨e, s, rfl, h⟩
  | .error (.halted halt) s, _ => exact absurd rfl (hne s halt)

/-- What an operation leaves, done or refused, holds of the state that it ends in. -/
theorem of_ends {r : EStateM.Result (Stop ε) σ α} {s : σ} {P : σ → Prop}
    (h : Outcome r (fun _ s => P s) fun _ s => P s)
    (he : (∃ a, r = .ok a s) ∨ ∃ e, r = .error (.refused e) s) : P s := by
  rcases he with ⟨a, hok⟩ | ⟨e, hrefused⟩
  · exact h.of_eq_ok hok
  · exact h.of_eq_refused hrefused

/-! ## Operations of parts -/

/-- An operation of virtual memory, on the kernel's. -/
theorem onVm {g : PagingError → ε} {op : Vm.Op α} {k : Kernel} {P : α → Kernel → Prop}
    {Q : ε → Kernel → Prop}
    (h : Outcome (op k.vm) (fun a vm => P a { k with vm }) fun e vm => Q (g e) { k with vm }) :
    Outcome (Kernel.onVm g op k) P Q := by
  unfold Kernel.onVm
  match op k.vm, h with
  | .ok a vm, h => exact h
  | .error (.refused e) vm, h => exact h
  | .error (.halted _) _, _ => exact True.intro

/-- An operation of the heap, on the kernel's. -/
theorem onHeap {g : HeapError → ε} {op : Heap → Except (Stop HeapError) (α × Heap)} {k : Kernel}
    {P : α → Kernel → Prop} {Q : ε → Kernel → Prop}
    (hdone : ∀ a heap, op k.heap = .ok (a, heap) → P a { k with heap })
    (hrefused : ∀ e, op k.heap = .error (.refused e) → Q (g e) k) :
    Outcome (Kernel.onHeap g op k) P Q := by
  unfold Kernel.onHeap
  match hop : op k.heap with
  | .ok (a, heap) => exact hdone a heap hop
  | .error (.refused e) => exact hrefused e hop
  | .error (.halted _) => exact True.intro

/-- An operation of virtual memory, beside a space of the caller. -/
theorem besideSpace {op : Vm.Op α} {vm : Vm} {space : AddressSpace}
    {P : α → Vm × AddressSpace → Prop} {Q : PagingError → Vm × AddressSpace → Prop}
    (h : Outcome (op vm) (fun a vm => P a (vm, space)) fun e vm => Q e (vm, space)) :
    Outcome (Vm.onVm op (vm, space)) P Q := by
  unfold Vm.onVm
  dsimp only
  match op vm, h with
  | .ok a vm, h => exact h
  | .error (.refused e) vm, h => exact h
  | .error (.halted _) _, _ => exact True.intro

/-- An operation of the mapper, on a space of the caller. -/
theorem onSpace {op : Mapper α} {vm : Vm} {space : AddressSpace}
    {P : α → Vm × AddressSpace → Prop} {Q : PagingError → Vm × AddressSpace → Prop}
    (h : Outcome (op (vm.ram, space)) (fun a s => P a ({ vm with ram := s.1 }, s.2))
      fun e s => Q e ({ vm with ram := s.1 }, s.2)) :
    Outcome (Vm.onSpace op (vm, space)) P Q := by
  unfold Vm.onSpace
  dsimp only
  match op (vm.ram, space), h with
  | .ok a (ram, space), h => exact h
  | .error (.refused e) (ram, space), h => exact h
  | .error (.halted _) _, _ => exact True.intro

/-- An operation of the mapper, on the kernel's space. -/
theorem onKernelSpace {op : Mapper α} {vm : Vm} {P : α → Vm → Prop}
    {Q : PagingError → Vm → Prop}
    (h : Outcome (op (vm.ram, vm.kernel)) (fun a s => P a { vm with ram := s.1, kernel := s.2 })
      fun e s => Q e { vm with ram := s.1, kernel := s.2 }) :
    Outcome (Vm.onKernelSpace op vm) P Q := by
  unfold Vm.onKernelSpace
  match op (vm.ram, vm.kernel), h with
  | .ok a (ram, space), h => exact h
  | .error (.refused e) (ram, space), h => exact h
  | .error (.halted _) _, _ => exact True.intro

end Outcome

end KernelCore
