/-
# Two kernels that go on

Two kernels that differ in what memory holds and in what has been printed, and not in their tables, answer
every interrupt alike.  Nothing but tables and buffers is looked at in memory.  Tables say the same in both,
and what is in a buffer is copied to the console and to nowhere else; so afterwards the kernels differ in
memory and on the console as before.

What `write` prints may be different bytes, but no others than the ones that the two memories hold at one and
the same place (`Memory.Shows`), and the memories differ in nothing new (`Memory.Parallel`).

* `Abreast`: where two kernels have got to;
* `Paired.alike_timerTick`, `Paired.alike_syscall`: interrupts;
* `Paired.advance`: they go on being a pair.
-/
import KernelCore.Proofs.Kernel.Blindness
import KernelCore.Proofs.Kernel.Delivery

namespace KernelCore

/-! ## 1. Two memories in parallel -/

namespace Memory

variable {m₀ n₀ m n m' n' : Memory} {frame root first : Nat} {tables : List Nat} {x y : UInt8}

/-- **Two memories go in parallel**: each byte is the same in both, or is in each of them what it was. -/
def Parallel (m₀ n₀ m n : Memory) : Prop :=
  ∀ a, n.byte a = m.byte a ∨ (m.byte a = m₀.byte a ∧ n.byte a = n₀.byte a)

theorem Parallel.refl (m n : Memory) : Parallel m n m n := fun _ => Or.inr ⟨rfl, rfl⟩

theorem Parallel.trans (h : Parallel m₀ n₀ m n) (h' : Parallel m n m' n') : Parallel m₀ n₀ m' n' := by
  intro a
  rcases h' a with hsame | ⟨hm, hn⟩
  · exact Or.inl hsame
  · rw [hm, hn]
    exact h a

/-- A frame that holds the same in both goes on doing so. -/
theorem Parallel.sameFrame (h : Parallel m₀ n₀ m n) (hsame : m₀.SameFrame n₀ frame) :
    m.SameFrame n frame := by
  intro a ha
  rcases h a with heq | ⟨hm, hn⟩
  · exact heq
  · rw [hm, hn, hsame a ha]

/-- Tables that are written in both. -/
theorem Joint.parallel (h : Joint m₀ n₀ tables m n) : Parallel m₀ n₀ m n := by
  intro a
  by_cases ht : a / pageSize ∈ tables
  · exact Or.inl (h.same _ ht a rfl)
  · exact Or.inr ⟨(h.others _ ht).1 a rfl, (h.others _ ht).2 a rfl⟩

/-- The same bytes stored in both. -/
theorem parallel_write (m n : Memory) (a : Nat) (bytes : List UInt8) :
    Parallel m n (m.write a bytes) (n.write a bytes) := by
  intro b
  rw [byte_write, byte_write]
  split
  · exact Or.inl rfl
  · exact Or.inr ⟨rfl, rfl⟩

/-- Two bytes are the same, or are what the memories hold at one place. -/
def Shows (m n : Memory) (x y : UInt8) : Prop := y = x ∨ ∃ a, x = m.byte a ∧ y = n.byte a

theorem Parallel.shows (h : Parallel m₀ n₀ m n) (hs : Shows m n x y) : Shows m₀ n₀ x y := by
  rcases hs with rfl | ⟨a, rfl, rfl⟩
  · exact Or.inl rfl
  · exact (h a).imp_right fun hold => ⟨a, hold⟩

/-- The bytes behind a range whose addresses lead to the same places. -/
theorem Spells.shows {xs ys : List UInt8} (hm : m.Spells root first xs) (hn : n.Spells root first ys)
    (hlength : ys.length = xs.length) (htranslate : ∀ a : VirtAddr, first ≤ a.val →
      a.val < first + xs.length → n.translate root a = m.translate root a) :
    List.Forall₂ (Shows m n) xs ys := by
  refine List.forall₂_iff_get.mpr ⟨hlength.symm, fun i hi hi' => ?_⟩
  obtain ⟨a, target, ha, htarget, hbyte⟩ := hm i _ (List.getElem?_eq_getElem hi)
  obtain ⟨a', target', ha', htarget', hbyte'⟩ := hn i _ (List.getElem?_eq_getElem hi')
  obtain rfl : a' = a := VirtAddr.eq_of_val (ha'.trans ha.symm)
  rw [htranslate a' (by omega) (by omega), htarget] at htarget'
  cases htarget'
  exact Or.inr ⟨target.address, hbyte.symm, hbyte'.symm⟩

end Memory

/-! ## 2. Two kernels that go on -/

namespace Kernel

variable {ε α : Type} {k₀ k l k' l' k'' l'' : Kernel} {base : Nat} {map : MemoryMap} {p : Process}

/-- **Two kernels go abreast**: they differ in memory and on the console only, their memories have gone in
parallel, and they have printed as many bytes, which are the same or what the memories held at one place. -/
structure Abreast (k l k' l' : Kernel) : Prop where
  twins : l' = k'.veil l'.vm.ram.memory l'.console
  memory : Memory.Parallel k.vm.ram.memory l.vm.ram.memory k'.vm.ram.memory l'.vm.ram.memory
  printed : ∃ out out', k'.console = k.console ++ out ∧ l'.console = l.console ++ out' ∧
    List.Forall₂ (Memory.Shows k.vm.ram.memory l.vm.ram.memory) out out'

/-- Nothing was printed. -/
theorem Abreast.of_veiled {m n : Memory} {d : List UInt8}
    (hm : Memory.Parallel k.vm.ram.memory l.vm.ram.memory m n) (hd : d = l.console)
    (h : Veiled m n k.console d k' l') : k.Abreast l k' l' := by
  obtain ⟨rfl, hconsole, rfl⟩ := h
  exact ⟨rfl, hm, [], [], by rw [hconsole, List.append_nil], by rw [List.append_nil]; exact hd, .nil⟩

theorem Abreast.refl (h : l = k.veil l.vm.ram.memory l.console) : k.Abreast l k l :=
  .of_veiled (.refl _ _) rfl ⟨rfl, rfl, h⟩

theorem Abreast.trans (h : k.Abreast l k' l') (h' : k'.Abreast l' k'' l'') : k.Abreast l k'' l'' := by
  obtain ⟨out, out', hk, hl, hshows⟩ := h.printed
  obtain ⟨more, more', hk', hl', hshows'⟩ := h'.printed
  refine ⟨h'.twins, h.memory.trans h'.memory, out ++ more, out' ++ more', ?_, ?_, ?_⟩
  · rw [hk', hk, List.append_assoc]
  · rw [hl', hl, List.append_assoc]
  · exact List.rel_append hshows (hshows'.imp fun _ _ => h.memory.shows)

/-- What is blind goes on alike, from wherever the memories and the consoles are the first ones. -/
theorem Blind.abreast {op : EStateM ε Kernel α} (hop : Blind op)
    (h : Veiled k.vm.ram.memory l.vm.ram.memory k.console l.console k' l') :
    Alike (op k') (op l') (fun _ => k.Abreast l) (k.Abreast l) :=
  (hop _ _ _ _ k' l' h).mono (fun _ _ _ h => .of_veiled (.refl _ _) rfl h)
    fun _ _ h => .of_veiled (.refl _ _) rfl h

/-- **A pair**: two kernels that differ in memory and on the console only, and not in what the root of the
kernel's space and the tables of the processes hold. -/
structure Paired (k l : Kernel) : Prop where
  twins : l = k.veil l.vm.ram.memory l.console
  root : k.vm.ram.memory.SameFrame l.vm.ram.memory k.vm.kernel.root
  tables : ∀ t ∈ k.processes.tableFrames, k.vm.ram.memory.SameFrame l.vm.ram.memory t

theorem Paired.veiled (h : k.Paired l) : Veiled k.vm.ram.memory l.vm.ram.memory k.console l.console k l :=
  ⟨rfl, rfl, h.twins⟩

theorem Paired.processes_eq (h : k.Paired l) : l.processes = k.processes := by
  rw [h.twins]
  rfl

/-- The same change of both, if it is one of the rest of the state. -/
theorem Paired.change (h : k.Paired l) {f : Kernel → Kernel}
    (hf : ∀ n d, Veiled k.vm.ram.memory n k.console d (f k) (f (k.veil n d))) :
    Veiled k.vm.ram.memory l.vm.ram.memory k.console l.console (f k) (f l) := by
  have hl := hf l.vm.ram.memory l.console
  rwa [← h.twins] at hl

/-- The tables of a process are right in both. -/
theorem Paired.exists_tree (h : k.Paired l) {holding : Holding}
    (hin : holding ∈ k.processes.holdings) (hl : Vm.Lodges k.vm.ram.memory holding.space dataPage) :
    ∃ asked τ, Tree k.vm.ram.memory holding.space asked τ ∧ Tree l.vm.ram.memory holding.space asked τ := by
  obtain ⟨-, ⟨asked, τ, ht⟩, -⟩ := hl
  exact ⟨asked, τ, ht, ht.congr fun t htable => h.tables t (List.mem_flatMap.mpr ⟨holding, hin, htable⟩)⟩

/-- A pair that goes on is a pair, as long as nobody has anything new. -/
theorem Paired.advance (h : k.Paired l) (ha : k.Abreast l k' l') (hkernel : k'.vm.kernel = k.vm.kernel)
    (hholdings : k'.processes.holdings ⊆ k.processes.holdings) : k'.Paired l' := by
  refine ⟨ha.twins, hkernel ▸ ha.memory.sameFrame h.root, fun t ht => ?_⟩
  obtain ⟨holding, hin, ht⟩ := List.mem_flatMap.mp ht
  exact ha.memory.sameFrame (h.tables t (List.mem_flatMap.mpr ⟨holding, hholdings hin, ht⟩))

end Kernel

/-! ## 3. What is printed -/

namespace UserBuffer

variable {vm vm' : Vm} {space : AddressSpace}

/-- What is found in the tables of the space does not depend on anything else. -/
theorem checkPages_congr (h : ∀ page, checkPage vm' space page = checkPage vm space page) (n : Nat)
    (page : Page) : checkPages vm' space n page = checkPages vm space n page := by
  induction n generalizing page with
  | zero => rfl
  | succ n ih =>
    unfold checkPages
    rw [h]
    cases page.next with
    | error halt => rfl
    | ok next? =>
      cases next? with
      | none => rfl
      | some next =>
        dsimp only
        rw [ih]

theorem validate_congr (h : ∀ page, checkPage vm' space page = checkPage vm space page)
    (pointer length : UInt64) : validate vm' space pointer length = validate vm space pointer length := by
  unfold validate
  simp only [checkPages_congr h]

end UserBuffer

namespace Kernel

variable {k l : Kernel} {p : Process}

/-- **A range is accepted by both or by none.** -/
theorem Paired.validate_eq (h : k.Paired l) {holding : Holding} (hin : holding ∈ k.processes.holdings)
    (hl : Vm.Lodges k.vm.ram.memory holding.space dataPage) (pointer length : UInt64) :
    UserBuffer.validate l.vm holding.space pointer length =
      UserBuffer.validate k.vm holding.space pointer length := by
  obtain ⟨asked, τ, ht, ht'⟩ := h.exists_tree hin hl
  refine UserBuffer.validate_congr (fun page => ?_) pointer length
  rw [UserBuffer.checkPage_eq ht, UserBuffer.checkPage_eq ht']

/-- **What is copied out of a range** is the same, or is what the memories hold at one place. -/
theorem Paired.shows_chunks (h : k.Paired l) (hp : p.holding ∈ k.processes.holdings)
    (hl : Vm.Lodges k.vm.ram.memory p.space dataPage) {pointer length : UInt64} {b : UserBuffer}
    (hb : UserBuffer.validate k.vm p.space pointer length = .ok b) :
    List.Forall₂ (Memory.Shows k.vm.ram.memory l.vm.ram.memory) (b.copyChunks k.vm p.space).1.flatten
      (b.copyChunks l.vm p.space).1.flatten := by
  obtain ⟨asked, τ, ht, ht'⟩ := h.exists_tree hp hl
  have hb' : UserBuffer.validate l.vm p.space pointer length = .ok b :=
    (h.validate_eq hp hl pointer length).trans hb
  obtain ⟨chunks, hchunks, -, hlength, hspells⟩ := exists_chunks_of_validate hb
  obtain ⟨chunks', hchunks', -, hlength', hspells'⟩ := exists_chunks_of_validate hb'
  rw [hchunks, hchunks']
  refine hspells.shows hspells' (hlength'.trans hlength.symm) fun a hfirst hlast => ?_
  obtain ⟨hstart, hsize, hpages⟩ := UserBuffer.checkPage_of_validate hb
  obtain ⟨a', ha', hpage⟩ := hpages a.val (by omega) (by omega)
  have haccepts : p.space.accepts (.containing a') = true := (UserBuffer.checkPage_eq_ok_iff.mp hpage).1
  obtain rfl : a' = a := VirtAddr.eq_of_val ha'
  exact (ht'.translate_eq haccepts).trans (ht.translate_eq haccepts).symm

/-- Two kernels that differ in memory and on the console do so after something was printed on either. -/
theorem veil_print {n : Memory} {d : List UInt8} (h : l = k.veil n d) (out out' : List UInt8)
    (result : UInt64) : (l.print out').leave result = ((k.print out).leave result).veil n (d ++ out') := by
  rw [h]
  rfl

/-- **A `write`** is answered alike. -/
theorem Paired.alike_write (h : k.Paired l) (ht : k.Tenanted) (pointer length : UInt64) :
    Alike (write pointer length k) (write pointer length l) (fun _ => k.Abreast l) (k.Abreast l) := by
  cases hrunning : k.processes.running? with
  | none =>
    have hrunning' : l.processes.running? = none := by rw [h.processes_eq, hrunning]
    unfold write
    rw [hrunning, hrunning']
    exact ⟨rfl, .refl h.twins⟩
  | some p =>
    have hrunning' : l.processes.running? = some p := by rw [h.processes_eq, hrunning]
    obtain ⟨pid, -, hfind⟩ := Option.bind_eq_some_iff.mp hrunning
    have hp : p.holding ∈ k.processes.holdings :=
      List.mem_map_of_mem (ProcessTable.mem_live_of_find? hfind)
    have hvalidate := h.validate_eq hp (ht _ hp) pointer length
    cases hb : UserBuffer.validate k.vm p.space pointer length with
    | error stop =>
      exact .of_error (write_of_error hrunning hb) (write_of_error hrunning' (hvalidate.trans hb))
        (.refl h.twins)
    | ok b =>
      refine .of_ok (write_of_validate hrunning hb) (write_of_validate hrunning' (hvalidate.trans hb)) ?_
      exact ⟨veil_print h.twins _ _ _, .refl _ _, _, _, rfl, rfl, h.shows_chunks hp (ht _ hp) hb⟩

/-- **Whatever is asked for** is answered alike. -/
theorem Paired.alike_serve (h : k.Paired l) (ht : k.Tenanted) (request : SyscallRequest) :
    Alike (serve request k) (serve request l) (fun _ => k.Abreast l) (k.Abreast l) := by
  unfold serve
  cases Syscall.ofNumber? request.number with
  | none => exact ⟨rfl, .refl h.twins⟩
  | some call =>
    cases call with
    | hello =>
      refine ⟨rfl, veil_print h.twins _ _ _, .refl _ _, greeting, greeting, rfl, rfl, ?_⟩
      exact List.forall₂_same.mpr fun _ _ => Or.inl rfl
    | write => exact h.alike_write ht request.first request.second
    | getpid =>
      have hleft := h.change (f := fun k => k.leave (.ofNat (k.processes.current.getD 0)))
        fun _ _ => ⟨rfl, rfl, rfl⟩
      exact ⟨rfl, .of_veiled (.refl _ _) rfl hleft⟩
    | yield =>
      exact blind_schedule.onProcesses.abreast (h.change (f := (·.leave 0)) fun _ _ => ⟨rfl, rfl, rfl⟩)
    | exit =>
      show Alike (exitCurrent _ k) (exitCurrent _ l) _ _
      unfold exitCurrent
      rw [h.processes_eq]
      cases k.processes.current with
      | none => exact ⟨rfl, .refl h.twins⟩
      | some pid =>
        refine (blind_exit pid _).onProcesses.abreast ?_
        exact h.change (f := (·.report _ _ _)) fun _ _ => ⟨rfl, rfl, rfl⟩

/-! ## 4. Interrupts -/

/-- What is done about an error is blind. -/
theorem alike_guarded {op : Op KernelError Unit} {handle : KernelError → HaltOp Unit}
    (hop : Alike (op k) (op l) (fun _ => k.Abreast l) (k.Abreast l)) (hhandle : ∀ e, Blind (handle e)) :
    Alike (guarded op handle k) (guarded op handle l) (fun _ => k.Abreast l) (k.Abreast l) := by
  unfold guarded
  refine hop.elim (fun _ _ _ ha => ⟨rfl, ha⟩) ?_
  rintro (e | halt) k₁ l₁ ha
  · have hrest : Blind (if e.isFatal then fatal e else handle e) := by
      split
      · exact blind_fatal e
      · exact hhandle e
    exact (hrest.abreast ⟨rfl, rfl, ha.twins⟩).mono (fun _ _ _ => ha.trans) fun _ _ => ha.trans
  · exact ⟨rfl, ha⟩

theorem Paired.alike_timerTick (h : k.Paired l) :
    Alike (timerTick k) (timerTick l) (fun _ => k.Abreast l) (k.Abreast l) :=
  alike_guarded (blind_countTick.onProcesses.abreast h.veiled) fun _ =>
    (blind_ofHalt _).bind fun _ => blind_report _ _ _

theorem Paired.alike_syscall (h : k.Paired l) (ht : k.Tenanted) :
    Alike (syscall k) (syscall l) (fun _ => k.Abreast l) (k.Abreast l) := by
  have htrap : l.trap = k.trap := by rw [h.twins]; rfl
  show Alike (guarded (serve (.ofContext k.trap)) _ k) (guarded (serve (.ofContext l.trap)) _ l) _ _
  rw [htrap]
  refine alike_guarded (h.alike_serve ht _) fun e => ?_
  refine (blind_ofHalt _).bind fun _ => (blind_report _ _ _).bind fun _ => ?_
  exact blind_modify fun _ _ _ => ⟨rfl, rfl, rfl⟩

theorem alike_ofHaltOp {op : HaltOp Unit}
    (hop : Alike (op k) (op l) (fun _ => k.Abreast l) (k.Abreast l)) :
    Alike (ofHaltOp op k) (ofHaltOp op l) (fun _ => k.Abreast l) (k.Abreast l) := by
  unfold ofHaltOp
  exact hop.elim (fun _ _ _ ha => ⟨rfl, ha⟩) fun _ _ _ ha => ⟨rfl, ha⟩

end Kernel

end KernelCore
