/-
# What a caller can do to the kernel

An interrupt returns, whatever is in the registers, with one exception: a process that asks for a
`write` from the last page of the lower half stops the machine, because the walk over the pages of its
range steps past that page before it looks at it (`Overruns`).

That nothing else goes wrong needs more than that the kernel has lost track of nothing: the bytes of a
`write` are looked for in the tables of the process, and what is found there is right only if every
process has tables that are its record, with its data page and no other in it (`Housed`).

* `lodged_create`, `tenanted_create`, `housed_create`: a new process gets frames that nobody had, and its page
  in them;
* `Housed.leads`, `housed_of_proceeds`: calls, and code that leaves tables alone, keep it so;
* `write_cases`: what becomes of a `write`;
* `survives_of_proceeds`: from booting on, every interrupt returns but for that one request.
-/
import KernelCore.Proofs.Kernel.Buffers
import KernelCore.Proofs.Kernel.Courses

namespace KernelCore

/-- The tables of a space that belongs to somebody are among the frames that belong to processes. -/
theorem ProcessTable.mem_ownedFrames_of_holding {t : ProcessTable} {h : Holding} {frame : Nat}
    (hin : h ∈ t.holdings) (hf : frame ∈ h.space.tableFrames) : frame ∈ t.ownedFrames := by
  rw [t.ownedFrames_eq]
  exact List.mem_flatMap.mpr ⟨h, hin, AddressSpace.mem_ownedFrames hf⟩

/-- The call is one that somebody gets frames by. -/
def KernelCall.Gives : KernelCall → Prop
  | .spawn _ _ => True
  | .mapRegion _ _ => True
  | _ => False

namespace Kernel

variable {k₀ k k' k'' : Kernel} {base pid : Nat} {map : MemoryMap} {call : KernelCall}

/-! ## 1. Every process has its page -/

/-- It is far from the end of the lower half. -/
theorem frameAt?_before_lastLower {m : Memory} {space : AddressSpace} {g : Page}
    (h : Vm.Lodges m space dataPage) (hg : g.number + 1 = Page.lastLower.number) :
    space.frameAt? g = none := by
  refine h.frameAt?_eq_none ?_
  rintro rfl
  exact absurd hg (by decide)

/-- **Every process has its page**: its tables are right, and its data page is mapped in them and nothing
else. -/
def Tenanted (k : Kernel) : Prop :=
  ∀ h ∈ k.processes.holdings, Vm.Lodges k.vm.ram.memory h.space dataPage

/-- Nobody has anything new, and the tables that there were are as they were. -/
theorem Tenanted.congr (h : k.Tenanted) (hholdings : k'.processes.holdings ⊆ k.processes.holdings)
    (hm : ∀ t ∈ k.processes.tableFrames, k.vm.ram.memory.SameFrame k'.vm.ram.memory t) : k'.Tenanted :=
  fun holding hin => (h holding (hholdings hin)).congr fun t ht =>
    hm t (List.mem_flatMap.mpr ⟨holding, hholdings hin, ht⟩)

theorem Tenanted.frugal (h : k.Tenanted) (hf : k.Frugal k') : k'.Tenanted :=
  h.congr hf.holdings fun _ _ => by rw [hf.memory]; exact .refl _ _

theorem Tenanted.meddle (h : k.Tenanted) (hm : k.Meddles k') : k'.Tenanted :=
  h.congr (by rw [hm.processes]; exact fun _ hin => hin) fun t ht => hm.tables t (List.mem_append_right _ ht)

/-- **The tables are right**: the kernel's, and those of every process, in which its data page is
mapped and nothing else. -/
structure Housed (k : Kernel) : Prop where
  kernel : World.IsRight k.vm.ram.memory .kernel k.vm.kernel Vm.kernelAsked
  processes : ∀ h ∈ k.processes.holdings, Vm.Lodges k.vm.ram.memory h.space dataPage

/-- Nobody has anything new, and the tables that there were are as they were. -/
theorem Housed.congr (h : k.Housed) (hkernel : k'.vm.kernel = k.vm.kernel)
    (hholdings : k'.processes.holdings ⊆ k.processes.holdings)
    (hm : ∀ t ∈ k.vm.kernel.tableFrames ++ k.processes.tableFrames,
      k.vm.ram.memory.SameFrame k'.vm.ram.memory t) : k'.Housed := by
  refine ⟨?_, Tenanted.congr h.processes hholdings fun t ht => hm t (List.mem_append_right _ ht)⟩
  rw [hkernel]
  exact h.kernel.congr fun t ht => hm t (List.mem_append_left _ ht)

theorem Housed.frugal (h : k.Housed) (hf : k.Frugal k') : k'.Housed :=
  h.congr hf.kernel hf.holdings fun _ _ => by rw [hf.memory]; exact .refl _ _

theorem Housed.meddle (h : k.Housed) (hm : k.Meddles k') : k'.Housed :=
  h.congr hm.spaces.1 (by rw [hm.processes]; exact fun _ hin => hin) hm.tables

/-- A table of somebody's belongs to somebody. -/
theorem mem_owned_of_tables {t : Nat} (ht : t ∈ k.vm.kernel.tableFrames ++ k.processes.tableFrames) :
    t ∈ k.owned := by
  rcases List.mem_append.mp ht with ht | ht
  · exact List.mem_append_left _ (AddressSpace.mem_ownedFrames ht)
  · obtain ⟨holding, hin, ht⟩ := List.mem_flatMap.mp ht
    exact List.mem_append_right _ (ProcessTable.mem_ownedFrames_of_holding hin ht)

/-- The frame belongs to somebody, or is none of those that the pool tracks. -/
def Kept (k : Kernel) : Nat → Prop := Vm.Beside k.vm.ram.pool.total k.owned

/-- What was done spared all that anybody owns. -/
theorem Housed.spares (h : k.Housed) (hprocesses : k'.processes = k.processes)
    (hs : Vm.Spares k.Kept k.vm k'.vm) : k'.Housed :=
  h.congr hs.kernel (by rw [hprocesses]; exact fun _ hin => hin)
    fun t ht => hs.memory t (Or.inl (mem_owned_of_tables ht))

/-! ## 2. Coming and going -/

/-- A new space with its page, for a process that is still to be built. -/
structure Lodged (k k' : Kernel) (space : AddressSpace) : Prop where
  processes : k'.processes = k.processes
  spares : Vm.Spares k.Kept k.vm k'.vm
  lodges : Vm.Lodges k'.vm.ram.memory space dataPage
  upper : Vm.SameUpper k.vm.ram.memory k.vm.kernel.root k'.vm.ram.memory space.root

theorem lodged_buildSpace (hb : k.Balanced base) : Outcome (buildSpace k)
    (fun space k' => k.Lodged k' space)
    fun _ k' => k'.processes = k.processes ∧ Vm.Spares k.Kept k.vm k'.vm := by
  have hkernel : k.vm.kernel.root ∈ k.owned := List.mem_append_left _ List.mem_cons_self
  refine Outcome.onVm ((Vm.lodges_createSpaceWith dataPage rfl hb.frames hkernel).mono ?_ ?_)
  · exact fun _ _ h => ⟨rfl, h.1, h.2.1, h.2.2⟩
  · exact fun _ _ h => ⟨rfl, h⟩

theorem lodged_buildStack {space : AddressSpace} (h : k.Lodged k' space) : Outcome (buildStack space k')
    (fun _ k'' => k.Lodged k'' space)
    fun _ k'' => k''.processes = k.processes ∧ Vm.Spares k.Kept k.vm k''.vm := by
  unfold buildStack
  split
  · exact ⟨h.processes, h.spares, h.lodges, h.upper⟩
  · refine Outcome.bind (P := fun _ k'' => k''.processes = k.processes ∧ Vm.Spares k.Kept k.vm k''.vm)
      (Outcome.onVm ((h.spares.destroySpace space).mono ?_ ?_)) ?_
    · exact fun _ _ hs => ⟨h.processes, hs⟩
    · exact fun _ _ hs => ⟨h.processes, hs⟩
    · exact fun _ _ hs => hs
  · exact True.intro

theorem Tenanted.spares (h : k.Tenanted) (hprocesses : k'.processes = k.processes)
    (hs : Vm.Spares k.Kept k.vm k'.vm) : k'.Tenanted :=
  h.congr (by rw [hprocesses]; exact fun _ hin => hin)
    fun t ht => hs.memory t (Or.inl (mem_owned_of_tables (List.mem_append_right _ ht)))

/-- A process that is entered with its space. -/
theorem Lodged.tenanted {space : AddressSpace} {stack : Nat} (h : k.Tenanted) (hl : k.Lodged k' space)
    (he : k'.Enrolled k'' ⟨pid, space, stack⟩) : k''.Tenanted := by
  intro holding hin
  rw [he.vm]
  rcases List.mem_cons.mp (he.holdings.mem_iff.mp hin) with rfl | hold
  · exact hl.lodges
  · exact h.spares hl.processes hl.spares holding hold

/-- **A new process** is entered with a space that has its page, and nothing of what was there has changed;
nor has it if no process can be created. -/
theorem lodged_create (h : k.InOrder base) (entry : UInt64) (name : String) :
    Outcome (create entry name k)
      (fun pid k' => ∃ space stack k₁, k.Lodged k₁ space ∧ k₁.Enrolled k' ⟨pid, space, stack⟩)
      fun _ k' => k'.processes = k.processes ∧ Vm.Spares k.Kept k.vm k'.vm := by
  have hs := h.settled
  have hsame : k.processes = k.processes ∧ Vm.Spares k.Kept k.vm k.vm := ⟨rfl, .refl _ _⟩
  unfold create
  cases hslot : k.processes.freeSlot? with
  | none => exact hsame
  | some slot =>
    dsimp only
    split
    · exact hsame
    · refine Outcome.bind (((furnished_buildSpace hs h.balanced).and (lodged_buildSpace h.balanced)).mono
        (fun _ _ h => h) fun _ _ h => h.2) fun space k₁ h₁ => ?_
      refine Outcome.bind (((furnished_buildStack hs h₁.1).and (lodged_buildStack h₁.2)).mono
        (fun _ _ h => h) fun _ _ h => h.2) fun stack k₂ h₂ => ?_
      obtain ⟨⟨-, -, hsame⟩, hl⟩ := h₂
      have hnone := ProcessTable.isNone_of_freeSlot? hslot
      rw [← hsame.processes] at hnone
      exact (enrolled_enroll (hs.of_sameProcesses hsame) hnone entry name space stack).mono
        (fun _ _ he => ⟨space, stack, k₂, hl, he⟩) fun _ _ h => h.elim

theorem tenanted_create (h : k.InOrder base) (ht : k.Tenanted) (entry : UInt64) (name : String) :
    Outcome (create entry name k) (fun _ k' => k'.Tenanted) fun _ k' => k'.Tenanted := by
  refine (lodged_create h entry name).mono ?_ ?_
  · rintro _ k' ⟨space, stack, k₁, hl, he⟩
    exact hl.tenanted ht he
  · exact fun _ _ hs => ht.spares hs.1 hs.2

theorem housed_create (h : k.InOrder base) (hh : k.Housed) (entry : UInt64) (name : String) :
    Outcome (create entry name k) (fun _ k' => k'.Housed) fun _ k' => k'.Housed := by
  refine ((lodged_create h entry name).and (tenanted_create h hh.processes entry name)).mono ?_ ?_
  · rintro _ k' ⟨⟨space, stack, k₁, hl, he⟩, ht⟩
    refine ⟨?_, ht⟩
    rw [he.vm]
    exact (hh.spares hl.processes hl.spares).kernel
  · exact fun _ _ ⟨hs, _⟩ => hh.spares hs.1 hs.2

/-- Pages for the kernel itself grow its tables, and processes have what they had. -/
theorem Housed.grows_of_leads (hh : k.Housed) (h : k.InOrder base) {start : VirtAddr} {length : Nat}
    (hl : (KernelCall.mapRegion start length).Leads k k') :
    k'.processes = k.processes ∧ Vm.KernelGrows base k.processes.ownedFrames k.vm k'.vm := by
  refine of_leads (P := fun k' => k'.processes = k.processes ∧
    Vm.KernelGrows base k.processes.ownedFrames k.vm k'.vm) hl ?_
  refine Outcome.bind (Outcome.onVm ((Vm.kernelGrows_mapKernelRegion start length h.balanced.frames
    hh.kernel.2).mono ?_ ?_)) fun _ k' (hg : k'.processes = k.processes ∧
      Vm.KernelGrows base k.processes.ownedFrames k.vm k'.vm) => hg
  · exact fun _ _ hg => ⟨rfl, hg⟩
  · exact fun _ _ hg => ⟨rfl, hg⟩

theorem Housed.grows (hh : k.Housed) (hprocesses : k'.processes = k.processes)
    (hg : Vm.KernelGrows base k.processes.ownedFrames k.vm k'.vm) : k'.Housed := by
  refine ⟨⟨hg.within.kind.trans hh.kernel.1, hg.tree⟩, fun holding hin => ?_⟩
  rw [hprocesses] at hin
  refine (hh.processes holding hin).congr fun t ht => ?_
  exact hg.within.sameFrame hg.books.holds (ProcessTable.mem_ownedFrames_of_holding hin ht)

/-- **A request** writes nothing and gives nobody anything. -/
theorem frugal_serve (h : k.InOrder base) (request : SyscallRequest) : Outcome (serve request k)
    (fun _ k' => k.Frugal k') fun _ k' => k.Frugal k' := by
  unfold serve
  cases Syscall.ofNumber? request.number with
  | none => exact (Quiet.refl k).frugal
  | some call =>
    cases call with
    | hello => exact Quiet.frugal ⟨rfl, rfl, rfl⟩
    | write =>
      refine (quiet_write request.first request.second k).mono ?_ ?_
      · exact fun _ _ hq => hq.frugal
      · exact fun _ _ hq => hq.frugal
    | getpid => exact Quiet.frugal ⟨rfl, rfl, rfl⟩
    | yield =>
      have hleft : k.Quiet (k.leave 0) := ⟨rfl, rfl, rfl⟩
      obtain ⟨k', hok, -, hr⟩ := (h.quiet hleft).settled.exists_schedule
      exact .of_ok (onProcesses_of_ok hok) (hleft.frugal.trans hr.frugal)
    | exit =>
      rcases exitCurrent_cases h (exitCode request.first) with ⟨-, he⟩ | ⟨-, -, k', -, -, hok, -, hf⟩
      · exact .of_refused he (Quiet.refl k).frugal
      · exact .of_ok hok hf

theorem frugal_syscall (h : k.InOrder base) (hok : syscall k = .ok () k') : k.Frugal k' := by
  rcases syscall_cases hok with hdone | ⟨e, k₁, text, hrefused, rfl⟩
  · exact (frugal_serve h _).of_eq_ok hdone
  · have hf := (frugal_serve h _).of_eq_refused hrefused
    exact ⟨hf.memory, hf.kernel, hf.holdings⟩

/-- **A call that gives nobody anything** writes nothing either. -/
theorem frugal_of_leads (h : k.InOrder base) (hcall : ¬call.Gives) (hl : call.Leads k k') : k.Frugal k' := by
  have hsame : k.Frugal k := (Quiet.refl k).frugal
  have hs := h.settled
  cases call with
  | spawn => exact absurd True.intro hcall
  | mapRegion => exact absurd True.intro hcall
  | timerTick =>
    have hok := countTick_of_leads hs hl
    rcases countTick_cases hs with ⟨-, hhalt⟩ | ⟨k₁, hok₁, -, hr⟩
    · cases hok.symm.trans hhalt
    · cases hok.symm.trans hok₁
      exact hr.frugal
  | syscall => exact frugal_syscall h (eq_of_ofHaltOp hl)
  | block =>
    refine of_leads hl (outcome_onProcesses ?_)
    rcases block_cases hs with ⟨-, he⟩ | ⟨k', hok, -, hr⟩
    · exact .of_refused he hsame
    · exact .of_ok hok hr.frugal
  | unblock pid =>
    refine of_leads hl (outcome_onProcesses ?_)
    rcases unblock_cases hs pid with ⟨-, he⟩ | ⟨-, -, -, he⟩ | ⟨k', hok, -, hr⟩
    · exact .of_refused he hsame
    · exact .of_refused he hsame
    · exact .of_ok hok hr.frugal

/-- **Every call** leaves every process its page. -/
theorem Housed.leads (h : k.InOrder base) (hh : k.Housed) (hl : call.Leads k k') : k'.Housed := by
  cases call with
  | spawn entry name =>
    exact of_leads hl (Outcome.bind (outcome_onProcesses (housed_create h hh entry name)) fun _ _ h => h)
  | mapRegion =>
    obtain ⟨hprocesses, hgrows⟩ := hh.grows_of_leads h hl
    exact hh.grows hprocesses hgrows
  | _ => exact hh.frugal (frugal_of_leads h id hl)

/-- A kernel that has booted without tables of a boot loader. -/
theorem Booted.housed (h : Booted map none k) : k.Housed := by
  induction h with
  | @fresh memory memory' heap start size idle trap target k hheap hboot =>
    obtain ⟨hvm, -, hprocesses⟩ := eq_of_boot hboot
    obtain ⟨-, hkind, τ, ht⟩ := Vm.tree_boot (.ofMap map) hvm
    refine ⟨⟨hkind, τ, ht⟩, fun holding hin => ?_⟩
    rw [hprocesses] at hin
    cases hin
  | enabled _ hok ih =>
    obtain ⟨r, rfl⟩ := eq_of_enablePaging hok
    exact ih.frugal ⟨rfl, rfl, fun _ hin => hin⟩

theorem housed_of_proceeds (hb : Booted map none k₀) (hc : Proceeds k₀ k) : k.Housed := by
  induction hc with
  | start => exact hb.housed
  | meanwhile _ hm ih => exact ih.meddle hm
  | step hc hl _ ih => exact ih.leads (inOrder_of_course hb.inOrder.2 hc) hl

/-! ## 3. Requests that return -/

/-- A process asks for bytes in the last page of the lower half. -/
structure Overruns (k : Kernel) : Prop where
  caller : k.processes.current.isSome
  call : k.trap.rax = Syscall.write.number
  range : UserBuffer.TouchesEnd k.trap.rdi k.trap.rsi

/-- The process that runs has its page. -/
theorem Housed.lodges_of_current (hh : k.Housed) (hs : k.Settled) (hcur : k.processes.current = some pid) :
    ∃ p, k.processes.running? = some p ∧ Vm.Lodges k.vm.ram.memory p.space dataPage := by
  obtain ⟨p, hp, -⟩ := hs.consistent.exists_current hcur
  refine ⟨p, ?_, hh.processes p.holding (List.mem_map_of_mem (ProcessTable.mem_live_of_find? hp))⟩
  unfold ProcessTable.running?
  rw [hcur]
  exact hp

/-- A buffer with memory behind it is printed, and its length is left. -/
theorem printBuffer_eq {space : AddressSpace} {b : UserBuffer}
    (h : k.vm.ram.memory.Backs space.root b.start.val b.length) : printBuffer space b k =
      .ok () ((k.print (b.copyChunks k.vm space).1.flatten).leave (.ofNat b.length)) := by
  obtain ⟨chunks, hchunks⟩ : ∃ chunks, b.copyChunks k.vm space = (chunks, .ok ()) :=
    ⟨_, Prod.ext rfl (UserBuffer.ending_copyChunks h)⟩
  unfold printBuffer
  rw [hchunks]
  rfl

/-- **A range that was accepted is printed**, and its length is left. -/
theorem write_of_validate {p : Process} {b : UserBuffer} {pointer length : UInt64}
    (hp : k.processes.running? = some p)
    (hb : UserBuffer.validate k.vm p.space pointer length = .ok b) : write pointer length k =
      .ok () ((k.print (b.copyChunks k.vm p.space).1.flatten).leave length) := by
  obtain ⟨-, hlength, hbacks⟩ := UserBuffer.backs_of_validate hb
  have hcheck : check (UserBuffer.validate k.vm p.space pointer length) k = .ok b k := by
    rw [hb]
    rfl
  have hprint := printBuffer_eq hbacks
  rw [hlength, UInt64.ofNat_toNat] at hprint
  unfold write
  rw [hp]
  exact (bind_of_ok hcheck).trans hprint

/-- A range that was not accepted ends the request. -/
theorem write_of_error {p : Process} {stop : Stop SyscallError} {pointer length : UInt64}
    (hp : k.processes.running? = some p)
    (he : UserBuffer.validate k.vm p.space pointer length = .error stop) :
    write pointer length k = .error (stop.mapError .syscall) k := by
  unfold write
  rw [hp]
  refine bind_of_error ?_
  rw [he]
  rfl

/-- **What becomes of a `write`**: it halts in the last page of the lower half, and elsewhere it is
refused, or prints and leaves the length. -/
theorem write_cases (hh : k.Housed) (hs : k.Settled) (pointer length : UInt64) :
    (k.processes.current.isSome ∧ UserBuffer.TouchesEnd pointer length ∧
        write pointer length k = .error (.halted (.nonCanonical (2 ^ 47))) k) ∨
      ¬(k.processes.current.isSome ∧ UserBuffer.TouchesEnd pointer length) ∧
        (write pointer length k = .error (.refused (.syscall .invalidArgument)) k ∨
          ∃ bytes, write pointer length k = .ok () ((k.print bytes).leave length)) := by
  cases hcur : k.processes.current with
  | none =>
    refine Or.inr ⟨fun h => absurd h.1 nofun, Or.inl ?_⟩
    unfold write ProcessTable.running?
    rw [hcur]
    rfl
  | some pid =>
    obtain ⟨p, hp, hlodges⟩ := hh.lodges_of_current hs hcur
    obtain ⟨asked, τ, ht⟩ := hlodges.tree
    by_cases hend : UserBuffer.TouchesEnd pointer length
    · have he := write_of_error hp (UserBuffer.validate_of_touchesEnd k.vm p.space hend)
      exact Or.inl ⟨rfl, hend, he⟩
    · refine Or.inr ⟨fun h => hend h.2, ?_⟩
      rcases UserBuffer.validate_cases ht hlodges.kind (fun _ => frameAt?_before_lastLower hlodges) hend with
        hinvalid | ⟨b, hb⟩
      · exact Or.inl (write_of_error hp hinvalid)
      · exact Or.inr ⟨_, write_of_validate hp hb⟩

/-- The interrupt of a request that is refused: the journal says why, and the caller finds a status. -/
theorem syscall_of_refused {e : SyscallError}
    (he : serve (.ofContext k.trap) k = .error (.refused (.syscall e)) k') :
    syscall k = .ok () ((k'.report .debug .dispatcher ("Syscall " ++ toString k.trap.rax.toNat ++
      " failed: " ++ ("Syscall: " ++ e.message))).leave (.ofInt (KernelError.syscall e).status)) := by
  show guarded (serve (.ofContext k.trap)) _ k = _
  unfold guarded
  rw [he]
  rfl

theorem syscall_of_halted {halt : Halt} (he : serve (.ofContext k.trap) k = .error (.halted halt) k') :
    syscall k = .error halt k' := by
  show guarded (serve (.ofContext k.trap)) _ k = _
  unfold guarded
  rw [he]

/-- How a `write` is served. -/
theorem serve_write (hrax : k.trap.rax = Syscall.write.number) :
    serve (.ofContext k.trap) k = write k.trap.rdi k.trap.rsi k := by
  unfold serve SyscallRequest.ofContext
  rw [hrax, Syscall.ofNumber?_number]
  rfl

/-- **A request from the last page of the lower half** halts the machine. -/
theorem Housed.syscall_of_overruns (hh : k.Housed) (hs : k.Settled) (ho : k.Overruns) :
    syscall k = .error (.nonCanonical (2 ^ 47)) k := by
  rcases write_cases hh hs k.trap.rdi k.trap.rsi with ⟨-, -, he⟩ | ⟨hnot, -⟩
  · exact syscall_of_halted ((serve_write ho.call).trans he)
  · exact absurd ⟨ho.caller, ho.range⟩ hnot

/-- Any other `write` leaves the length or a status. -/
theorem Housed.exists_syscall_write (hh : k.Housed) (hs : k.Settled) (ho : ¬k.Overruns)
    (hrax : k.trap.rax = Syscall.write.number) : ∃ k', syscall k = .ok () k' ∧
      k'.processes = k.processes ∧ (k'.trap = { k.trap with rax := k.trap.rsi } ∨
        k'.trap = { k.trap with rax := .ofInt Status.invalid }) := by
  rcases write_cases hh hs k.trap.rdi k.trap.rsi with ⟨hcur, hend, -⟩ | ⟨-, he | ⟨bytes, hok⟩⟩
  · exact absurd ⟨hcur, hrax, hend⟩ ho
  · exact ⟨_, syscall_of_refused ((serve_write hrax).trans he), rfl, Or.inr rfl⟩
  · exact ⟨_, syscall_of_ok ((serve_write hrax).trans hok), rfl, Or.inl rfl⟩

/-- **Every other request** is answered. -/
theorem Housed.exists_syscall (hh : k.Housed) (h : k.InOrder base) (ho : ¬k.Overruns) :
    ∃ k', syscall k = .ok () k' := by
  have hserved : ∀ {k'}, serve (.ofContext k.trap) k = .ok () k' → ∃ k', syscall k = .ok () k' :=
    fun hok => ⟨_, syscall_of_ok hok⟩
  have hrefused : ∀ {e k'}, serve (.ofContext k.trap) k = .error (.refused (.syscall e)) k' →
      ∃ k', syscall k = .ok () k' := fun he => ⟨_, syscall_of_refused he⟩
  cases hcall : Syscall.ofNumber? (SyscallRequest.ofContext k.trap).number with
  | none =>
    have he : serve (.ofContext k.trap) k =
        .error (.refused (.syscall (.unknownCall k.trap.rax.toNat))) k := by
      unfold serve
      rw [hcall]
      rfl
    exact hrefused he
  | some call =>
    have hperform : serve (.ofContext k.trap) k = perform (.ofContext k.trap) call k := by
      unfold serve
      rw [hcall]
    cases call with
    | hello => exact hserved hperform
    | write =>
      obtain ⟨k', hok, -⟩ := hh.exists_syscall_write h.settled ho (Syscall.eq_number hcall)
      exact ⟨k', hok⟩
    | getpid => exact hserved hperform
    | yield =>
      have hleft : k.Quiet (k.leave 0) := ⟨rfl, rfl, rfl⟩
      obtain ⟨k', hok, -⟩ := (h.quiet hleft).settled.exists_schedule
      exact hserved (hperform.trans (onProcesses_of_ok hok))
    | exit =>
      rcases exitCurrent_cases h (exitCode k.trap.rdi) with ⟨-, he⟩ | ⟨-, -, k', -, -, hok, -⟩
      · exact hrefused (hperform.trans he)
      · exact hserved (hperform.trans hok)

/-! ## 4. What a caller can do -/

/-- **What interrupts come to.**  The timer's returns, until ticks cannot be counted any more.  That of
a request returns, unless the request is the one that halts the machine; and a `write` that returns
has left the length or the status of a bad argument. -/
structure Survives (k : Kernel) : Prop where
  tick : k.processes.uptime + 1 < 2 ^ 64 → ∃ k', timerTick k = .ok () k'
  request : ¬k.Overruns → ∃ k', syscall k = .ok () k'
  halts : k.Overruns → syscall k = .error (.nonCanonical (2 ^ 47)) k
  write : ¬k.Overruns → k.trap.rax = Syscall.write.number → ∃ k', syscall k = .ok () k' ∧
    k'.processes = k.processes ∧ (k'.trap = { k.trap with rax := k.trap.rsi } ∨
      k'.trap = { k.trap with rax := .ofInt Status.invalid })

theorem Housed.survives (hh : k.Housed) (h : k.InOrder base) : k.Survives := by
  refine ⟨fun hu => ?_, hh.exists_syscall h, hh.syscall_of_overruns h.settled,
    hh.exists_syscall_write h.settled⟩
  obtain ⟨k', hok, -⟩ := exists_countTick h.settled hu
  exact ⟨k', timerTick_of_countTick hok⟩

/-- **From booting on every interrupt returns**, on any registers, but for a request for bytes in the
last page of the lower half. -/
theorem survives_of_proceeds (hb : Booted map none k₀) (hc : Proceeds k₀ k) : k.Survives :=
  (housed_of_proceeds hb hc).survives (inOrder_of_course hb.inOrder.2 hc)

/-- On a machine of six frames a process runs whose code asks for the very last byte before the last
page of the lower half, and is answered. -/
theorem survives_sixFrames : ∃ k₀ k, (Booted World.sixFrames none k₀ ∧ Proceeds k₀ k) ∧ k.Survives ∧
    k.processes.current = some 1 ∧ k.trap = { rax := 1, rdi := 0x7fffffffefff, rsi := 1 } ∧
      ∃ k', syscall k = .ok () k' := by
  obtain ⟨k₀, k, hb, hc, hcur, -⟩ := exists_running
  let asked : Kernel := { k with trap := { rax := 1, rdi := 0x7fffffffefff, rsi := 1 } }
  have hc' : Proceeds k₀ asked := hc.meanwhile (k.meddles_trap _)
  have hs := survives_of_proceeds hb hc'
  have hbefore : ¬UserBuffer.TouchesEnd 0x7fffffffefff 1 := fun h => absurd h.1 (by decide)
  exact ⟨k₀, asked, ⟨hb, hc'⟩, hs, hcur, rfl, hs.request fun ho => hbefore ho.range⟩

/-- On the same machine the code asks for the first byte of the last page of the lower half, and the
machine stops. -/
theorem halts_sixFrames : ∃ k₀ k, (Booted World.sixFrames none k₀ ∧ Proceeds k₀ k) ∧
    k.processes.current = some 1 ∧ k.trap = { rax := 1, rdi := 0x7ffffffff000, rsi := 1 } ∧
      syscall k = .error (.nonCanonical 0x800000000000) k := by
  obtain ⟨k₀, k, hb, hc, hcur, -⟩ := exists_running
  let asked : Kernel := { k with trap := { rax := 1, rdi := 0x7ffffffff000, rsi := 1 } }
  have hc' : Proceeds k₀ asked := hc.meanwhile (k.meddles_trap _)
  have hcaller : asked.processes.current.isSome := by
    rw [show asked.processes.current = some 1 from hcur]
    rfl
  have hend : UserBuffer.TouchesEnd 0x7ffffffff000 1 := ⟨by decide, by decide, by decide⟩
  have hover : asked.Overruns := ⟨hcaller, rfl, hend⟩
  have hsettled := (inOrder_of_course hb.inOrder.2 hc').settled
  exact ⟨k₀, asked, ⟨hb, hc'⟩, hcur, rfl, (housed_of_proceeds hb hc').syscall_of_overruns hsettled hover⟩

end Kernel

end KernelCore
