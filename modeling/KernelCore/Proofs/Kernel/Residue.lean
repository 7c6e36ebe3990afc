/-
# What a new process finds in its page

A frame that comes back to the pool keeps its bytes, and whoever gets it next gets them too.  Two kernels that
differ only in what free frames hold should go on alike whatever is done to them, and they do in all but one
thing: the bytes that they print.

What they do is the same because tables do not depend on what free frames held.  What they print is not the
same because the page of a new process is such a frame, which nobody clears, and `write` prints what is in it,
whether the process has stored anything there or not.  This is also all that comes out: where two bytes that
are printed differ, each is what one and the same free frame held in its kernel at the start.

* `Paired.step`: one deed; `Paired.runs`: a run of deeds;
* `Comes.residue`: the page of a new process;
* `exists_syscall_of_page`: what is printed of a page;
* `remembers_of_proceeds`: all of it, from booting on;
* `leaks_sixFrames`: two machines that differ in a free frame print different bytes.
-/
import KernelCore.Proofs.Kernel.Abreast
import KernelCore.Proofs.Kernel.Creation

namespace KernelCore

/-! ## 1. Deeds -/

/-- **What is done to a kernel**: what it is asked for, and what the code that runs does to the registers and
to the pages of processes. -/
inductive Deed where
  | spawn (entry : UInt64) (name : String)
  | timerTick
  | syscall
  | enter (frame : Context)
  /-- Bytes are stored in the page of a process. -/
  | store (pid offset : Nat) (bytes : List UInt8) (fits : offset + bytes.length ≤ pageSize)

namespace Kernel

/-- An address in the page of a process, or right behind it. -/
def dataAddress (offset : Nat) (h : offset ≤ pageSize) : VirtAddr :=
  ⟨processDataStart.val + offset, .inl (by simp only [processDataStart, pageSize] at h ⊢; omega)⟩

/-- Stores bytes in the page of a process, whichever runs. -/
def store (pid offset : Nat) (bytes : List UInt8) (fits : offset + bytes.length ≤ pageSize) :
    Op KernelError Unit := fun k =>
  match k.processes.find? pid with
  | none => refuse (.process (.noSuchProcess pid)) k
  | some p => onVm .paging (Vm.writeBytes p.space (dataAddress offset (Nat.le_of_add_right_le fits)) bytes) k

end Kernel

/-- Does a deed, and says what is answered, if anything is. -/
def Deed.run : Deed → Kernel.Op KernelError (Option Nat)
  | .spawn entry name => do return some (← Kernel.spawn entry name)
  | .timerTick => do Kernel.ofHaltOp Kernel.timerTick; return none
  | .syscall => do Kernel.ofHaltOp Kernel.syscall; return none
  | .enter frame => do modify ({ · with trap := frame }); return none
  | .store pid offset bytes fits => do Kernel.store pid offset bytes fits; return none

namespace Kernel

/-- Does one deed after the other, until the machine stops. -/
def runAll : List Deed → Kernel → List (Except (Stop KernelError) (Option Nat)) × Kernel
  | [], k => ([], k)
  | deed :: rest, k => match deed.run k with
    | .ok a k => (.ok a :: (runAll rest k).1, (runAll rest k).2)
    | .error (.refused e) k => (.error (.refused e) :: (runAll rest k).1, (runAll rest k).2)
    | .error (.halted halt) k => ([.error (.halted halt)], k)

/-! ## 2. Stores -/

variable {k₀ k l k' l' : Kernel} {base pid offset : Nat} {map : MemoryMap} {p : Process}
  {bytes : List UInt8}

/-- A frame belongs to one process at most. -/
theorem Balanced.holding_unique (hb : k.Balanced base) {a b : Holding} (ha : a ∈ k.processes.holdings)
    (hb' : b ∈ k.processes.holdings) {f : Nat} (hfa : f ∈ a.space.ownedFrames)
    (hfb : f ∈ b.space.ownedFrames) : a = b := by
  obtain ⟨-, hprocesses, -⟩ := List.nodup_append.mp hb.frames.nodup
  rw [ProcessTable.ownedFrames_eq, List.nodup_flatMap] at hprocesses
  have hsymm : Std.Symm (Function.onFun List.Disjoint fun h : Holding => h.space.ownedFrames) :=
    ⟨fun _ _ h _ hin hin' => h hin' hin⟩
  by_contra hne
  exact hprocesses.2.forall ha hb' hne hfa hfb

/-- A frame that is mapped for a process is nobody's table. -/
theorem Balanced.not_mem_tables (hb : k.Balanced base) (hp : p ∈ k.processes.live) {page : Page} {f : Nat}
    (hf : p.space.frameAt? page = some f) : f ∉ k.vm.kernel.tableFrames ++ k.processes.tableFrames := by
  obtain ⟨-, hprocesses, hdisjoint⟩ := List.nodup_append.mp hb.frames.nodup
  have hin : p.holding ∈ k.processes.holdings := List.mem_map_of_mem hp
  have howned : f ∈ p.space.ownedFrames := AddressSpace.mem_owned_of_frameAt? hf
  intro ht
  rcases List.mem_append.mp ht with ht | ht
  · exact hdisjoint f (AddressSpace.mem_ownedFrames ht) f (mem_ownedFrames_of_live hp howned) rfl
  · obtain ⟨holding, hholding, ht⟩ := List.mem_flatMap.mp ht
    obtain rfl := hb.holding_unique hin hholding howned (AddressSpace.mem_ownedFrames ht)
    rw [ProcessTable.ownedFrames_eq, List.nodup_flatMap] at hprocesses
    exact AddressSpace.not_mem_tableFrames_of_frameAt? (hprocesses.1 _ hin) hf ht

theorem offset_dataAddress (h : offset < pageSize) : (dataAddress offset h.le).offset = offset := by
  show (0x40000000 + offset) % 4096 = offset
  simp only [pageSize] at h
  omega

/-- **Where the addresses of the page lead**: into its frame. -/
theorem exists_translate_data {m : Memory} {space : AddressSpace} {f : Nat}
    (hl : Vm.Lodges m space dataPage) (hf : space.frameAt? dataPage = some f) (h : offset < pageSize) :
    ∃ flags, m.translate space.root (dataAddress offset h.le) =
      .ok (some ⟨f * pageSize + offset, flags⟩) := by
  have hpage : Page.containing (dataAddress offset h.le) = dataPage := by
    refine Page.eq_of_number ?_
    show (0x40000000 + offset) / 4096 = 0x40000
    simp only [pageSize] at h
    omega
  have haccepts : space.accepts dataPage = true := by
    rw [World.accepts_user hl.kind]
    decide
  obtain ⟨asked, τ, ht⟩ := hl.tree
  have htranslate := ht.translate_eq (hpage.symm ▸ haccepts)
  rw [hpage, hf, offset_dataAddress h] at htranslate
  exact ⟨_, htranslate⟩

/-- **Where a store gets to**: the frame of the page. -/
theorem writeBytes_eq {vm : Vm} {space : AddressSpace} {f : Nat}
    (hl : Vm.Lodges vm.ram.memory space dataPage) (hf : space.frameAt? dataPage = some f)
    (fits : offset + bytes.length ≤ pageSize) :
    Vm.writeBytes space (dataAddress offset (Nat.le_of_add_right_le fits)) bytes vm = .ok () { vm with
      ram := { vm.ram with memory := vm.ram.memory.write (f * pageSize + offset) bytes } } := by
  unfold Vm.writeBytes Memory.writeBytes Memory.writeBytesFrom
  rcases Nat.eq_zero_or_pos bytes.length with hnone | hpos
  · rw [if_pos hnone, List.eq_nil_of_length_eq_zero hnone]
    rfl
  · have hinside : offset < pageSize := by omega
    obtain ⟨flags, htranslate⟩ := exists_translate_data hl hf hinside
    have hlocate : vm.ram.memory.locateAt space.root (dataAddress offset hinside.le) 0 =
        .ok (dataAddress offset hinside.le, f * pageSize + offset) := by
      rw [Memory.locateAt_of_ok _ (VirtAddr.advance_eq (Nat.add_zero _))]
      unfold Memory.locate
      rw [htranslate]
      rfl
    have hpiece : Memory.pieceLength (dataAddress offset hinside.le) bytes.length = bytes.length := by
      unfold Memory.pieceLength
      rw [offset_dataAddress hinside]
      omega
    rw [if_neg (Nat.ne_of_gt hpos), hlocate]
    dsimp only
    rw [hpiece, List.take_length, List.drop_length]
    unfold Memory.writeBytesFrom
    rfl

/-- Code that stores bytes in a page of a process leaves tables alone. -/
theorem Balanced.meddles_write (hb : k.Balanced base) (hp : p ∈ k.processes.live) {page : Page} {f : Nat}
    (hf : p.space.frameAt? page = some f) (fits : offset + bytes.length ≤ pageSize) :
    k.Meddles { k with vm := k.vm.withMemory (k.vm.ram.memory.write (f * pageSize + offset) bytes) } := by
  refine ⟨rfl, ⟨rfl, rfl⟩, rfl, rfl, rfl, fun t ht a ha => ?_, fun _ _ _ _ _ _ _ => rfl⟩
  have hne : t ≠ f := fun he => hb.not_mem_tables hp hf (he ▸ ht)
  refine Memory.byte_write_of_outside _ _ _ _ ?_
  simp only [pageSize] at ha fits ⊢
  omega

theorem Tenanted.lodges (ht : k.Tenanted) (hp : k.processes.find? pid = some p) :
    Vm.Lodges k.vm.ram.memory p.space dataPage :=
  ht p.holding (List.mem_map_of_mem (ProcessTable.mem_live_of_find? hp))

theorem exists_dataFrame {m : Memory} {space : AddressSpace} (h : Vm.Lodges m space dataPage) :
    ∃ f, space.frameAt? dataPage = some f :=
  Option.isSome_iff_exists.mp ((h.pages dataPage).mpr rfl)

/-- **A store** goes to the page of the process, if there is one. -/
theorem store_eq {f : Nat} (hp : k.processes.find? pid = some p)
    (hl : Vm.Lodges k.vm.ram.memory p.space dataPage) (hf : p.space.frameAt? dataPage = some f)
    (fits : offset + bytes.length ≤ pageSize) : store pid offset bytes fits k = .ok ()
      { k with vm := k.vm.withMemory (k.vm.ram.memory.write (f * pageSize + offset) bytes) } := by
  unfold store onVm
  rw [hp]
  dsimp only
  rw [writeBytes_eq hl hf fits]
  rfl

theorem store_of_none (hnone : k.processes.find? pid = none) (fits : offset + bytes.length ≤ pageSize) :
    store pid offset bytes fits k = .error (.refused (.process (.noSuchProcess pid))) k := by
  unfold store
  rw [hnone]
  rfl

/-! ## 3. One deed -/

/-- Wherever a call leads that gives nobody anything. -/
theorem leads_of_step {call : KernelCall} (h : k.InOrder base) (ht : k.Tenanted) (hc : Proceeds k₀ k)
    (hcall : ¬call.Gives) (hl : call.Leads k k') : Proceeds k₀ k' ∧ k'.Tenanted :=
  ⟨hc.step hl True.intro, ht.frugal (frugal_of_leads h hcall hl)⟩

/-- Wherever the attempt to create a process leads. -/
theorem outcome_spawn (h : k.InOrder base) (ht : k.Tenanted) (hc : Proceeds k₀ k) (entry : UInt64)
    (name : String) : Outcome (spawn entry name k) (fun _ k' => Proceeds k₀ k' ∧ k'.Tenanted) fun _ k' =>
      (Proceeds k₀ k' ∧ k'.Tenanted) ∧ k'.vm.kernel = k.vm.kernel ∧ k'.processes = k.processes := by
  have hcreate : Outcome (spawn entry name k) (fun _ k' => k'.Tenanted)
      fun _ k' => k'.Tenanted ∧ k'.vm.kernel = k.vm.kernel ∧ k'.processes = k.processes :=
    outcome_onProcesses (((tenanted_create h ht entry name).and
      (comes_create h.settled h.balanced entry name)).mono (fun _ _ h => h.1)
        fun _ _ ⟨ht, hf⟩ => ⟨ht, hf.sameSpaces.1, hf.processes_eq⟩)
  match hr : spawn entry name k with
  | .ok pid k' =>
    have hleads : (KernelCall.spawn entry name).Leads k k' := Or.inl (bind_of_ok hr)
    exact ⟨hc.step hleads True.intro, hcreate.of_eq_ok hr⟩
  | .error (.refused e) k' =>
    have hleads : (KernelCall.spawn entry name).Leads k k' := Or.inr ⟨e, bind_of_error hr⟩
    obtain ⟨ht', hsame⟩ := hcreate.of_eq_refused hr
    exact ⟨⟨hc.step hleads True.intro, ht'⟩, hsame⟩
  | .error (.halted halt) k' => exact True.intro

/-- **Deeds lead on**, and one that is refused leaves the processes and the kernel's space. -/
theorem outcome_deed (h : k.InOrder base) (ht : k.Tenanted) (hc : Proceeds k₀ k) (deed : Deed) :
    Outcome (deed.run k) (fun _ k' => Proceeds k₀ k' ∧ k'.Tenanted) fun _ k' =>
      (Proceeds k₀ k' ∧ k'.Tenanted) ∧ k'.vm.kernel = k.vm.kernel ∧ k'.processes = k.processes := by
  cases deed with
  | spawn entry name => exact Outcome.bind (outcome_spawn h ht hc entry name) fun _ _ h => h
  | timerTick =>
    refine Outcome.bind (outcome_ofHaltOp (P := fun k' => Proceeds k₀ k' ∧ k'.Tenanted) fun k' hok => ?_)
      fun _ _ h => h
    have hleads : KernelCall.timerTick.Leads k k' := Or.inl (ofHaltOp_of_ok hok)
    exact leads_of_step h ht hc id hleads
  | syscall =>
    refine Outcome.bind (outcome_ofHaltOp (P := fun k' => Proceeds k₀ k' ∧ k'.Tenanted) fun k' hok => ?_)
      fun _ _ h => h
    have hleads : KernelCall.syscall.Leads k k' := Or.inl (ofHaltOp_of_ok hok)
    exact leads_of_step h ht hc id hleads
  | enter frame =>
    have hm := meddles_trap k frame
    exact ⟨hc.meanwhile hm, ht.meddle hm⟩
  | store pid offset bytes fits =>
    cases hp : k.processes.find? pid with
    | none => exact .of_refused (bind_of_error (store_of_none hp fits)) ⟨⟨hc, ht⟩, rfl, rfl⟩
    | some p =>
      obtain ⟨f, hf⟩ := exists_dataFrame (ht.lodges hp)
      have hm := h.balanced.meddles_write (ProcessTable.mem_live_of_find? hp) hf fits
      exact .of_ok (bind_of_ok (store_eq hp (ht.lodges hp) hf fits)) ⟨hc.meanwhile hm, ht.meddle hm⟩

/-- **A process is created** in both or in none, with tables that hold the same. -/
theorem Paired.alike_create (h : k.Paired l) (ho : k.InOrder base) (entry : UInt64) (name : String) :
    Alike (create entry name k) (create entry name l) (fun _ k' l' => k.Abreast l k' l' ∧ k'.Paired l')
      (k.Abreast l) := by
  have hends := Kernel.alike_create (d := l.console) h.root entry name
  rw [← h.twins] at hends
  refine (hends.and fun _ _ hok => (comes_create ho.settled ho.balanced entry name).of_eq_ok hok).mono ?_ ?_
  · rintro pid k' l' ⟨⟨space, vm, m₁, n₁, hspace, hjoint, hveiled⟩, p, -, hcomes⟩
    have ha : k.Abreast l k' l' := .of_veiled hjoint.parallel rfl hveiled
    obtain ⟨hm₁, -, rfl⟩ := hveiled
    obtain ⟨rfl, -⟩ := EStateM.Result.ok.inj (hspace.symm.trans hcomes.space)
    refine ⟨ha, ha.twins, hcomes.sameSpaces.1 ▸ ha.memory.sameFrame h.root, fun t ht => ?_⟩
    obtain ⟨holding, hin, ht⟩ := List.mem_flatMap.mp ht
    rcases List.mem_cons.mp (hcomes.holdings.mem_iff.mp hin) with rfl | hold
    · rw [hm₁]
      exact hjoint.same t ht
    · exact ha.memory.sameFrame (h.tables t (List.mem_flatMap.mpr ⟨holding, hold, ht⟩))
  · rintro k' l' ⟨tables, m₁, n₁, hjoint, hveiled⟩
    exact .of_veiled hjoint.parallel rfl hveiled

/-- Nobody gets anything new from an interrupt. -/
theorem Paired.alike_interrupt (h : k.Paired l) {op : HaltOp Unit}
    (hop : Alike (op k) (op l) (fun _ => k.Abreast l) (k.Abreast l))
    (hfrugal : ∀ k', ofHaltOp op k = .ok () k' → k.Frugal k') :
    Alike (ofHaltOp op k) (ofHaltOp op l) (fun _ k' l' => k.Abreast l k' l' ∧ k'.Paired l')
      (k.Abreast l) := by
  refine ((alike_ofHaltOp hop).and fun _ _ hok => hfrugal _ hok).mono ?_ fun _ _ ha => ha
  rintro _ k' l' ⟨ha, hf⟩
  exact ⟨ha, h.advance ha hf.kernel hf.holdings⟩

/-- **One deed** is done to both or to none, with one answer. -/
theorem Paired.step (h : k.Paired l) (ho : k.InOrder base) (htenants : k.Tenanted) (deed : Deed) :
    Alike (deed.run k) (deed.run l) (fun _ k' l' => k.Abreast l k' l' ∧ k'.Paired l') (k.Abreast l) := by
  cases deed with
  | spawn entry name =>
    refine Alike.bind (P := fun _ k' l' => k.Abreast l k' l' ∧ k'.Paired l') ?_ fun _ _ _ h => ⟨rfl, h⟩
    show Alike (onProcesses (create entry name) k) (onProcesses (create entry name) l) _ _
    unfold onProcesses
    exact (h.alike_create ho entry name).elim (fun _ _ _ h => ⟨rfl, h⟩) fun _ _ _ h => ⟨rfl, h⟩
  | timerTick =>
    refine (h.alike_interrupt h.alike_timerTick fun k' hok => ?_).bind fun _ _ _ h => ⟨rfl, h⟩
    exact frugal_of_leads ho id (show KernelCall.timerTick.Leads k k' from Or.inl hok)
  | syscall =>
    refine (h.alike_interrupt (h.alike_syscall htenants) fun k' hok => ?_).bind fun _ _ _ h => ⟨rfl, h⟩
    exact frugal_of_leads ho id (show KernelCall.syscall.Leads k k' from Or.inl hok)
  | enter frame =>
    have ha : k.Abreast l { k with trap := frame } { l with trap := frame } :=
      .of_veiled (.refl _ _) rfl (h.change (f := ({ · with trap := frame })) fun _ _ => ⟨rfl, rfl, rfl⟩)
    exact ⟨rfl, ha, h.advance ha rfl fun _ hin => hin⟩
  | store pid offset bytes fits =>
    cases hp : k.processes.find? pid with
    | none =>
      have hp' : l.processes.find? pid = none := by rw [h.processes_eq, hp]
      exact .of_error (bind_of_error (store_of_none hp fits)) (bind_of_error (store_of_none hp' fits))
        (.refl h.twins)
    | some p =>
      have hp' : l.processes.find? pid = some p := by rw [h.processes_eq, hp]
      have hl := htenants.lodges hp
      have hin : p.holding ∈ k.processes.holdings :=
        List.mem_map_of_mem (ProcessTable.mem_live_of_find? hp)
      have hl' : Vm.Lodges l.vm.ram.memory p.space dataPage :=
        hl.congr fun t ht => h.tables t (List.mem_flatMap.mpr ⟨p.holding, hin, ht⟩)
      obtain ⟨f, hf⟩ := exists_dataFrame hl
      refine .of_ok (bind_of_ok (store_eq hp hl hf fits)) (bind_of_ok (store_eq hp' hl' hf fits)) ?_
      have ha : k.Abreast l
          { k with vm := k.vm.withMemory (k.vm.ram.memory.write (f * pageSize + offset) bytes) }
          { l with vm := l.vm.withMemory (l.vm.ram.memory.write (f * pageSize + offset) bytes) } := by
        refine .of_veiled (Memory.parallel_write _ _ _ _) rfl ⟨rfl, rfl, ?_⟩
        conv_lhs => rw [h.twins]
        rfl
      exact ⟨ha, h.advance ha rfl fun _ hin => hin⟩

/-! ## 4. Runs of deeds -/

theorem runAll_of_ok {deed : Deed} {a : Option Nat} (hr : deed.run k = .ok a k') (rest : List Deed) :
    runAll (deed :: rest) k = (.ok a :: (runAll rest k').1, (runAll rest k').2) := by
  rw [runAll, hr]

theorem runAll_of_refused {deed : Deed} {e : KernelError} (hr : deed.run k = .error (.refused e) k')
    (rest : List Deed) :
    runAll (deed :: rest) k = (.error (.refused e) :: (runAll rest k').1, (runAll rest k').2) := by
  rw [runAll, hr]

theorem runAll_of_halted {deed : Deed} {halt : Halt} (hr : deed.run k = .error (.halted halt) k')
    (rest : List Deed) : runAll (deed :: rest) k = ([.error (.halted halt)], k') := by
  rw [runAll, hr]

/-- **All deeds of a run** are answered alike, and the kernels are abreast at its end. -/
theorem Paired.runs (h₀ : k₀.InOrder base) : ∀ (deeds : List Deed) {k l : Kernel}, Proceeds k₀ k →
    k.Tenanted → k.Paired l → (runAll deeds l).1 = (runAll deeds k).1 ∧
      k.Abreast l (runAll deeds k).2 (runAll deeds l).2 := by
  intro deeds
  induction deeds with
  | nil => exact fun _ _ h => ⟨rfl, .refl h.twins⟩
  | cons deed rest ih =>
    intro k l hc ht h
    have ho := inOrder_of_course h₀ hc
    have hdeed := outcome_deed ho ht hc deed
    rcases (h.step ho ht deed).cases with ⟨a, k', l', hr, hr', ha, h'⟩ | ⟨stop, k', l', hr, hr', ha⟩
    · obtain ⟨hc', ht'⟩ := hdeed.of_eq_ok hr
      obtain ⟨hanswers, hrest⟩ := ih hc' ht' h'
      rw [runAll_of_ok hr, runAll_of_ok hr']
      exact ⟨congrArg (_ :: ·) hanswers, ha.trans hrest⟩
    · cases stop with
      | refused e =>
        obtain ⟨⟨hc', ht'⟩, hkernel, hprocesses⟩ := hdeed.of_eq_refused hr
        have h' := h.advance ha hkernel (by rw [hprocesses]; exact fun _ hin => hin)
        obtain ⟨hanswers, hrest⟩ := ih hc' ht' h'
        rw [runAll_of_refused hr, runAll_of_refused hr']
        exact ⟨congrArg (_ :: ·) hanswers, ha.trans hrest⟩
      | halted halt =>
        rw [runAll_of_halted hr, runAll_of_halted hr']
        exact ⟨rfl, ha⟩

/-! ## 5. What free frames hold -/

/-- The process is found under its number. -/
theorem Comes.find? {entry : UInt64} {name : String} (hcomes : k.Comes k' entry name p) (hs : k.Settled) :
    k'.processes.find? p.pid = some p := by
  obtain ⟨slot, ready, hslot, -, hprocesses⟩ := hcomes.table
  have hnew : k.processes.find? p.pid = none := hcomes.pid_eq ▸ hs.consistent.find?_nextPid
  rw [hprocesses]
  exact (ProcessTable.find?_place (ProcessTable.isNone_of_freeSlot? hslot) hnew).trans (if_pos rfl)

/-- The page of a new process **is a frame that was free**, with what it held. -/
theorem Comes.residue {entry : UInt64} {name : String} (hcomes : k.Comes k' entry name p)
    (h : k.InOrder base) (hr : k.vm.ram.pool.Regular) {f : Nat}
    (hf : p.space.frameAt? dataPage = some f) :
    k.vm.ram.pool.isUsed f = false ∧ k.vm.ram.memory.SameFrame k'.vm.ram.memory f := by
  refine ⟨hcomes.unused h hr f (AddressSpace.mem_owned_of_frameAt? hf), ?_⟩
  have hnot : f ∉ p.space.tableFrames :=
    AddressSpace.not_mem_tableFrames_of_frameAt? (List.nodup_append.mp (hcomes.holds h hr).nodup).1 hf
  -- What is said of two memories holds of one and the same.
  have hends := Vm.alike_createSpaceWith (show dataPage.isUpper = false by decide)
    (Memory.SameFrame.refl k.vm.ram.memory k.vm.kernel.root)
  obtain ⟨vm', -, n, -, hjoint⟩ := hends.exists_ok hcomes.space
  exact (hjoint.others f hnot).1

/-- What is behind a range of the page **is in its frame**. -/
theorem eq_read_of_spells {m : Memory} {space : AddressSpace} {f : Nat} (hl : Vm.Lodges m space dataPage)
    (hf : space.frameAt? dataPage = some f) (fits : offset + bytes.length ≤ pageSize)
    (hs : m.Spells space.root (processDataStart.val + offset) bytes) :
    bytes = m.read (f * pageSize + offset) bytes.length := by
  refine List.ext_getElem (Memory.length_read _ _ _).symm fun i hi _ => ?_
  obtain ⟨a, target, ha, htarget, hbyte⟩ := hs i _ (List.getElem?_eq_getElem hi)
  have hinside : offset + i < pageSize := by omega
  obtain rfl : a = dataAddress (offset + i) hinside.le :=
    VirtAddr.eq_of_val (ha.trans (Nat.add_assoc _ _ _))
  obtain ⟨flags, htranslate⟩ := exists_translate_data hl hf hinside
  cases htarget.symm.trans htranslate
  rw [← hbyte]
  simp [Memory.read, Nat.add_assoc]

/-- **A `write` from the page** of the process prints what is in its frame. -/
theorem exists_syscall_of_page {f : Nat} {frame : Context} {pointer length : UInt64}
    (hp : k.processes.running? = some p) (hl : Vm.Lodges k.vm.ram.memory p.space dataPage)
    (hf : p.space.frameAt? dataPage = some f) (hasks : AsksFor frame pointer length)
    (hpointer : pointer.toNat = processDataStart.val + offset) (fits : offset + length.toNat ≤ pageSize) :
    ∃ k', syscall { k with trap := frame } = .ok () k' ∧
      k'.console = k.console ++ k.vm.ram.memory.read (f * pageSize + offset) length.toNat := by
  have hfirst : dataPage.start.val ≤ pointer.toNat := hpointer ▸ Nat.le_add_right _ _
  have hend : pointer.toNat + length.toNat ≤ dataPage.start.val + pageSize := by
    rw [hpointer, Nat.add_assoc]
    exact Nat.add_le_add_left fits _
  obtain ⟨b, hb⟩ := exists_validate_of_lodges hl hfirst hend
  obtain ⟨chunks, hchunks, -, hlength, hspells⟩ := exists_chunks_of_validate hb
  have hbytes := eq_read_of_spells hl hf (hlength.symm ▸ fits) (hpointer ▸ hspells)
  refine ⟨_, syscall_of_accepted hp hasks hb, ?_⟩
  rw [hchunks]
  exact congrArg (k.console ++ ·) (hbytes.trans (by rw [hlength]))

/-- Two bytes that are printed **differ by what a free frame holds**, if they do. -/
def ShowsFree (k : Kernel) (n : Memory) (x y : UInt8) : Prop := y = x ∨
  ∃ a, k.vm.ram.pool.isUsed (a / pageSize) = false ∧ x = k.vm.ram.memory.byte a ∧ y = n.byte a

/-- **A run is the same over another memory**, but for the bytes that are printed.  The answers are the same,
and so are afterwards the trap frame, the processes, the pool, the heap and the journal. -/
structure RunsAlike (k : Kernel) (n : Memory) (deeds : List Deed) : Prop where
  answers : (runAll deeds (k.veil n k.console)).1 = (runAll deeds k).1
  rest : ∃ m c, (runAll deeds (k.veil n k.console)).2 = (runAll deeds k).2.veil m c
  printed : ∃ out out', (runAll deeds k).2.console = k.console ++ out ∧
    (runAll deeds (k.veil n k.console)).2.console = k.console ++ out' ∧
      List.Forall₂ (k.ShowsFree n) out out'

/-- **What free frames hold is kept**, and makes no difference to anything but what is printed. -/
structure Remembers (k : Kernel) : Prop where
  /-- Whatever free frames hold, everything else is alike. -/
  runs : ∀ n, (∀ f, k.vm.ram.pool.isUsed f = true → k.vm.ram.memory.SameFrame n f) →
    ∀ deeds, k.RunsAlike n deeds
  /-- A new process finds it in its page. -/
  residue : ∀ entry name pid k', create entry name k = .ok pid k' →
    ∃ p f, k'.processes.find? pid = some p ∧ p.space.frameAt? dataPage = some f ∧
      k.vm.ram.pool.isUsed f = false ∧ k.vm.ram.memory.SameFrame k'.vm.ram.memory f
  /-- A process that asks for bytes of its page gets to see what is in the frame, whoever stored it. -/
  prints : ∀ p f offset frame, k.processes.running? = some p → p.space.frameAt? dataPage = some f →
    frame.rax = Syscall.write.number → frame.rdi.toNat = processDataStart.val + offset →
      offset + frame.rsi.toNat ≤ pageSize → ∃ k', syscall { k with trap := frame } = .ok () k' ∧
        k'.console = k.console ++ k.vm.ram.memory.read (f * pageSize + offset) frame.rsi.toNat

section

variable {n : Memory} (h : k.InOrder base)
  (hn : ∀ f, k.vm.ram.pool.isUsed f = true → k.vm.ram.memory.SameFrame n f)

include h hn

/-- Where nothing but free frames differs, code may have made the difference. -/
theorem InOrder.meddles_veil : k.Meddles (k.veil n k.console) :=
  ⟨rfl, ⟨rfl, rfl⟩, rfl, rfl, rfl, fun t ht => hn t (h.balanced.frames.isUsed (mem_owned_of_tables ht)),
    fun _ _ _ _ _ _ _ => rfl⟩

theorem InOrder.paired : k.Paired (k.veil n k.console) :=
  ⟨rfl, (h.meddles_veil hn).tables _ (List.mem_append_left _ List.mem_cons_self),
    fun t ht => (h.meddles_veil hn).tables t (List.mem_append_right _ ht)⟩

end

/-- **From booting on**, whatever has been asked of the kernel and whatever code has run on it, it remembers
what free frames hold.  That the processes have their pages is a question only if the boot loader left tables,
in which pages may have been mapped for the kernel. -/
theorem remembers_of_proceeds {bootRoot : Option Nat} (hb : Booted map bootRoot k₀) (hc : Proceeds k₀ k)
    (hpages : bootRoot = none ∨ k.Tenanted) : k.Remembers := by
  have h := inOrder_of_course hb.inOrder.2 hc
  have ht : k.Tenanted := by
    rcases hpages with rfl | ht
    · exact (housed_of_proceeds hb hc).processes
    · exact ht
  constructor
  · intro n hn deeds
    obtain ⟨hanswers, habreast⟩ := (h.paired hn).runs hb.inOrder.2 deeds hc ht
    obtain ⟨out, out', hout, hout', hshows⟩ := habreast.printed
    refine ⟨hanswers, ⟨_, _, habreast.twins⟩, out, out', hout, hout', hshows.imp fun x y => ?_⟩
    rintro (hsame | ⟨a, rfl, rfl⟩)
    · exact Or.inl hsame
    · cases hused : k.vm.ram.pool.isUsed (a / pageSize) with
      | true => exact Or.inl (hn _ hused a rfl)
      | false => exact Or.inr ⟨a, hused, rfl, rfl⟩
  · intro entry name pid k' hok
    obtain ⟨p, rfl, hcomes⟩ := (comes_create h.settled h.balanced entry name).of_eq_ok hok
    have hfound := hcomes.find? h.settled
    have ht' := (tenanted_create h ht entry name).of_eq_ok hok
    obtain ⟨f, hf⟩ := exists_dataFrame (ht'.lodges hfound)
    exact ⟨p, f, hfound, hf, hcomes.residue h (regular_of_proceeds hb hc) hf⟩
  · intro p f offset frame hp hf hrax hpointer fits
    obtain ⟨pid, -, hfind⟩ := Option.bind_eq_some_iff.mp hp
    exact exists_syscall_of_page hp (ht.lodges hfind) hf ⟨hrax, rfl, rfl⟩ hpointer fits

/-- On a machine of six frames a first process is created, and finds in its page what a free frame held. -/
theorem remembers_sixFrames : ∃ k k' p f, (Booted World.sixFrames none k ∧ Proceeds k k ∧
    ((none : Option Nat) = none ∨ k.Tenanted)) ∧ k.Remembers ∧ create 0x1000 "init" k = .ok 1 k' ∧
      k'.processes.find? 1 = some p ∧ p.space.frameAt? dataPage = some f ∧
        k.vm.ram.memory.SameFrame k'.vm.ram.memory f := by
  obtain ⟨k, hk⟩ := exists_booted
  have hremembers := remembers_of_proceeds hk.booted .start (Or.inl rfl)
  obtain ⟨k', -, hcreate, -⟩ := hk.exists_create
  obtain ⟨p, f, hp, hf, -, hkept⟩ := hremembers.residue 0x1000 "init" 1 k' hcreate
  exact ⟨k, k', p, f, ⟨hk.booted, .start, Or.inl rfl⟩, hremembers, hcreate, hp, hf, hkept⟩

/-! ## 6. Six frames -/

/-- The registers ask for the first byte of the page. -/
def peek : Context := { rax := Syscall.write.number, rdi := 0x40000000, rsi := 1 }

/-- A first process asks for it, and has stored nothing there. -/
def peeks : List Deed := [.spawn 0x1000 "init", .timerTick, .enter peek, .syscall]

/-- The first process **runs with the next tick**, in the space that was made for it. -/
theorem Comes.exists_turn {k₁ : Kernel} {entry : UInt64} {name : String} (hcomes : k.Comes k₁ entry name p)
    (h₁ : k₁.InOrder base) (hk : k.processes = .empty {}) : ∃ k₂ q, ofHaltOp timerTick k₁ = .ok () k₂ ∧
      k₁.Frugal k₂ ∧ k₂.console = k₁.console ∧ k₂.processes.running? = some q ∧ q.space = p.space := by
  obtain ⟨k₂, htick, hcur, -⟩ := hcomes.exists_countTick hk h₁.settled.consistent
  have hticks : ofHaltOp timerTick k₁ = .ok () k₂ := ofHaltOp_of_ok (timerTick_of_countTick htick)
  have hleads : KernelCall.timerTick.Leads k₁ k₂ := Or.inl hticks
  have hf : k₁.Frugal k₂ := frugal_of_leads h₁ id hleads
  obtain ⟨q, hq, -⟩ := (h₁.leads hleads).settled.consistent.exists_current hcur
  refine ⟨k₂, q, hticks, hf, (blind_countTick.keeps htick).2, ?_, ?_⟩
  · unfold ProcessTable.running?
    rw [hcur]
    exact hq
  · -- Nobody else is there.
    have hin := hcomes.holdings.mem_iff.mp
      (hf.holdings (List.mem_map_of_mem (ProcessTable.mem_live_of_find? hq)))
    rw [hk] at hin
    exact congrArg Holding.space (List.mem_singleton.mp hin)

/-- **What it gets to see** is what the frame of its page held when it was free. -/
theorem exists_peek {k₁ : Kernel} (h : k.InOrder base) (ht : k.Tenanted) (hr : k.vm.ram.pool.Regular)
    (hk : k.processes = .empty {}) (hok : create 0x1000 "init" k = .ok 1 k₁) :
    ∃ space vm f, Vm.createSpaceWith dataPage k.vm = .ok space vm ∧ space.frameAt? dataPage = some f ∧
      k.vm.ram.pool.isUsed f = false ∧
        (runAll peeks k).2.console = k.console ++ [k.vm.ram.memory.byte (f * pageSize)] := by
  obtain ⟨p, hpid, hcomes⟩ := (comes_create h.settled h.balanced 0x1000 "init").of_eq_ok hok
  have ht₁ : k₁.Tenanted := (tenanted_create h ht 0x1000 "init").of_eq_ok hok
  have hspawn : (KernelCall.spawn 0x1000 "init").Leads k k₁ := Or.inl (bind_of_ok (onProcesses_of_ok hok))
  obtain ⟨f, hf⟩ := exists_dataFrame (ht₁.lodges (hcomes.find? h.settled))
  obtain ⟨hfree, hkept⟩ := hcomes.residue h hr hf
  obtain ⟨k₂, q, hticks, hfrugal, hquiet, hrunning, hspace⟩ := hcomes.exists_turn (h.leads hspawn) hk
  obtain ⟨pid, -, hfind⟩ := Option.bind_eq_some_iff.mp hrunning
  obtain ⟨k₃, hsyscall, hconsole⟩ : ∃ k₃, syscall { k₂ with trap := peek } = .ok () k₃ ∧
      k₃.console = k₂.console ++ k₂.vm.ram.memory.read (f * pageSize + 0) (1 : UInt64).toNat :=
    exists_syscall_of_page hrunning ((ht₁.frugal hfrugal).lodges hfind) (hspace ▸ hf) ⟨rfl, rfl, rfl⟩
      (by decide) (by decide)
  have hrun : (runAll peeks k).2 = k₃ := by
    unfold peeks
    rw [runAll_of_ok (bind_of_ok (onProcesses_of_ok hok)), runAll_of_ok (bind_of_ok hticks),
      runAll_of_ok rfl, runAll_of_ok (bind_of_ok (ofHaltOp_of_ok hsyscall))]
    rfl
  have hbyte : k₁.vm.ram.memory.byte (f * pageSize) = k.vm.ram.memory.byte (f * pageSize) :=
    hkept _ (Nat.mul_div_cancel f (show 0 < pageSize by decide))
  have hread : k₂.vm.ram.memory.read (f * pageSize + 0) (1 : UInt64).toNat =
      [k.vm.ram.memory.byte (f * pageSize)] := by
    rw [← hbyte, hfrugal.memory]
    simp [Memory.read]
  refine ⟨p.space, k₁.vm, f, hcomes.space, hf, hfree, ?_⟩
  rw [hrun, hconsole, hread, hquiet, hcomes.console]

/-- **Two machines of six frames print different bytes**, though they differ only in what one free frame
holds, and the same is done to both. -/
theorem leaks_sixFrames : ∃ k₀ k n, (Booted World.sixFrames none k₀ ∧ Proceeds k₀ k ∧
    Proceeds k₀ (k.veil n k.console)) ∧
      (∀ f, k.vm.ram.pool.isUsed f = true → k.vm.ram.memory.SameFrame n f) ∧
      (runAll peeks (k.veil n k.console)).2.console ≠ (runAll peeks k).2.console := by
  obtain ⟨k, hk⟩ := exists_booted
  have h := hk.booted.inOrder.2
  have ht : k.Tenanted := hk.booted.housed.processes
  have hr := hk.booted.regular
  obtain ⟨k₁, p, hcreate, -⟩ := hk.exists_create
  obtain ⟨space, vm, f, hspace, hf, hfree, hprints⟩ := exists_peek h ht hr hk.processes hcreate
  -- The frame of the page holds something else in the other machine.
  let n := k.vm.ram.memory.setByte (f * pageSize) (k.vm.ram.memory.byte (f * pageSize) + 1)
  have hn : ∀ g, k.vm.ram.pool.isUsed g = true → k.vm.ram.memory.SameFrame n g := by
    intro g hused a ha
    rw [Memory.byte_setByte, if_neg]
    rintro rfl
    rw [Nat.mul_div_cancel f (show 0 < pageSize by decide)] at ha
    rw [ha, hused] at hfree
    cases hfree
  have hpaired := h.paired hn
  have hm := h.meddles_veil hn
  obtain ⟨l₁, hcreate', -⟩ := (hpaired.alike_create h 0x1000 "init").exists_ok hcreate
  obtain ⟨space', vm', f', hspace', hf', -, hprints'⟩ :=
    exists_peek (h.meddle hm) (ht.meddle hm) (show k.vm.ram.pool.Regular from hr) hk.processes hcreate'
  obtain ⟨vm₂, hsame, -⟩ :=
    (Vm.alike_createSpaceWith (show dataPage.isUpper = false by decide) hpaired.root).exists_ok hspace
  obtain ⟨rfl, -⟩ := EStateM.Result.ok.inj (hspace'.symm.trans hsame)
  cases hf.symm.trans hf'
  refine ⟨k, k, n, ⟨hk.booted, .start, Course.start.meanwhile hm⟩, hn, ?_⟩
  rw [hprints, hprints']
  intro heq
  have hbyte : n.byte (f * pageSize) = k.vm.ram.memory.byte (f * pageSize) :=
    List.head_eq_of_cons_eq (List.append_cancel_left heq)
  rw [Memory.byte_setByte, if_pos rfl] at hbyte
  exact absurd (UInt8.add_eq_left.mp hbyte) (by decide)

end Kernel

end KernelCore
