/-
# What is done to one space is not seen in another

Callers map only frames that they hold, and do whatever else they like: they write anywhere, ask for large
pages, take down spaces that are loaded (`World.Arises`).  Whatever they have done, the frames of the spaces
are all different, and what user spaces have of the upper half is the kernel's; so a call on one user space,
done or refused on the way, does not change what is seen of any other:

* `World.sound_of_arises`: what callers write goes into frames that are mapped, and so into no table;
  `World.trades_of_arises`: frames are only taken and given back;
* `World.confined_run`: a call that works on a user space changes nothing that is owned beside it;
* `World.isolated_of_arises`: so all that is seen of the other spaces stays, and of the upper half of the
  space itself.
-/
import KernelCore.Proofs.Paging.Views

namespace KernelCore

/-- The call leads from one world to another, whether it is done or refused. -/
def PagingCall.Leads (call : PagingCall) (w w' : World) : Prop :=
  (∃ a, call.run w = .ok a w') ∨ ∃ e, call.run w = .error (.refused e) w'

/-- The call works on the user space at a position: it maps or unmaps a page there, writes to its lower
half, or takes it down. -/
def PagingCall.WorksOn (i : Nat) : PagingCall → Prop
  | .map j _ _ _ => j = i
  | .unmap j _ => j = i
  | .write j? start bytes => j? = some i ∧ start.val + bytes.length ≤ 2 ^ 47
  | .destroy j => j = i
  | _ => False

namespace World

variable {map : MemoryMap} {base i : Nat} {w w' : World} {g g' : Guest} {call : PagingCall}

/-! ## 1. Honest callers -/

/-- The worlds that calls of honest callers lead to after booting, whatever memory holds then. -/
inductive Arises (map : MemoryMap) : World → Prop where
  | boot {memory : Memory} {pool : FramePool} {held : List Nat} {vm : Vm} :
      pool.Drawn map held → Vm.boot ⟨memory, pool⟩ none = .ok vm → Arises map ⟨vm, [], held⟩
  | call {w w' : World} {call : PagingCall} : Arises map w → call.Honest w → call.Leads w w' →
      Arises map w'
  | enable {w : World} {vm : Vm} : Arises map w → Vm.enable w.vm = .ok () vm → Arises map { w with vm }

/-- What a call leaves, done or refused, holds where it leads. -/
theorem of_leads {P : World → Prop} (hl : call.Leads w w')
    (h : Outcome (call.run w) (fun _ w' => P w') fun _ w' => P w') : P w' := by
  rcases hl with ⟨a, hok⟩ | ⟨e, he⟩
  · exact h.of_eq_ok hok
  · exact h.of_eq_refused he

/-- Allowed calls are honest ones. -/
theorem Reaches.arises (hr : Reaches map w) : Arises map w := by
  induction hr with
  | boot hdrawn hboot => exact .boot hdrawn hboot
  | done hr hallowed hok ih =>
    exact .call ih ((sound_of_reaches hr).of_allowed hallowed).1 (Or.inl ⟨_, hok⟩)
  | refused hr hallowed he ih =>
    exact .call ih ((sound_of_reaches hr).of_allowed hallowed).1 (Or.inr ⟨_, he⟩)

/-- Wherever callers write, **the tables are spared**. -/
theorem Sound.sparesTables (h : w.Sound base) (hl : w.Linked) (call : PagingCall) :
    w.SparesTables call := by
  cases call with
  | write i? start bytes =>
    refine fun s hspace => h.sameTables_writeBytes fun m hm a _ _ => ?_
    refine (h.lands hl hspace hm a).mono (List.append_subset.mpr ⟨mem_dataFrames hspace, ?_⟩)
    exact List.subset_append_left _ _
  | _ => exact True.intro

/-- **Every run of honest callers** keeps the world sound, and the roots linked. -/
theorem sound_of_arises (ha : Arises map w) : w.Sound (FramePool.ofMap map).used ∧ w.Linked := by
  induction ha with
  | boot hdrawn hboot => exact ⟨sound_of_reaches (.boot hdrawn hboot), fun g hg => by cases hg⟩
  | @call w w' call _ hhonest hleads ih =>
    obtain ⟨h, hl⟩ := ih
    have hspares := h.sparesTables hl call
    exact ⟨of_leads hleads (sound_run h hhonest hspares),
      (of_leads hleads (evolves_run h hhonest hspares)).linked h hl⟩
  | @enable w vm _ hok ih =>
    obtain ⟨h, hl⟩ := ih
    unfold Vm.enable at hok
    split at hok
    · cases hok
    · cases hok
      exact ⟨h.of_pool rfl rfl (fun _ hg => hg) h.books, hl⟩

/-- In every run frames are only taken and given back, one at a time. -/
theorem trades_of_arises (ha : Arises map w) : (FramePool.ofMap map).Trades w.vm.ram.pool := by
  induction ha with
  | boot hdrawn hboot => exact (trades_of_drawn hdrawn).take (Vm.eq_of_boot hboot).1
  | @call w w' call _ _ hleads ih => exact of_leads hleads (trades_run ih call)
  | @enable w vm _ hok ih =>
    unfold Vm.enable at hok
    split at hok
    · cases hok
    · cases hok
      exact ih

/-! ## 2. Calls on one space -/

/-- **What a call on a user space is confined to**: what is owned beside it is as it was, and all the other
spaces are there as before.  The space itself is taken down, or has the root that it had. -/
structure Confined (i : Nat) (w w' : World) : Prop where
  kernel : w'.vm.kernel = w.vm.kernel
  beside : ∀ t ∈ w.beside i, w.vm.ram.memory.SameFrame w'.vm.ram.memory t
  others : w.guests.eraseIdx i ⊆ w'.guests
  own : w'.guests = w.guests.eraseIdx i ∨ ∀ g, guest? i w = some g →
    ∃ g', guest? i w' = some g' ∧ g'.space.root = g.space.root

theorem Confined.refl (i : Nat) (w : World) : w.Confined i w :=
  ⟨rfl, fun _ _ => .refl _ _, fun _ => List.mem_of_mem_eraseIdx, Or.inr fun g hi => ⟨g, hi, rfl⟩⟩

theorem Confined.of_reworks (hr : Reworks base i g g' w w') : w.Confined i w' := by
  obtain ⟨hlt, -⟩ := List.getElem?_eq_some_iff.mp hr.found
  refine ⟨hr.kernel, hr.sameFrame, fun g₁ hg₁ => ?_, Or.inr fun g₁ hi => ⟨g', ?_, ?_⟩⟩
  · rw [hr.guests]
    exact (perm_set hr.found g').mem_iff.mpr (List.mem_cons_of_mem _ hg₁)
  · show w'.guests[i]? = some g'
    rw [hr.guests, List.getElem?_set_self hlt]
  · cases hr.found.symm.trans hi
    exact hr.within.root

/-- Bytes for the lower half of a user space go into its own frames. -/
theorem Sound.confined_writeBytes (h : w.Sound base) (hi : guest? i w = some g) {start : VirtAddr}
    {bytes : List UInt8} (hlow : start.val + bytes.length ≤ 2 ^ 47) : ∀ t ∈ w.beside i,
      w.vm.ram.memory.SameFrame (w.vm.ram.memory.writeBytes g.space.root start bytes).1 t := by
  have hspace : space? (some i) w = some g.space := Option.map_eq_some_iff.mpr ⟨g, hi, rfl⟩
  intro t ht
  refine Memory.outside_writeBytes (fun m (hm : ∀ f ∉ g.space.pages.map Prod.snd, _) a _ hlast => ?_) t ?_
  · refine h.lands_of_lower hspace (h.sameTables fun f hf => hm f fun hdata => hf ?_)
      (Nat.lt_of_lt_of_le hlast hlow)
    exact mem_dataFrames hspace hdata
  · intro hdata
    exact ne_of_holds (h.books_of hi) (g.space.data_subset_ownedFrames hdata) (List.mem_append_left _ ht) rfl

/-- **A call on a user space is confined to it**, whether it is done or refused. -/
theorem confined_run (h : w.Sound base) (hhonest : call.Honest w) (hworks : call.WorksOn i) :
    Outcome (call.run w) (fun _ w' => w.Confined i w') fun _ w' => w.Confined i w' := by
  have hsame := Confined.refl i w
  cases call with
  | map j page frame flags =>
    cases hworks
    exact outcome_map h.toLodged i page flags hhonest hsame fun _ _ _ => .of_reworks
  | unmap j page =>
    cases hworks
    exact outcome_unmap h.toLodged i page hsame fun _ _ _ => .of_reworks
  | write j? start bytes =>
    obtain ⟨rfl, hlow⟩ := hworks
    refine outcome_write hsame fun space hspace => ?_
    obtain ⟨g, hi, rfl⟩ := Option.map_eq_some_iff.mp hspace
    exact ⟨rfl, h.confined_writeBytes hi hlow, hsame.others, hsame.own⟩
  | destroy j =>
    cases hworks
    exact outcome_destroy h.toLodged i hsame fun _ _ =>
      ⟨rfl, fun _ _ => .refl _ _, fun _ hg => hg, Or.inl rfl⟩
  | takeFrame => exact hworks.elim
  | giveFrame => exact hworks.elim
  | create => exact hworks.elim
  | mapRegion => exact hworks.elim
  | load => exact hworks.elim

/-! ## 3. What is seen -/

/-- **What a call on a user space leaves alone.**  Every other space is there as before, the kernel's among
them, and the same is seen of it.  The same is also seen of the upper half of the space itself, which is
taken down or has the root that it had. -/
structure Isolates (i : Nat) (w w' : World) : Prop where
  others : ∀ i? s, i? ≠ some i → space? i? w = some s → (∃ j?, space? j? w' = some s) ∧
    w.vm.SameView (fun _ => True) s w'.vm
  own : ∀ g, guest? i w = some g → w.vm.SameView (fun a => 2 ^ 47 ≤ a.val) g.space w'.vm ∧
    (w'.guests = w.guests.eraseIdx i ∨ ∃ g', guest? i w' = some g' ∧ g'.space.root = g.space.root)

theorem Confined.isolates (hc : w.Confined i w') (he : w.Evolves w') (h : w.Sound base) (hl : w.Linked) :
    w.Isolates i w' := by
  have hkernel : ∀ f ∈ w.vm.kernel.ownedFrames, w.vm.ram.memory.SameFrame w'.vm.ram.memory f :=
    fun f hf => hc.beside f (List.mem_append_left _ hf)
  refine ⟨fun i? s hne hspace => ?_, fun g hi => ⟨?_, hc.own.imp_right fun hown => hown g hi⟩⟩
  · cases i? with
    | none =>
      cases hspace
      have hspace : space? none w = some w.vm.kernel := rfl
      exact ⟨⟨none, congrArg some hc.kernel⟩, h.sameView hl hspace hkernel hkernel⟩
    | some j =>
      obtain ⟨g, hj, rfl⟩ := Option.map_eq_some_iff.mp hspace
      have hg : g ∈ w.guests.eraseIdx i :=
        List.mem_eraseIdx_iff_getElem?.mpr ⟨j, fun heq => hne (congrArg some heq), hj⟩
      obtain ⟨k, hk⟩ := List.mem_iff_getElem?.mp (hc.others hg)
      refine ⟨⟨some k, Option.map_eq_some_iff.mpr ⟨g, hk, rfl⟩⟩, h.sameView hl hspace hkernel ?_⟩
      exact fun f hf => hc.beside f (List.mem_append_right _ (List.mem_flatMap.mpr ⟨g, hg, hf⟩))
  · exact h.sameView_of_upper hl hi hkernel fun page hpage =>
      he.upper g (List.mem_of_getElem? hi) hpage

/-- **The spaces are isolated.**  Whatever call of an honest caller works on a user space, and whatever
becomes of it, it leaves all the others alone. -/
def Isolated (w : World) : Prop := ∀ (call : PagingCall) (i : Nat) (w' : World), call.Honest w →
  call.WorksOn i → call.Leads w w' → w.Isolates i w'

theorem isolated_of_arises (ha : Arises map w) : w.Isolated := by
  intro call i w' hhonest hworks hleads
  obtain ⟨h, hl⟩ := sound_of_arises ha
  exact (of_leads hleads (confined_run h hhonest hworks)).isolates
    (of_leads hleads (evolves_run h hhonest (h.sparesTables hl call))) h hl

end World

end KernelCore
