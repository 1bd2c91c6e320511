import Notux.Vmm.Ownership
import Notux.Vmm.PagedRuns
import Notux.Proc.Wait

/-!
# Frames that nothing owns

In a run, every frame that was handed out stays a page table of, or a page
mapped by, the kernel or a process that has not been reaped, as long as no step
gives up what it has taken: no page is unmapped or mapped over, no process is
reaped, and no image is given up after its process was created on the disk path.
-/

namespace Notux.Vmm

open Notux.Store Notux.Proc

/-! ## The statement -/

/-- A root in use: the kernel's, or that of a process whose slot is taken. -/
def Machine.Live (machine : Machine) (root : Addr) : Prop :=
  root = machine.vm.kernelPml4 ∨ ∃ slot, (machine.table.processes slot).state ≠ .terminated ∧
    rootOf (machine.table.processes slot) = root

/-- `pmm_alloc_page` has handed out a frame. -/
def HandedOut (vm : Vm) (i : Nat) : Prop :=
  ∃ snapshot ∈ vm.handouts, nextFrame snapshot.bitmap = some i

/-- The frames of the AHCI structures. -/
def ahciFrames : List DriverCall → Vm → List Nat
  | [], _ => []
  | call :: rest, vm =>
      (match call with
        | .allocMappedPage => (nextFrame vm.bitmap).toList
        | .mapRegisters _ => []) ++ ahciFrames rest (call.run.run vm).2

/-! ## Steps that give up nothing -/

/-- There is no free slot, no memory at all, or memory for a new root. -/
def CreateClean (machine : Machine) : Prop :=
  (∃ slot, (machine.table.processes slot).state = .terminated) →
    freeFrames machine.vm.bitmap = 0 ∨ 6 ≤ freeFrames machine.vm.bitmap

/-- An image that was found is loaded into a new process, or given up where that
is allowed. -/
def SpawnClean (givesUp : Prop) (layout : StackLayout) (file : Option ElfFile) (machine : Machine) :
    Prop :=
  ∀ image ∈ file, CreateClean machine ∧
    Leads (createProcess layout)
      (fun pid created => 0 ≤ pid →
        ∀ child, created.table.getProcessByPid pid.toNat = some child →
          LoadClean givesUp (rootOf (created.table.processes child)) image created.vm) machine

/-- `sys_brk` goes on to its loops: the new end is not the old one and lies in
the heap. -/
def MovesHeap (newBrk : Addr) (process : Process) : Prop :=
  ¬ (newBrk = 0 ∨ newBrk = (heapBounds process).2) ∧ ¬ newBrk < (heapBounds process).1

/-- The pages the heap grows by are free and there are frames for them; the
pages it shrinks by are not mapped. -/
structure BrkClean (newBrk : Addr) (process : Process) (vm : Vm) : Prop where
  grows : MovesHeap newBrk process →
    pageAlignUp (heapBounds process).2 < pageAlignUp newBrk →
      LoopClean True (rootOf process) VMM_USER_FLAGS (fun _ => true)
        ((pageAlignUp newBrk - pageAlignUp (heapBounds process).2) >>> 12).toNat
        (pageAlignUp (heapBounds process).2) vm
  shrinks : MovesHeap newBrk process →
    ¬ pageAlignUp (heapBounds process).2 < pageAlignUp newBrk →
      ∀ k < ((pageAlignUp (heapBounds process).2 - pageAlignUp newBrk) >>> 12).toNat,
        PageFree vm.toMemory (rootOf process) (pageAlignUp newBrk + BitVec.ofNat 64 (k * 0x1000))

/-- A step gives up no frame: an image from the disk is loaded once its process
is created, the heap loses no page, and no child is reaped. -/
def Clean (layout : StackLayout) (machine : Machine) : Event → Prop
  | .execve onDisk inRamfs =>
      SpawnClean False layout onDisk machine ∧
        Leads (spawnFromXv6fs layout onDisk)
          (fun res after => res < 0 → SpawnClean True layout inRamfs after) machine
  | .brk newBrk => BrkClean newBrk machine.table.currentProcess machine.vm
  | .wait4 => machine.table.zombieChild = none
  | .exit _ => True
  | .timer _ => True

/-! ## The invariant -/

/-- The roots that own the frames are those of the kernel and of the processes. -/
structure Balances (owners : Owners) (machine : Machine) : Prop where
  held : Held owners machine.vm
  live : ∀ root, owners.live root → machine.Live root
  uses : ∀ slot, (machine.table.processes slot).state ≠ .terminated →
    owners.Uses (rootOf (machine.table.processes slot))

/-- Every frame in use was reserved at the boot, belongs to the driver, or is
owned by a root in use. -/
def Balanced (boot : Nat → Bool) (driver : Nat → Prop) (machine : Machine) : Prop :=
  ∃ owners : Owners, owners.boot = boot ∧ owners.driver = driver ∧ Balances owners machine

/-- The same slots are taken, with the same page tables. -/
structure SameSlots (before after : ProcTable) : Prop where
  roots : SameRoots before after
  taken : ∀ slot, (after.processes slot).state = .terminated ↔
    (before.processes slot).state = .terminated

section

variable {boot : Nat → Bool} {driver : Nat → Prop} {owners : Owners} {machine : Machine}

theorem SameSlots.rootOf {before after : ProcTable} (same : SameSlots before after)
    (slot : ProcIdx) : rootOf (after.processes slot) = rootOf (before.processes slot) := by
  unfold Vmm.rootOf
  rw [same.roots slot]

theorem Balances.onTable (balances : Balances owners machine) {table : ProcTable}
    (same : SameSlots machine.table table) : Balances owners { machine with table } := by
  constructor
  · exact balances.held
  · intro root isLive
    rcases balances.live root isLive with kernel | ⟨slot, taken, isRoot⟩
    · exact Or.inl kernel
    · exact Or.inr ⟨slot, fun ended => taken ((same.taken slot).mp ended),
        (same.rootOf slot).trans isRoot⟩
  · intro slot taken
    show owners.Uses (rootOf (table.processes slot))
    rw [same.rootOf slot]
    exact balances.uses slot fun ended => taken ((same.taken slot).mpr ended)

theorem Balanced.onTable (balanced : Balanced boot driver machine) {table : ProcTable}
    (same : SameSlots machine.table table) : Balanced boot driver { machine with table } := by
  rcases balanced with ⟨owners, isBoot, isDriver, balances⟩
  exact ⟨owners, isBoot, isDriver, balances.onTable same⟩

theorem Balances.onVm (balances : Balances owners machine) {vm : Vm} (held : Held owners vm) :
    Balances owners { machine with vm } := by
  constructor
  · exact held
  · intro root isLive
    rcases balances.live root isLive with kernel | process
    · left
      rw [kernel, balances.held.kernel]
      exact held.kernel.symm
    · exact Or.inr process
  · exact balances.uses

/-- Code on the tables of a process whose slot is taken. -/
theorem Balanced.onVm {α : Type} {program : Addr → VmM α} {Q : α → Prop}
    (balanced : Balanced boot driver machine) {slot : ProcIdx}
    (taken : (machine.table.processes slot).state ≠ .terminated)
    (holds : ∀ {owners : Owners} {root : Addr}, owners.Uses root → Held owners machine.vm →
      root = rootOf (machine.table.processes slot) →
        Leads (program root) (fun value after => Held owners after ∧ Q value) machine.vm) :
    Leads (onVm (program (rootOf (machine.table.processes slot))))
      (fun value after => Balanced boot driver after ∧ after.table = machine.table ∧ Q value)
      machine := by
  rcases balanced with ⟨owners, isBoot, isDriver, balances⟩
  rw [leads_onVm]
  apply (holds (balances.uses slot taken) balances.held rfl).mono
  rintro value vm ⟨held, result⟩
  exact ⟨⟨owners, isBoot, isDriver, balances.onVm held⟩, rfl, result⟩

end

/-! ## Tables that keep their slots -/

theorem sameSlots_modify (table : ProcTable) (idx : ProcIdx) (change : Process → Process)
    (roots : ∀ process, (change process).pml4 = process.pml4)
    (taken : (change (table.processes idx)).state = .terminated ↔
      (table.processes idx).state = .terminated) : SameSlots table (table.modify idx change) := by
  refine ⟨sameRoots_modify table idx change roots, fun slot => ?_⟩
  by_cases same : slot = idx
  · rw [same, ProcTable.modify_same]
    exact taken
  · rw [ProcTable.modify_of_ne _ same]

theorem sameSlots_schedule (table : ProcTable) (currentEsp : Nat) :
    SameSlots table (table.schedule currentEsp).2 :=
  ⟨sameRoots_schedule table currentEsp, fun slot =>
    (table.schedule_sameLife currentEsp slot).terminated⟩

/-- The process that is activated has not ended. -/
theorem schedule_current_taken {table : ProcTable} {currentEsp : Nat}
    (switches : (table.schedule currentEsp).2.current ≠ table.current) :
    ((table.schedule currentEsp).2.processes (table.schedule currentEsp).2.current).state ≠
      .terminated := by
  rcases table.schedule_cases currentEsp with ⟨next, -, -, same⟩ | ⟨-, -, same⟩ | ⟨-, same⟩
  · rw [same]
    show (((table.suspend currentEsp).activateProcess next).processes next).state ≠ .terminated
    rw [ProcTable.activateProcess_processes, ProcTable.modify_same]
    exact fun ended => by cases ended
  · rw [same] at switches
    exact absurd (table.saveCurrent_current currentEsp) switches
  · rw [same] at switches
    exact absurd rfl switches

theorem sameSlots_setProcessEntry (table : ProcTable) (idx : ProcIdx) (entryPoint : Nat) :
    SameSlots table (table.setProcessEntry idx entryPoint) := by
  refine ⟨sameRoots_setProcessEntry table idx entryPoint, fun slot => ?_⟩
  rw [ProcTable.setProcessEntry_processes]

theorem getProcessByPid_taken {table : ProcTable} {pid : Nat} {child : ProcIdx}
    (found : table.getProcessByPid pid = some child) :
    (table.processes child).state ≠ .terminated := by
  have test := ProcTable.firstSlot_eq_some found
  rw [decide_eq_true_eq] at test
  exact test.2

/-! ## The calls -/

section

variable {boot : Nat → Bool} {driver : Nat → Prop} {machine : Machine} (layout : StackLayout)

/-- A new process owns its root. -/
theorem createProcess_balanced (balanced : Balanced boot driver machine)
    (clean : CreateClean machine) :
    Leads (createProcess layout) (fun _ => Balanced boot driver) machine := by
  unfold createProcess
  rw [leads_bind, leads_get]
  cases search : ProcTable.firstSlot fun i => (machine.table.processes i).state = .terminated with
  | none => exact balanced
  | some idx =>
      have free : (machine.table.processes idx).state = .terminated := by
        simpa using ProcTable.firstSlot_eq_some search
      rcases balanced with ⟨owners, isBoot, isDriver, balances⟩
      dsimp only
      rw [leads_bind, leads_onVm]
      apply (createUserPml4_held balances.held (clean ⟨idx, free⟩)).mono
      rintro root vm (⟨rfl, rfl⟩ | ⟨nonzero, held⟩)
      · rw [leads_onTable]
        have fails : machine.table.createProcess layout 0 (0 : Addr).toNat =
            (-1, machine.table) := by
          apply ProcTable.createProcess_fails
          exact if_pos rfl
        rw [fails]
        exact ⟨owners, isBoot, isDriver, balances⟩
      · rw [leads_onTable]
        refine ⟨owners.add root, isBoot, isDriver, ?_⟩
        have positive : root.toNat ≠ 0 := fun zero => nonzero (BitVec.eq_of_toNat_eq zero)
        have isRoot : BitVec.ofNat 64 root.toNat = root := by
          rw [BitVec.ofNat_toNat, BitVec.setWidth_eq]
        have table : ∃ process : Process, process.state = .ready ∧ process.pml4 = root.toNat ∧
            (machine.table.createProcess layout 0 root.toNat).2.processes =
              Function.update machine.table.processes idx process := by
          unfold ProcTable.createProcess
          rw [search]
          simp only [if_neg positive]
          exact ⟨_, rfl, rfl, rfl⟩
        rcases table with ⟨process, ready, pml4, processes⟩
        generalize (machine.table.createProcess layout 0 root.toNat).2 = table at processes
        have atIdx : table.processes idx = process := by
          rw [processes, Function.update_self]
        have others : ∀ slot, slot ≠ idx → table.processes slot = machine.table.processes slot := by
          intro slot differ
          rw [processes, Function.update_of_ne differ]
        have newRoot : rootOf (table.processes idx) = root := by
          rw [atIdx, rootOf, pml4, isRoot]
        constructor
        · exact held
        · rintro other (old | rfl)
          · rcases balances.live other old with kernel | ⟨slot, taken, isRoot⟩
            · left
              rw [kernel, balances.held.kernel]
              exact held.kernel.symm
            · have differ : slot ≠ idx := by
                rintro rfl
                exact taken free
              refine Or.inr ⟨slot, ?_, ?_⟩
              · show (table.processes slot).state ≠ .terminated
                rwa [others slot differ]
              · show rootOf (table.processes slot) = other
                rwa [others slot differ]
          · refine Or.inr ⟨idx, ?_, newRoot⟩
            show (table.processes idx).state ≠ .terminated
            rw [atIdx, ready]
            decide
        · intro slot taken
          show (owners.add root).Uses (rootOf (table.processes slot))
          by_cases same : slot = idx
          · rw [same, newRoot]
            exact ⟨Or.inr rfl, List.mem_cons_self⟩
          · have taken' : (machine.table.processes slot).state ≠ .terminated := by
              rw [← others slot same]
              exact taken
            have old := balances.uses slot taken'
            rw [others slot same]
            exact ⟨Or.inl old.live, List.mem_cons_of_mem _ old.member⟩

/-- An image is loaded into a process that was found. -/
theorem loadInto_balanced (balanced : Balanced boot driver machine) {pid : Nat} {child : ProcIdx}
    (found : machine.table.getProcessByPid pid = some child) {givesUp : Prop} (file : ElfFile)
    (clean : LoadClean givesUp (rootOf (machine.table.processes child)) file machine.vm) :
    Leads (onVm (loadElfIntoProcess (rootOf (machine.table.processes child)) file))
      (fun loaded after => Balanced boot driver after ∧ after.table = machine.table ∧
        (loaded = false → givesUp)) machine := by
  apply @Balanced.onVm _ _ _ _ (fun root => loadElfIntoProcess root file)
    (fun loaded => loaded = false → givesUp) balanced _ (getProcessByPid_taken found)
  intro owners root uses held isRoot
  subst isRoot
  exact loadElfIntoProcess_held uses file held clean

theorem setEntry_balanced (balanced : Balanced boot driver machine) (child : ProcIdx)
    (entryPoint : Nat) {α : Type} (value : α) :
    Leads (do
      onTable fun table => ((), table.setProcessEntry child entryPoint)
      return value) (fun _ => Balanced boot driver) machine :=
  balanced.onTable (sameSlots_setProcessEntry machine.table child entryPoint)

theorem spawnFromXv6fs_balanced (balanced : Balanced boot driver machine) (file : Option ElfFile)
    (clean : SpawnClean False layout file machine) :
    Leads (spawnFromXv6fs layout file) (fun _ => Balanced boot driver) machine := by
  unfold spawnFromXv6fs
  cases file with
  | none => exact balanced
  | some image =>
      rcases clean image rfl with ⟨create, load⟩
      dsimp only
      rw [leads_bind]
      apply ((createProcess_balanced layout balanced create).and load).mono
      rintro pid created ⟨balanced, load⟩
      by_cases failed : pid < 0
      · rw [if_pos failed]
        exact balanced
      · rw [if_neg failed, leads_bind, leads_get]
        cases found : created.table.getProcessByPid pid.toNat with
        | none => exact balanced
        | some child =>
            dsimp only
            rw [leads_bind]
            apply (loadInto_balanced balanced found image (load (by omega) child found)).mono
            rintro loaded after ⟨balanced, -, stops⟩
            cases loaded with
            | true => exact setEntry_balanced balanced child image.eEntry pid
            | false => exact (stops rfl).elim

theorem spawnFromRamfs_balanced (balanced : Balanced boot driver machine) (file : Option ElfFile)
    (clean : SpawnClean True layout file machine) :
    Leads (spawnFromRamfs layout file) (fun _ => Balanced boot driver) machine := by
  unfold spawnFromRamfs
  cases file with
  | none => exact balanced
  | some image =>
      rcases clean image rfl with ⟨create, load⟩
      dsimp only
      rw [leads_bind]
      apply ((createProcess_balanced layout balanced create).and load).mono
      rintro pid created ⟨balanced, load⟩
      by_cases failed : pid < 0
      · rw [if_pos failed]
        exact balanced
      · rw [if_neg failed, leads_bind, leads_get]
        cases found : created.table.getProcessByPid pid.toNat with
        | none => exact balanced
        | some child =>
            dsimp only
            rw [leads_bind]
            apply (loadInto_balanced balanced found image (load (by omega) child found)).mono
            rintro loaded after ⟨balanced, -, -⟩
            cases loaded with
            | true => exact setEntry_balanced balanced child image.eEntry 0
            | false => exact balanced

omit layout in
theorem setHeap_balanced (balanced : Balanced boot driver machine) (heapStart heapEnd : Addr) :
    Leads (setHeap heapStart heapEnd) (fun _ after => Balanced boot driver after ∧
      after.vm = machine.vm ∧ after.table.current = machine.table.current ∧
        SameSlots machine.table after.table) machine := by
  have same : SameSlots machine.table
      (machine.table.modify machine.table.current fun process =>
        { process with heapStart := heapStart.toNat, heapEnd := heapEnd.toNat }) := by
    apply sameSlots_modify
    · exact fun _ => rfl
    · exact Iff.rfl
  exact ⟨balanced.onTable same, rfl, rfl, same⟩

omit layout in
theorem sysBrk_balanced (balanced : Balanced boot driver machine)
    (running : machine.table.currentProcess.state = .running) {newBrk : Addr}
    (clean : BrkClean newBrk machine.table.currentProcess machine.vm) :
    Leads (sysBrk newBrk) (fun _ => Balanced boot driver) machine := by
  unfold sysBrk
  rw [leads_bind, leads_get]
  dsimp only
  rw [leads_bind]
  apply (setHeap_balanced balanced _ _).mono
  rintro _ after ⟨balanced, sameVm, current, same⟩
  have taken : (after.table.processes after.table.current).state ≠ .terminated := by
    intro ended
    rw [current, same.taken] at ended
    have isRunning : (machine.table.processes machine.table.current).state = .running := running
    rw [isRunning] at ended
    cases ended
  have root : rootOf machine.table.currentProcess =
      rootOf (after.table.processes after.table.current) := by
    rw [current, same.rootOf]
    rfl
  by_cases asks : newBrk = 0 ∨ newBrk = (heapBounds machine.table.currentProcess).2
  · rw [if_pos asks]
    exact balanced
  · rw [if_neg asks]
    by_cases below : newBrk < (heapBounds machine.table.currentProcess).1
    · rw [if_pos below]
      exact balanced
    · rw [if_neg below]
      have grow := clean.grows ⟨asks, below⟩
      have shrink := clean.shrinks ⟨asks, below⟩
      rw [← sameVm, root] at grow shrink
      rw [root]
      by_cases more : pageAlignUp (heapBounds machine.table.currentProcess).2 < pageAlignUp newBrk
      · rw [if_pos more, leads_bind]
        have grows := @Balanced.onVm _ _ _ _ (fun root => brkGrow root
          ((pageAlignUp newBrk - pageAlignUp (heapBounds machine.table.currentProcess).2) >>>
            12).toNat (pageAlignUp (heapBounds machine.table.currentProcess).2))
          (fun grown => grown = false → True) balanced _ taken
          (by
            intro owners root uses held isRoot
            subst isRoot
            rw [brkGrow_eq]
            exact mapLoop_held uses (by decide) _ _ _ held (grow more))
        apply grows.mono
        rintro grown last ⟨balanced, -, -⟩
        cases grown with
        | true =>
            rw [if_pos rfl, leads_bind]
            apply (setHeap_balanced balanced _ _).mono
            exact fun _ _ outcome => outcome.1
        | false => exact balanced
      · rw [if_neg more, leads_bind]
        have shrinks := @Balanced.onVm _ _ _ _ (fun root => brkShrink root
          ((pageAlignUp (heapBounds machine.table.currentProcess).2 - pageAlignUp newBrk) >>>
            12).toNat (pageAlignUp newBrk))
          (fun _ => True) balanced _ taken
          (by
            intro owners root uses held isRoot
            subst isRoot
            exact (brkShrink_held uses _ _ held (shrink more)).mono fun _ _ held =>
              ⟨held, trivial⟩)
        apply shrinks.mono
        rintro _ last ⟨balanced, -, -⟩
        rw [leads_bind]
        apply (setHeap_balanced balanced _ _).mono
        exact fun _ _ outcome => outcome.1

theorem vmmSwitchPml4_held {owners : Owners} {root : Addr} (uses : owners.Uses root) {vm : Vm}
    (held : Held owners vm) : Leads (vmmSwitchPml4 root) (fun _ => Held owners) vm := by
  have keeps := vmmSwitchPml4_keeps (Or.inr uses.member) vm held.kept
  unfold vmmSwitchPml4 at keeps ⊢
  split at keeps
  · rename_i zero
    rw [if_pos zero]
    exact held
  · rename_i nonzero
    rw [if_neg nonzero]
    refine ⟨held.kernel, keeps, held.accounts.reserved, held.accounts.handed, ?_⟩
    exact held.accounts.owned

omit layout in
theorem schedule_balanced (balanced : Balanced boot driver machine) (currentEsp : Nat) :
    Leads (schedule currentEsp) (fun _ => Balanced boot driver) machine := by
  unfold schedule
  rw [leads_bind, leads_get, leads_bind, leads_onTable, leads_bind, leads_get]
  have same := sameSlots_schedule machine.table currentEsp
  have scheduled := balanced.onTable same
  by_cases stays : (machine.table.schedule currentEsp).2.current = machine.table.current
  · rw [if_pos stays]
    exact scheduled
  · rw [if_neg stays]
    have switches := @Balanced.onVm _ _ _ _ vmmSwitchPml4 (fun _ => True) scheduled _
      (schedule_current_taken stays)
      (by
        intro owners root uses held _
        exact (vmmSwitchPml4_held uses held).mono fun _ _ held => ⟨held, trivial⟩)
    exact switches.mono fun _ _ outcome => outcome.1

/-- A clean event. -/
theorem Event.balanced (event : Event) (balanced : Balanced boot driver machine)
    (enabled : Enabled machine event) (clean : Clean layout machine event) :
    Leads (event.run layout) (fun _ => Balanced boot driver) machine := by
  cases event with
  | execve onDisk inRamfs =>
      rcases clean with ⟨disk, ramfs⟩
      unfold Event.run sysExecve
      rw [leads_bind, leads_bind]
      apply ((spawnFromXv6fs_balanced layout balanced onDisk disk).and ramfs).mono
      rintro res after ⟨balanced, ramfs⟩
      by_cases failed : res < 0
      · rw [if_pos failed]
        exact spawnFromRamfs_balanced layout balanced inRamfs (ramfs failed)
      · rw [if_neg failed]
        exact balanced
  | brk newBrk => exact sysBrk_balanced balanced enabled clean
  | exit exitCode =>
      have running : (machine.table.processes machine.table.current).state = .running := enabled
      apply balanced.onTable
      apply sameSlots_modify
      · exact fun _ => rfl
      · rw [running]
        simp
  | wait4 =>
      have none : machine.table.zombieChild = none := clean
      apply balanced.onTable
      rw [none]
      exact ⟨fun _ => rfl, fun _ => Iff.rfl⟩
  | timer currentEsp => exact schedule_balanced balanced currentEsp

theorem Reaches.balanced {start : Machine} (balanced : Balanced boot driver start)
    (reaches : Reaches layout (Clean layout) start machine) : Balanced boot driver machine := by
  induction reaches with
  | start => exact balanced
  | step event _ enabled clean ih => exact event.balanced layout ih enabled clean

/-- The first process. -/
theorem startInit_balanced (balanced : Balanced boot driver machine) (init : ElfFile)
    (clean : SpawnClean True layout (some init) machine) :
    Leads (startInit layout init) (fun _ => Balanced boot driver) machine := by
  rcases clean init rfl with ⟨create, load⟩
  unfold startInit
  rw [leads_bind]
  apply ((createProcess_balanced layout balanced create).and load).mono
  rintro pid created ⟨balanced, load⟩
  by_cases failed : pid < 0
  · rw [if_pos failed]
    exact balanced
  · rw [if_neg failed, leads_bind, leads_get]
    cases found : created.table.getProcessByPid pid.toNat with
    | none => exact balanced
    | some child =>
        dsimp only
        rw [leads_bind]
        apply (loadInto_balanced balanced found init (load (by omega) child found)).mono
        rintro loaded after ⟨balanced, sameTable, -⟩
        cases loaded with
        | false => exact balanced
        | true =>
            have same := sameSlots_setProcessEntry after.table child init.eEntry
            have entered := balanced.onTable same
            have taken : (after.table.processes child).state ≠ .terminated := by
              rw [sameTable]
              exact getProcessByPid_taken found
            rw [if_pos rfl, leads_bind, leads_onTable, leads_bind, ← sameTable,
              ← same.rootOf child]
            have switches := @Balanced.onVm _ _ _ _ vmmSwitchPml4 (fun _ => True) entered
              child (fun ended => taken ((same.taken child).mp ended))
              (by
                intro owners root uses held _
                exact (vmmSwitchPml4_held uses held).mono fun _ _ held => ⟨held, trivial⟩)
            exact switches.mono fun _ _ outcome => outcome.1

end

/-! ## The driver -/

/-- Before the first process, what is in use are the driver's frames and the
kernel's page tables. -/
structure DriverAccounts (boot : Nat → Bool) (driver : Nat → Prop) (vm : Vm) : Prop where
  reserved : ∀ i, boot i = true → vm.bitmap i = true
  handed : ∀ snapshot ∈ vm.handouts, ∀ i, boot i = true → snapshot.bitmap i = true
  owned : ∀ i, vm.bitmap i = true →
    boot i = true ∨ driver i ∨ TableOf vm.tables vm.kernelPml4 (frameAddr i)

section

variable {boot : Nat → Bool} {driver : Nat → Prop} {vm : Vm}

/-- The kernel maps a page. -/
theorem DriverAccounts.map (accounts : DriverAccounts boot driver vm) (kernelOnly : KernelOnly vm)
    (virt phys flags : Addr) :
    Leads (vmmMapPage vm.kernelPml4 virt phys flags) (fun _ => DriverAccounts boot driver) vm := by
  rcases kernelOnly with ⟨⟨place, checked⟩, -⟩
  have placed := checked.watched.placed
  have grown : ∀ {path after place'}, Reached vm place vm.kernelPml4 path after place' →
      DriverAccounts boot driver after := by
    intro path after place' reached
    have grows := reached.grows
    constructor
    · exact fun i taken => grows.memory.bitmap (accounts.reserved i taken)
    · intro snapshot member i taken
      rcases grows.handed snapshot member with old | ⟨places, grown⟩
      · exact accounts.handed snapshot old i taken
      · exact grown.bitmap (accounts.reserved i taken)
    · intro i taken
      rw [grows.memory.kernelPml4]
      rcases reached.gains i taken with old | table
      · refine (accounts.owned i old).imp_right (Or.imp_right fun table => ?_)
        exact table.grown grows.memory placed.kernel
      · exact Or.inr (Or.inr table)
  apply (vmmMapPage_spec placed placed.kernel virt phys flags).mono
  intro _ after maps
  cases maps with
  | lacking path _ place' reached _ => exact grown reached
  | written middle place' reached =>
      have accounts := grown reached
      have placed' := reached.grows.memory.placed
      refine ⟨accounts.reserved, accounts.handed, fun i taken => ?_⟩
      refine (accounts.owned i taken).imp_right (Or.imp_right ?_)
      rintro ⟨path, short, inRange, leads, led⟩
      refine ⟨path, short, inRange, ?_⟩
      show follow (middle.write _ _ virt _).tables middle.kernelPml4 path ≠ 0 ∧
        follow (middle.write _ _ virt _).tables middle.kernelPml4 path = frameAddr i
      rw [placed'.follow_write (reached.isAt placed.kernel (by simp [tablePath])) rfl
        placed'.kernel (by simpa using short)]
      exact ⟨leads, led⟩

/-- One call of the driver. -/
theorem DriverCall.accounts (call : DriverCall) (accounts : DriverAccounts boot driver vm)
    (kernelOnly : KernelOnly vm) :
    Leads call.run
      (fun _ => DriverAccounts boot (fun i => driver i ∨ i ∈ ahciFrames [call] vm)) vm := by
  have weaker : ∀ {vm' : Vm} {frames : List Nat}, DriverAccounts boot driver vm' →
      DriverAccounts boot (fun i => driver i ∨ i ∈ frames) vm' := fun accounts =>
    ⟨accounts.reserved, accounts.handed, fun i taken =>
      (accounts.owned i taken).imp_right (Or.imp_left Or.inl)⟩
  cases call with
  | allocMappedPage =>
      unfold DriverCall.run
      rw [leads_bind]
      rcases kernelOnly with ⟨⟨place, checked⟩, wrote⟩
      apply (pmmAllocPage_spec vm).mono
      rintro addr after (⟨-, rfl, rfl⟩ | ⟨i, search, rfl, rfl⟩)
      · rw [if_pos rfl]
        exact weaker accounts
      · have mine : i ∈ ahciFrames [.allocMappedPage] vm := by
          simp [ahciFrames, search]
        have taken : DriverAccounts boot
            (fun j => driver j ∨ j ∈ ahciFrames [.allocMappedPage] vm) (vm.take i) := by
          constructor
          · exact fun j taken => Vm.take_bitmap (accounts.reserved j taken)
          · intro snapshot member j taken
            rcases List.mem_cons.mp member with rfl | old
            · exact accounts.reserved j taken
            · exact accounts.handed snapshot old j taken
          · intro j taken
            by_cases same : j = i
            · exact Or.inr (Or.inl (Or.inr (same ▸ mine)))
            · have old : vm.bitmap j = true := (assign_of_ne same).symm.trans taken
              exact (accounts.owned j old).imp_right (Or.imp_left Or.inl)
        have kernelOnly : KernelOnly (vm.take i) :=
          ⟨⟨place, checked.grows (checked.watched.placed.grows_take i)⟩, wrote⟩
        split
        · exact taken
        · rw [leads_bind, leads_get]
          exact taken.map kernelOnly _ _ _
  | mapRegisters bar5 =>
      unfold DriverCall.run
      rw [leads_bind, leads_get]
      exact (accounts.map kernelOnly _ _ _).mono fun _ _ accounts => weaker accounts

/-- All calls of the driver. -/
theorem driverVm_accounts (calls : List DriverCall) (accounts : DriverAccounts boot driver vm)
    (kernelOnly : KernelOnly vm) :
    DriverAccounts boot (fun i => driver i ∨ i ∈ ahciFrames calls vm) (driverVm calls vm) := by
  induction calls generalizing vm driver with
  | nil =>
      refine ⟨accounts.reserved, accounts.handed, fun i taken => ?_⟩
      exact (accounts.owned i taken).imp_right (Or.imp_left Or.inl)
  | cons call rest ih =>
      have step := call.accounts accounts kernelOnly
      have rests := @ih _ (call.run.run vm).2 step (call.kernelOnly kernelOnly)
      refine ⟨rests.reserved, rests.handed, fun i taken => ?_⟩
      refine (rests.owned i taken).imp_right (Or.imp_left ?_)
      rintro ((old | first) | later)
      · exact Or.inl old
      · refine Or.inr (List.mem_append_left _ ?_)
        simpa [ahciFrames] using first
      · exact Or.inr (List.mem_append_right _ later)

end

/-! ## Every run -/

/-- Every frame in use when the first process is created. -/
theorem preparedMachine_balanced (image : KernelImage) (regions : List (Nat × Nat))
    (junk : Addr → Nat → Addr) (calls : List DriverCall) (stack : Nat → Word) :
    Balanced (bootVm image regions junk).bitmap
      (fun i => i ∈ ahciFrames calls (bootVm image regions junk))
      (preparedMachine image regions junk calls stack) := by
  have started := bootVm_started image regions junk
  have kernelOnly := started.kernelOnly
  have zero : (bootVm image regions junk).bitmap 0 = true := started.placed.reserved
  unfold preparedMachine
  generalize bootVm image regions junk = vm at started kernelOnly zero
  have accounts : DriverAccounts vm.bitmap (fun _ => False) vm := by
    refine ⟨fun _ taken => taken, ?_, fun _ taken => Or.inl taken⟩
    rw [started.handouts]
    exact fun _ member => absurd member List.not_mem_nil
  have driven := driverVm_accounts calls accounts kernelOnly
  refine ⟨{ boot := vm.bitmap, driver := fun i => i ∈ ahciFrames calls vm,
            kernel := (driverVm calls vm).kernelPml4
            live := fun root => root = (driverVm calls vm).kernelPml4
            procs := [], zero, members := fun root same => same ▸ List.mem_cons_self },
    rfl, rfl, ⟨rfl, (driverVm_kernelOnly kernelOnly calls).1, ?_⟩, ?_, ?_⟩
  · refine ⟨driven.reserved, driven.handed, fun i _ taken => ?_⟩
    rcases driven.owned i taken with first | (impossible | mine) | table
    · exact Or.inl first
    · exact impossible.elim
    · exact Or.inr (Or.inl mine)
    · exact Or.inr (Or.inr ⟨_, rfl, Or.inl table⟩)
  · exact fun root same => Or.inl same
  · exact fun slot taken => absurd rfl taken

/-- In a run of clean steps whose pointers are all mapped onto themselves, every frame that was
handed out and is not free is a page table of, or a page mapped by, the kernel or a process that
was not reaped, or belongs to the AHCI structures. -/
theorem frame_owned {layout : StackLayout} {image : KernelImage} {regions : List (Nat × Nat)}
    {junk : Addr → Nat → Addr} {calls : List DriverCall} {stack : Nat → Word} {init : ElfFile}
    {used : List Use} {start machine : Machine}
    (boots : (Paged.boot layout calls init).run (Paged.bootMachine image regions junk stack) =
      some (true, start, used))
    (direct : ∀ use ∈ used, use.Direct)
    (clean : SpawnClean True layout (some init) (preparedMachine image regions junk calls stack))
    (reaches : Paged.Reaches layout
      (fun machine event used => Clean layout machine event ∧ ∀ use ∈ used, use.Direct)
      start machine) {i : Nat}
    (handed : HandedOut machine.vm i) (taken : machine.vm.bitmap i = true) :
    (∃ root, machine.Live root ∧ OwnedBy machine.vm.toMemory root i) ∨
      i ∈ ahciFrames calls (bootVm image regions junk) := by
  have boots := Paged.boot_run boots direct
  have reaches : Reaches layout (Clean layout) start machine := reaches.reaches fun met => met
  have prepared := preparedMachine_balanced image regions junk calls stack
  have started := startInit_balanced layout prepared init clean
  unfold Leads at started
  rw [boots] at started
  rcases reaches.balanced layout started with ⟨owners, isBoot, isDriver, balances⟩
  rcases handed with ⟨snapshot, member, search⟩
  rcases nextFrame_bound search with ⟨bound, clear⟩
  rcases balances.held.accounts.owned i bound taken with reserved | mine | ⟨root, isLive, owned⟩
  · rw [balances.held.accounts.handed snapshot member i reserved] at clear
    cases clear
  · rw [isDriver] at mine
    exact Or.inr mine
  · exact Or.inl ⟨root, balances.live root isLive, owned⟩

/-! ## A process that is reaped -/

/-- The first process spawns another, which exits and is reaped. -/
def reapEvents : List Event :=
  [.timer 0, .execve (some pageFile) none, .timer 0, .exit 0, .timer 0, .wait4]

def reapMachine : Machine := runEvents textLayout reapEvents pageBoot.2

/-- The child's root is frame 309; only the first process is left, and no page is
mapped onto that frame. -/
theorem reapMachine_facts :
    pageBoot.1 = true ∧ AllEnabled textLayout reapEvents pageBoot.2 ∧
      reapMachine.vm.handouts.any (fun snapshot => nextFrame snapshot.bitmap = some 309) = true ∧
      reapMachine.vm.bitmap 309 = true ∧
      rootOf (reapMachine.table.processes 1) = frameAddr 309 ∧
      reapMachine.vm.kernelPml4 = frameAddr 256 ∧
      (∀ slot, (reapMachine.table.processes slot).state ≠ .terminated →
        rootOf (reapMachine.table.processes slot) = frameAddr 301) ∧
      ∀ entry ∈ reapMachine.vm.written, entry.table ≠ 0 ∧
        reapMachine.vm.tables entry.table entry.idx &&& PAGE_MASK ≠ frameAddr 309 := by
  decide +kernel

/-- Neither the boot nor the run follows a pointer that is not mapped onto itself. -/
theorem reapMachine_direct :
    ((Paged.boot textLayout [] pageFile).run (Paged.bootMachine smallImage
        [(300 * PAGE_SIZE, 301 * PAGE_SIZE)] (fun _ _ => 0) fun _ => 0)).any
          (fun done => done.2.2.all fun use => use.Direct) = true ∧
      Paged.allUses textLayout Use.Direct reapEvents pageBoot.2 = true := by
  decide +kernel

theorem pageBoot_direct :
    ∃ used, (Paged.boot textLayout [] pageFile).run (Paged.bootMachine smallImage
      [(300 * PAGE_SIZE, 301 * PAGE_SIZE)] (fun _ _ => 0) fun _ => 0) =
        some (true, pageBoot.2, used) ∧ ∀ use ∈ used, use.Direct :=
  Paged.exists_boot reapMachine_facts.1 reapMachine_direct.1 fun direct => direct

/-- The root of the child is in use, and nothing owns it. -/
theorem frame_not_owned :
    ¬ ∀ (layout : StackLayout) (image : KernelImage) (regions : List (Nat × Nat))
      (junk : Addr → Nat → Addr) (calls : List DriverCall) (stack : Nat → Word) (init : ElfFile)
      (used : List Use) (start machine : Machine),
        (Paged.boot layout calls init).run (Paged.bootMachine image regions junk stack) =
          some (true, start, used) →
        Paged.Reaches layout (fun _ _ _ => True) start machine →
          ∀ i, HandedOut machine.vm i → machine.vm.bitmap i = true →
            (∃ root, machine.Live root ∧ OwnedBy machine.vm.toMemory root i) ∨
              i ∈ ahciFrames calls (bootVm image regions junk) := by
  intro owned
  rcases reapMachine_facts with ⟨-, enabled, handed, taken, child, kernel, others, pages⟩
  obtain ⟨used, boots, direct⟩ := pageBoot_direct
  have stays : Paged.Reaches textLayout (fun _ _ used => True ∧ ∀ use ∈ used, use.Direct)
      pageBoot.2 reapMachine :=
    Paged.reaches_runEvents .start enabled (fun _ _ => trivial) reapMachine_direct.2
      fun direct => direct
  have reaches : Reaches textLayout (fun _ _ => True) pageBoot.2 reapMachine :=
    stays.reaches fun met => met
  have out : HandedOut reapMachine.vm 309 := by
    rcases List.any_eq_true.mp handed with ⟨snapshot, member, search⟩
    exact ⟨snapshot, member, of_decide_eq_true search⟩
  have booted : Booted textLayout pageBoot.2 := ⟨_, _, _, _, _, _, Paged.boot_run boots direct⟩
  rcases reaches.safe booted.safe with ⟨procs, ⟨place, checked⟩, inside⟩
  have watched := checked.watched
  have placed := watched.placed
  have nonzero : frameAddr 309 ≠ 0 := by decide
  have isRoot : ∀ slot, rootOf (reapMachine.table.processes slot) ≠ 0 →
      place (rootOf (reapMachine.table.processes slot)) = some [] := fun slot used =>
    watched.areRoots _ (List.mem_cons_of_mem _ ((inside slot).resolve_left used))
  have atChild : place (frameAddr 309) = some [] := by
    have := isRoot 1
    rw [child] at this
    exact this nonzero
  rcases owned _ _ _ _ _ _ _ _ _ _ boots (stays.mono fun _ => trivial) 309 out taken with
    ⟨root, isLive, tables | ⟨virt, ⟨entry, member, -, atTable, atIdx⟩, led⟩⟩ | ahci
  · have atRoot : place root = some [] ∧ root ≠ frameAddr 309 := by
      rcases isLive with same | ⟨slot, live, same⟩
      · have atKernel := placed.kernel
        rw [kernel] at same atKernel
        rw [same]
        exact ⟨atKernel, by decide⟩
      · have first := others slot live
        have atFirst := isRoot slot
        rw [first] at same atFirst
        rw [← same]
        exact ⟨atFirst (by decide), by decide⟩
    rcases tables with ⟨path, short, -, leads, led⟩
    have isAt := placed.follow_place atRoot.1 (by simpa using short) leads
    rw [led, atChild, List.nil_append] at isAt
    rw [← Option.some.inj isAt] at led
    exact atRoot.2 led
  · rcases pages entry member with ⟨used, elsewhere⟩
    rw [atTable] at used
    have notNull : root ≠ 0 := by
      rcases isLive with same | ⟨slot, live, same⟩
      · rw [same, kernel]
        decide
      · rw [← same, others slot live]
        decide
    rw [vmmVirtToPhys_of_table notNull used, ← atTable, ← atIdx, leafOf_and_mask] at led
    split at led
    · exact nonzero led.symm
    · exact elsewhere led
  · exact absurd ahci List.not_mem_nil

/-! ## A heap that grows -/

theorem missing_le_length (tables : Addr → Nat → Addr) (root : Addr) (path : List Nat) :
    missing tables root path ≤ path.length := by
  induction path generalizing root with
  | nil => exact Nat.le_refl 0
  | cons i rest ih =>
      rw [missing]
      split
      · exact Nat.le_refl _
      · exact (ih _).trans (Nat.le_succ _)

/-- A loop over one free page, with frames for the page and its tables. -/
theorem loopClean_one {vm : Vm} {root page : Addr} (free : PageFree vm.toMemory root page)
    {frames : List Nat} (distinct : frames.Nodup) (many : 4 ≤ frames.length)
    (clear : ∀ i ∈ frames, i < MAX_PAGES ∧ vm.bitmap i = false) (flags : Addr)
    (check : Addr → Bool) : LoopClean True root flags check 1 page vm := by
  have room := le_freeFrames distinct clear
  have tables := missing_le_length vm.tables root (tablePath page)
  have levels : (tablePath page).length = 3 := rfl
  refine ⟨fun _ => trivial, fun _ => ⟨free, ?_, fun _ => trivial, fun _ => trivial⟩⟩
  unfold RoomFor
  omega

/-- The machine after the first process was created, and what it answered. -/
def pageCreated : Int × Machine := (createProcess textLayout).run pagePrepared

/-- The machine when the first process runs. -/
def pageMachine : Machine := (Event.timer 0).after textLayout pageBoot.2

theorem pageCreated_facts :
    (∀ i ∈ List.range' 301 6, i < MAX_PAGES ∧ pagePrepared.vm.bitmap i = false) ∧
      pageCreated.2.vm.written = [] ∧
      (∀ i ∈ List.range' 307 4, i < MAX_PAGES ∧ pageCreated.2.vm.bitmap i = false) ∧
      pageFile.ePhnum = 1 ∧ (pageFile.phdr 0).pType = 1 ∧
      (((pageFile.phdr 0).pageEnd - (pageFile.phdr 0).pageStart) >>> 12).toNat = 1 := by
  decide +kernel

theorem pageMachine_facts :
    pageBoot.1 = true ∧ pageMachine.table.currentProcess.state = .running ∧
      heapBounds pageMachine.table.currentProcess = (HEAP_START, HEAP_START) ∧
      vmmVirtToPhys pageMachine.vm.toMemory (rootOf pageMachine.table.currentProcess) HEAP_START =
        0 ∧
      (∀ i ∈ List.range' 309 4, i < MAX_PAGES ∧ pageMachine.vm.bitmap i = false) ∧
      ((Event.brk (HEAP_START + 1)).after textLayout pageMachine).vm.handouts.any
        (fun snapshot => nextFrame snapshot.bitmap = some 309) = true ∧
      ((Event.brk (HEAP_START + 1)).after textLayout pageMachine).vm.bitmap 309 = true := by
  decide +kernel

theorem pageMachine_direct :
    Paged.allUses textLayout Use.Direct [.timer 0] pageBoot.2 = true ∧
      Paged.allUses textLayout Use.Direct [.brk (HEAP_START + 1)] pageMachine = true := by
  decide +kernel

theorem pagePrepared_clean : SpawnClean True textLayout (some pageFile) pagePrepared := by
  rcases pageCreated_facts with ⟨free, none, clear, one, loads, count⟩
  intro image isImage
  obtain rfl := Option.some.inj isImage
  constructor
  · exact fun _ => Or.inr (le_freeFrames (by decide) free)
  · have outcome : Leads (createProcess textLayout) (fun _ created => created = pageCreated.2)
        pagePrepared := Eq.refl pageCreated.2
    apply outcome.mono
    intro pid created same _ child _
    rw [same]
    refine ⟨fun _ => trivial, fun _ => ⟨?_, fun _ => trivial⟩⟩
    rw [one, List.range_one, List.map_singleton, SegmentsClean, if_pos loads]
    refine ⟨⟨fun _ => trivial, fun _ _ => ⟨fun _ => trivial, fun _ => ?_⟩⟩, fun _ => trivial⟩
    rw [count]
    apply loopClean_one _ (by decide) (by decide) clear
    rintro ⟨entry, member, -⟩
    rw [none] at member
    cases member

theorem frame_owned_of_heap :
    (∃ root, ((Event.brk (HEAP_START + 1)).after textLayout pageMachine).Live root ∧
      OwnedBy ((Event.brk (HEAP_START + 1)).after textLayout pageMachine).vm.toMemory root 309) ∨
      309 ∈ ahciFrames [] (bootVm smallImage [(300 * PAGE_SIZE, 301 * PAGE_SIZE)] fun _ _ => 0) := by
  rcases pageMachine_facts with ⟨-, running, heap, unmapped, clear, handed, taken⟩
  have grows : BrkClean (HEAP_START + 1) pageMachine.table.currentProcess pageMachine.vm := by
    constructor
    · rw [heap]
      intro _ _
      apply loopClean_one _ (by decide) (by decide) clear
      exact fun _ => unmapped
    · rw [heap]
      exact fun _ same => absurd (by decide) same
  obtain ⟨used, boots, direct⟩ := pageBoot_direct
  have boot : Paged.Reaches textLayout (fun machine event used => Clean textLayout machine event ∧
      ∀ use ∈ used, use.Direct) pageBoot.2 pageBoot.2 := .start
  obtain ⟨ticked, ends, met⟩ := Paged.exists_runEvent pageMachine_direct.1 fun direct => direct
  have first := boot.step (.timer 0) trivial ends ⟨trivial, met⟩
  obtain ⟨grown, ends, met⟩ := Paged.exists_runEvent pageMachine_direct.2 fun direct => direct
  have reaches := first.step (.brk (HEAP_START + 1)) running ends ⟨grows, met⟩
  have out : HandedOut ((Event.brk (HEAP_START + 1)).after textLayout pageMachine).vm 309 := by
    rcases List.any_eq_true.mp handed with ⟨snapshot, member, search⟩
    exact ⟨snapshot, member, of_decide_eq_true search⟩
  exact frame_owned boots direct pagePrepared_clean reaches out taken

end Notux.Vmm
