import Notux.Vmm.Pointers
import Notux.Vmm.Isolation
import Notux.Proc.Scheduler

/-!
# Runs of the machine

The kernel boots, starts the first process on the module it finds, and from then
on serves the calls of the running process and the timer.  Every run keeps the
invariant of the page tables.
-/

namespace Notux.Vmm

open Notux.Store Notux.Proc

/-! ## Runs -/

/-- Only a running process makes calls. -/
def Enabled (machine : Machine) : Event → Prop
  | .timer _ => True
  | _ => machine.table.currentProcess.state = .running

/-- The states reached by runs in which every event meets a condition. -/
inductive Reaches (layout : StackLayout) (meets : Machine → Event → Prop) (start : Machine) :
    Machine → Prop where
  | start : Reaches layout meets start start
  | step {machine : Machine} (event : Event) (reached : Reaches layout meets start machine)
      (enabled : Enabled machine event) (condition : meets machine event) :
      Reaches layout meets start (event.after layout machine)

/-- The machine when `kernel()` starts the first process. -/
def preparedMachine (image : KernelImage) (regions : List (Nat × Nat)) (junk : Addr → Nat → Addr)
    (calls : List DriverCall) (stack : Nat → Word) : Machine where
  vm := driverVm calls (bootVm image regions junk)
  table := .schedulerInit stack

/-- The machine when `kernel()` lets the first process go. -/
structure Booted (layout : StackLayout) (machine : Machine) : Prop where
  boots : ∃ image regions junk calls stack init,
    (startInit layout init).run (preparedMachine image regions junk calls stack) = (true, machine)

/-! ## The page tables of the processes -/

/-- The same processes have the same page tables. -/
def SameRoots (before after : ProcTable) : Prop :=
  ∀ slot, (after.processes slot).pml4 = (before.processes slot).pml4

theorem sameRoots_modify (table : ProcTable) (idx : ProcIdx) (change : Process → Process)
    (keeps : ∀ process, (change process).pml4 = process.pml4) :
    SameRoots table (table.modify idx change) := by
  intro slot
  by_cases same : slot = idx
  · rw [same, ProcTable.modify_same, keeps]
  · rw [ProcTable.modify_of_ne _ same]

theorem SameRoots.trans {before middle after : ProcTable} (first : SameRoots before middle)
    (second : SameRoots middle after) : SameRoots before after := fun slot =>
  (second slot).trans (first slot)

theorem sameRoots_saveCurrent (table : ProcTable) (currentEsp : Nat) :
    SameRoots table (table.saveCurrent currentEsp) := by
  unfold ProcTable.saveCurrent
  split
  · apply sameRoots_modify
    exact fun _ => rfl
  · exact fun _ => rfl

theorem sameRoots_suspend (table : ProcTable) (currentEsp : Nat) :
    SameRoots table (table.suspend currentEsp) := by
  unfold ProcTable.suspend
  split
  · apply sameRoots_modify
    exact fun _ => rfl
  · exact fun _ => rfl

theorem sameRoots_schedule (table : ProcTable) (currentEsp : Nat) :
    SameRoots table (table.schedule currentEsp).2 := by
  rcases table.schedule_cases currentEsp with ⟨next, -, -, same⟩ | ⟨-, -, same⟩ | ⟨-, same⟩
  · rw [same]
    apply (sameRoots_suspend table currentEsp).trans
    exact sameRoots_modify _ next (fun process => { process with state := .running }) fun _ => rfl
  · rw [same]
    apply (sameRoots_saveCurrent table currentEsp).trans
    exact sameRoots_modify _ _ (fun process => { process with state := .running }) fun _ => rfl
  · rw [same]
    exact fun _ => rfl

theorem sameRoots_wait4 (table : ProcTable) : SameRoots table table.wait4.2 := by
  rcases table.wait4_cases with same | ⟨found, same⟩
  · rw [same]
    exact fun _ => rfl
  · rw [same]
    apply sameRoots_modify
    exact fun _ => rfl

theorem sameRoots_setProcessEntry (table : ProcTable) (idx : ProcIdx) (entryPoint : Nat) :
    SameRoots table (table.setProcessEntry idx entryPoint) := by
  unfold ProcTable.setProcessEntry
  dsimp only
  split
  · exact fun _ => rfl
  · exact fun _ => rfl

/-- A new process gets the page tables made for it. -/
theorem createProcess_pml4 (layout : StackLayout) (table : ProcTable) (entryPoint pml4 : Nat)
    (slot : ProcIdx) :
    ((table.createProcess layout entryPoint pml4).2.processes slot).pml4 =
        (table.processes slot).pml4 ∨
      pml4 ≠ 0 ∧ ((table.createProcess layout entryPoint pml4).2.processes slot).pml4 = pml4 := by
  unfold ProcTable.createProcess
  cases ProcTable.firstSlot fun i => (table.processes i).state = .terminated with
  | none => exact Or.inl rfl
  | some idx =>
      dsimp only
      by_cases null : pml4 = 0
      · rw [if_pos null]
        exact Or.inl rfl
      · rw [if_neg null]
        by_cases same : slot = idx
        · subst same
          refine Or.inr ⟨null, ?_⟩
          simp
        · left
          simp [same]

/-! ## The machine -/

theorem leads_onVm {α : Type} {program : VmM α} {Q : α → Machine → Prop} {machine : Machine} :
    Leads (onVm program) Q machine ↔
      Leads program (fun value vm => Q value { machine with vm }) machine.vm :=
  Iff.rfl

theorem leads_onTable {α : Type} {step : ProcTable → α × ProcTable} {Q : α → Machine → Prop}
    {machine : Machine} :
    Leads (onTable step) Q machine ↔
      Q (step machine.table).1 { machine with table := (step machine.table).2 } :=
  Iff.rfl

/-- The invariant of the page tables, for a list that holds the tables of all
processes. -/
def Safe (machine : Machine) : Prop :=
  ∃ procs, Kept procs machine.vm ∧
    ∀ slot, rootOf (machine.table.processes slot) = 0 ∨
      rootOf (machine.table.processes slot) ∈ procs

/-- Code keeps the invariant. -/
def KeepsSafe {α : Type} (program : MachineM α) : Prop :=
  ∀ machine, Safe machine → Leads program (fun _ => Safe) machine

namespace KeepsSafe

variable {α β : Type}

theorem pure (value : α) : KeepsSafe (Pure.pure value : MachineM α) := fun _ safe => safe

theorem bind {program : MachineM α} {next : α → MachineM β} (first : KeepsSafe program)
    (second : ∀ value, KeepsSafe (next value)) : KeepsSafe (program >>= next) := by
  intro machine safe
  rw [leads_bind]
  exact (first machine safe).mono fun value after safe => second value after safe

theorem get_bind {next : Machine → MachineM β}
    (second : ∀ machine, Safe machine → Leads (next machine) (fun _ => Safe) machine) :
    KeepsSafe (get >>= next) := fun machine safe => second machine safe

theorem onTable {step : ProcTable → α × ProcTable}
    (same : ∀ table, SameRoots table (step table).2) : KeepsSafe (onTable step) := by
  rintro machine ⟨procs, kept, inside⟩
  rw [leads_onTable]
  refine ⟨procs, kept, fun slot => ?_⟩
  have unchanged := same machine.table slot
  have old := inside slot
  unfold rootOf at old ⊢
  rwa [unchanged]

end KeepsSafe

/-- Code on the tables of a process keeps the invariant. -/
theorem Safe.onVm {α : Type} {program : Addr → VmM α} {machine : Machine} (safe : Safe machine)
    (keeps : ∀ {procs : List Addr} {root : Addr}, root = 0 ∨ root ∈ procs →
      Keeps procs (program root)) (slot : ProcIdx) :
    Leads (onVm (program (rootOf (machine.table.processes slot)))) (fun _ => Safe) machine := by
  rcases safe with ⟨procs, kept, inside⟩
  rw [leads_onVm]
  exact (keeps (inside slot) machine.vm kept).mono fun _ vm kept => ⟨procs, kept, inside⟩

theorem createProcess_safe (layout : StackLayout) : KeepsSafe (createProcess layout) := by
  unfold createProcess
  apply KeepsSafe.get_bind
  intro machine safe
  split
  · exact safe
  · rcases safe with ⟨procs, kept, inside⟩
    rw [leads_bind, leads_onVm]
    apply (createUserPml4_kept kept).mono
    intro root vm outcome
    rw [leads_onTable]
    rcases outcome with ⟨rfl, kept⟩ | kept
    · refine ⟨procs, kept, fun slot => ?_⟩
      rcases createProcess_pml4 layout machine.table 0 (0 : Addr).toNat slot with same | ⟨null, -⟩
      · have old := inside slot
        unfold rootOf at old ⊢
        rwa [same]
      · exact absurd rfl null
    · refine ⟨root :: procs, kept, fun slot => ?_⟩
      rcases createProcess_pml4 layout machine.table 0 root.toNat slot with same | ⟨-, new⟩
      · have old := inside slot
        unfold rootOf at old ⊢
        rw [same]
        exact old.imp_right (List.mem_cons_of_mem root)
      · right
        unfold rootOf
        rw [new, BitVec.ofNat_toNat, BitVec.setWidth_eq]
        exact List.mem_cons_self

theorem loadInto_safe {machine : Machine} (safe : Safe machine) (file : ElfFile)
    (child : ProcIdx) :
    Leads (onVm (loadElfIntoProcess (rootOf (machine.table.processes child)) file))
      (fun _ => Safe) machine :=
  @Safe.onVm _ (fun root => loadElfIntoProcess root file) _ safe
    (fun member => loadElfIntoProcess_keeps member file) child

/-- A change of the table that keeps the page tables, as the last step. -/
theorem onTable_pure_safe {α : Type} {change : ProcTable → ProcTable}
    (same : ∀ table, SameRoots table (change table)) (value : α) :
    KeepsSafe (do
      onTable fun table => ((), change table)
      return value) := by
  apply KeepsSafe.bind
  · exact KeepsSafe.onTable same
  · exact fun _ => KeepsSafe.pure value

theorem spawnFromXv6fs_safe (layout : StackLayout) (file : Option ElfFile) :
    KeepsSafe (spawnFromXv6fs layout file) := by
  unfold spawnFromXv6fs
  cases file with
  | none => exact KeepsSafe.pure (-1)
  | some file =>
      apply (createProcess_safe layout).bind
      intro pid
      split
      · exact KeepsSafe.pure (-1)
      · apply KeepsSafe.get_bind
        intro machine safe
        split
        · exact safe
        · rename_i child _
          rw [leads_bind]
          apply (loadInto_safe safe file child).mono
          intro loaded after safe
          split
          · apply onTable_pure_safe _ pid after safe
            exact fun table => sameRoots_setProcessEntry table child _
          · apply onTable_pure_safe _ (-1) after safe
            intro table
            exact sameRoots_modify table child (fun process =>
              { process with state := .terminated }) fun _ => rfl

theorem spawnFromRamfs_safe (layout : StackLayout) (file : Option ElfFile) :
    KeepsSafe (spawnFromRamfs layout file) := by
  unfold spawnFromRamfs
  cases file with
  | none => exact KeepsSafe.pure (-1)
  | some file =>
      apply (createProcess_safe layout).bind
      intro pid
      split
      · exact KeepsSafe.pure (-1)
      · apply KeepsSafe.get_bind
        intro machine safe
        split
        · exact safe
        · rename_i child _
          rw [leads_bind]
          apply (loadInto_safe safe file child).mono
          intro loaded after safe
          split
          · apply onTable_pure_safe _ 0 after safe
            exact fun table => sameRoots_setProcessEntry table child _
          · exact safe

theorem setHeap_safe (heapStart heapEnd : Addr) : KeepsSafe (setHeap heapStart heapEnd) := by
  apply KeepsSafe.onTable
  intro table
  exact sameRoots_modify table table.current (fun process =>
    { process with heapStart := heapStart.toNat, heapEnd := heapEnd.toNat }) fun _ => rfl

theorem setHeap_table (heapStart heapEnd : Addr) (machine : Machine) (slot : ProcIdx) :
    Leads (setHeap heapStart heapEnd)
      (fun _ after => rootOf (after.table.processes slot) = rootOf (machine.table.processes slot))
      machine := by
  unfold setHeap
  rw [leads_onTable]
  have same : SameRoots machine.table (machine.table.modify machine.table.current fun process =>
      { process with heapStart := heapStart.toNat, heapEnd := heapEnd.toNat }) := by
    apply sameRoots_modify
    exact fun _ => rfl
  unfold rootOf
  rw [same slot]

theorem sysBrk_safe (newBrk : Addr) : KeepsSafe (sysBrk newBrk) := by
  unfold sysBrk
  apply KeepsSafe.get_bind
  intro machine safe
  dsimp only
  rw [leads_bind]
  apply ((setHeap_safe _ _ machine safe).and
    (setHeap_table _ _ machine machine.table.current)).mono
  rintro _ after ⟨safe, root⟩
  have isRoot : rootOf machine.table.currentProcess =
      rootOf (after.table.processes machine.table.current) := root.symm
  split
  · exact safe
  · split
    · exact safe
    · rw [isRoot]
      split
      · rw [leads_bind]
        apply (safe.onVm (fun member => brkGrow_keeps member _ _) machine.table.current).mono
        intro grown after safe
        split
        · apply (setHeap_safe _ _).bind (fun _ => KeepsSafe.pure _) after safe
        · exact safe
      · rw [leads_bind]
        apply (safe.onVm (fun member => brkShrink_keeps member _ _) machine.table.current).mono
        intro _ after safe
        exact (setHeap_safe _ _).bind (fun _ => KeepsSafe.pure _) after safe

theorem schedule_safe (currentEsp : Nat) : KeepsSafe (schedule currentEsp) := by
  unfold schedule
  apply KeepsSafe.get_bind
  intro before safe
  rw [leads_bind]
  apply (KeepsSafe.onTable (fun table => sameRoots_schedule table currentEsp) before safe).mono
  intro _ after safe
  rw [leads_bind, leads_get]
  split
  · exact safe
  · exact safe.onVm vmmSwitchPml4_keeps after.table.current

theorem Event.safe (layout : StackLayout) (event : Event) : KeepsSafe (event.run layout) := by
  cases event with
  | execve onDisk inRamfs =>
      apply KeepsSafe.bind
      · apply (spawnFromXv6fs_safe layout onDisk).bind
        intro res
        split
        · exact spawnFromRamfs_safe layout inRamfs
        · exact KeepsSafe.pure res
      · exact fun _ => KeepsSafe.pure ()
  | brk newBrk => exact (sysBrk_safe newBrk).bind fun _ => KeepsSafe.pure ()
  | exit exitCode =>
      apply KeepsSafe.onTable
      intro table
      exact sameRoots_modify table table.current (fun process =>
        { process with exitCode, state := .zombie }) fun _ => rfl
  | wait4 =>
      apply KeepsSafe.bind
      · exact KeepsSafe.onTable sameRoots_wait4
      · exact fun _ => KeepsSafe.pure ()
  | timer currentEsp => exact schedule_safe currentEsp

/-! ## Every run -/

/-- The first process. -/
theorem startInit_safe (layout : StackLayout) (file : ElfFile) :
    KeepsSafe (startInit layout file) := by
  apply (createProcess_safe layout).bind
  intro pid
  split
  · exact KeepsSafe.pure false
  · apply KeepsSafe.get_bind
    intro machine safe
    split
    · exact safe
    · rename_i child _
      rw [leads_bind, leads_onVm]
      rcases safe with ⟨procs, kept, inside⟩
      apply (loadElfIntoProcess_keeps (inside child) file machine.vm kept).mono
      intro loaded vm kept
      cases loaded with
      | false => exact ⟨procs, kept, inside⟩
      | true =>
          rw [if_pos rfl, leads_bind, leads_onTable, leads_bind, leads_onVm]
          apply (vmmSwitchPml4_keeps (inside child) vm kept).mono
          intro _ after kept
          refine ⟨procs, kept, fun slot => ?_⟩
          show rootOf ((machine.table.setProcessEntry child file.eEntry).processes slot) = 0 ∨
            rootOf ((machine.table.setProcessEntry child file.eEntry).processes slot) ∈ procs
          have old := inside slot
          unfold rootOf at old ⊢
          rwa [sameRoots_setProcessEntry machine.table child file.eEntry slot]

theorem preparedMachine_safe (image : KernelImage) (regions : List (Nat × Nat))
    (junk : Addr → Nat → Addr) (calls : List DriverCall) (stack : Nat → Word) :
    Safe (preparedMachine image regions junk calls stack) := by
  have started := (bootVm_started image regions junk).kernelOnly
  have kept := (driverVm_kernelOnly started calls).1
  exact ⟨[], kept, fun _ => Or.inl rfl⟩

theorem Booted.safe {layout : StackLayout} {machine : Machine} (booted : Booted layout machine) :
    Safe machine := by
  rcases booted.boots with ⟨image, regions, junk, calls, stack, init, boots⟩
  have leads := startInit_safe layout init _ (preparedMachine_safe image regions junk calls stack)
  unfold Leads at leads
  rwa [boots] at leads

theorem Reaches.safe {layout : StackLayout} {meets : Machine → Event → Prop}
    {start machine : Machine} (safe : Safe start) (reaches : Reaches layout meets start machine) :
    Safe machine := by
  induction reaches with
  | start => exact safe
  | step event _ _ _ ih => exact event.safe layout _ ih

/-! ## A frame below a page of text -/

/-- Where the images of processes are linked. -/
abbrev USER_BASE : Addr := 0x400000

/-- All segments lie at or above a base. -/
def ElfFile.LinkedAt (base : Addr) (file : ElfFile) : Prop :=
  ∀ i < file.ePhnum, (file.phdr i).pType = 1 → base ≤ (file.phdr i).pVaddr

/-- The images an event loads are linked at a base. -/
def Event.LinkedAt (base : Addr) : Event → Prop
  | .execve onDisk inRamfs =>
      (∀ file ∈ onDisk, file.LinkedAt base) ∧ ∀ file ∈ inRamfs, file.LinkedAt base
  | _ => True

/-- A number as little-endian bytes. -/
def littleEndian (count number : Nat) : List (BitVec 8) :=
  (List.range count).map fun i => BitVec.ofNat 8 (number / 256 ^ i)

/-- A file with one page of text at `USER_BASE`, in a module of 716 frames. -/
def textFile : ElfFile where
  bytes i := (littleEndian 4 0x464C457F ++ littleEndian 12 0x102 ++ littleEndian 2 2 ++
    littleEndian 2 62 ++ littleEndian 4 1 ++ littleEndian 8 0x400000 ++ littleEndian 8 64 ++
    littleEndian 8 0 ++ littleEndian 4 0 ++ littleEndian 2 64 ++ littleEndian 2 56 ++
    littleEndian 2 1 ++ littleEndian 6 0 ++ littleEndian 4 1 ++ littleEndian 4 5 ++
    littleEndian 8 0 ++ littleEndian 8 0x400000 ++ littleEndian 8 0x400000 ++ littleEndian 8 120 ++
    littleEndian 8 0x1000 ++ littleEndian 8 0x1000).getD i 0
  size := 716 * PAGE_SIZE
  size_lt := by decide

theorem textFile_linkedAt : textFile.LinkedAt USER_BASE := by
  have one : textFile.ePhnum = 1 := by decide +kernel
  intro i bound _
  rw [one] at bound
  obtain rfl := Nat.lt_one_iff.mp bound
  decide +kernel

def textLayout : StackLayout := ⟨0x110000, 0x120000⟩

/-- The module lies behind the kernel image and ends eight frames below
`USER_BASE`. -/
def textBoot : Bool × Machine :=
  (startInit textLayout textFile).run (preparedMachine smallImage
    [(300 * PAGE_SIZE, 1016 * PAGE_SIZE)] (fun _ _ => 0) [] fun _ => 0)

/-- The boot succeeds, and the process runs. -/
theorem textBoot_facts :
    textBoot.1 = true ∧
      ((Event.timer 0).after textLayout textBoot.2).table.currentProcess.state = .running := by
  decide +kernel

/-- `textFile` in a module of one frame. -/
def pageFile : ElfFile where
  bytes := textFile.bytes
  size := PAGE_SIZE
  size_lt := by decide

/-- The machine when the first process is created from `pageFile`. -/
def pagePrepared : Machine :=
  preparedMachine smallImage [(300 * PAGE_SIZE, 301 * PAGE_SIZE)] (fun _ _ => 0) [] fun _ => 0

def pageBoot : Bool × Machine := (startInit textLayout pageFile).run pagePrepared

theorem pageBoot_succeeds : pageBoot.1 = true := by
  decide +kernel

theorem pageBoot_booted : Booted textLayout pageBoot.2 := by
  have pair : ∀ {result : Bool × Machine}, result.1 = true → result = (true, result.2) :=
    fun succeeds => Prod.ext succeeds rfl
  exact ⟨_, _, _, _, _, _, pair pageBoot_succeeds⟩

end Notux.Vmm
