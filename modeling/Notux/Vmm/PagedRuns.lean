import Notux.Vmm.Paged
import Notux.Vmm.Runs

/-!
# Runs under the loaded page tables

The boot and the runs of `Runs` with every pointer followed by the processor.  A run goes on
as long as no call meets a page fault, and a condition may look at the pointers that each
call has followed.
-/

namespace Notux.Vmm

open Notux.Store Notux.Proc

namespace Paged

/-! ## The boot -/

/-- `alloc_mapped_page`, which clears the page, and the mapping of the registers. -/
def driverCall : DriverCall → PagedM Unit
  | .allocMappedPage => do
      let phys ← .ofState pmmAllocPage
      if phys = 0 then return ()
      else
        let vm ← .ofState get
        vmmMapPage vm.kernelPml4 phys phys (PAGE_PRESENT ||| PAGE_WRITE)
        let _ ← deref phys
        return ()
  | .mapRegisters bar5 => do
      let vm ← .ofState get
      vmmMapPage vm.kernelPml4 (bar5.setWidth 64) (bar5.setWidth 64) (PAGE_PRESENT ||| PAGE_WRITE)

/-- What the AHCI driver does. -/
def driverCalls : List DriverCall → PagedM Unit
  | [] => return ()
  | call :: rest => do
      driverCall call
      driverCalls rest

/-- The driver is initialised and the first process is started. -/
def boot (layout : StackLayout) (calls : List DriverCall) (init : ElfFile) : PagedMachineM Bool := do
  onVm (driverCalls calls)
  startInit layout init

/-- The machine after `vmm_init` and `scheduler_init`. -/
def bootMachine (image : KernelImage) (regions : List (Nat × Nat)) (junk : Addr → Nat → Addr)
    (stack : Nat → Word) : Machine where
  vm := bootVm image regions junk
  table := .schedulerInit stack

/-- The machine when `kernel()` lets the first process go, with all pointers as allowed. -/
structure Booted (layout : StackLayout) (allows : Use → Prop) (machine : Machine) : Prop where
  boots : ∃ image regions junk calls stack init used,
    (boot layout calls init).run (bootMachine image regions junk stack) =
      some (true, machine, used) ∧ ∀ use ∈ used, allows use

/-! ## Runs -/

/-- The states reached by runs in which every event ends, and it and the pointers that it
follows meet a condition. -/
inductive Reaches (layout : StackLayout) (meets : Machine → Event → List Use → Prop)
    (start : Machine) : Machine → Prop where
  | start : Reaches layout meets start start
  | step {machine after : Machine} {used : List Use} (event : Event)
      (reached : Reaches layout meets start machine) (enabled : Enabled machine event)
      (ends : (runEvent layout event).run machine = some ((), after, used))
      (condition : meets machine event used) : Reaches layout meets start after

theorem Reaches.mono {layout : StackLayout} {meets weaker : Machine → Event → List Use → Prop}
    (implies : ∀ {machine event used}, meets machine event used → weaker machine event used)
    {start machine : Machine} (reaches : Reaches layout meets start machine) :
    Reaches layout weaker start machine := by
  induction reaches with
  | start => exact .start
  | step event _ enabled ends met ih => exact ih.step event enabled ends (implies met)

/-! ## Pointers that are mapped onto themselves -/

theorem driverCall_follows (call : DriverCall) :
    Follows Use.Direct (driverCall call) call.run := by
  cases call with
  | allocMappedPage =>
      apply (Follows.ofState pmmAllocPage).bind
      intro phys
      apply (Follows.pure ()).ite
      apply Follows.get
      intro vm start
      have cleared : ∀ mapped, Traces Use.Direct Use.Direct
          (deref phys >>= fun _ => return ()) (pure ()) (fun _ _ => True) mapped := fun mapped =>
        (deref_traces fun direct => direct).look (.pure trivial)
      exact (vmmMapPage_follows vm.kernelPml4 phys phys (PAGE_PRESENT ||| PAGE_WRITE) start).bind
        fun _ mapped _ => cleared mapped
  | mapRegisters bar5 =>
      apply Follows.get
      exact fun vm => vmmMapPage_follows _ _ _ _

theorem driverCalls_follows (calls : List DriverCall) :
    Follows Use.Direct (driverCalls calls) (calls.forM DriverCall.run) := by
  induction calls with
  | nil => exact .pure ()
  | cons call rest ih => exact (driverCall_follows call).bind fun _ => ih

theorem boot_follows (layout : StackLayout) (calls : List DriverCall) (init : ElfFile) :
    Follows Use.Direct (boot layout calls init) (do
      Vmm.onVm (calls.forM DriverCall.run)
      Vmm.startInit layout init) :=
  (onVm_follows (driverCalls_follows calls)).bind fun _ => startInit_follows layout init

theorem boot_run {layout : StackLayout} {image : KernelImage} {regions : List (Nat × Nat)}
    {junk : Addr → Nat → Addr} {calls : List DriverCall} {stack : Nat → Word} {init : ElfFile}
    {machine : Machine} {used : List Use}
    (boots : (boot layout calls init).run (bootMachine image regions junk stack) =
      some (true, machine, used))
    (direct : ∀ use ∈ used, use.Direct) :
    (Vmm.startInit layout init).run (preparedMachine image regions junk calls stack) =
      (true, machine) := by
  have follows := boot_follows layout calls init
  have runs := follows.run_eq boots direct
  exact runs

/-- Where every pointer of a boot is mapped onto itself, it is a boot of `Runs`. -/
theorem Booted.booted {layout : StackLayout} {machine : Machine}
    (booted : Booted layout Use.Direct machine) : Vmm.Booted layout machine := by
  obtain ⟨image, regions, junk, calls, stack, init, used, boots, direct⟩ := booted.boots
  exact ⟨image, regions, junk, calls, stack, init, boot_run boots direct⟩

theorem runEvent_after {layout : StackLayout} {event : Event} {machine after : Machine}
    {used : List Use} (ends : (runEvent layout event).run machine = some ((), after, used))
    (direct : ∀ use ∈ used, use.Direct) : after = event.after layout machine := by
  have same := (runEvent_follows layout event).run_eq ends direct
  unfold Event.after
  rw [same]

/-- A run whose pointers are all mapped onto themselves is a run of `Runs`. -/
theorem Reaches.reaches {layout : StackLayout} {meets : Machine → Event → List Use → Prop}
    {condition : Machine → Event → Prop} {start machine : Machine}
    (implies : ∀ {machine event used}, meets machine event used →
      condition machine event ∧ ∀ use ∈ used, use.Direct)
    (reaches : Reaches layout meets start machine) :
    Vmm.Reaches layout condition start machine := by
  induction reaches with
  | start => exact .start
  | step event _ enabled ends met ih =>
      obtain ⟨holds, direct⟩ := implies met
      rw [runEvent_after ends direct]
      exact ih.step event enabled holds

/-- The boot, checked. -/
theorem exists_boot {layout : StackLayout} {image : KernelImage} {regions : List (Nat × Nat)}
    {junk : Addr → Nat → Addr} {calls : List DriverCall} {stack : Nat → Word} {init : ElfFile}
    {check : Use → Prop} [DecidablePred check]
    (succeeds : ((Vmm.startInit layout init).run
      (preparedMachine image regions junk calls stack)).1 = true)
    (ends : ((boot layout calls init).run (bootMachine image regions junk stack)).any
      (fun done => done.2.2.all fun use => check use) = true)
    (implies : ∀ {use}, check use → Use.Direct use) :
    ∃ used, (boot layout calls init).run (bootMachine image regions junk stack) =
      some (true, ((Vmm.startInit layout init).run
        (preparedMachine image regions junk calls stack)).2, used) ∧ ∀ use ∈ used, check use := by
  obtain ⟨used, runs, met⟩ := (boot_follows layout calls init).exists_run implies ends
  rw [← succeeds]
  exact ⟨used, runs, met⟩

/-- Every event ends, and the pointers it follows pass a check. -/
def allUses (layout : StackLayout) (check : Use → Prop) [DecidablePred check] :
    List Event → Machine → Bool
  | [], _ => true
  | event :: rest, machine =>
      ((runEvent layout event).run machine).any (fun done => done.2.2.all fun use => check use) &&
        allUses layout check rest (event.after layout machine)

end Paged

/-- The machine after a list of events. -/
def runEvents (layout : StackLayout) : List Event → Machine → Machine
  | [], machine => machine
  | event :: rest, machine => runEvents layout rest (event.after layout machine)

/-- Each event may happen where the list has come to. -/
def AllEnabled (layout : StackLayout) : List Event → Machine → Prop
  | [], _ => True
  | event :: rest, machine =>
      Enabled machine event ∧ AllEnabled layout rest (event.after layout machine)

instance (machine : Machine) (event : Event) : Decidable (Enabled machine event) := by
  unfold Enabled
  cases event <;> infer_instance

instance (layout : StackLayout) (events : List Event) (machine : Machine) :
    Decidable (AllEnabled layout events machine) := by
  induction events generalizing machine with
  | nil => exact isTrue trivial
  | cons event rest ih => exact instDecidableAnd

namespace Paged

theorem exists_runEvent {layout : StackLayout} {check : Use → Prop} [DecidablePred check]
    {event : Event} {machine : Machine} (ends : allUses layout check [event] machine = true)
    (implies : ∀ {use}, check use → Use.Direct use) :
    ∃ used, (runEvent layout event).run machine = some ((), event.after layout machine, used) ∧
      ∀ use ∈ used, check use :=
  (runEvent_follows layout event).exists_run implies (Bool.and_eq_true_iff.mp ends).1

theorem reaches_runEvents {layout : StackLayout} {check : Use → Prop} [DecidablePred check]
    {condition : Event → Prop} {start machine : Machine} {events : List Event}
    (reached : Reaches layout (fun _ event used => condition event ∧ ∀ use ∈ used, check use)
      start machine)
    (enabled : AllEnabled layout events machine) (met : ∀ event ∈ events, condition event)
    (ends : allUses layout check events machine = true)
    (implies : ∀ {use}, check use → Use.Direct use) :
    Reaches layout (fun _ event used => condition event ∧ ∀ use ∈ used, check use) start
      (runEvents layout events machine) := by
  induction events generalizing machine with
  | nil => exact reached
  | cons event rest ih =>
      obtain ⟨first, later⟩ := Bool.and_eq_true_iff.mp ends
      obtain ⟨used, runs, checked⟩ := (runEvent_follows layout event).exists_run implies first
      have next := reached.step event enabled.1 runs ⟨met event List.mem_cons_self, checked⟩
      exact ih next enabled.2 (fun other member => met other (List.mem_cons_of_mem event member)) later

end Paged

end Notux.Vmm
