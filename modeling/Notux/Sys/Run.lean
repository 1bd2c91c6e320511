import Notux.Sys.Calls

/-!
# Runs of the system

After boot the kernel does nothing but serve system calls of the running process
and switch processes on timer interrupts.  A run is a sequence of such events.
It ends where the kernel panics or halts, or where no process can go on.
-/

namespace Notux.Sys

open Notux.Store Notux.Proc Notux.Fs

/-- A system call of the current process, or a timer interrupt. -/
inductive Event where
  | call (call : Call)
  | timer (currentEsp : Nat)

/-- The world after a program has returned. -/
def afterRun {α : Type} (program : FsM α) (world : FsWorld) : Option FsWorld :=
  match program.run world with
  | ⟨.ret _, after, _⟩ => some after
  | ⟨.stop _, _, _⟩ => none

/-- Perform one event. -/
def perform (event : Event) (world : FsWorld) : Option FsWorld :=
  match event with
  | .call call =>
      if world.mem.table.currentProcess.state = .running then
        afterRun (syscallHandler call) world
      else none
  | .timer currentEsp =>
      match world.mem.table.schedule currentEsp with
      | (some _, table) => some { world with mem.table := table }
      | (none, _) => none

/-- Perform events in order. -/
def performAll : List Event → FsWorld → Option FsWorld
  | [], world => some world
  | event :: rest, world => (perform event world).bind (performAll rest)

/-- The states reached by runs in which every event meets a condition. -/
inductive Reaches (meets : FsWorld → Event → Prop) (start : FsWorld) : FsWorld → Prop where
  | start : Reaches meets start start
  | step {world next : FsWorld} {event : Event} (reached : Reaches meets start world)
      (condition : meets world event) (performed : perform event world = some next) :
      Reaches meets start next

/-- The process table when `kernel` lets the first process go: `scheduler_init`,
`create_process` and `set_process_entry`. -/
def bootTable (layout : StackLayout) (stack : Nat → Word) (entryPoint pml4 : Nat) : ProcTable :=
  ((ProcTable.schedulerInit stack).createProcess layout 0 pml4).2.setProcessEntry 0 entryPoint

/-- Memory when `kernel` lets the first process go: no inode is referenced and
there is no working directory. -/
structure Booted (kernel : Kernel) : Prop where
  refs : ∀ ip, (kernel.icache ip).ref = 0
  cwd : kernel.cwd = none
  table : ∃ layout stack entryPoint pml4,
    pml4 ≠ 0 ∧ kernel.table = bootTable layout stack entryPoint pml4

/-- A property that every event of the run keeps holds where the run leads. -/
theorem Reaches.induction {meets : FsWorld → Event → Prop} {start world : FsWorld}
    (reached : Reaches meets start world) (holds : FsWorld → Prop) (initially : holds start)
    (step : ∀ {before after event}, holds before → meets before event →
      perform event before = some after → holds after) : holds world := by
  induction reached with
  | start => exact initially
  | step reached condition performed ih => exact step ih condition performed

/-- A list of events that are performed one after another is a run. -/
theorem Reaches.of_performAll {meets : FsWorld → Event → Prop} {start world : FsWorld}
    {events : List Event} (always : ∀ event ∈ events, ∀ before, meets before event)
    (performed : performAll events start = some world) : Reaches meets start world := by
  suffices extend : ∀ middle, Reaches meets start middle →
      performAll events middle = some world → Reaches meets start world from
    extend start .start performed
  clear performed
  induction events with
  | nil =>
      intro middle reached performed
      exact Option.some.inj performed ▸ reached
  | cons event rest ih =>
      intro middle reached performed
      obtain ⟨next, first, others⟩ := Option.bind_eq_some_iff.mp performed
      have condition := always event List.mem_cons_self middle
      exact ih (fun other member => always other (List.mem_cons_of_mem _ member)) next
        (reached.step condition first) others

/-- What a program guarantees holds of the world after it has returned. -/
theorem afterRun_of_wp {α : Type} {program : FsM α} {world after : FsWorld}
    {P : Disk → Prop} {F : Stop → FsWorld → Prop} {Q : α → FsWorld → Prop}
    (holds : program.wp P F Q world) (returned : afterRun program world = some after) :
    ∃ value, Q value after := by
  have ends := holds.run
  unfold afterRun at returned
  unfold Prog.Run.Ends at ends
  split at returned
  · next value final writes result =>
      rw [result] at ends
      exact ⟨value, Option.some.inj returned ▸ ends⟩
  · cases returned

end Notux.Sys
