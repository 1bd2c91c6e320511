import Notux.Proc.Table

/-!
# Saved contexts

What the scheduler owes to a process is its register frame: the one
`create_process` built for it, until it first runs, and afterwards the one it
was interrupted with.  A run of the process table is recorded in a log, from
which the context a process is owed is read off without looking at the table;
the invariant of this file says that the table and the kernel stacks still hold
it.
-/

namespace Notux.Proc

/-- What the log of a run records, newest entry first. -/
inductive Obs where
  | created (idx : ProcIdx) (entryPoint : Nat)
  | entrySet (idx : ProcIdx) (entryPoint : Nat)
  | argvSet (idx : ProcIdx) (argc argvPtr : Nat)
  | preempted (idx : ProcIdx) (esp : Nat) (stack : Nat → Word)

/-- The context a process is owed: the entry point and arguments installed in
its initial frame, or the stack pointer it was preempted with and the words on
the kernel stacks at that moment. -/
inductive Context where
  | fresh (entryPoint argc argvPtr : Nat)
  | saved (esp : Nat) (stack : Nat → Word)

/-- Install an entry point in an initial frame. -/
def Context.withEntry (entryPoint : Nat) : Context → Context
  | .fresh _ argc argvPtr => .fresh entryPoint argc argvPtr
  | .saved esp stack => .saved esp stack

/-- Install arguments in an initial frame. -/
def Context.withArgv (argc argvPtr : Nat) : Context → Context
  | .fresh entryPoint _ _ => .fresh entryPoint argc argvPtr
  | .saved esp stack => .saved esp stack

/-- The context a process is owed after a log. -/
def contextOf (idx : ProcIdx) : List Obs → Option Context
  | [] => none
  | .created i entryPoint :: rest =>
      if i = idx then some (.fresh entryPoint 0 0) else contextOf idx rest
  | .entrySet i entryPoint :: rest =>
      if i = idx then (contextOf idx rest).map (Context.withEntry entryPoint)
      else contextOf idx rest
  | .argvSet i argc argvPtr :: rest =>
      if i = idx then (contextOf idx rest).map (Context.withArgv argc argvPtr)
      else contextOf idx rest
  | .preempted i esp stack :: rest =>
      if i = idx then some (.saved esp stack) else contextOf idx rest

/-- The register frame of a process that has not run, from its lowest word up:
the registers with RDI and RSI at 9 and 10, then RIP, CS, RFLAGS, RSP and SS. -/
def freshFrame (userTop entryPoint argc argvPtr : Nat) (i : Nat) : Word :=
  if i = 9 then BitVec.ofNat 64 argc
  else if i = 10 then BitVec.ofNat 64 argvPtr
  else if i = 15 then BitVec.ofNat 64 entryPoint
  else if i = 16 then 0x23
  else if i = 17 then 0x202
  else if i = 18 then BitVec.ofNat 64 userTop
  else if i = 19 then 0x1B
  else 0

/-- The words of a frame. -/
abbrev FRAME_WORDS : Nat := 20

/-- The address of the initial frame of a slot. -/
def StackLayout.frameBase (layout : StackLayout) (idx : ProcIdx) : Nat :=
  layout.kernelTop idx - 8 * FRAME_WORDS

/-- Whether an address lies on the kernel stack of a slot. -/
def StackLayout.OnStack (layout : StackLayout) (idx : ProcIdx) (addr : Nat) : Prop :=
  layout.kernelStacks + idx * KERNEL_STACK_SIZE ≤ addr ∧ addr < layout.kernelTop idx

/-- A stack pointer and the kernel stacks deliver the context a slot is owed. -/
def Delivers (layout : StackLayout) (idx : ProcIdx) (esp : Nat) (stack : Nat → Word) :
    Context → Prop
  | .fresh entryPoint argc argvPtr =>
      esp = layout.frameBase idx ∧
        ∀ i < FRAME_WORDS,
          stack (layout.frameBase idx + 8 * i) =
            freshFrame (layout.userTop idx) entryPoint argc argvPtr i
  | .saved savedEsp savedStack =>
      esp = savedEsp ∧ ∀ addr, layout.OnStack idx addr → stack addr = savedStack addr

/-- A process table together with the log of its run. -/
structure Machine where
  table : ProcTable
  log : List Obs

/-- The slot `create_process` is about to fill. -/
def ProcTable.createdSlot (table : ProcTable) (pml4 : Nat) : Option ProcIdx :=
  if pml4 = 0 then none
  else ProcTable.firstSlot fun i => (table.processes i).state = .terminated

/-- The log after a timer interrupt: a running process has been preempted. -/
def Machine.interrupted (machine : Machine) (currentEsp : Nat) : List Obs :=
  if machine.table.currentProcess.state = .running then
    .preempted machine.table.current currentEsp machine.table.stack :: machine.log
  else machine.log

/-- The process waits for its first run. -/
def Machine.NotRunYet (machine : Machine) (idx : ProcIdx) : Prop :=
  (machine.table.processes idx).state = .ready ∧
    ∃ entryPoint argc argvPtr,
      contextOf idx machine.log = some (.fresh entryPoint argc argvPtr)

/-- One event.  `touch` is the code that runs on the kernel stack of the current
process, which may change any word of that stack. -/
inductive Step (layout : StackLayout) : Machine → Machine → Prop where
  | createProcess (machine : Machine) (entryPoint pml4 : Nat) :
      Step layout machine
        { table := (machine.table.createProcess layout entryPoint pml4).2
          log := (machine.table.createdSlot pml4).toList.map (.created · entryPoint) ++
            machine.log }
  | setProcessEntry (machine : Machine) (idx : ProcIdx) (entryPoint : Nat)
      (waiting : machine.NotRunYet idx) :
      Step layout machine
        { table := machine.table.setProcessEntry idx entryPoint
          log := .entrySet idx entryPoint :: machine.log }
  | setProcessArgv (machine : Machine) (idx : ProcIdx) (argc argvPtr : Nat)
      (waiting : machine.NotRunYet idx) :
      Step layout machine
        { table := machine.table.setProcessArgv idx argc argvPtr
          log := .argvSet idx argc argvPtr :: machine.log }
  | touch (machine : Machine) (addr : Nat) (word : Word)
      (executing : machine.table.currentProcess.state = .running ∨
        machine.table.currentProcess.state = .zombie)
      (own : layout.OnStack machine.table.current addr) :
      Step layout machine
        { machine with
          table.stack := Function.update machine.table.stack addr word }
  | schedule (machine : Machine) (currentEsp : Nat) :
      Step layout machine
        { table := (machine.table.schedule currentEsp).2
          log := machine.interrupted currentEsp }
  | exit (machine : Machine) (exitCode : Int)
      (running : machine.table.currentProcess.state = .running) :
      Step layout machine
        { machine with table := machine.table.exitCurrentProcess exitCode }
  | terminate (machine : Machine) (idx : ProcIdx) (waiting : machine.NotRunYet idx) :
      Step layout machine { machine with table := machine.table.terminate idx }
  | wait4 (machine : Machine)
      (running : machine.table.currentProcess.state = .running) :
      Step layout machine { machine with table := machine.table.wait4.2 }

/-- A machine reached from `scheduler_init`. -/
inductive Reachable (layout : StackLayout) : Machine → Prop where
  | init (stack : Nat → Word) : Reachable layout ⟨ProcTable.schedulerInit stack, []⟩
  | step {machine next : Machine} (reachable : Reachable layout machine)
      (step : Step layout machine next) : Reachable layout next

/-- Only the current slot runs, and every ready slot can be given the context it
is owed. -/
structure Coherent (layout : StackLayout) (machine : Machine) : Prop where
  running : ∀ idx, (machine.table.processes idx).state = .running →
    idx = machine.table.current
  ready : ∀ idx, (machine.table.processes idx).state = .ready →
    ∃ context, contextOf idx machine.log = some context ∧
      Delivers layout idx (machine.table.processes idx).esp machine.table.stack context

/-! ## Addresses -/

variable {layout : StackLayout}

variable (layout) in
theorem frameBase_eq (idx : ProcIdx) :
    layout.frameBase idx = layout.kernelStacks + idx * 8192 + 8032 := by
  unfold StackLayout.frameBase StackLayout.kernelTop FRAME_WORDS KERNEL_STACK_SIZE
  omega

theorem onStack_iff {idx : ProcIdx} {addr : Nat} :
    layout.OnStack idx addr ↔
      layout.kernelStacks + idx * 8192 ≤ addr ∧
        addr < layout.kernelStacks + idx * 8192 + 8192 := by
  unfold StackLayout.OnStack StackLayout.kernelTop KERNEL_STACK_SIZE
  omega

theorem onStack_frame {idx : ProcIdx} {i : Nat} (small : i < FRAME_WORDS) :
    layout.OnStack idx (layout.frameBase idx + 8 * i) := by
  rw [onStack_iff, frameBase_eq]
  simp only [FRAME_WORDS] at small
  omega

/-- The kernel stacks of two slots are disjoint. -/
theorem not_onStack_of_ne {idx other : ProcIdx} {addr : Nat} (differ : other ≠ idx)
    (own : layout.OnStack idx addr) : ¬ layout.OnStack other addr := by
  rw [onStack_iff] at *
  have values : (other : Nat) ≠ idx := fun same => differ (Fin.ext same)
  omega

/-- A context is delivered as long as the words of the slot's own stack stay. -/
theorem Delivers.of_agree {idx : ProcIdx} {esp : Nat} {stack stack' : Nat → Word}
    {context : Context} (delivers : Delivers layout idx esp stack context)
    (agree : ∀ addr, layout.OnStack idx addr → stack' addr = stack addr) :
    Delivers layout idx esp stack' context := by
  cases context with
  | fresh entryPoint argc argvPtr =>
      exact ⟨delivers.1, fun i small =>
        (agree _ (onStack_frame small)).trans (delivers.2 i small)⟩
  | saved savedEsp savedStack =>
      exact ⟨delivers.1, fun addr own => (agree addr own).trans (delivers.2 addr own)⟩

/-! ## The initial frame -/

/-- Pushing words fills the memory below the stack pointer and nothing else. -/
theorem foldl_push (words : List Word) (memory : Nat → Word) (top : Nat)
    (room : 8 * words.length ≤ top) :
    (words.foldl ProcTable.push (memory, top)).2 = top - 8 * words.length ∧
      (∀ i (inside : i < words.length),
        (words.foldl ProcTable.push (memory, top)).1 (top - 8 * (i + 1)) = words[i]) ∧
      ∀ addr, addr < top - 8 * words.length ∨ top ≤ addr →
        (words.foldl ProcTable.push (memory, top)).1 addr = memory addr := by
  induction words generalizing memory top with
  | nil => simp
  | cons word rest ih =>
      simp only [List.length_cons] at room
      obtain ⟨pointer, inside, outside⟩ :=
        ih (Function.update memory (top - 8) word) (top - 8) (by omega)
      simp only [List.foldl_cons, ProcTable.push, List.length_cons]
      refine ⟨by rw [pointer]; omega, fun i small => ?_, fun addr apart => ?_⟩
      · cases i with
        | zero =>
            rw [outside _ (Or.inr (by omega))]
            simp
        | succ i =>
            have below := inside i (by omega)
            rw [show top - 8 - 8 * (i + 1) = top - 8 * (i + 1 + 1) by omega] at below
            simpa using below
      · rw [outside addr (by omega), Function.update_of_ne (by omega)]

@[simp]
theorem length_initialFrame (userTop entryPoint : Nat) :
    (ProcTable.initialFrame userTop entryPoint).length = FRAME_WORDS := by
  simp [ProcTable.initialFrame]

theorem getElem_initialFrame (userTop entryPoint i : Nat)
    (inside : i < (ProcTable.initialFrame userTop entryPoint).length) :
    (ProcTable.initialFrame userTop entryPoint)[i] =
      freshFrame userTop entryPoint 0 0 (19 - i) := by
  have small : i < 20 := by simpa using inside
  simp only [ProcTable.initialFrame, freshFrame]
  rcases (by omega : i = 0 ∨ i = 1 ∨ i = 2 ∨ i = 3 ∨ i = 4 ∨ 5 ≤ i) with
    rfl | rfl | rfl | rfl | rfl | large
  · simp
  · simp
  · simp
  · simp
  · simp
  · rw [List.getElem_append_right (by simpa using large), List.getElem_replicate]
    repeat' split
    all_goals first | rfl | omega

variable (layout) in
/-- `create_process` leaves the initial frame on the slot's own stack. -/
theorem delivers_initialFrame (idx : ProcIdx) (entryPoint : Nat) (stack : Nat → Word) :
    let frame := (ProcTable.initialFrame (layout.userTop idx) entryPoint).foldl ProcTable.push
      (stack, layout.kernelTop idx)
    Delivers layout idx frame.2 frame.1 (.fresh entryPoint 0 0) ∧
      ∀ addr, ¬ layout.OnStack idx addr → frame.1 addr = stack addr := by
  have top : layout.kernelTop idx = layout.kernelStacks + idx * 8192 + 8192 := by
    unfold StackLayout.kernelTop KERNEL_STACK_SIZE; omega
  obtain ⟨pointer, inside, outside⟩ :=
    foldl_push (ProcTable.initialFrame (layout.userTop idx) entryPoint) stack
      (layout.kernelTop idx) (by simp [FRAME_WORDS]; omega)
  rw [length_initialFrame] at pointer
  refine ⟨⟨pointer, fun i small => ?_⟩, fun addr apart => outside addr ?_⟩
  · simp only [FRAME_WORDS] at small
    have word := inside (19 - i) (by simp [FRAME_WORDS]; omega)
    rw [getElem_initialFrame, show 19 - (19 - i) = i by omega,
      show layout.kernelTop idx - 8 * (19 - i + 1) = layout.frameBase idx + 8 * i by
        rw [frameBase_eq, top]; omega] at word
    exact word
  · rw [onStack_iff] at apart
    simp only [length_initialFrame, FRAME_WORDS]
    omega

/-! ## What each function of the table does -/

namespace ProcTable

theorem firstSlot_eq_some {test : ProcIdx → Bool} {idx : ProcIdx}
    (found : firstSlot test = some idx) : test idx = true :=
  List.find?_some found

theorem modify_same (table : ProcTable) (idx : ProcIdx) (change : Process → Process) :
    (table.modify idx change).processes idx = change (table.processes idx) :=
  Function.update_self _ _ _

theorem modify_of_ne (table : ProcTable) {idx other : ProcIdx} (differ : other ≠ idx)
    (change : Process → Process) :
    (table.modify idx change).processes other = table.processes other :=
  Function.update_of_ne differ _ _

/-- A change that never starts a slot leaves only slots running that ran. -/
theorem running_of_modify {table : ProcTable} {idx other : ProcIdx}
    {change : Process → Process} (starts : ∀ process, (change process).state ≠ .running)
    (isRunning : ((table.modify idx change).processes other).state = .running) :
    (table.processes other).state = .running := by
  by_cases same : other = idx
  · subst same
    rw [modify_same] at isRunning
    exact absurd isRunning (starts _)
  · rwa [modify_of_ne _ same] at isRunning

@[simp]
theorem setProcessEntry_processes (table : ProcTable) (idx : ProcIdx) (entryPoint : Nat) :
    (table.setProcessEntry idx entryPoint).processes = table.processes := by
  unfold setProcessEntry; simp only; split <;> rfl

@[simp]
theorem setProcessArgv_processes (table : ProcTable) (idx : ProcIdx) (argc argvPtr : Nat) :
    (table.setProcessArgv idx argc argvPtr).processes = table.processes := by
  unfold setProcessArgv; simp only; split <;> rfl

/-- `wait4` reaps one slot or does nothing. -/
theorem wait4_cases (table : ProcTable) :
    table.wait4.2 = table ∨
      ∃ found, table.wait4.2 = table.modify found fun process =>
        { process with state := .terminated, pid := 0, ppid := 0, exitCode := 0 } := by
  unfold wait4
  cases table.zombieChild with
  | none => exact Or.inl rfl
  | some found => exact Or.inr ⟨found, rfl⟩

@[simp]
theorem modify_current (table : ProcTable) (idx : ProcIdx) (change : Process → Process) :
    (table.modify idx change).current = table.current := rfl

@[simp]
theorem modify_stack (table : ProcTable) (idx : ProcIdx) (change : Process → Process) :
    (table.modify idx change).stack = table.stack := rfl

variable (layout) in
/-- `create_process` either fails and changes nothing, or fills a terminated
slot with a ready process whose initial frame lies on the slot's stack. -/
theorem createProcess_cases (table : ProcTable) (entryPoint pml4 : Nat) :
    (table.createdSlot pml4 = none ∧
      table.createProcess layout entryPoint pml4 = (-1, table)) ∨
    ∃ idx process,
      table.createdSlot pml4 = some idx ∧
      (table.processes idx).state = .terminated ∧
      process.state = .ready ∧
      (table.createProcess layout entryPoint pml4).2.current = table.current ∧
      (table.createProcess layout entryPoint pml4).2.processes =
        Function.update table.processes idx process ∧
      Delivers layout idx process.esp
        (table.createProcess layout entryPoint pml4).2.stack (.fresh entryPoint 0 0) ∧
      ∀ addr, ¬ layout.OnStack idx addr →
        (table.createProcess layout entryPoint pml4).2.stack addr = table.stack addr := by
  simp only [createdSlot, createProcess]
  cases found : firstSlot fun i => (table.processes i).state = .terminated with
  | none => left; simp
  | some idx =>
      by_cases noMemory : pml4 = 0
      · left; simp [noMemory]
      · right
        have free : (table.processes idx).state = .terminated := by
          simpa using firstSlot_eq_some found
        have frame := delivers_initialFrame layout idx entryPoint table.stack
        simp only [if_neg noMemory]
        exact ⟨idx, _, rfl, free, rfl, trivial, rfl, frame.1, frame.2⟩

/-- The table after a running process has been put back into the queue with its
frame. -/
def suspend (table : ProcTable) (currentEsp : Nat) : ProcTable :=
  if table.currentProcess.state = .running then
    table.modify table.current fun process => { process with esp := currentEsp, state := .ready }
  else table

/-- The table in which the current process goes on. -/
def keep (table : ProcTable) : ProcTable :=
  table.modify table.current fun process => { process with state := .running }

theorem ne_of_mem_others {current idx : ProcIdx} (member : idx ∈ others current) :
    idx ≠ current := by
  simp only [others, List.mem_map, List.mem_range] at member
  obtain ⟨i, small, rfl⟩ := member
  intro same
  have values := congrArg Fin.val same
  have bound := current.isLt
  simp only [MAX_PROCESSES, Fin.val_ofNat] at values small bound
  omega

theorem saveCurrent_processes_of_ne (table : ProcTable) (currentEsp : Nat) {idx : ProcIdx}
    (differ : idx ≠ table.current) :
    (table.saveCurrent currentEsp).processes idx = table.processes idx := by
  unfold saveCurrent
  split
  · exact table.modify_of_ne differ _
  · rfl

@[simp]
theorem saveCurrent_current (table : ProcTable) (currentEsp : Nat) :
    (table.saveCurrent currentEsp).current = table.current := by
  unfold saveCurrent; split <;> rfl

@[simp]
theorem saveCurrent_state (table : ProcTable) (currentEsp : Nat) :
    (table.saveCurrent currentEsp).currentProcess.state = table.currentProcess.state := by
  unfold saveCurrent
  split
  · simp [currentProcess, modify_same]
  · rfl

@[simp]
theorem saveCurrent_stack (table : ProcTable) (currentEsp : Nat) :
    (table.saveCurrent currentEsp).stack = table.stack := by
  unfold saveCurrent; split <;> rfl

@[simp]
theorem suspend_stack (table : ProcTable) (currentEsp : Nat) :
    (table.suspend currentEsp).stack = table.stack := by
  unfold suspend; split <;> rfl

theorem suspend_processes_of_ne (table : ProcTable) (currentEsp : Nat) {idx : ProcIdx}
    (differ : idx ≠ table.current) :
    (table.suspend currentEsp).processes idx = table.processes idx := by
  unfold suspend
  split
  · exact table.modify_of_ne differ _
  · rfl

theorem suspend_not_running (table : ProcTable) (currentEsp : Nat) :
    ((table.suspend currentEsp).processes table.current).state ≠ .running := by
  unfold suspend
  split
  · simp [modify_same]
  · assumption

/-- Putting the saved process back is one update of its slot. -/
theorem suspend_eq (table : ProcTable) (currentEsp : Nat) :
    (if (table.saveCurrent currentEsp).currentProcess.state = .running then
      (table.saveCurrent currentEsp).modify (table.saveCurrent currentEsp).current
        fun process => { process with state := .ready }
    else table.saveCurrent currentEsp) = table.suspend currentEsp := by
  rw [saveCurrent_state, saveCurrent_current]
  unfold saveCurrent suspend
  split
  · simp [modify]
  · rfl

/-- What `schedule` does: switch to another ready slot, or keep the current one
if it is alive, or halt. -/
theorem schedule_cases (table : ProcTable) (currentEsp : Nat) :
    (∃ next, (table.processes next).state = .ready ∧ next ≠ table.current ∧
      table.schedule currentEsp =
        (some (table.processes next).esp,
          (table.suspend currentEsp).activateProcess next)) ∨
    (table.currentProcess.state ≠ .terminated ∧ table.currentProcess.state ≠ .zombie ∧
      table.schedule currentEsp =
        (some (table.saveCurrent currentEsp).currentProcess.esp,
          (table.saveCurrent currentEsp).keep)) ∨
    ((table.currentProcess.state = .terminated ∨ table.currentProcess.state = .zombie) ∧
      table.schedule currentEsp = (none, table)) := by
  unfold schedule
  simp only [saveCurrent_current]
  cases found : (others table.current).find? fun i =>
      ((table.saveCurrent currentEsp).processes i).state = .ready with
  | some next =>
      left
      have differ : next ≠ table.current := ne_of_mem_others (List.mem_of_find?_eq_some found)
      have isReady : (table.processes next).state = .ready := by
        rw [← table.saveCurrent_processes_of_ne currentEsp differ]
        simpa using List.find?_some found
      refine ⟨next, isReady, differ, ?_⟩
      have queue := table.suspend_eq currentEsp
      simp only [saveCurrent_current] at queue
      simp only [queue, Prod.mk.injEq, Option.some.injEq, and_true]
      simp [activateProcess, currentProcess, modify_same,
        table.suspend_processes_of_ne currentEsp differ]
  | none =>
      right
      simp only [saveCurrent_state]
      by_cases alive : table.currentProcess.state ≠ .terminated ∧
          table.currentProcess.state ≠ .zombie
      · left
        refine ⟨alive.1, alive.2, ?_⟩
        rw [if_pos alive]
        simp [keep, currentProcess, modify_same]
      · right
        have dead : table.currentProcess.state = .terminated ∨
            table.currentProcess.state = .zombie := by
          by_contra neither
          exact alive (not_or.mp neither)
        refine ⟨dead, ?_⟩
        have stays : table.saveCurrent currentEsp = table := by
          unfold saveCurrent
          rw [if_neg]
          rcases dead with dead | dead <;> simp [dead]
        rw [if_neg alive, stays]

end ProcTable

/-! ## The invariant -/

namespace Coherent

variable {machine : Machine}

/-- The log of an event at one slot says nothing about another slot. -/
theorem contextOf_created_of_ne {idx other : ProcIdx} (differ : idx ≠ other) (entryPoint : Nat)
    (log : List Obs) : contextOf other (.created idx entryPoint :: log) = contextOf other log :=
  if_neg differ

/-- `scheduler_init` establishes the invariant. -/
theorem init (stack : Nat → Word) :
    Coherent layout ⟨ProcTable.schedulerInit stack, []⟩ where
  running idx isRunning := by cases isRunning
  ready idx isReady := by cases isReady

/-- A ready slot that has not run holds its initial frame. -/
theorem delivers_fresh (coherent : Coherent layout machine) {idx : ProcIdx}
    (waiting : machine.NotRunYet idx) :
    ∃ entryPoint argc argvPtr,
      contextOf idx machine.log = some (.fresh entryPoint argc argvPtr) ∧
        Delivers layout idx (machine.table.processes idx).esp machine.table.stack
          (.fresh entryPoint argc argvPtr) := by
  obtain ⟨isReady, entryPoint, argc, argvPtr, owed⟩ := waiting
  obtain ⟨context, same, delivers⟩ := coherent.ready idx isReady
  obtain rfl : context = .fresh entryPoint argc argvPtr :=
    Option.some.inj (same.symm.trans owed)
  exact ⟨entryPoint, argc, argvPtr, owed, delivers⟩

/-- An event that leaves a ready slot, its stack and its context alone keeps
what the slot is owed. -/
theorem ready_of_same (coherent : Coherent layout machine) {table : ProcTable} {log : List Obs}
    {idx : ProcIdx} (sameSlot : table.processes idx = machine.table.processes idx)
    (sameStack : ∀ addr, layout.OnStack idx addr →
      table.stack addr = machine.table.stack addr)
    (sameContext : contextOf idx log = contextOf idx machine.log)
    (isReady : (table.processes idx).state = .ready) :
    ∃ context, contextOf idx log = some context ∧
      Delivers layout idx (table.processes idx).esp table.stack context := by
  rw [sameSlot] at isReady ⊢
  obtain ⟨context, owed, delivers⟩ := coherent.ready idx isReady
  exact ⟨context, sameContext.trans owed, delivers.of_agree sameStack⟩

theorem createProcess (coherent : Coherent layout machine) (entryPoint pml4 : Nat) :
    Coherent layout
      { table := (machine.table.createProcess layout entryPoint pml4).2
        log := (machine.table.createdSlot pml4).toList.map (.created · entryPoint) ++
          machine.log } := by
  rcases machine.table.createProcess_cases layout entryPoint pml4 with
    ⟨noSlot, result⟩ | ⟨created, process, slot, free, isReady, current, processes, frame, apart⟩
  · rw [noSlot, result]
    exact coherent
  · rw [slot]
    constructor
    · intro idx isRunning
      simp only [processes] at isRunning
      by_cases same : idx = created
      · subst same
        rw [Function.update_self, isReady] at isRunning
        cases isRunning
      · rw [Function.update_of_ne same] at isRunning
        exact (coherent.running idx isRunning).trans current.symm
    · intro idx idxReady
      by_cases same : idx = created
      · subst same
        refine ⟨.fresh entryPoint 0 0, if_pos rfl, ?_⟩
        simp only [processes, Function.update_self]
        exact frame
      · refine coherent.ready_of_same ?_ (fun addr own => apart addr ?_) ?_ idxReady
        · simp only [processes, Function.update_of_ne same]
        · exact not_onStack_of_ne (Ne.symm same) own
        · exact contextOf_created_of_ne (Ne.symm same) entryPoint machine.log

theorem setProcessEntry (coherent : Coherent layout machine) {idx : ProcIdx} (entryPoint : Nat)
    (waiting : machine.NotRunYet idx) :
    Coherent layout
      { table := machine.table.setProcessEntry idx entryPoint
        log := .entrySet idx entryPoint :: machine.log } := by
  obtain ⟨oldEntry, argc, argvPtr, owed, atFrame, words⟩ := coherent.delivers_fresh waiting
  have based := frameBase_eq layout idx
  have table : machine.table.setProcessEntry idx entryPoint =
      { machine.table with
        stack := Function.update machine.table.stack (layout.frameBase idx + 8 * 15)
          (BitVec.ofNat 64 entryPoint) } := by
    rw [ProcTable.setProcessEntry, atFrame, if_neg (by omega)]
  rw [table]
  refine ⟨coherent.running, fun other otherReady => ?_⟩
  by_cases same : other = idx
  · subst same
    refine ⟨.fresh entryPoint argc argvPtr, ?_, atFrame, fun i small => ?_⟩
    · simp [contextOf, owed, Context.withEntry]
    · by_cases entry : i = 15
      · subst entry
        simp [freshFrame]
      · refine (Function.update_of_ne (by omega) _ _).trans ((words i small).trans ?_)
        simp [freshFrame, entry]
  · refine coherent.ready_of_same rfl (fun addr own => ?_) ?_ otherReady
    · refine Function.update_of_ne ?_ _ _
      rintro rfl
      exact not_onStack_of_ne same (onStack_frame (by decide)) own
    · exact if_neg (Ne.symm same)

theorem setProcessArgv (coherent : Coherent layout machine) {idx : ProcIdx} (argc argvPtr : Nat)
    (waiting : machine.NotRunYet idx) :
    Coherent layout
      { table := machine.table.setProcessArgv idx argc argvPtr
        log := .argvSet idx argc argvPtr :: machine.log } := by
  obtain ⟨entryPoint, oldArgc, oldArgv, owed, atFrame, words⟩ :=
    coherent.delivers_fresh waiting
  have based := frameBase_eq layout idx
  have table : machine.table.setProcessArgv idx argc argvPtr =
      { machine.table with
        stack := Function.update
          (Function.update machine.table.stack (layout.frameBase idx + 8 * 9)
            (BitVec.ofNat 64 argc))
          (layout.frameBase idx + 8 * 10) (BitVec.ofNat 64 argvPtr) } := by
    rw [ProcTable.setProcessArgv, atFrame, if_neg (by omega)]
  rw [table]
  refine ⟨coherent.running, fun other otherReady => ?_⟩
  by_cases same : other = idx
  · subst same
    refine ⟨.fresh entryPoint argc argvPtr, ?_, atFrame, fun i small => ?_⟩
    · simp [contextOf, owed, Context.withArgv]
    · by_cases second : i = 10
      · subst second
        simp [freshFrame]
      · refine (Function.update_of_ne (by omega) _ _).trans ?_
        by_cases first : i = 9
        · subst first
          simp [freshFrame]
        · refine (Function.update_of_ne (by omega) _ _).trans ((words i small).trans ?_)
          simp [freshFrame, first, second]
  · refine coherent.ready_of_same rfl (fun addr own => ?_) ?_ otherReady
    · have apart : ∀ i < FRAME_WORDS, addr ≠ layout.frameBase idx + 8 * i := by
        rintro i small rfl
        exact not_onStack_of_ne same (onStack_frame small) own
      exact (Function.update_of_ne (apart 10 (by decide)) _ _).trans
        (Function.update_of_ne (apart 9 (by decide)) _ _)
    · exact if_neg (Ne.symm same)

theorem touch (coherent : Coherent layout machine) {addr : Nat} (word : Word)
    (executing : machine.table.currentProcess.state = .running ∨
      machine.table.currentProcess.state = .zombie)
    (own : layout.OnStack machine.table.current addr) :
    Coherent layout
      { machine with table.stack := Function.update machine.table.stack addr word } := by
  refine ⟨coherent.running, fun idx isReady => ?_⟩
  have differ : idx ≠ machine.table.current := by
    rintro rfl
    change machine.table.currentProcess.state = .ready at isReady
    rw [isReady] at executing
    rcases executing with executing | executing <;> cases executing
  refine coherent.ready_of_same rfl (fun other otherOwn => ?_) rfl isReady
  refine Function.update_of_ne ?_ _ _
  rintro rfl
  exact not_onStack_of_ne differ own otherOwn

/-- A timer interrupt leaves what a slot other than the current one is owed. -/
theorem contextOf_interrupted_of_ne (machine : Machine) (currentEsp : Nat) {idx : ProcIdx}
    (differ : idx ≠ machine.table.current) :
    contextOf idx (machine.interrupted currentEsp) = contextOf idx machine.log := by
  unfold Machine.interrupted
  split
  · exact if_neg (Ne.symm differ)
  · rfl

/-- After a timer interrupt the current slot, if it is alive, is owed the
context its table entry holds. -/
theorem delivers_current (coherent : Coherent layout machine) (currentEsp : Nat)
    (alive : machine.table.currentProcess.state = .running ∨
      machine.table.currentProcess.state = .ready) :
    ∃ context,
      contextOf machine.table.current (machine.interrupted currentEsp) = some context ∧
        Delivers layout machine.table.current
          (machine.table.saveCurrent currentEsp).currentProcess.esp machine.table.stack
          context := by
  unfold Machine.interrupted ProcTable.saveCurrent
  rcases alive with isRunning | isReady
  · rw [if_pos isRunning, if_pos isRunning]
    refine ⟨.saved currentEsp machine.table.stack, if_pos rfl, ?_, fun addr _ => rfl⟩
    simp [ProcTable.currentProcess, ProcTable.modify_same]
  · have notRunning : ¬ machine.table.currentProcess.state = .running := by
      rw [isReady]; decide
    rw [if_neg notRunning, if_neg notRunning]
    exact coherent.ready machine.table.current isReady

/-- The slot that `schedule` resumes was ready, or running as the current one,
and gets the context it is owed. -/
theorem schedule_delivers (coherent : Coherent layout machine) {currentEsp esp : Nat}
    (resumed : (machine.table.schedule currentEsp).1 = some esp) :
    let table := (machine.table.schedule currentEsp).2
    ((machine.table.processes table.current).state = .ready ∨
      (machine.table.processes table.current).state = .running) ∧
    (table.processes table.current).state = .running ∧
    ∃ context,
      contextOf table.current (machine.interrupted currentEsp) = some context ∧
        Delivers layout table.current esp table.stack context := by
  rcases machine.table.schedule_cases currentEsp with
    ⟨next, isReady, differ, result⟩ | ⟨notTerminated, notZombie, result⟩ | ⟨-, result⟩
  · rw [result] at resumed ⊢
    obtain rfl := Option.some.inj resumed
    refine ⟨Or.inl isReady, ?_, ?_⟩
    · simp [ProcTable.activateProcess, ProcTable.modify_same]
    · obtain ⟨context, owed, delivers⟩ := coherent.ready next isReady
      refine ⟨context, (contextOf_interrupted_of_ne machine currentEsp differ).trans owed, ?_⟩
      simpa [ProcTable.activateProcess] using delivers
  · rw [result] at resumed ⊢
    obtain rfl := Option.some.inj resumed
    have alive : machine.table.currentProcess.state = .running ∨
        machine.table.currentProcess.state = .ready := by
      cases state : machine.table.currentProcess.state <;> simp_all
    refine ⟨?_, ?_, ?_⟩
    · simpa [ProcTable.keep, ProcTable.currentProcess] using alive.symm
    · simp [ProcTable.keep, ProcTable.modify_same]
    · simpa [ProcTable.keep] using coherent.delivers_current currentEsp alive
  · rw [result] at resumed
    cases resumed

/-- The current slot, put back into the queue, is still owed the frame in its
entry. -/
theorem suspend_ready (coherent : Coherent layout machine) (currentEsp : Nat)
    (isReady : ((machine.table.suspend currentEsp).processes machine.table.current).state =
      .ready) :
    ∃ context,
      contextOf machine.table.current (machine.interrupted currentEsp) = some context ∧
        Delivers layout machine.table.current
          ((machine.table.suspend currentEsp).processes machine.table.current).esp
          machine.table.stack context := by
  have saved := coherent.delivers_current currentEsp
  unfold ProcTable.saveCurrent at saved
  unfold ProcTable.suspend at isReady ⊢
  by_cases isRunning : machine.table.currentProcess.state = .running
  · rw [if_pos isRunning] at saved ⊢
    simpa [ProcTable.currentProcess, ProcTable.modify_same] using saved (Or.inl isRunning)
  · rw [if_neg isRunning] at saved isReady ⊢
    exact saved (Or.inr isReady)

theorem schedule (coherent : Coherent layout machine) (currentEsp : Nat) :
    Coherent layout
      { table := (machine.table.schedule currentEsp).2
        log := machine.interrupted currentEsp } := by
  rcases machine.table.schedule_cases currentEsp with
    ⟨next, nextReady, differ, result⟩ | ⟨-, -, result⟩ | ⟨dead, result⟩
  · rw [result]
    constructor
    · intro idx isRunning
      by_contra notNext
      simp only [ProcTable.activateProcess] at isRunning notNext
      rw [ProcTable.modify_of_ne _ notNext] at isRunning
      by_cases same : idx = machine.table.current
      · subst same
        exact machine.table.suspend_not_running currentEsp isRunning
      · rw [ProcTable.suspend_processes_of_ne _ _ same] at isRunning
        exact same (coherent.running idx isRunning)
    · intro idx idxReady
      have notNext : idx ≠ next := by
        rintro rfl
        simp [ProcTable.activateProcess, ProcTable.modify_same] at idxReady
      simp only [ProcTable.activateProcess, ProcTable.modify_of_ne _ notNext,
        ProcTable.modify_stack, ProcTable.suspend_stack] at idxReady ⊢
      by_cases same : idx = machine.table.current
      · subst same
        exact coherent.suspend_ready currentEsp idxReady
      · rw [ProcTable.suspend_processes_of_ne _ _ same] at idxReady ⊢
        rw [contextOf_interrupted_of_ne machine currentEsp same]
        exact coherent.ready idx idxReady
  · rw [result]
    have others : ∀ idx, idx ≠ machine.table.current →
        ((machine.table.saveCurrent currentEsp).keep).processes idx =
          machine.table.processes idx := by
      intro idx other
      rw [ProcTable.keep, ProcTable.saveCurrent_current, ProcTable.modify_of_ne _ other,
        ProcTable.saveCurrent_processes_of_ne _ _ other]
    constructor
    · intro idx isRunning
      simp only [ProcTable.keep, ProcTable.modify_current, ProcTable.saveCurrent_current]
      by_contra other
      have before := others idx other
      simp only at isRunning
      rw [before] at isRunning
      exact other (coherent.running idx isRunning)
    · intro idx idxReady
      have other : idx ≠ machine.table.current := by
        rintro rfl
        simp only [ProcTable.keep, ProcTable.saveCurrent_current] at idxReady
        rw [ProcTable.modify_same] at idxReady
        cases idxReady
      refine coherent.ready_of_same (others idx other) (fun addr own => ?_) ?_ idxReady
      · simp [ProcTable.keep]
      · exact contextOf_interrupted_of_ne machine currentEsp other
  · rw [result]
    have notRunning : ¬ machine.table.currentProcess.state = .running := by
      rcases dead with dead | dead <;> rw [dead] <;> decide
    rw [Machine.interrupted, if_neg notRunning]
    exact coherent

/-- Taking slots out of the queue keeps the invariant. -/
theorem modify_of_state (coherent : Coherent layout machine) (idx : ProcIdx)
    (change : Process → Process)
    (leaves : ∀ process, (change process).state = .zombie ∨
      (change process).state = .terminated) :
    Coherent layout { machine with table := machine.table.modify idx change } := by
  have gone : ∀ process, (change process).state ≠ .running ∧
      (change process).state ≠ .ready := by
    intro process
    rcases leaves process with state | state <;> rw [state] <;> decide
  constructor
  · intro other isRunning
    have differ : other ≠ idx := by
      rintro rfl
      rw [ProcTable.modify_same] at isRunning
      exact (gone _).1 isRunning
    rw [ProcTable.modify_of_ne _ differ] at isRunning
    exact coherent.running other isRunning
  · intro other isReady
    have differ : other ≠ idx := by
      rintro rfl
      rw [ProcTable.modify_same] at isReady
      exact (gone _).2 isReady
    exact coherent.ready_of_same (ProcTable.modify_of_ne _ differ _) (fun _ _ => rfl) rfl isReady

theorem exit (coherent : Coherent layout machine) (exitCode : Int) :
    Coherent layout { machine with table := machine.table.exitCurrentProcess exitCode } :=
  coherent.modify_of_state _ _ fun _ => Or.inl rfl

theorem terminate (coherent : Coherent layout machine) (idx : ProcIdx) :
    Coherent layout { machine with table := machine.table.terminate idx } :=
  coherent.modify_of_state _ _ fun _ => Or.inr rfl

theorem wait4 (coherent : Coherent layout machine) :
    Coherent layout { machine with table := machine.table.wait4.2 } := by
  rcases machine.table.wait4_cases with result | ⟨found, result⟩
  · rw [result]
    exact coherent
  · rw [result]
    exact coherent.modify_of_state found _ fun _ => Or.inr rfl

/-- Every event keeps the invariant. -/
theorem step {next : Machine} (coherent : Coherent layout machine)
    (step : Step layout machine next) : Coherent layout next := by
  cases step with
  | createProcess entryPoint pml4 => exact coherent.createProcess entryPoint pml4
  | setProcessEntry idx entryPoint waiting => exact coherent.setProcessEntry entryPoint waiting
  | setProcessArgv idx argc argvPtr waiting =>
      exact coherent.setProcessArgv argc argvPtr waiting
  | touch addr word executing own => exact coherent.touch word executing own
  | schedule currentEsp => exact coherent.schedule currentEsp
  | exit exitCode running => exact coherent.exit exitCode
  | terminate idx waiting => exact coherent.terminate idx
  | wait4 running => exact coherent.wait4

end Coherent

/-- The invariant holds along every run. -/
theorem Reachable.coherent {machine : Machine} (reachable : Reachable layout machine) :
    Coherent layout machine := by
  induction reachable with
  | init stack => exact Coherent.init stack
  | step reachable step ih => exact ih.step step

/-- Only `schedule` starts a slot running, and it never starts a zombie or a
terminated one. -/
theorem Step.running_of_alive {machine next : Machine} (step : Step layout machine next)
    {idx : ProcIdx} (isRunning : (next.table.processes idx).state = .running) :
    (machine.table.processes idx).state = .ready ∨
      (machine.table.processes idx).state = .running := by
  cases step with
  | createProcess entryPoint pml4 =>
      rcases machine.table.createProcess_cases layout entryPoint pml4 with
        ⟨-, result⟩ | ⟨created, process, -, -, isReady, -, processes, -, -⟩
      · rw [result] at isRunning
        exact Or.inr isRunning
      · simp only [processes] at isRunning
        by_cases same : idx = created
        · subst same
          rw [Function.update_self, isReady] at isRunning
          cases isRunning
        · rw [Function.update_of_ne same] at isRunning
          exact Or.inr isRunning
  | setProcessEntry other entryPoint waiting =>
      rw [ProcTable.setProcessEntry_processes] at isRunning
      exact Or.inr isRunning
  | setProcessArgv other argc argvPtr waiting =>
      rw [ProcTable.setProcessArgv_processes] at isRunning
      exact Or.inr isRunning
  | touch addr word executing own => exact Or.inr isRunning
  | schedule currentEsp =>
      rcases machine.table.schedule_cases currentEsp with
        ⟨started, isReady, differ, result⟩ | ⟨notTerminated, notZombie, result⟩ | ⟨-, result⟩
      · rw [result] at isRunning
        by_cases same : idx = started
        · subst same
          exact Or.inl isReady
        · simp only [ProcTable.activateProcess] at isRunning
          rw [ProcTable.modify_of_ne _ same] at isRunning
          by_cases current : idx = machine.table.current
          · subst current
            exact absurd isRunning (machine.table.suspend_not_running currentEsp)
          · rw [ProcTable.suspend_processes_of_ne _ _ current] at isRunning
            exact Or.inr isRunning
      · by_cases current : idx = machine.table.current
        · subst current
          cases state : (machine.table.processes machine.table.current).state with
          | ready => exact Or.inl rfl
          | running => exact Or.inr rfl
          | zombie => exact absurd state notZombie
          | terminated => exact absurd state notTerminated
        · simp only [result, ProcTable.keep, ProcTable.saveCurrent_current] at isRunning
          rw [ProcTable.modify_of_ne _ current,
            ProcTable.saveCurrent_processes_of_ne _ _ current] at isRunning
          exact Or.inr isRunning
      · rw [result] at isRunning
        exact Or.inr isRunning
  | exit exitCode running =>
      simp only [ProcTable.exitCurrentProcess] at isRunning
      exact Or.inr (ProcTable.running_of_modify (by simp) isRunning)
  | terminate other waiting =>
      simp only [ProcTable.terminate] at isRunning
      exact Or.inr (ProcTable.running_of_modify (by simp) isRunning)
  | wait4 running =>
      rcases machine.table.wait4_cases with result | ⟨found, result⟩
      · rw [result] at isRunning
        exact Or.inr isRunning
      · simp only [result] at isRunning
        exact Or.inr (ProcTable.running_of_modify (by simp) isRunning)

/-- Along every run of the process table at most one slot is running and it is
the current one, no event starts a zombie or a terminated slot, and every frame
`schedule` returns is the one its slot is owed: the frame it was last preempted
with since its creation, with its kernel stack as it was then, or the initial
frame on its own kernel stack with the entry point and arguments installed
since. -/
theorem schedule_resumes_own_context {machine : Machine}
    (reachable : Reachable layout machine) :
    (∀ idx, (machine.table.processes idx).state = .running → idx = machine.table.current) ∧
    (∀ next, Step layout machine next → ∀ idx,
      (next.table.processes idx).state = .running →
        (machine.table.processes idx).state ≠ .zombie ∧
          (machine.table.processes idx).state ≠ .terminated) ∧
    ∀ currentEsp esp, (machine.table.schedule currentEsp).1 = some esp →
      let table := (machine.table.schedule currentEsp).2
      (table.processes table.current).state = .running ∧
      (machine.table.processes table.current).state ≠ .zombie ∧
      (machine.table.processes table.current).state ≠ .terminated ∧
      ∃ context,
        contextOf table.current (machine.interrupted currentEsp) = some context ∧
          Delivers layout table.current esp table.stack context := by
  have alive : ∀ {state : ProcessState}, state = .ready ∨ state = .running →
      state ≠ .zombie ∧ state ≠ .terminated := by
    rintro state (rfl | rfl) <;> decide
  refine ⟨reachable.coherent.running, fun next step idx isRunning =>
    alive (step.running_of_alive isRunning), fun currentEsp esp resumed => ?_⟩
  obtain ⟨before, after, context⟩ := reachable.coherent.schedule_delivers resumed
  exact ⟨after, (alive before).1, (alive before).2, context⟩

/-- The first process is resumed at the bottom of the frame `create_process`
built on the first kernel stack. -/
theorem schedule_resumes_first_process :
    let layout : StackLayout := ⟨0x100000, 0x200000⟩
    let machine : Machine :=
      { table := ((ProcTable.schedulerInit fun _ => 0).createProcess layout 0x400000 1).2
        log := [.created 0 0x400000] }
    (machine.table.schedule 0).1 = some 0x101f60 ∧
      ∃ context, contextOf 0 machine.log = some context ∧
        Delivers layout 0 0x101f60 machine.table.stack context := by
  intro layout machine
  have reachable : Reachable layout machine :=
    .step (.init fun _ => 0) (.createProcess _ 0x400000 1)
  have resumed : (machine.table.schedule 0).1 = some 0x101f60 := by decide +kernel
  obtain ⟨-, -, delivered⟩ := schedule_resumes_own_context reachable
  obtain ⟨-, -, -, context, owed, delivers⟩ := delivered 0 0x101f60 resumed
  exact ⟨resumed, context, owed, delivers⟩

end Notux.Proc
