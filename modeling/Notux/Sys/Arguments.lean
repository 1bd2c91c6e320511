import Notux.Proc.Argv
import Notux.Sys.Spawn

/-!
# Arguments over a run

A process reads its arguments long after the `execve` that passed them has returned.
They lie in the buffers of the kernel, and each later `execve` that passes arguments
packs its own over them.  So they stay what they were as long as the later calls pass
nothing, or the same.

The files do not matter here, so an image is given as what the call learns about it; the
call on the files comes to the same processes, but for their descriptors.
-/

namespace Notux.Sys.Arguments

open Notux.Store Notux.Proc

/-! ## The calls -/

/-- An image that passes its checks: its entry point, the page tables of the new process,
and whether its segments load. -/
structure Image where
  entryPoint : Nat
  pml4 : Nat
  loads : Bool

/-- The process table with the log of its run, and memory. -/
structure World where
  machine : Machine
  ram : Ram

/-- `create_process`. -/
def createProcess (layout : StackLayout) (pml4 : Nat) (machine : Machine) : Int × Machine :=
  ((machine.table.createProcess layout 0 pml4).1,
    { table := (machine.table.createProcess layout 0 pml4).2
      log := (machine.table.createdSlot pml4).toList.map (.created · 0) ++ machine.log })

/-- `set_process_entry`. -/
def setProcessEntry (child : ProcIdx) (entryPoint : Nat) (machine : Machine) : Machine where
  table := machine.table.setProcessEntry child entryPoint
  log := .entrySet child entryPoint :: machine.log

/-- `set_process_argv`. -/
def setProcessArgv (child : ProcIdx) (argc argvPtr : Nat) (machine : Machine) : Machine where
  table := machine.table.setProcessArgv child argc argvPtr
  log := .argvSet child argc argvPtr :: machine.log

/-- The failure exit of `spawn_from_xv6fs`. -/
def terminate (child : ProcIdx) (machine : Machine) : Machine :=
  { machine with table := machine.table.terminate child }

/-- The end of `spawn_from_xv6fs`, which hands over the arguments. -/
def handOver (area : ArgvArea) (callerArgv : Word) (argc : Nat) (child : ProcIdx)
    (world : World) : World :=
  match installArgv area callerArgv argc world.ram with
  | (none, ram) => { world with ram }
  | (some (copiedArgc, argvPtrs), ram) =>
      ⟨setProcessArgv child copiedArgc argvPtrs.toNat world.machine, ram⟩

/-- `spawn_from_xv6fs` with the image that it finds. -/
def spawnFromXv6fs (layout : StackLayout) (area : ArgvArea) (image : Option Image)
    (callerArgv : Word) (argc : Nat) (world : World) : Int × World :=
  match image with
  | none => (-1, world)
  | some image =>
      let (pid, machine) := createProcess layout image.pml4 world.machine
      if pid < 0 then (-1, { world with machine })
      else
        match machine.table.getProcessByPid pid.toNat with
        | none => (-1, { world with machine })
        | some child =>
            if image.loads then
              let machine := setProcessEntry child image.entryPoint machine
              (pid, handOver area callerArgv argc child { world with machine })
            else (-1, { world with machine := terminate child machine })

/-- `spawn_from_ramfs` with the image that it finds, which gets no arguments. -/
def spawnFromRamfs (layout : StackLayout) (image : Option Image) (machine : Machine) :
    Int × Machine :=
  match image with
  | none => (-1, machine)
  | some image =>
      let (pid, machine) := createProcess layout image.pml4 machine
      if pid < 0 then (-1, machine)
      else
        match machine.table.getProcessByPid pid.toNat with
        | none => (-1, machine)
        | some child =>
            if image.loads then (0, setProcessEntry child image.entryPoint machine)
            else (-1, machine)

/-- System call 59. -/
def execve (layout : StackLayout) (area : ArgvArea) (onDisk inRamfs : Option Image)
    (callerArgv : Word) (argc : Nat) (world : World) : Int × World :=
  let (res, world) := spawnFromXv6fs layout area onDisk callerArgv argc world
  if res < 0 then
    let (res, machine) := spawnFromRamfs layout inRamfs world.machine
    (res, { world with machine })
  else (res, world)

/-- The start of the first process by `kernel()`, unless it panics. -/
def startInit (layout : StackLayout) (image : Image) (machine : Machine) : Option Machine :=
  let (pid, machine) := createProcess layout image.pml4 machine
  if pid < 0 then none
  else
    match machine.table.getProcessByPid pid.toNat with
    | none => none
    | some child =>
        if image.loads then some (setProcessEntry child image.entryPoint machine) else none

/-! ## Runs -/

/-- One event.  `touch` is the code that runs on the kernel stack of the current process,
and `store` is everything else that changes memory. -/
inductive Event where
  | execve (onDisk inRamfs : Option Image) (callerArgv : Word) (argc : Nat)
  | touch (addr : Nat) (word : Word)
  | store (bytes : ByteMemory)
  | timer (currentEsp : Nat)
  | exit (exitCode : Int)
  | wait4

namespace Event

/-- The running process makes the calls, and only a copy of arguments writes to the
buffers. -/
def Enabled (layout : StackLayout) (area : ArgvArea) (world : World) : Event → Prop
  | execve .. => world.machine.table.currentProcess.state = .running
  | touch addr _ =>
      (world.machine.table.currentProcess.state = .running ∨
        world.machine.table.currentProcess.state = .zombie) ∧
      layout.OnStack world.machine.table.current addr
  | store bytes => ∀ addr, area.Behind 0 0 addr → bytes addr = world.ram.bytes addr
  | timer _ => True
  | exit _ => world.machine.table.currentProcess.state = .running
  | wait4 => world.machine.table.currentProcess.state = .running

def after (layout : StackLayout) (area : ArgvArea) (world : World) : Event → World
  | execve onDisk inRamfs callerArgv argc =>
      (Arguments.execve layout area onDisk inRamfs callerArgv argc world).2
  | touch addr word =>
      { world with machine.table.stack :=
          Function.update world.machine.table.stack addr word }
  | store bytes => { world with ram.bytes := bytes }
  | timer currentEsp =>
      { world with machine :=
          { table := (world.machine.table.schedule currentEsp).2
            log := world.machine.interrupted currentEsp } }
  | exit exitCode =>
      { world with machine.table := world.machine.table.exitCurrentProcess exitCode }
  | wait4 => { world with machine.table := world.machine.table.wait4.2 }

/-- The pids that an `execve` may give to a process are not in use. -/
def PidsFree (world : World) : Event → Prop
  | execve .. => ∀ slot, Live world.machine.table slot →
      (world.machine.table.processes slot).pid ≠ world.machine.table.nextPid % 2 ^ 32 ∧
      (world.machine.table.processes slot).pid ≠ (world.machine.table.nextPid + 1) % 2 ^ 32
  | _ => True

end Event

/-- A state of a kernel that has booted, before pids are used twice. -/
inductive Reached (layout : StackLayout) (area : ArgvArea) : World → Prop where
  | boot (stack : Nat → Word) (ram : Ram) (image : Image) {machine : Machine}
      (started : startInit layout image ⟨ProcTable.schedulerInit stack, []⟩ = some machine) :
      Reached layout area ⟨machine, ram⟩
  | step {world : World} (reached : Reached layout area world) (event : Event)
      (enabled : event.Enabled layout area world) (pidsFree : event.PidsFree world) :
      Reached layout area (event.after layout area world)

/-- What may happen from a state on, while a process lives. -/
inductive Lives (layout : StackLayout) (area : ArgvArea) (child : ProcIdx)
    (Allowed : World → Event → Prop) (born : World) : World → Prop where
  | born : Lives layout area child Allowed born born
  | step {world : World} (lives : Lives layout area child Allowed born world) (event : Event)
      (alive : Live world.machine.table child) (enabled : event.Enabled layout area world)
      (pidsFree : event.PidsFree world) (allowed : Allowed world event) :
      Lives layout area child Allowed born (event.after layout area world)

/-- The arguments of a process: none at all, or strings in an array. -/
inductive Given (area : ArgvArea) (memory : ByteMemory) :
    Nat → Nat → Option (List (List Byte)) → Prop where
  | nothing : Given area memory 0 0 none
  | strings {argc : Nat} {strings : List (List Byte)}
      (finds : Finds memory argc area.ptrs strings) :
      Given area memory argc area.ptrs.toNat (some strings)

/-- The process finds the same as when it was created: the strings, the pointers to them
and, when it is first scheduled, the registers. -/
structure Unchanged (area : ArgvArea) (child : ProcIdx) (argc argvPtr : Nat)
    (args : Option (List (List Byte))) (born world : World) : Prop where
  given : Given area world.ram.bytes argc argvPtr args
  pointers : ∀ strings, args = some strings → ∀ k ≤ strings.length,
    loadWord world.ram.bytes (area.ptrs + BitVec.ofNat 64 (8 * k)) =
      loadWord born.ram.bytes (area.ptrs + BitVec.ofNat 64 (8 * k))
  registers : ∀ currentEsp esp, world.machine.NotRunYet child →
    (world.machine.table.schedule currentEsp).1 = some esp →
    (world.machine.table.schedule currentEsp).2.current = child →
      (world.machine.table.schedule currentEsp).2.stack (esp + 8 * 9) = BitVec.ofNat 64 argc ∧
      (world.machine.table.schedule currentEsp).2.stack (esp + 8 * 10) =
        BitVec.ofNat 64 argvPtr

/-- A process was created with arguments, and keeps them while it lives and nothing but
what is allowed happens. -/
def KeepsArgv (layout : StackLayout) (area : ArgvArea) (child : ProcIdx)
    (Allowed : Option (List (List Byte)) → World → Event → Prop) (born : World) : Prop :=
  ∃ entryPoint argc argvPtr args,
    contextOf child born.machine.log = some (.fresh entryPoint argc argvPtr) ∧
    Given area born.ram.bytes argc argvPtr args ∧
    ∀ world, Lives layout area child (Allowed args) born world →
      Unchanged area child argc argvPtr args born world

/-! ## What later calls may do -/

/-- The call comes as far as copying arguments. -/
def Copies (image : Option Image) (callerArgv : Word) (argc : Nat) (world : World) : Prop :=
  (∃ found, image = some found ∧ found.loads ∧
    world.machine.table.createdSlot found.pml4 ≠ none) ∧
  world.machine.table.nextPid % 2 ^ 32 < PID_LIMIT ∧
  callerArgv ≠ 0 ∧ 0 < argc ∧ argc < MAX_ARGV

/-- The array holds the strings, and the copy ends behind them. -/
structure Repeats (memory : ByteMemory) (callerArgv : Word) (argc : Nat)
    (strings : List (List Byte)) : Prop where
  passes : Passes memory callerArgv strings
  count : strings.length ≤ argc
  stops : strings.length < argc →
    loadWord memory (callerArgv + BitVec.ofNat 64 (8 * strings.length)) = 0 ∨
    ARGV_SCRATCH_SIZE ≤ packedSize strings +
      strLen memory (ARGV_SCRATCH_SIZE - packedSize strings)
        (loadWord memory (callerArgv + BitVec.ofNat 64 (8 * strings.length))) + 1

/-- A later `execve` copies no arguments, or the same. -/
def Spares (args : Option (List (List Byte))) (world : World) : Event → Prop
  | .execve onDisk _ callerArgv argc =>
      ∀ strings, args = some strings → Copies onDisk callerArgv argc world →
        Repeats world.ram.bytes callerArgv argc strings
  | _ => True

/-! ## What a spawn does to the table -/

section Births

variable {layout : StackLayout} {machine : Machine} {slot : ProcIdx}

/-- A process was put into a slot, and is ready to run with its entry point and
arguments. -/
structure Birth (layout : StackLayout) (machine : Machine) (slot : ProcIdx) (after : Machine)
    (entryPoint argc argvPtr : Nat) : Prop where
  reachable : Reachable layout machine → Reachable layout after
  free : ¬ Live machine.table slot
  ready : (after.table.processes slot).state = .ready
  pid : (after.table.processes slot).pid = machine.table.nextPid % 2 ^ 32
  nextPid : after.table.nextPid = machine.table.nextPid + 1
  context : contextOf slot after.log = some (.fresh entryPoint argc argvPtr)
  others : ∀ other, other ≠ slot →
    after.table.processes other = machine.table.processes other ∧
      contextOf other after.log = contextOf other machine.log

namespace Birth

variable {after : Machine} {entryPoint argc argvPtr : Nat}

theorem created {pml4 : Nat} (found : machine.table.createdSlot pml4 = some slot) :
    Birth layout machine slot (createProcess layout pml4 machine).2 0 0 0 := by
  obtain ⟨free, -, -, nextPid, process, ready, pid, -, -, -, processes⟩ :=
    @ProcTable.createProcess_fills layout machine.table 0 pml4 slot found
  constructor
  · exact fun reachable => .step reachable (.createProcess machine 0 pml4)
  · exact not_not.mpr free
  · simp only [createProcess, processes, Function.update_self, ready]
  · simp only [createProcess, processes, Function.update_self, pid]
  · exact nextPid
  · simp [createProcess, found, contextOf]
  · intro other differ
    constructor
    · simp only [createProcess, processes, Function.update_of_ne differ]
    · simp [createProcess, found, contextOf, Ne.symm differ]

theorem notRunYet (birth : Birth layout machine slot after entryPoint argc argvPtr) :
    after.NotRunYet slot :=
  ⟨birth.ready, entryPoint, argc, argvPtr, birth.context⟩

theorem setProcessEntry (birth : Birth layout machine slot after entryPoint argc argvPtr)
    (entry : Nat) :
    Birth layout machine slot (setProcessEntry slot entry after) entry argc argvPtr := by
  constructor
  · exact fun reachable =>
      .step (birth.reachable reachable) (.setProcessEntry after slot entry birth.notRunYet)
  · exact birth.free
  · simp only [Arguments.setProcessEntry, ProcTable.setProcessEntry_processes, birth.ready]
  · simp only [Arguments.setProcessEntry, ProcTable.setProcessEntry_processes, birth.pid]
  · simp only [Arguments.setProcessEntry, ProcTable.setProcessEntry]
    split <;> exact birth.nextPid
  · simp [Arguments.setProcessEntry, contextOf, birth.context, Context.withEntry]
  · intro other differ
    obtain ⟨process, context⟩ := birth.others other differ
    constructor
    · simp only [Arguments.setProcessEntry, ProcTable.setProcessEntry_processes, process]
    · simp [Arguments.setProcessEntry, contextOf, Ne.symm differ, context]

theorem setProcessArgv (birth : Birth layout machine slot after entryPoint argc argvPtr)
    (count ptr : Nat) :
    Birth layout machine slot (setProcessArgv slot count ptr after) entryPoint count ptr := by
  constructor
  · exact fun reachable =>
      .step (birth.reachable reachable) (.setProcessArgv after slot count ptr birth.notRunYet)
  · exact birth.free
  · simp only [Arguments.setProcessArgv, ProcTable.setProcessArgv_processes, birth.ready]
  · simp only [Arguments.setProcessArgv, ProcTable.setProcessArgv_processes, birth.pid]
  · simp only [Arguments.setProcessArgv, ProcTable.setProcessArgv]
    split <;> exact birth.nextPid
  · simp [Arguments.setProcessArgv, contextOf, birth.context, Context.withArgv]
  · intro other differ
    obtain ⟨process, context⟩ := birth.others other differ
    constructor
    · simp only [Arguments.setProcessArgv, ProcTable.setProcessArgv_processes, process]
    · simp [Arguments.setProcessArgv, contextOf, Ne.symm differ, context]

end Birth

/-- What a spawn without arguments does to the table. -/
inductive Outcome (layout : StackLayout) (machine : Machine) : Machine → Prop where
  | nothing : Outcome layout machine machine
  | born {slot : ProcIdx} {after : Machine} {entryPoint : Nat}
      (birth : Birth layout machine slot after entryPoint 0 0) : Outcome layout machine after
  | undone {slot : ProcIdx} {after : Machine} {entryPoint : Nat}
      (birth : Birth layout machine slot after entryPoint 0 0) :
      Outcome layout machine (terminate slot after)

namespace Outcome

variable {after : Machine}

theorem reachable (outcome : Outcome layout machine after) (reached : Reachable layout machine) :
    Reachable layout after := by
  cases outcome with
  | nothing => exact reached
  | born birth => exact birth.reachable reached
  | undone birth => exact .step (birth.reachable reached) (.terminate _ _ birth.notRunYet)

/-- A process that lives goes on, and is owed the same. -/
theorem old (outcome : Outcome layout machine after) {child : ProcIdx}
    (alive : Live machine.table child) :
    Live after.table child ∧ contextOf child after.log = contextOf child machine.log := by
  cases outcome with
  | nothing => exact ⟨alive, rfl⟩
  | @born slot _ _ birth =>
      have differ : child ≠ slot := by
        rintro rfl
        exact birth.free alive
      obtain ⟨process, context⟩ := birth.others child differ
      exact ⟨by rwa [Live, process], context⟩
  | @undone slot middle _ birth =>
      have differ : child ≠ slot := by
        rintro rfl
        exact birth.free alive
      obtain ⟨process, context⟩ := birth.others child differ
      constructor
      · rw [Live, terminate, ProcTable.terminate]
        rwa [ProcTable.modify_of_ne _ differ, process]
      · exact context

/-- A process that is new gets no arguments. -/
theorem new (outcome : Outcome layout machine after) {child : ProcIdx}
    (free : ¬ Live machine.table child) (alive : Live after.table child) :
    ∃ entryPoint, contextOf child after.log = some (.fresh entryPoint 0 0) := by
  cases outcome with
  | nothing => exact absurd alive free
  | @born slot _ entryPoint birth =>
      by_cases same : child = slot
      · subst same
        exact ⟨entryPoint, birth.context⟩
      · rw [Live, (birth.others child same).1] at alive
        exact absurd alive free
  | @undone slot middle entryPoint birth =>
      rw [Live, terminate, ProcTable.terminate] at alive
      by_cases same : child = slot
      · subst same
        rw [ProcTable.modify_same] at alive
        exact absurd rfl alive
      · rw [ProcTable.modify_of_ne _ same, (birth.others child same).1] at alive
        exact absurd alive free

/-- The pid after the next one is not in use either way. -/
theorem nextPidFree (outcome : Outcome layout machine after)
    (free : ∀ slot, Live machine.table slot →
      (machine.table.processes slot).pid ≠ machine.table.nextPid % 2 ^ 32 ∧
      (machine.table.processes slot).pid ≠ (machine.table.nextPid + 1) % 2 ^ 32) :
    NextPidFree after.table := by
  have born : ∀ {slot middle entryPoint}, Birth layout machine slot middle entryPoint 0 0 →
      NextPidFree middle.table := by
    intro slot middle entryPoint birth other alive
    rw [birth.nextPid]
    by_cases same : other = slot
    · subst same
      rw [birth.pid]
      omega
    · have process := (birth.others other same).1
      rw [Live, process] at alive
      rw [process]
      exact (free other alive).2
  cases outcome with
  | nothing => exact fun slot alive => (free slot alive).1
  | born birth => exact born birth
  | @undone slot middle _ birth =>
      intro other alive
      by_cases same : other = slot
      · subst same
        rw [Live, terminate, ProcTable.terminate, ProcTable.modify_same] at alive
        exact absurd rfl alive
      · rw [Live, terminate, ProcTable.terminate, ProcTable.modify_of_ne _ same] at alive
        rw [terminate, ProcTable.terminate, ProcTable.modify_of_ne _ same]
        exact born birth other alive

end Outcome

/-! ## What the spawns do -/

/-- The process that is found is the one that was created, and its pid is small. -/
theorem created_cases (layout : StackLayout) (machine : Machine) (pml4 : Nat)
    (free : NextPidFree machine.table) :
    createProcess layout pml4 machine = (-1, machine) ∨
    ∃ slot, machine.table.createdSlot pml4 = some slot ∧
      ((createProcess layout pml4 machine).1 < 0 ∨
        ¬ (createProcess layout pml4 machine).1 < 0 ∧
        machine.table.nextPid % 2 ^ 32 < PID_LIMIT ∧
        (createProcess layout pml4 machine).2.table.getProcessByPid
          (createProcess layout pml4 machine).1.toNat = some slot) := by
  cases found : machine.table.createdSlot pml4 with
  | none =>
      left
      unfold createProcess
      rw [ProcTable.createProcess_fails layout found, found]
      rfl
  | some slot =>
      right
      obtain ⟨-, result, -, -, process, ready, pid, -, -, -, processes⟩ :=
        @ProcTable.createProcess_fills layout machine.table 0 pml4 slot found
      refine ⟨slot, rfl, ?_⟩
      by_cases small : machine.table.nextPid % 2 ^ 32 < PID_LIMIT
      · right
        simp only [createProcess, result, toInt32_of_small small]
        refine ⟨by omega, small, ?_⟩
        rw [Int.toNat_natCast, ← pid]
        apply getProcessByPid_created processes
        · rw [ready]
          decide
        · rw [pid]
          exact free
      · left
        simp only [createProcess, result]
        exact toInt32_of_large (Nat.le_of_not_lt small) (Nat.mod_lt _ (by decide))

theorem spawnFromRamfs_outcome (layout : StackLayout) (image : Option Image) (machine : Machine)
    (free : NextPidFree machine.table) :
    Outcome layout machine (spawnFromRamfs layout image machine).2 := by
  unfold spawnFromRamfs
  cases image with
  | none => exact .nothing
  | some image =>
      dsimp only
      rcases created_cases layout machine image.pml4 free with
        failed | ⟨slot, found, negative | ⟨nonneg, -, lookup⟩⟩
      · rw [failed]
        exact .nothing
      · rw [if_pos negative]
        exact .born (.created found)
      · rw [if_neg nonneg, lookup]
        dsimp only
        split
        · exact .born (Birth.setProcessEntry (.created found) image.entryPoint)
        · exact .born (.created found)

/-- The arguments that a call installs. -/
structure Installs (area : ArgvArea) (callerArgv : Word) (argc : Nat) (ram : Ram)
    (strings : List (List Byte)) : Prop where
  given : callerArgv ≠ 0 ∧ 0 < argc ∧ argc < MAX_ARGV
  few : strings.length < MAX_ARGV
  fits : packedSize strings < ARGV_SCRATCH_SIZE
  nonzero : ∀ string ∈ strings, ∀ byte ∈ string, byte ≠ 0
  result : installArgv area callerArgv argc ram =
    (some (strings.length, area.ptrs), ram.store (packArgs area strings))

theorem handOver_cases (area : ArgvArea) (callerArgv : Word) (argc : Nat) (child : ProcIdx)
    (world : World) :
    handOver area callerArgv argc child world = world ∨
    ∃ strings, Installs area callerArgv argc world.ram strings ∧
      handOver area callerArgv argc child world =
        ⟨setProcessArgv child strings.length area.ptrs.toNat world.machine,
          world.ram.store (packArgs area strings)⟩ := by
  unfold handOver
  by_cases given : callerArgv ≠ 0 ∧ 0 < argc ∧ argc < MAX_ARGV
  · right
    obtain ⟨strings, few, fits, served, result⟩ :=
      @installArgv_packs area _ _ world.ram given
    refine ⟨strings, ⟨given, Nat.lt_of_le_of_lt few given.2.2, fits, served.nonzero fits,
      result⟩, ?_⟩
    rw [result]
  · left
    rw [installArgv, if_neg given]

/-- `spawn_from_xv6fs` passes no arguments, or copies them for the new process. -/
theorem spawnFromXv6fs_cases (layout : StackLayout) (area : ArgvArea) (image : Option Image)
    (callerArgv : Word) (argc : Nat) (world : World) (free : NextPidFree world.machine.table) :
    let result := spawnFromXv6fs layout area image callerArgv argc world
    Outcome layout world.machine result.2.machine ∧ result.2.ram = world.ram ∨
    ¬ result.1 < 0 ∧ ∃ slot entryPoint strings,
      Copies image callerArgv argc world ∧
      Birth layout world.machine slot result.2.machine entryPoint strings.length
        area.ptrs.toNat ∧
      Installs area callerArgv argc world.ram strings ∧
      result.2.ram = world.ram.store (packArgs area strings) := by
  unfold spawnFromXv6fs
  cases image with
  | none => exact Or.inl ⟨.nothing, rfl⟩
  | some image =>
      dsimp only
      rcases created_cases layout world.machine image.pml4 free with
        failed | ⟨slot, found, negative | ⟨nonneg, small, lookup⟩⟩
      · rw [failed]
        exact Or.inl ⟨.nothing, rfl⟩
      · rw [if_pos negative]
        exact Or.inl ⟨.born (.created found), rfl⟩
      · rw [if_neg nonneg, lookup]
        dsimp only
        by_cases loads : image.loads
        · rw [if_pos loads]
          have birth := Birth.setProcessEntry (@Birth.created layout _ _ _ found) image.entryPoint
          rcases handOver_cases area callerArgv argc slot
              ⟨setProcessEntry slot image.entryPoint
                (createProcess layout image.pml4 world.machine).2, world.ram⟩ with
            none | ⟨strings, installs, handed⟩
          · rw [none]
            exact Or.inl ⟨.born birth, rfl⟩
          · rw [handed]
            refine Or.inr ⟨nonneg, slot, image.entryPoint, strings, ?_, ?_, installs, rfl⟩
            · refine ⟨⟨image, rfl, loads, ?_⟩, small, installs.given⟩
              rw [found]
              exact nofun
            · exact birth.setProcessArgv strings.length area.ptrs.toNat
        · rw [if_neg loads]
          exact Or.inl ⟨.undone (.created found), rfl⟩

/-- So does `execve`, which may try twice. -/
theorem execve_cases (layout : StackLayout) (area : ArgvArea) (onDisk inRamfs : Option Image)
    (callerArgv : Word) (argc : Nat) {world : World}
    (pidsFree : (Event.execve onDisk inRamfs callerArgv argc).PidsFree world) :
    let after := (execve layout area onDisk inRamfs callerArgv argc world).2
    (∃ middle, Outcome layout world.machine middle ∧ Outcome layout middle after.machine ∧
      after.ram = world.ram) ∨
    ∃ slot entryPoint strings,
      Copies onDisk callerArgv argc world ∧
      Birth layout world.machine slot after.machine entryPoint strings.length area.ptrs.toNat ∧
      Installs area callerArgv argc world.ram strings ∧
      after.ram = world.ram.store (packArgs area strings) := by
  have free : NextPidFree world.machine.table := fun slot alive => (pidsFree slot alive).1
  unfold execve
  dsimp only
  rcases spawnFromXv6fs_cases layout area onDisk callerArgv argc world free with
    ⟨outcome, ram⟩ | ⟨nonneg, copied⟩
  · left
    refine ⟨_, outcome, ?_⟩
    split
    · exact ⟨spawnFromRamfs_outcome layout inRamfs _ (outcome.nextPidFree pidsFree), ram⟩
    · exact ⟨.nothing, ram⟩
  · right
    rw [if_neg nonneg]
    exact copied

end Births

/-! ## What stays -/

section Stays

variable {layout : StackLayout} {area : ArgvArea}

/-- A copy of what is there changes nothing. -/
theorem installArgv_repeats {callerArgv : Word} {argc : Nat} {ram : Ram}
    {strings : List (List Byte)} (given : callerArgv ≠ 0 ∧ 0 < argc ∧ argc < MAX_ARGV)
    (fits : packedSize strings < ARGV_SCRATCH_SIZE)
    (packed : ∀ store ∈ packArgs area strings, ram.bytes store.1 = store.2)
    (repeats : Repeats ram.bytes callerArgv argc strings) :
    (installArgv area callerArgv argc ram).2.bytes = ram.bytes := by
  have here := fun store member => packed store (List.mem_append_left _ member)
  have served : Served area callerArgv ram.bytes 0 0 strings := by
    apply served_of_packed here
    intro k inside
    rw [Nat.zero_add]
    exact ⟨repeats.passes.nonnull k inside, repeats.passes.each k inside⟩
  have same : (ram.store (packStrings area 0 0 strings)).bytes = ram.bytes :=
    overwrite_eq_self here
  have stopped : ∃ scratchPtr, copyArgv area callerArgv argc 0 ⟨ram, 0, 0⟩ =
      ⟨ram.store (packStrings area 0 0 strings), scratchPtr, strings.length⟩ := by
    obtain ⟨more, count⟩ := Nat.exists_eq_add_of_le repeats.count
    have copied := @copyArgv_append area callerArgv ram more 0 0 strings served
      (by rwa [Nat.zero_add])
    rw [Nat.zero_add, Nat.zero_add] at copied
    rw [count, copied]
    cases more with
    | zero => exact ⟨_, rfl⟩
    | succ more =>
        refine ⟨packedSize strings, ?_⟩
        rw [copyArgv]
        dsimp only
        rw [same]
        by_cases null :
            loadWord ram.bytes (callerArgv + BitVec.ofNat 64 (8 * strings.length)) = 0
        · rw [if_pos null]
        · rw [if_neg null, if_pos ((repeats.stops (by omega)).resolve_left null)]
  obtain ⟨scratchPtr, stopped⟩ := stopped
  unfold installArgv
  rw [if_pos given, stopped]
  apply (overwrite_append (packStrings area 0 0 strings) _).symm.trans
  exact overwrite_eq_self packed

/-- What the table and memory owe to a process that was created with arguments. -/
structure Holds (layout : StackLayout) (area : ArgvArea) (child : ProcIdx) (argc argvPtr : Nat)
    (args : Option (List (List Byte))) (world : World) : Prop where
  reachable : Reachable layout world.machine
  owed : Live world.machine.table child →
    (∃ entryPoint,
      contextOf child world.machine.log = some (.fresh entryPoint argc argvPtr)) ∨
    ∃ esp stack, contextOf child world.machine.log = some (.saved esp stack)
  packed : ∀ strings, args = some strings →
    ∀ store ∈ packArgs area strings, world.ram.bytes store.1 = store.2

/-- The arguments fit into the buffers. -/
def Fit (args : Option (List (List Byte))) : Prop :=
  ∀ strings, args = some strings →
    packedSize strings < ARGV_SCRATCH_SIZE ∧ strings.length < MAX_ARGV

variable {child : ProcIdx} {argc argvPtr : Nat} {args : Option (List (List Byte))}

theorem Holds.execve {world : World} (holds : Holds layout area child argc argvPtr args world)
    (fit : Fit args) (onDisk inRamfs : Option Image) (callerArgv : Word) (count : Nat)
    (alive : Live world.machine.table child)
    (pidsFree : (Event.execve onDisk inRamfs callerArgv count).PidsFree world)
    (spares : Spares args world (.execve onDisk inRamfs callerArgv count)) :
    Holds layout area child argc argvPtr args
      (execve layout area onDisk inRamfs callerArgv count world).2 := by
  rcases execve_cases layout area onDisk inRamfs callerArgv count pidsFree with
    ⟨middle, first, second, ram⟩ | ⟨slot, entryPoint, strings, copies, birth, installs, ram⟩
  · obtain ⟨goesOn, same⟩ := first.old alive
    constructor
    · exact second.reachable (first.reachable holds.reachable)
    · intro _
      rw [(second.old goesOn).2, same]
      exact holds.owed alive
    · rw [ram]
      exact holds.packed
  · have differ : child ≠ slot := by
      rintro rfl
      exact birth.free alive
    constructor
    · exact birth.reachable holds.reachable
    · intro _
      rw [(birth.others child differ).2]
      exact holds.owed alive
    · intro mine isMine
      have packed := holds.packed mine isMine
      have unchanged := installArgv_repeats installs.given (fit mine isMine).1 packed
        (spares mine isMine copies)
      rw [installs.result] at unchanged
      rw [ram]
      intro store member
      exact (congrFun unchanged store.1).trans (packed store member)

/-- What a timer interrupt leaves to a process. -/
theorem owed_of_interrupted {machine : Machine} (currentEsp : Nat)
    (owed : (∃ entryPoint,
        contextOf child machine.log = some (.fresh entryPoint argc argvPtr)) ∨
      ∃ esp stack, contextOf child machine.log = some (.saved esp stack)) :
    (∃ entryPoint,
      contextOf child (machine.interrupted currentEsp) = some (.fresh entryPoint argc argvPtr)) ∨
    ∃ esp stack, contextOf child (machine.interrupted currentEsp) = some (.saved esp stack) := by
  by_cases current : child = machine.table.current
  · unfold Machine.interrupted
    split
    · exact Or.inr ⟨currentEsp, machine.table.stack, if_pos current.symm⟩
    · exact owed
  · rw [Coherent.contextOf_interrupted_of_ne machine currentEsp current]
    exact owed

/-- Every event that is allowed leaves a process what it is owed. -/
theorem Holds.step {world : World} (holds : Holds layout area child argc argvPtr args world)
    (fit : Fit args) (event : Event) (alive : Live world.machine.table child)
    (enabled : event.Enabled layout area world) (pidsFree : event.PidsFree world)
    (spares : Spares args world event) :
    Holds layout area child argc argvPtr args (event.after layout area world) := by
  cases event with
  | execve onDisk inRamfs callerArgv count =>
      exact holds.execve fit onDisk inRamfs callerArgv count alive pidsFree spares
  | touch addr word =>
      exact ⟨.step holds.reachable (.touch world.machine addr word enabled.1 enabled.2),
        fun _ => holds.owed alive, holds.packed⟩
  | store bytes =>
      refine ⟨holds.reachable, fun _ => holds.owed alive, ?_⟩
      intro strings isArgs store member
      obtain ⟨size, few⟩ := fit strings isArgs
      exact (enabled store.1 (behind_of_mem_packArgs member size few)).trans
        (holds.packed strings isArgs store member)
  | timer currentEsp =>
      exact ⟨.step holds.reachable (.schedule world.machine currentEsp),
        fun _ => owed_of_interrupted currentEsp (holds.owed alive), holds.packed⟩
  | exit exitCode =>
      exact ⟨.step holds.reachable (.exit world.machine exitCode enabled),
        fun _ => holds.owed alive, holds.packed⟩
  | wait4 =>
      exact ⟨.step holds.reachable (.wait4 world.machine enabled),
        fun _ => holds.owed alive, holds.packed⟩

theorem Lives.holds {born world : World}
    (lives : Lives layout area child (Spares args) born world)
    (holds : Holds layout area child argc argvPtr args born) (fit : Fit args) :
    Holds layout area child argc argvPtr args world := by
  induction lives with
  | born => exact holds
  | step _ event alive enabled pidsFree spares ih =>
      exact ih.step fit event alive enabled pidsFree spares

/-- The arguments are given in a certain way: none, or packed strings. -/
def Packed (area : ArgvArea) (argc argvPtr : Nat) : Option (List (List Byte)) → Prop
  | none => argc = 0 ∧ argvPtr = 0
  | some strings => argc = strings.length ∧ argvPtr = area.ptrs.toNat ∧
      ∀ string ∈ strings, ∀ byte ∈ string, byte ≠ 0

theorem Holds.given {world : World} (holds : Holds layout area child argc argvPtr args world)
    (packed : Packed area argc argvPtr args) : Given area world.ram.bytes argc argvPtr args := by
  cases args with
  | none =>
      obtain ⟨rfl, rfl⟩ := packed
      exact .nothing
  | some strings =>
      obtain ⟨rfl, rfl, nonzero⟩ := packed
      exact .strings (finds_of_packed nonzero (holds.packed strings rfl))

/-- So the process finds the same as in the beginning. -/
theorem Holds.unchanged {born world : World}
    (holds : Holds layout area child argc argvPtr args world)
    (first : Holds layout area child argc argvPtr args born)
    (packed : Packed area argc argvPtr args) :
    Unchanged area child argc argvPtr args born world where
  given := holds.given packed
  pointers := by
    rintro strings rfl k inside
    obtain ⟨-, -, nonzero⟩ := packed
    rcases Nat.lt_or_eq_of_le inside with below | rfl
    · have place : 0 + k = k := Nat.zero_add k
      have now := reads_of_packed nonzero (fun store member =>
        holds.packed strings rfl store (List.mem_append_left _ member)) k below
      have before := reads_of_packed nonzero (fun store member =>
        first.packed strings rfl store (List.mem_append_left _ member)) k below
      rw [place] at now before
      rw [now.1, before.1]
    · exact (finds_of_packed nonzero (holds.packed strings rfl)).ends.trans
        (finds_of_packed nonzero (first.packed strings rfl)).ends.symm
  registers := by
    rintro currentEsp esp ⟨ready, entry, count, ptr, fresh⟩ resumed isChild
    obtain ⟨-, -, delivered⟩ := schedule_resumes_own_context holds.reachable
    obtain ⟨-, -, -, context, owed, delivers⟩ := delivered currentEsp esp resumed
    rw [isChild] at owed delivers
    have waits : contextOf child (world.machine.interrupted currentEsp) =
        contextOf child world.machine.log := by
      unfold Machine.interrupted
      split
      · next running =>
        refine if_neg ?_
        rintro rfl
        exact absurd (ready.symm.trans running) (by decide)
      · rfl
    have live : Live world.machine.table child := by
      rw [Live, ready]
      decide
    rw [waits] at owed
    rcases holds.owed live with ⟨entryPoint, isFresh⟩ | ⟨esp', stack, isSaved⟩
    · rw [isFresh] at owed
      cases owed
      obtain ⟨atFrame, words⟩ := delivers
      rw [atFrame]
      exact ⟨words 9 (by decide), words 10 (by decide)⟩
    · rw [isSaved] at fresh
      cases fresh

end Stays

/-! ## Every run -/

section Runs

variable {layout : StackLayout} {area : ArgvArea}

theorem startInit_reachable {image : Image} {stack : Nat → Word} {machine : Machine}
    (started : startInit layout image ⟨ProcTable.schedulerInit stack, []⟩ = some machine) :
    Reachable layout machine := by
  unfold startInit at started
  dsimp only at started
  have free : NextPidFree (ProcTable.schedulerInit stack) := fun slot alive => absurd rfl alive
  rcases created_cases layout ⟨ProcTable.schedulerInit stack, []⟩ image.pml4 free with
    failed | ⟨slot, found, negative | ⟨nonneg, -, lookup⟩⟩
  · have negative : (-1 : Int) < 0 := by decide
    rw [failed, if_pos negative] at started
    cases started
  · rw [if_pos negative] at started
    cases started
  · rw [if_neg nonneg, lookup] at started
    dsimp only at started
    split at started
    · cases started
      exact (Birth.setProcessEntry (.created found) image.entryPoint).reachable (.init stack)
    · cases started

theorem execve_reachable {onDisk inRamfs : Option Image} {callerArgv : Word} {argc : Nat}
    {world : World} (pidsFree : (Event.execve onDisk inRamfs callerArgv argc).PidsFree world)
    (reachable : Reachable layout world.machine) :
    Reachable layout (execve layout area onDisk inRamfs callerArgv argc world).2.machine := by
  rcases execve_cases layout area onDisk inRamfs callerArgv argc pidsFree with
    ⟨middle, first, second, -⟩ | ⟨slot, entryPoint, strings, -, birth, -⟩
  · exact second.reachable (first.reachable reachable)
  · exact birth.reachable reachable

theorem Reached.reachable {world : World} (reached : Reached layout area world) :
    Reachable layout world.machine := by
  induction reached with
  | boot stack ram image started => exact startInit_reachable started
  | @step world _ event enabled pidsFree ih =>
      cases event with
      | execve onDisk inRamfs callerArgv argc => exact execve_reachable pidsFree ih
      | touch addr word => exact .step ih (.touch world.machine addr word enabled.1 enabled.2)
      | store bytes => exact ih
      | timer currentEsp => exact .step ih (.schedule world.machine currentEsp)
      | exit exitCode => exact .step ih (.exit world.machine exitCode enabled)
      | wait4 => exact .step ih (.wait4 world.machine enabled)

/-- A process that an `execve` creates keeps the arguments it was given then, as long as
every later `execve` copies no arguments or the same ones. -/
theorem argv_stable {world : World} (reached : Reached layout area world)
    (onDisk inRamfs : Option Image) (callerArgv : Word) (argc : Nat)
    (pidsFree : (Event.execve onDisk inRamfs callerArgv argc).PidsFree world) {child : ProcIdx}
    (free : ¬ Live world.machine.table child)
    (alive : Live (execve layout area onDisk inRamfs callerArgv argc world).2.machine.table
      child) :
    KeepsArgv layout area child Spares
      (execve layout area onDisk inRamfs callerArgv argc world).2 := by
  have reachable := @execve_reachable _ area _ _ _ _ _ pidsFree reached.reachable
  rcases execve_cases layout area onDisk inRamfs callerArgv argc pidsFree with
    ⟨middle, first, second, ram⟩ | ⟨slot, entryPoint, strings, copies, birth, installs, ram⟩
  · have none : ∃ entryPoint, contextOf child
        (execve layout area onDisk inRamfs callerArgv argc world).2.machine.log =
          some (.fresh entryPoint 0 0) := by
      by_cases early : Live middle.table child
      · obtain ⟨entryPoint, context⟩ := first.new free early
        exact ⟨entryPoint, (second.old early).2.trans context⟩
      · exact second.new early alive
    obtain ⟨entryPoint, context⟩ := none
    have holds : Holds layout area child 0 0 none
        (execve layout area onDisk inRamfs callerArgv argc world).2 :=
      ⟨reachable, fun _ => Or.inl ⟨entryPoint, context⟩, nofun⟩
    exact ⟨entryPoint, 0, 0, none, context, .nothing, fun later lives =>
      (lives.holds holds nofun).unchanged holds ⟨rfl, rfl⟩⟩
  · have same : child = slot := by
      by_contra differ
      rw [Live, (birth.others child differ).1] at alive
      exact free alive
    subst same
    have packed : Packed area strings.length area.ptrs.toNat (some strings) :=
      ⟨rfl, rfl, installs.nonzero⟩
    have fit : Fit (some strings) := by
      intro mine isMine
      obtain rfl := Option.some.inj isMine
      exact ⟨installs.fits, installs.few⟩
    have holds : Holds layout area child strings.length area.ptrs.toNat (some strings)
        (execve layout area onDisk inRamfs callerArgv argc world).2 := by
      refine ⟨reachable, fun _ => Or.inl ⟨entryPoint, birth.context⟩, ?_⟩
      intro mine isMine
      obtain rfl := Option.some.inj isMine
      rw [ram]
      exact packArgs_holds installs.fits installs.few
    exact ⟨entryPoint, strings.length, area.ptrs.toNat, some strings, birth.context,
      holds.given packed, fun later lives => (lives.holds holds fit).unchanged holds packed⟩

end Runs

/-! ## The same calls on the files

`execve` of the file system with these tables: the image is the one that it finds under the
path, and the descriptors that a new process gets from its parent are forgotten. -/

section Refinement

open Notux.Fs

theorem withoutFiles_setProcessEntry (child : ProcIdx) (entryPoint : Nat) (table : ProcTable) :
    (withoutFiles table).setProcessEntry child entryPoint =
      withoutFiles (table.setProcessEntry child entryPoint) := by
  have esp : ((withoutFiles table).processes child).esp = (table.processes child).esp := rfl
  unfold ProcTable.setProcessEntry
  dsimp only
  rw [esp, apply_ite withoutFiles]
  rfl

theorem withoutFiles_setProcessArgv (child : ProcIdx) (argc argvPtr : Nat) (table : ProcTable) :
    (withoutFiles table).setProcessArgv child argc argvPtr =
      withoutFiles (table.setProcessArgv child argc argvPtr) := by
  have esp : ((withoutFiles table).processes child).esp = (table.processes child).esp := rfl
  unfold ProcTable.setProcessArgv
  dsimp only
  rw [esp, apply_ite withoutFiles]
  rfl

variable {area : ArgvArea} {callerArgv : Word} {argc : Nat} {log : List Obs} {ram : Ram}

/-- The vector that is copied for a new process. -/
def Copied (area : ArgvArea) (callerArgv : Word) (argc : Nat) (ram : Ram) (env : SpawnEnv) : Prop :=
  env.argv = (installArgv area callerArgv argc ram).1.map fun vector => (vector.1, vector.2.toNat)

/-- An image on disk, with what the memory manager and the loader make of it. -/
def imageFrom (env : SpawnEnv) (bytes : Nat → Byte) : Image where
  entryPoint := elfEntry bytes
  pml4 := env.pml4
  loads := env.loads

/-- The end of a call is the end of the call on tables without files. -/
def Mirrors (done : Int × World) (result : Int) (after : ProcTable) : Prop :=
  done.1 = result ∧ done.2.machine.table = withoutFiles after

/-- The arguments are handed over, if any were copied. -/
theorem handOver_mirrors {env : SpawnEnv} {pid : Int} {child : ProcIdx} {machine : Machine}
    {world : FsWorld} (copied : Copied area callerArgv argc ram env)
    (same : machine.table = withoutFiles world.mem.table) :
    Makes (match env.argv with
      | none => pure pid
      | some (argc, argvPtr) => do
          onTable fun table => ((), table.setProcessArgv child argc argvPtr)
          return pid)
      (Mirrors (pid, handOver area callerArgv argc child ⟨machine, ram⟩)) world := by
  unfold Copied at copied
  unfold handOver Makes
  dsimp only
  generalize installArgv area callerArgv argc ram = installed at copied ⊢
  obtain ⟨vector, ram'⟩ := installed
  rw [copied]
  cases vector with
  | none => exact ⟨rfl, same⟩
  | some vector =>
      obtain ⟨count, ptrs⟩ := vector
      dsimp only [Option.map]
      rw [Prog.wp_bind]
      apply onTable_makes
      intro after set
      refine ⟨rfl, ?_⟩
      change machine.table.setProcessArgv child count ptrs.toNat = withoutFiles after.mem.table
      rw [set, same, withoutFiles_setProcessArgv]

theorem spawnImage_mirrors {env : SpawnEnv} (copied : Copied area callerArgv argc ram env)
    (bytes : Nat → Byte) (world : FsWorld) :
    Makes (spawnImage env bytes) (Mirrors (spawnFromXv6fs env.layout area
      (some (imageFrom env bytes)) callerArgv argc ⟨⟨withoutFiles world.mem.table, log⟩, ram⟩))
      world := by
  unfold spawnImage spawnFromXv6fs createProcess Makes
  rw [Prog.wp_bind]
  apply onTable_makes
  intro created create
  dsimp only [imageFrom]
  rw [withoutFiles_createProcess]
  dsimp only
  rw [← create]
  generalize (world.mem.table.createProcess env.layout 0 env.pml4).1 = pid
  by_cases failed : pid < 0
  · rw [if_pos failed, if_pos failed]
    exact ⟨rfl, rfl⟩
  · rw [if_neg failed, if_neg failed, Prog.wp_bind, Prog.wp_getMem]
    have lookup : (withoutFiles created.mem.table).getProcessByPid pid.toNat =
        created.mem.table.getProcessByPid pid.toNat := rfl
    rw [lookup]
    cases created.mem.table.getProcessByPid pid.toNat with
    | none => exact ⟨rfl, rfl⟩
    | some child =>
        dsimp only
        rw [Prog.wp_bind]
        apply (inheritAll_withoutFiles child _ created).mono
        intro _ inherited inherit
        rw [← inherit]
        by_cases loads : env.loads = true
        · rw [if_pos loads, if_pos loads, Prog.wp_bind]
          apply onTable_makes
          intro entered enter
          apply handOver_mirrors copied
          rw [enter]
          exact withoutFiles_setProcessEntry child _ inherited.mem.table
        · rw [if_neg loads, if_neg loads, Prog.wp_bind]
          apply onTable_makes
          intro ended terminate
          refine ⟨rfl, ?_⟩
          rw [terminate]
          exact withoutFiles_terminate child inherited.mem.table

theorem spawnFromXv6fs_mirrors {path : List Byte} {env : SpawnEnv} {world after : FsWorld}
    {result : Int} {writes : List (Nat × Block)} (copied : Copied area callerArgv argc ram env)
    (returned : (Sys.spawnFromXv6fs path env).run world = ⟨.ret result, after, writes⟩) :
    Mirrors (spawnFromXv6fs env.layout area ((imageOf path world).map (imageFrom env)) callerArgv
      argc ⟨⟨withoutFiles world.mem.table, log⟩, ram⟩) result after.mem.table := by
  rw [spawnFromXv6fs_eq] at returned
  obtain ⟨found, middle, first, second, looked, spawned⟩ := Prog.run_bind_ret returned
  have table : middle.mem.table = world.mem.table :=
    Makes.of_run (Q := fun _ after => after = world.mem.table) (findImage_table path world) looked
  have isFound : imageOf path world = found := by
    unfold imageOf
    rw [looked]
  rw [isFound, ← table]
  cases found with
  | none =>
      cases spawned
      exact ⟨rfl, rfl⟩
  | some bytes => exact (spawnImage_mirrors copied bytes middle).of_run spawned

theorem spawnFromRamfs_mirrors {machine : Machine} {world : FsWorld}
    (same : machine.table = withoutFiles world.mem.table) (file : Option Nat) (env : SpawnEnv) :
    Makes (Sys.spawnFromRamfs file env)
      (fun result after =>
        let done := spawnFromRamfs env.layout (file.map (⟨·, env.pml4, env.loads⟩)) machine
        done.1 = result ∧ done.2.table = withoutFiles after) world := by
  unfold Sys.spawnFromRamfs spawnFromRamfs createProcess Makes
  cases file with
  | none => exact ⟨rfl, same⟩
  | some entryPoint =>
      dsimp only [Option.map]
      rw [Prog.wp_bind]
      apply onTable_makes
      intro created create
      rw [same, withoutFiles_createProcess]
      dsimp only
      rw [← create]
      generalize (world.mem.table.createProcess env.layout 0 env.pml4).1 = pid
      by_cases failed : pid < 0
      · rw [if_pos failed, if_pos failed]
        exact ⟨rfl, rfl⟩
      · rw [if_neg failed, if_neg failed, Prog.wp_bind, Prog.wp_getMem]
        have lookup : (withoutFiles created.mem.table).getProcessByPid pid.toNat =
            created.mem.table.getProcessByPid pid.toNat := rfl
        rw [lookup]
        cases created.mem.table.getProcessByPid pid.toNat with
        | none => exact ⟨rfl, rfl⟩
        | some child =>
            dsimp only
            by_cases loads : env.loads = true
            · rw [if_pos loads, if_pos loads, Prog.wp_bind]
              apply onTable_makes
              intro entered enter
              refine ⟨rfl, ?_⟩
              rw [enter]
              exact withoutFiles_setProcessEntry child entryPoint created.mem.table
            · rw [if_neg loads, if_neg loads]
              exact ⟨rfl, rfl⟩

/-- An `execve` that returns does on the tables without files what it does here with the image
it finds on disk. -/
theorem sysExecve_mirrors {name : CString} {env ramfsEnv : SpawnEnv} {ramfs : Option Nat}
    {world after : FsWorld} {result : Int} {writes : List (Nat × Block)}
    (copied : Copied area callerArgv argc ram env) (sameLayout : ramfsEnv.layout = env.layout)
    (returned : (sysExecve (some name) env ramfs ramfsEnv).run world =
      ⟨.ret result, after, writes⟩) :
    Mirrors (execve env.layout area ((imageOf name.bytes world).map (imageFrom env))
      (ramfs.map (⟨·, ramfsEnv.pml4, ramfsEnv.loads⟩)) callerArgv argc
      ⟨⟨withoutFiles world.mem.table, log⟩, ram⟩) result after.mem.table := by
  unfold sysExecve at returned
  dsimp only at returned
  obtain ⟨pid, middle, first, second, spawned, rest⟩ := Prog.run_bind_ret returned
  obtain ⟨value, same⟩ : Mirrors (spawnFromXv6fs env.layout area
      ((imageOf name.bytes world).map (imageFrom env)) callerArgv argc
      ⟨⟨withoutFiles world.mem.table, log⟩, ram⟩) pid middle.mem.table :=
    spawnFromXv6fs_mirrors copied spawned
  unfold execve
  dsimp only
  rw [value]
  by_cases failed : pid < 0
  · rw [if_pos failed] at rest ⊢
    have mirrors := (spawnFromRamfs_mirrors same ramfs ramfsEnv).of_run rest
    rw [sameLayout] at mirrors
    exact mirrors
  · rw [if_neg failed] at rest ⊢
    cases rest
    exact ⟨rfl, same⟩

end Refinement

/-! ## Two calls of one process -/

def firstLayout : StackLayout := ⟨0x200000, 0x300000⟩

def program : Image := ⟨0x400000, 1, true⟩

/-- The first process has an array with the string `a`, and one with the string `b`. -/
def twoArrays : Ram where
  bytes := overwrite (fun _ => 0) (bytesAt 0x400000 [97, 0, 98] ++
    bytesAt 0x401000 (wordBytes 0x400000) ++ bytesAt 0x402000 (wordBytes 0x400002))
  writes := []

/-- It has started to run. -/
def running : World where
  machine :=
    let table := (ProcTable.schedulerInit fun _ => 0).createProcess firstLayout 0 1
    { table := ((table.2.setProcessEntry 0 0x400000).schedule 0).2
      log := [.entrySet 0 0x400000, .created 0 0] }
  ram := twoArrays

theorem running_reached : Reached firstLayout smallArea running := by
  have started : startInit firstLayout program ⟨ProcTable.schedulerInit fun _ => 0, []⟩ =
      some ⟨((ProcTable.schedulerInit fun _ => 0).createProcess firstLayout 0 1).2.setProcessEntry
        0 0x400000, [.entrySet 0 0x400000, .created 0 0]⟩ := rfl
  exact .step (.boot (fun _ => 0) twoArrays program started) (.timer 0) trivial trivial

/-- It spawns a process with the argument `a`. -/
def spawnedA : World :=
  (execve firstLayout smallArea (some program) none 0x401000 1 running).2

/-- Then it spawns one with the argument `b`. -/
def spawnedB : World :=
  (execve firstLayout smallArea (some program) none 0x402000 1 spawnedA).2

/-- How many arguments a process that has not run was given. -/
def firstArgc : Option Context → Option Nat
  | some (.fresh _ argc _) => some argc
  | _ => none

theorem spawnedB_facts :
    Live spawnedA.machine.table 1 ∧ ¬ Live running.machine.table 1 ∧
    running.machine.table.currentProcess.state = .running ∧
    (Event.execve (some program) none 0x401000 1).PidsFree running ∧
    spawnedA.machine.table.currentProcess.state = .running ∧
    (Event.execve (some program) none 0x402000 1).PidsFree spawnedA ∧
    firstArgc (contextOf 1 spawnedA.machine.log) = some 1 ∧
    StringAt spawnedA.ram.bytes (loadWord spawnedA.ram.bytes smallArea.ptrs) [97] ∧
    ¬ StringAt spawnedB.ram.bytes (loadWord spawnedB.ram.bytes smallArea.ptrs) [97] := by
  unfold Event.PidsFree Live
  decide +kernel

/-- Its first argument has changed. -/
theorem not_keepsArgv {layout : StackLayout} {area : ArgvArea} {child : ProcIdx}
    {born later : World} {string : List Byte}
    (lives : Lives layout area child (fun _ _ => True) born later)
    (one : firstArgc (contextOf child born.machine.log) = some 1)
    (first : StringAt born.ram.bytes (loadWord born.ram.bytes area.ptrs) string)
    (changed : ¬ StringAt later.ram.bytes (loadWord later.ram.bytes area.ptrs) string) :
    ¬ KeepsArgv layout area child (fun _ _ _ => True) born := by
  rintro ⟨entryPoint, argc, argvPtr, args, context, given, keeps⟩
  rw [context] at one
  cases one
  have start : area.ptrs + BitVec.ofNat 64 (8 * 0) = area.ptrs := BitVec.add_zero _
  cases given with
  | @strings _ strings finds =>
      have some : 0 < strings.length := by
        rw [← finds.count]
        decide
      have was := finds.each 0 some
      rw [start] at was
      cases (keeps later lives).given with
      | strings finds' =>
          have is := finds'.each 0 some
          rw [start, was.unique first] at is
          exact changed is

/-- The second call overwrites the argument that the first one passed. -/
theorem argv_not_stable :
    ¬ ∀ (layout : StackLayout) (area : ArgvArea) (world : World), Reached layout area world →
      ∀ (onDisk inRamfs : Option Image) (callerArgv : Word) (argc : Nat),
        (Event.execve onDisk inRamfs callerArgv argc).Enabled layout area world →
        (Event.execve onDisk inRamfs callerArgv argc).PidsFree world →
        ∀ child, ¬ Live world.machine.table child →
          Live (execve layout area onDisk inRamfs callerArgv argc world).2.machine.table child →
          KeepsArgv layout area child (fun _ _ _ => True)
            (execve layout area onDisk inRamfs callerArgv argc world).2 := by
  intro stable
  obtain ⟨alive, free, runs, pids, runs', pids', one, first, changed⟩ := spawnedB_facts
  have lives : Lives firstLayout smallArea 1 (fun _ _ => True) spawnedA spawnedB :=
    .step .born (.execve (some program) none 0x402000 1) alive runs' pids' trivial
  exact not_keepsArgv lives one first changed
    (stable firstLayout smallArea running running_reached (some program) none 0x401000 1 runs
      pids 1 free alive)

/-- As long as it passes nothing else, the argument stays. -/
theorem argv_stable_of_spawnedA : KeepsArgv firstLayout smallArea 1 Spares spawnedA :=
  argv_stable running_reached (some program) none 0x401000 1 spawnedB_facts.2.2.2.1
    spawnedB_facts.2.1 spawnedB_facts.1

end Notux.Sys.Arguments
