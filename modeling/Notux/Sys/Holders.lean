import Notux.Sys.References
import Notux.Proc.Scheduler

/-!
# References over the life of a process

`execve` gives a new process the standard descriptors of its parent, `exit`
leaves the descriptors of the process open, and `wait4` and a failed load drop
the process together with whatever it still holds.  The reference counts match
their holders along every run in which nothing is dropped.
-/

namespace Notux.Sys

open Notux.Store Notux.Proc Notux.Fs

/-! ## What must be closed -/

/-- Every descriptor is closed. -/
def AllClosed (process : Process) : Prop := ∀ fd, (process.ofiles fd).ip = none

/-- The standard descriptors. -/
def stdio : List (Fin NOFILE) := [0, 1, 2]

/-- A live process that carries the pid the next new process will get.  Pids are
32 bits wide, so it exists only after the counter has wrapped around. -/
def SamePid (table : ProcTable) (idx : ProcIdx) : Prop :=
  (table.processes idx).state ≠ .terminated ∧
    (table.processes idx).pid = table.nextPid % 2 ^ 32

/-- The descriptors a new process inherits are closed in every process that could
be taken for it. -/
def RoomToInherit (table : ProcTable) : Prop :=
  ∀ idx, SamePid table idx → ∀ fd ∈ stdio,
    (table.currentProcess.ofiles fd).ip ≠ none → ((table.processes idx).ofiles fd).ip = none

/-- A process whose load fails holds nothing: it inherits no descriptor, and no
process that could be taken for it has one open. -/
def NothingToDrop (table : ProcTable) : Prop :=
  (∀ fd ∈ stdio, (table.currentProcess.ofiles fd).ip = none) ∧
    ∀ idx, SamePid table idx → AllClosed (table.processes idx)

/-- The event drops no open descriptor: a reaped child has closed all its
descriptors, and a load fails only where nothing was inherited. -/
def DropsNothing (world : FsWorld) : Event → Prop
  | .call .wait4 =>
      ∀ child, world.mem.table.zombieChild = some child →
        AllClosed (world.mem.table.processes child)
  | .call (.execve _ env _ _) =>
      RoomToInherit world.mem.table ∧ (env.loads = false → NothingToDrop world.mem.table)
  | _ => True

/-! ## Changes of the process table -/

theorem held_congr {first second : Process}
    (state : first.state = .terminated ↔ second.state = .terminated)
    (ofiles : first.ofiles = second.ofiles) : held first = held second := by
  unfold held
  simp only [state, ofiles]

/-- A change to one slot that keeps what the slot holds. -/
theorem allHeld_modify_of_held {table : ProcTable} {idx : ProcIdx} {change : Process → Process}
    (same : held (change (table.processes idx)) = held (table.processes idx)) :
    allHeld (table.modify idx change) = allHeld table := by
  rw [allHeld_modify, same, sub_add_cancel]

theorem allHeld_suspend (table : ProcTable) (currentEsp : Nat) :
    allHeld (table.suspend currentEsp) = allHeld table := by
  unfold ProcTable.suspend
  split
  · next isRunning =>
    refine allHeld_modify_of_held (held_congr ?_ rfl)
    simp [show (table.processes table.current).state = .running from isRunning]
  · rfl

theorem allHeld_saveCurrent (table : ProcTable) (currentEsp : Nat) :
    allHeld (table.saveCurrent currentEsp) = allHeld table := by
  unfold ProcTable.saveCurrent
  split
  · exact allHeld_modify_of_held (held_congr Iff.rfl rfl)
  · rfl

/-- Starting a live slot. -/
theorem allHeld_start {table : ProcTable} {idx : ProcIdx}
    (alive : (table.processes idx).state ≠ .terminated) :
    allHeld (table.modify idx fun process => { process with state := .running }) =
      allHeld table :=
  allHeld_modify_of_held (held_congr (by simpa using alive) rfl)

/-- A switch changes no holder. -/
theorem allHeld_schedule (table : ProcTable) (currentEsp : Nat) :
    allHeld (table.schedule currentEsp).2 = allHeld table := by
  rcases table.schedule_cases currentEsp with
    ⟨next, isReady, differ, result⟩ | ⟨notTerminated, -, result⟩ | ⟨-, result⟩
  · rw [result]
    have alive : ((table.suspend currentEsp).processes next).state ≠ .terminated := by
      simp [table.suspend_processes_of_ne currentEsp differ, isReady]
    exact (allHeld_start alive).trans (allHeld_suspend table currentEsp)
  · rw [result]
    have alive : (table.saveCurrent currentEsp).currentProcess.state ≠ .terminated := by
      simpa using notTerminated
    exact (allHeld_start alive).trans (allHeld_saveCurrent table currentEsp)
  · rw [result]

/-- Dropping a slot that holds nothing. -/
theorem allHeld_drop {table : ProcTable} {idx : ProcIdx} {change : Process → Process}
    (closed : AllClosed (table.processes idx))
    (drops : (change (table.processes idx)).state = .terminated) :
    allHeld (table.modify idx change) = allHeld table := by
  refine allHeld_modify_of_held ?_
  rw [held_of_closed closed, held_of_terminated drops]

theorem allHeld_terminate {table : ProcTable} {idx : ProcIdx}
    (closed : AllClosed (table.processes idx)) :
    allHeld (table.terminate idx) = allHeld table :=
  allHeld_drop closed rfl

theorem allHeld_exitCurrentProcess {table : ProcTable} (exitCode : Int)
    (running : table.currentProcess.state = .running) :
    allHeld (table.exitCurrentProcess exitCode) = allHeld table := by
  have alive : (table.processes table.current).state ≠ .terminated := by
    rw [show (table.processes table.current).state = .running from running]; decide
  unfold ProcTable.exitCurrentProcess
  exact allHeld_modify_of_held (held_congr (by simpa using alive) rfl)

theorem allHeld_wait4 {table : ProcTable}
    (closed : ∀ child, table.zombieChild = some child → AllClosed (table.processes child)) :
    allHeld table.wait4.2 = allHeld table := by
  unfold ProcTable.wait4
  cases found : table.zombieChild with
  | none => rfl
  | some child =>
      change allHeld (table.modify child fun process =>
        { process with state := .terminated, pid := 0, ppid := 0, exitCode := 0 }) = _
      exact allHeld_drop (closed child found) rfl

/-- What `create_process` returns and what it puts into the slot it fills. -/
theorem createProcess_fills (layout : StackLayout) (entryPoint pml4 : Nat) (table : ProcTable) :
    table.createProcess layout entryPoint pml4 = (-1, table) ∨
    ∃ idx process,
      (table.processes idx).state = .terminated ∧ process.state = .ready ∧
      process.pid = table.nextPid % 2 ^ 32 ∧ AllClosed process ∧
      (table.createProcess layout entryPoint pml4).1 = toInt32 (table.nextPid % 2 ^ 32) ∧
      (table.createProcess layout entryPoint pml4).2.current = table.current ∧
      (table.createProcess layout entryPoint pml4).2.processes =
        Function.update table.processes idx process := by
  unfold ProcTable.createProcess
  cases found : ProcTable.firstSlot fun i => (table.processes i).state = .terminated with
  | none => exact Or.inl rfl
  | some idx =>
      by_cases noMemory : pml4 = 0
      · exact Or.inl (if_pos noMemory)
      · right
        have free : (table.processes idx).state = .terminated := by
          simpa using ProcTable.firstSlot_eq_some found
        simp only [if_neg noMemory]
        exact ⟨idx, _, free, rfl, rfl, fun fd => rfl, trivial, trivial, rfl⟩

/-- A 32-bit pid that is not negative as an `int` is read back from it. -/
theorem toNat_toInt32 {value : Nat} (bound : value < 2 ^ 32) (positive : ¬ toInt32 value < 0) :
    (toInt32 value).toNat = value := by
  unfold toInt32 at *
  rw [BitVec.toInt_eq_toNat_cond] at *
  simp only [BitVec.toNat_ofNat, Nat.mod_eq_of_lt bound] at *
  split at positive <;> omega

theorem getProcessByPid_spec {table : ProcTable} {pid : Nat} {idx : ProcIdx}
    (found : table.getProcessByPid pid = some idx) :
    (table.processes idx).pid = pid ∧ (table.processes idx).state ≠ .terminated := by
  simpa using ProcTable.firstSlot_eq_some found

/-! ## Spawning -/

section Spawn

variable {table : ProcTable} {world : FsWorld}

/-- A change of the process table that changes no holder. -/
theorem holding_setTable {extra : Slot → Int} (holding : Holding table extra world)
    {next : ProcTable} (same : allHeld next = allHeld table) :
    Holding next extra { world with mem := { world.mem with table := next } } := by
  refine ⟨rfl, ?_⟩
  rw [← holding.extra, spare, spare, holding.table]
  exact congrArg (world.mem.outstanding - ·) same

theorem allHeld_createProcess (layout : StackLayout) (entryPoint pml4 : Nat)
    (table : ProcTable) :
    allHeld (table.createProcess layout entryPoint pml4).2 = allHeld table := by
  rcases createProcess_fills layout entryPoint pml4 table with
    result | ⟨idx, process, free, -, -, closed, -, -, processes⟩
  · rw [result]
  · unfold allHeld
    rw [processes, sum_update held, held_of_terminated free, held_of_closed closed]
    simp

/-- The new process, or one that could be taken for it, has room for the
descriptors it inherits. -/
structure CanInherit (table : ProcTable) (child : ProcIdx) (fds : List (Fin NOFILE)) : Prop where
  alive : (table.processes child).state ≠ .terminated
  room : ∀ fd ∈ fds, (table.currentProcess.ofiles fd).ip ≠ none →
    ((table.processes child).ofiles fd).ip = none

theorem leads_inheritFd {fd : Fin NOFILE} {fds : List (Fin NOFILE)} {child : ProcIdx}
    (holding : Holding table 0 world) (canInherit : CanInherit table child (fd :: fds))
    (distinct : fd ∉ fds) :
    Leads (inheritFd child fd)
      (fun _ after => ∃ table', Holding table' 0 after ∧ CanInherit table' child fds ∧
        ((∀ other ∈ fd :: fds, (table.currentProcess.ofiles other).ip = none) → table' = table))
      world := by
  have rest : CanInherit table child fds :=
    ⟨canInherit.alive, fun other member => canInherit.room other (List.mem_cons_of_mem _ member)⟩
  unfold inheritFd Leads
  rw [Prog.wp_bind, wp_getOfile]
  rw [holding.table]
  cases isOpen : (table.currentProcess.ofiles fd).ip with
  | none => exact ⟨table, holding, rest, fun _ => rfl⟩
  | some ip =>
      have closed : ((table.processes child).ofiles fd).ip = none :=
        canInherit.room fd List.mem_cons_self (by simp [isOpen])
      have differ : child ≠ table.current := by
        rintro rfl
        exact absurd (closed.symm.trans isOpen) (by simp)
      have sameCaller : (ProcTable.modify table child fun process =>
          { process with
            ofiles := Function.update process.ofiles fd
              (table.currentProcess.ofiles fd) }).currentProcess = table.currentProcess :=
        table.modify_of_ne (Ne.symm differ) _
      simp only [Prog.wp_bind, Prog.wp_modifyMem]
      have shared := holding_setOfileOf holding canInherit.alive fd
        (table.currentProcess.ofiles fd)
      refine leads_of_owes idup_takes.owes shared fun _ after holding => ?_
      refine ⟨_, by simpa [closed, isOpen] using holding, ⟨?_, ?_⟩, fun allClosed => ?_⟩
      · rw [ProcTable.modify_same]
        exact canInherit.alive
      · intro other member
        have otherFd : other ≠ fd := fun same => distinct (same ▸ member)
        rw [sameCaller, ProcTable.modify_same]
        simp only [Function.update_of_ne otherFd]
        exact rest.room other member
      · exact absurd (allClosed fd List.mem_cons_self) (by simp [isOpen])

/-- Handing down descriptors creates no spare reference. -/
theorem leads_inheritAll {child : ProcIdx} {fds : List (Fin NOFILE)} (distinct : fds.Nodup)
    (holding : Holding table 0 world) (canInherit : CanInherit table child fds) :
    Leads (forEach fds (inheritFd child))
      (fun _ after => ∃ table', Holding table' 0 after ∧
        (table'.processes child).state ≠ .terminated ∧
        ((∀ fd ∈ fds, (table.currentProcess.ofiles fd).ip = none) → table' = table))
      world := by
  induction fds generalizing table world with
  | nil => exact ⟨table, holding, canInherit.alive, fun _ => rfl⟩
  | cons fd rest ih =>
      obtain ⟨notMember, distinct⟩ := List.nodup_cons.mp distinct
      unfold forEach Leads
      rw [Prog.wp_bind]
      refine (leads_inheritFd holding canInherit notMember).mono ?_
      rintro _ middle ⟨table', holding, canInherit, same⟩
      refine (ih distinct holding canInherit).mono ?_
      rintro _ after ⟨table'', holding, alive, restSame⟩
      refine ⟨table'', holding, alive, fun allClosed => ?_⟩
      obtain rfl := same allClosed
      exact restSame fun other member => allClosed other (List.mem_cons_of_mem _ member)

theorem leads_onTable {α : Type} {step : ProcTable → α × ProcTable} {extra : Slot → Int}
    (holding : Holding table extra world) (same : allHeld (step table).2 = allHeld table)
    {Q : α → FsWorld → Prop}
    (rest : ∀ after, Holding (step table).2 extra after → Q (step table).1 after) :
    Leads (onTable step) Q world := by
  change Q (step world.mem.table).1
    { world with mem := { world.mem with table := (step world.mem.table).2 } }
  rw [holding.table]
  exact rest _ (holding_setTable holding same)

/-- The process found under the pid of the new process can inherit. -/
theorem canInherit_of_found {layout : StackLayout} {entryPoint pml4 : Nat} {child : ProcIdx}
    (running : table.currentProcess.state = .running) (roomToInherit : RoomToInherit table)
    (created : ¬ (table.createProcess layout entryPoint pml4).1 < 0)
    (found : (table.createProcess layout entryPoint pml4).2.getProcessByPid
      (table.createProcess layout entryPoint pml4).1.toNat = some child) :
    let table' := (table.createProcess layout entryPoint pml4).2
    table'.currentProcess = table.currentProcess ∧ CanInherit table' child stdio ∧
      (AllClosed (table'.processes child) ∨
        SamePid table child ∧ table'.processes child = table.processes child) := by
  rcases createProcess_fills layout entryPoint pml4 table with
    result | ⟨idx, process, free, isReady, pid, closed, value, current, processes⟩
  · rw [result] at created
    exact absurd (show (-1 : Int) < 0 by decide) created
  · intro table'
    rw [value] at created found
    rw [toNat_toInt32 (Nat.mod_lt _ (by decide)) created] at found
    obtain ⟨childPid, alive⟩ := getProcessByPid_spec found
    have notCurrent : table.current ≠ idx := by
      rintro rfl
      exact absurd (free.symm.trans running) (by decide)
    have caller : table'.currentProcess = table.currentProcess := by
      simp only [ProcTable.currentProcess, table', current, processes]
      exact Function.update_of_ne notCurrent _ _
    by_cases new : child = idx
    · subst new
      have isNew : table'.processes child = process := by
        simp only [table', processes, Function.update_self]
      rw [isNew]
      exact ⟨caller, ⟨alive, fun fd _ _ => by rw [isNew]; exact closed fd⟩, Or.inl closed⟩
    · have isOld : table'.processes child = table.processes child := by
        simp only [table', processes, Function.update_of_ne new]
      simp only [processes, Function.update_of_ne new] at childPid alive
      have samePid : SamePid table child := ⟨alive, childPid⟩
      refine ⟨caller, ⟨by rwa [isOld], fun fd member isOpen => ?_⟩, Or.inr ⟨samePid, isOld⟩⟩
      rw [caller] at isOpen
      rw [isOld]
      exact roomToInherit child samePid fd member isOpen

variable (running : table.currentProcess.state = .running)

include running

theorem spawnImage_settles (holding : Holding table 0 world) (env : SpawnEnv)
    (image : Nat → Byte) (roomToInherit : RoomToInherit table)
    (nothingToDrop : env.loads = false → NothingToDrop table) :
    Leads (spawnImage env image) Settled world := by
  unfold spawnImage Leads
  rw [Prog.wp_bind]
  refine leads_onTable holding (allHeld_createProcess _ _ _ _) fun after holding => ?_
  split
  · exact holding.extra
  · next created =>
    simp only [Prog.wp_bind, Prog.wp_getMem, holding.table]
    cases found : (table.createProcess env.layout 0 env.pml4).2.getProcessByPid
        (table.createProcess env.layout 0 env.pml4).1.toNat with
    | none => exact holding.extra
    | some child =>
        obtain ⟨caller, canInherit, childCloses⟩ :=
          canInherit_of_found running roomToInherit created found
        simp only [Prog.wp_bind]
        refine (leads_inheritAll (by decide) holding canInherit).mono ?_
        rintro _ after ⟨table', holding, alive, same⟩
        split
        · simp only [Prog.wp_bind]
          have entrySet : allHeld (table'.setProcessEntry child (elfEntry image)) =
              allHeld table' := by
            unfold allHeld; rw [ProcTable.setProcessEntry_processes]
          refine leads_onTable holding entrySet fun after holding => ?_
          cases env.argv with
          | none => exact holding.extra
          | some argv =>
              simp only [Prog.wp_bind]
              refine leads_onTable holding ?_ fun after holding => holding.extra
              unfold allHeld
              rw [ProcTable.setProcessArgv_processes]
        · next fails =>
          obtain ⟨callerClosed, othersClosed⟩ := nothingToDrop (by simpa using fails)
          obtain rfl := same fun fd member => by rw [caller]; exact callerClosed fd member
          have childClosed : AllClosed
              ((table.createProcess env.layout 0 env.pml4).2.processes child) := by
            rcases childCloses with closed | ⟨samePid, isOld⟩
            · exact closed
            · rw [isOld]
              exact othersClosed child samePid
          simp only [Prog.wp_bind]
          exact leads_onTable holding (allHeld_terminate childClosed) fun after holding =>
            holding.extra

theorem spawnFromXv6fs_settles (holding : Holding table 0 world) (path : List Byte)
    (env : SpawnEnv) (roomToInherit : RoomToInherit table)
    (nothingToDrop : env.loads = false → NothingToDrop table) :
    Leads (spawnFromXv6fs path env) Settled world := by
  unfold spawnFromXv6fs Leads
  rw [Prog.wp_bind]
  refine leads_of_owes namei_owes holding fun found _ holding => ?_
  cases found with
  | none => exact holding.extra.trans (by simp)
  | some ip =>
      simp only [Prog.wp_bind]
      refine leads_of_takes ilock_takes holding fun _ _ holding => ?_
      refine leads_of_takes getInode_takes holding fun inode _ holding => ?_
      split
      · simp only [Prog.wp_bind]
        refine leads_of_takes iunlock_takes holding fun _ _ holding => ?_
        refine leads_of_owes iput_takes.owes holding fun _ _ holding => ?_
        exact holding.extra.trans (by simp)
      · simp only [Prog.wp_bind]
        refine leads_of_takes readi_takes holding fun result _ holding => ?_
        obtain ⟨readBytes, bytes⟩ := result
        have loads : Takes (loadBuffer bytes) fun _ => 0 := by
          intro world
          exact ⟨rfl, (add_zero _).symm⟩
        dsimp only
        refine leads_of_takes loads holding fun image _ holding => ?_
        refine leads_of_takes iunlock_takes holding fun _ _ holding => ?_
        refine leads_of_owes iput_takes.owes holding fun _ _ holding => ?_
        simp only [oneOf_some, zero_add, add_neg_cancel] at holding
        split
        · exact holding.extra
        · split
          · exact spawnImage_settles running holding env image roomToInherit nothingToDrop
          · exact holding.extra

omit running in
theorem spawnFromRamfs_settles (settled : spare world.mem = 0) (file : Option Nat)
    (env : SpawnEnv) : Leads (spawnFromRamfs file env) Settled world := by
  unfold spawnFromRamfs Leads
  cases file with
  | none => exact settled
  | some entryPoint =>
      dsimp only
      rw [Prog.wp_bind]
      refine leads_onTable ⟨rfl, settled⟩ (allHeld_createProcess _ _ _ _) fun after holding => ?_
      split
      · exact holding.extra
      · simp only [Prog.wp_bind, Prog.wp_getMem]
        split
        · exact holding.extra
        · split
          · simp only [Prog.wp_bind]
            refine leads_onTable holding ?_ fun after holding => holding.extra
            unfold allHeld
            rw [ProcTable.setProcessEntry_processes]
          · exact holding.extra

theorem sysExecve_settles (holding : Holding table 0 world) (filename : Option CString)
    (env : SpawnEnv) (ramfs : Option Nat) (ramfsEnv : SpawnEnv)
    (roomToInherit : RoomToInherit table)
    (nothingToDrop : env.loads = false → NothingToDrop table) :
    Leads (sysExecve filename env ramfs ramfsEnv) Settled world := by
  unfold sysExecve Leads
  cases filename with
  | none => exact holding.extra
  | some filename =>
      dsimp only
      rw [Prog.wp_bind]
      refine (spawnFromXv6fs_settles running holding filename.bytes env roomToInherit
        nothingToDrop).mono fun res after settled => ?_
      split
      · exact spawnFromRamfs_settles settled ramfs ramfsEnv
      · exact settled

theorem sysExit_settles (holding : Holding table 0 world) (exitCode : Int) :
    Leads (sysExit exitCode) Settled world :=
  leads_onTable holding (allHeld_exitCurrentProcess exitCode running) fun _ holding =>
    holding.extra

omit running in
theorem sysWait4_settles (holding : Holding table 0 world)
    (closed : ∀ child, table.zombieChild = some child → AllClosed (table.processes child)) :
    Leads sysWait4 Settled world :=
  leads_onTable holding (allHeld_wait4 closed) fun _ holding => holding.extra

end Spawn

/-! ## Runs -/

/-- A system call that drops nothing leaves no reference without a holder. -/
theorem syscallHandler_settles {world : FsWorld} {call : Call}
    (settled : spare world.mem = 0)
    (running : world.mem.table.currentProcess.state = .running)
    (dropsNothing : DropsNothing world (.call call)) :
    Leads (syscallHandler call) Settled world := by
  have holding : Holding world.mem.table 0 world := ⟨rfl, settled⟩
  have alive : world.mem.table.currentProcess.state ≠ .terminated := by
    rw [running]; decide
  cases call with
  | read fd bufNull count key =>
      exact (Prog.wp_bind _ _).mpr (sysRead_balances holding alive fd bufNull count key)
  | write fd bufNull buf count => exact sysWrite_balances holding alive fd bufNull buf count
  | openFile path flags => exact sysOpen_balances holding alive path flags
  | close fd => exact sysClose_balances holding alive fd
  | lseek fd offset whence => exact sysLseek_balances holding alive fd offset whence
  | dup oldfd => exact sysDup_balances holding alive oldfd
  | dup2 oldfd newfd => exact sysDup2_balances holding alive oldfd newfd
  | execve filename env ramfs ramfsEnv =>
      exact sysExecve_settles running holding filename env ramfs ramfsEnv dropsNothing.1
        dropsNothing.2
  | exit exitCode => exact (Prog.wp_bind _ _).mpr (sysExit_settles running holding exitCode)
  | wait4 =>
      refine (Prog.wp_bind _ _).mpr ((sysWait4_settles holding dropsNothing).mono ?_)
      intro reaped after settled
      cases reaped <;> exact settled
  | chdir path => exact sysChdir_balances holding path
  | mkdir path => exact sysMkdir_balances holding path
  | unlink path => exact sysUnlink_balances holding path

/-- An event that drops nothing keeps reference counts and holders equal. -/
theorem RefsMatchHolders.perform {before after : FsWorld} {event : Event}
    (equal : RefsMatchHolders before.mem) (dropsNothing : DropsNothing before event)
    (performed : perform event before = some after) : RefsMatchHolders after.mem := by
  rw [refsMatchHolders_iff_spare] at *
  cases event with
  | call call =>
      unfold Sys.perform at performed
      dsimp only at performed
      split at performed
      · next running =>
        obtain ⟨value, settled⟩ :=
          afterRun_of_wp (syscallHandler_settles equal running dropsNothing) performed
        exact settled
      · cases performed
  | timer currentEsp =>
      unfold Sys.perform at performed
      dsimp only at performed
      have same := allHeld_schedule before.mem.table currentEsp
      split at performed
      · next esp table result =>
        obtain rfl := Option.some.inj performed
        rw [result] at same
        exact (holding_setTable ⟨rfl, equal⟩ same).extra
      · cases performed

/-- After boot nothing is referenced and nothing is open. -/
theorem Booted.refsMatchHolders {kernel : Kernel} (booted : Booted kernel) :
    RefsMatchHolders kernel := by
  obtain ⟨layout, stack, entryPoint, pml4, -, table⟩ := booted.table
  rw [refsMatchHolders_iff]
  have nothing : allHeld kernel.table = 0 := by
    rw [table, bootTable]
    unfold allHeld
    rw [ProcTable.setProcessEntry_processes]
    refine (allHeld_createProcess layout 0 pml4 _).trans ?_
    exact Finset.sum_eq_zero fun idx _ => held_of_terminated rfl
  rw [nothing, Kernel.outstanding, booted.cwd, oneOf_none, sub_zero]
  exact funext booted.refs

/-- Along every run from boot in which no event drops an open descriptor, the
reference count of every inode is the number of descriptors that point to it in
slots that are not terminated, plus one for the working directory; an inode
nobody holds has a free entry. -/
theorem refs_match_holders {start world : FsWorld} (booted : Booted start.mem)
    (reached : Reaches DropsNothing start world) :
    RefsMatchHolders world.mem ∧
      ∀ ip, holders world.mem.table ip = 0 → world.mem.cwd ≠ some ip →
        (world.mem.icache ip).ref = 0 := by
  have equal : RefsMatchHolders world.mem :=
    reached.induction (fun world => RefsMatchHolders world.mem) booted.refsMatchHolders
      fun equal dropsNothing performed => equal.perform dropsNothing performed
  refine ⟨equal, fun ip unheld notCwd => ?_⟩
  rw [equal ip, unheld, if_neg notCwd]
  rfl

/-! ## A descriptor that is dropped -/

/-- A disk with a root directory that holds its two dot entries. -/
def rootDisk : Disk := fun blockno =>
  if blockno = 2 then
    setDinode Buffer.zero ROOTINO
      { Dinode.zero with
        type := T_DIR, nlink := 1, size := 32, addrs := fun i => if i = 0 then 40 else 0 }
  else if blockno = 40 then
    (Buffer.splice Buffer.zero 0 16 (Dirent.bytes ⟨1, strncpy [dot]⟩)).splice 16 16
      (Dirent.bytes ⟨1, strncpy [dot, dot]⟩)
  else Buffer.zero

/-- The world in which the first process starts on that disk. -/
def rootWorld : FsWorld where
  disk := rootDisk
  mem :=
    { sb := ⟨XV6_MAGIC, 1000, 900, 200, 0, 2, 2, 31⟩
      xv6fsMounted := true
      icacheLocked := false
      icache := fun _ => Inode.vacant
      cwd := none
      table := bootTable ⟨0x100000, 0x200000⟩ (fun _ => 0) 0x400000 1
      elfLoadBuffer := fun _ => 0 }

theorem booted_rootWorld : Booted rootWorld.mem where
  refs _ := rfl
  cwd := rfl
  table := ⟨⟨0x100000, 0x200000⟩, fun _ => 0, 0x400000, 1, by decide, rfl⟩

/-- `/`. -/
def rootPath : CString := ⟨[slash], by decide⟩

/-- `/x`, which the disk does not have. -/
def missingPath : CString := ⟨[slash, 120], by decide⟩

/-- A spawn in which everything succeeds. -/
def plainSpawn : SpawnEnv := ⟨⟨0x100000, 0x200000⟩, 1, true, none⟩

/-- The first process opens the root directory. -/
def openingRun : List Event := [.timer 0, .call (.openFile (some rootPath) 0)]

/-- A child opens the root directory, exits with the descriptor open, and is
reaped. -/
def abandoningRun : List Event :=
  [.timer 0, .call (.execve (some missingPath) plainSpawn (some 0x400000) plainSpawn),
    .timer 0x101000, .call (.openFile (some rootPath) 0), .call (.exit 0), .timer 0x103000,
    .call .wait4]

theorem refs_match_holders_after_open :
    ∃ world, performAll openingRun rootWorld = some world ∧ RefsMatchHolders world.mem := by
  obtain ⟨world, performed⟩ := Option.isSome_iff_exists.mp
    (show (performAll openingRun rootWorld).isSome by decide +kernel)
  refine ⟨world, performed, (refs_match_holders booted_rootWorld ?_).1⟩
  refine Reaches.of_performAll (fun event member before => ?_) performed
  simp only [openingRun, List.mem_cons, List.not_mem_nil, or_false] at member
  rcases member with rfl | rfl <;> trivial

/-- After the child has been reaped its descriptor still counts as a reference to
the root directory. -/
theorem refs_not_match_holders :
    ¬ ∀ start world, Booted start.mem → Reaches (fun _ _ => True) start world →
      RefsMatchHolders world.mem := by
  intro always
  obtain ⟨world, performed⟩ := Option.isSome_iff_exists.mp
    (show (performAll abandoningRun rootWorld).isSome by decide +kernel)
  have counts : (performAll abandoningRun rootWorld).map (fun world =>
      ((world.mem.icache 0).ref, holders world.mem.table 0, world.mem.cwd)) =
        some (1, 0, none) := by
    decide +kernel
  rw [performed] at counts
  simp only [Option.map_some, Option.some.injEq, Prod.mk.injEq] at counts
  obtain ⟨ref, unheld, noCwd⟩ := counts
  have equal := always rootWorld world booted_rootWorld
    (Reaches.of_performAll (fun _ _ _ => trivial) performed) 0
  rw [ref, unheld, noCwd] at equal
  exact absurd equal (by decide)

end Notux.Sys
