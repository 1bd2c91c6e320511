import Notux.Proc.Scheduler

/-!
# Exit statuses

The only trace of parenthood in the table is a pid in a reusable slot.  A run is
recorded in a log in which processes are numbered in the order of their
creation, and 0 stands for the code that boots the kernel.  The invariant ties
pids, parents and zombies to that numbering, as long as pids do not wrap.
-/

namespace Notux.Proc

/-- What `wait4` leaves in the result register, and the store through its
status pointer. -/
structure Answer where
  result : BitVec 64
  stored : Option (Nat × Int)
deriving DecidableEq

/-- System call 61 with its status pointer. -/
def ProcTable.sysWait4 (statusPtr : Nat) (table : ProcTable) : Answer × ProcTable :=
  match table.wait4 with
  | (none, table) => (⟨-1, none⟩, table)
  | (some (childPid, exitCode), table) =>
      (⟨BitVec.ofNat 64 childPid, if statusPtr = 0 then none else some (statusPtr, exitCode)⟩,
        table)

/-- What the log of a run records, newest entry first. -/
inductive Record where
  | created (child parent : Nat) (slot : ProcIdx) (result : Int)
  | exited (process : Nat) (exitCode : Int)
  | waited (caller statusPtr : Nat) (answer : Answer)
deriving DecidableEq

/-- How many processes have been created. -/
def births : List Record → Nat
  | [] => 0
  | .created .. :: rest => births rest + 1
  | .exited .. :: rest => births rest
  | .waited .. :: rest => births rest

/-- The process that was last put into a slot. -/
def occupant (slot : ProcIdx) : List Record → Nat
  | [] => 0
  | .created child _ used _ :: rest => if used = slot then child else occupant slot rest
  | .exited .. :: rest => occupant slot rest
  | .waited .. :: rest => occupant slot rest

/-- A process table together with the log of its run. -/
structure Life where
  table : ProcTable
  log : List Record

namespace Life

/-- The process whose code is executing. -/
def self (life : Life) : Nat :=
  if life.table.currentProcess.state = .running then occupant life.table.current life.log
  else 0

/-- The log after `create_process`. -/
def createdLog (life : Life) (layout : StackLayout) (entryPoint pml4 : Nat) : List Record :=
  match life.table.createdSlot pml4 with
  | none => life.log
  | some slot =>
      .created (births life.log + 1) life.self slot
        (life.table.createProcess layout entryPoint pml4).1 :: life.log

end Life

/-- One event.  Processes are created by the running one, or by the kernel as it
boots; only the running process exits or waits. -/
inductive LifeStep (layout : StackLayout) : Life → Life → Prop where
  | createProcess (life : Life) (entryPoint pml4 : Nat) :
      LifeStep layout life
        { table := (life.table.createProcess layout entryPoint pml4).2
          log := life.createdLog layout entryPoint pml4 }
  | schedule (life : Life) (currentEsp : Nat) :
      LifeStep layout life { life with table := (life.table.schedule currentEsp).2 }
  | exit (life : Life) (exitCode : Int)
      (running : life.table.currentProcess.state = .running) :
      LifeStep layout life
        { table := life.table.exitCurrentProcess exitCode
          log := .exited life.self exitCode :: life.log }
  | wait4 (life : Life) (statusPtr : Nat)
      (running : life.table.currentProcess.state = .running) :
      LifeStep layout life
        { table := (life.table.sysWait4 statusPtr).2
          log := .waited life.self statusPtr (life.table.sysWait4 statusPtr).1 :: life.log }

/-- A state reached from `scheduler_init`. -/
inductive Lived (layout : StackLayout) : Life → Prop where
  | init (stack : Nat → Word) : Lived layout ⟨ProcTable.schedulerInit stack, []⟩
  | step {life next : Life} (lived : Lived layout life) (step : LifeStep layout life next) :
      Lived layout next

/-- Some `wait4` has returned the process. -/
def Reaped (log : List Record) (process : Nat) : Prop :=
  ∃ caller statusPtr answer, .waited caller statusPtr answer ∈ log ∧
    answer.result = BitVec.ofNat 64 process

/-- What an entry of the log owes to the entries before it: a slot is filled
only after its last process has been reaped; a pid returned by `wait4` belongs
to a child of the caller that has exited with the stored code and has not been
returned before; and `wait4` fails only if every exited child of the caller has
been reaped. -/
def Justified (earlier : List Record) : Record → Prop
  | .created _ _ slot _ =>
      ∀ old parent result, .created old parent slot result ∈ earlier → Reaped earlier old
  | .exited process _ => ∀ exitCode, .exited process exitCode ∉ earlier
  | .waited caller statusPtr answer =>
      if answer.result = -1 then
        ∀ child slot result exitCode, .created child caller slot result ∈ earlier →
          .exited child exitCode ∈ earlier → Reaped earlier child
      else
        ∃ child slot result exitCode, .created child caller slot result ∈ earlier ∧
          .exited child exitCode ∈ earlier ∧ ¬ Reaped earlier child ∧
          answer.result = BitVec.ofInt 64 result ∧ answer.result = BitVec.ofNat 64 child ∧
          answer.stored = if statusPtr = 0 then none else some (statusPtr, exitCode)

/-- The live slots have distinct pids, none of them 0. -/
def DistinctPids (table : ProcTable) : Prop :=
  ∀ slot, (table.processes slot).state ≠ .terminated →
    (table.processes slot).pid ≠ 0 ∧
      ∀ other, (table.processes other).state ≠ .terminated →
        (table.processes other).pid = (table.processes slot).pid → other = slot

/-! ## Numbers as pids -/

/-- Pids below this bound survive every conversion of the code. -/
abbrev PID_LIMIT : Nat := 2 ^ 31

theorem ofNat_inj_of_small {a b : Nat} (smallA : a < PID_LIMIT) (smallB : b < PID_LIMIT)
    (same : BitVec.ofNat 64 a = BitVec.ofNat 64 b) : a = b := by
  have values := congrArg BitVec.toNat same
  simp only [BitVec.toNat_ofNat, PID_LIMIT] at values smallA smallB
  omega

theorem ofNat_ne_neg_one {a : Nat} (small : a < PID_LIMIT) :
    BitVec.ofNat 64 a ≠ (-1 : BitVec 64) := by
  intro same
  have values := congrArg BitVec.toNat same
  rw [show (-1 : BitVec 64).toNat = 2 ^ 64 - 1 by decide] at values
  simp only [BitVec.toNat_ofNat, PID_LIMIT] at values small
  omega

theorem toInt32_of_small {a : Nat} (small : a < PID_LIMIT) : toInt32 a = a := by
  unfold toInt32
  simp only [PID_LIMIT] at small
  rw [BitVec.toInt_eq_toNat_of_lt] <;> simp only [BitVec.toNat_ofNat] <;> omega

/-! ## The log -/

/-- The last process of a slot was created in it. -/
theorem occupant_mem {slot : ProcIdx} {log : List Record} (known : occupant slot log ≠ 0) :
    ∃ parent result, .created (occupant slot log) parent slot result ∈ log := by
  induction log with
  | nil => exact absurd rfl known
  | cons record rest ih =>
      cases record with
      | created child parent used result =>
          by_cases same : used = slot
          · subst same
            exact ⟨parent, result, by simp [occupant]⟩
          · simp only [occupant, if_neg same] at known ⊢
            obtain ⟨parent, result, member⟩ := ih known
            exact ⟨parent, result, List.mem_cons_of_mem _ member⟩
      | exited process exitCode =>
          obtain ⟨parent, result, member⟩ := ih known
          exact ⟨parent, result, List.mem_cons_of_mem _ member⟩
      | waited caller statusPtr answer =>
          obtain ⟨parent, result, member⟩ := ih known
          exact ⟨parent, result, List.mem_cons_of_mem _ member⟩

theorem Reaped.cons {log : List Record} {process : Nat} (reaped : Reaped log process)
    (record : Record) : Reaped (record :: log) process := by
  obtain ⟨caller, statusPtr, answer, member, result⟩ := reaped
  exact ⟨caller, statusPtr, answer, List.mem_cons_of_mem _ member, result⟩

theorem reaped_created_iff {log : List Record} {process child parent : Nat} {slot : ProcIdx}
    {result : Int} :
    Reaped (.created child parent slot result :: log) process ↔ Reaped log process := by
  simp [Reaped]

theorem reaped_exited_iff {log : List Record} {process other : Nat} {exitCode : Int} :
    Reaped (.exited other exitCode :: log) process ↔ Reaped log process := by
  simp [Reaped]

theorem reaped_waited_iff {log : List Record} {process caller statusPtr : Nat}
    {answer : Answer} :
    Reaped (.waited caller statusPtr answer :: log) process ↔
      answer.result = BitVec.ofNat 64 process ∨ Reaped log process := by
  unfold Reaped
  constructor
  · rintro ⟨c, s, a, member, result⟩
    rcases List.mem_cons.mp member with same | member
    · cases same
      exact Or.inl result
    · exact Or.inr ⟨c, s, a, member, result⟩
  · rintro (result | reaped)
    · exact ⟨caller, statusPtr, answer, List.mem_cons_self, result⟩
    · exact Reaped.cons reaped _

/-! ## What each function of the table does -/

namespace ProcTable

variable (layout : StackLayout)

/-- A successful `create_process` takes the next pid and records the running
process as the parent. -/
theorem createProcess_fills {table : ProcTable} {entryPoint pml4 : Nat} {slot : ProcIdx}
    (found : table.createdSlot pml4 = some slot) :
    (table.processes slot).state = .terminated ∧
    (table.createProcess layout entryPoint pml4).1 = toInt32 (table.nextPid % 2 ^ 32) ∧
    (table.createProcess layout entryPoint pml4).2.current = table.current ∧
    (table.createProcess layout entryPoint pml4).2.nextPid = table.nextPid + 1 ∧
    ∃ process, process.state = .ready ∧ process.pid = table.nextPid % 2 ^ 32 ∧
      process.ppid = table.callerPid ∧ (∀ fd, process.ofiles fd = .closed) ∧
      process.esp = layout.frameBase slot ∧
      (table.createProcess layout entryPoint pml4).2.processes =
        Function.update table.processes slot process := by
  unfold createdSlot at found
  by_cases noMemory : pml4 = 0
  · rw [if_pos noMemory] at found
    cases found
  · rw [if_neg noMemory] at found
    have free : (table.processes slot).state = .terminated := by
      simpa using firstSlot_eq_some found
    unfold createProcess
    rw [found]
    simp only [if_neg noMemory]
    have frame := (delivers_initialFrame layout slot entryPoint table.stack).1
    refine ⟨free, trivial, trivial, trivial, _, ?_, ?_, ?_, ?_, ?_, rfl⟩
    · rfl
    · rfl
    · rfl
    · exact fun _ => rfl
    · exact frame.1

/-- A failed `create_process` changes nothing. -/
theorem createProcess_fails {table : ProcTable} {entryPoint pml4 : Nat}
    (full : table.createdSlot pml4 = none) :
    table.createProcess layout entryPoint pml4 = (-1, table) := by
  rcases table.createProcess_cases layout entryPoint pml4 with ⟨-, result⟩ | ⟨_, _, found, -⟩
  · exact result
  · rw [full] at found
    cases found

/-- `wait4` finds no zombie child of the caller and fails, or reaps one. -/
theorem sysWait4_cases (table : ProcTable) (statusPtr : Nat) :
    ((∀ slot, (table.processes slot).ppid = table.currentProcess.pid →
        (table.processes slot).state ≠ .zombie) ∧
      table.sysWait4 statusPtr = (⟨-1, none⟩, table)) ∨
    ∃ found, (table.processes found).ppid = table.currentProcess.pid ∧
      (table.processes found).state = .zombie ∧
      table.sysWait4 statusPtr =
        (⟨BitVec.ofNat 64 (table.processes found).pid,
            if statusPtr = 0 then none else some (statusPtr, (table.processes found).exitCode)⟩,
          table.modify found fun process =>
            { process with state := .terminated, pid := 0, ppid := 0, exitCode := 0 }) := by
  unfold sysWait4 wait4
  cases search : table.zombieChild with
  | none =>
      refine Or.inl ⟨fun slot child ended => ?_, rfl⟩
      have absent := List.find?_eq_none.mp search slot (List.mem_finRange slot)
      exact absent (by simpa using ⟨child, ended⟩)
  | some found =>
      have zombie : (table.processes found).ppid = table.currentProcess.pid ∧
          (table.processes found).state = .zombie := by
        simpa using firstSlot_eq_some search
      exact Or.inr ⟨found, zombie.1, zombie.2, rfl⟩

/-- Two states of a slot that the scheduler can move between. -/
structure SameLife (process process' : Process) : Prop where
  pid : process'.pid = process.pid
  ppid : process'.ppid = process.ppid
  exitCode : process'.exitCode = process.exitCode
  zombie : process'.state = .zombie ↔ process.state = .zombie
  terminated : process'.state = .terminated ↔ process.state = .terminated

theorem SameLife.refl (process : Process) : SameLife process process :=
  ⟨rfl, rfl, rfl, Iff.rfl, Iff.rfl⟩

theorem SameLife.trans {first second third : Process} (one : SameLife first second)
    (two : SameLife second third) : SameLife first third where
  pid := two.pid.trans one.pid
  ppid := two.ppid.trans one.ppid
  exitCode := two.exitCode.trans one.exitCode
  zombie := two.zombie.trans one.zombie
  terminated := two.terminated.trans one.terminated

/-- Changing one slot within its life keeps the life of every slot. -/
theorem sameLife_modify {table : ProcTable} {idx : ProcIdx} {change : Process → Process}
    (same : SameLife (table.processes idx) (change (table.processes idx))) (slot : ProcIdx) :
    SameLife (table.processes slot) ((table.modify idx change).processes slot) := by
  by_cases this : slot = idx
  · subst this
    rw [modify_same]
    exact same
  · rw [modify_of_ne _ this]
    exact .refl _

theorem sameLife_start {table : ProcTable} {idx : ProcIdx}
    (live : (table.processes idx).state ≠ .terminated)
    (active : (table.processes idx).state ≠ .zombie) (slot : ProcIdx) :
    SameLife (table.processes slot)
      ((table.modify idx fun process => { process with state := .running }).processes slot) := by
  refine sameLife_modify ⟨rfl, rfl, rfl, ?_, ?_⟩ slot
  · simpa using active
  · simpa using live

theorem activateProcess_processes (table : ProcTable) (idx : ProcIdx) :
    (table.activateProcess idx).processes =
      (table.modify idx fun process => { process with state := .running }).processes := rfl

theorem sameLife_saveCurrent (table : ProcTable) (currentEsp : Nat) (slot : ProcIdx) :
    SameLife (table.processes slot) ((table.saveCurrent currentEsp).processes slot) := by
  unfold saveCurrent
  split
  · exact sameLife_modify ⟨rfl, rfl, rfl, Iff.rfl, Iff.rfl⟩ slot
  · exact .refl _

theorem sameLife_suspend (table : ProcTable) (currentEsp : Nat) (slot : ProcIdx) :
    SameLife (table.processes slot) ((table.suspend currentEsp).processes slot) := by
  unfold suspend
  by_cases running : table.currentProcess.state = .running
  · rw [if_pos running]
    have was : (table.processes table.current).state = .running := running
    exact sameLife_modify ⟨rfl, rfl, rfl, by simp [was], by simp [was]⟩ slot
  · rw [if_neg running]
    exact .refl _

/-- The scheduler changes no pid, parent or exit code, and neither ends a life
nor starts one. -/
theorem schedule_sameLife (table : ProcTable) (currentEsp : Nat) (slot : ProcIdx) :
    SameLife (table.processes slot) ((table.schedule currentEsp).2.processes slot) := by
  rcases table.schedule_cases currentEsp with
    ⟨next, ready, differ, result⟩ | ⟨live, ended, result⟩ | ⟨-, result⟩
  · rw [result]
    have was : ((table.suspend currentEsp).processes next).state = .ready := by
      rw [table.suspend_processes_of_ne currentEsp differ]
      exact ready
    refine (table.sameLife_suspend currentEsp slot).trans ?_
    rw [activateProcess_processes]
    exact sameLife_start (by simp [was]) (by simp [was]) slot
  · rw [result]
    have was := table.saveCurrent_state currentEsp
    rw [← was] at live ended
    exact (table.sameLife_saveCurrent currentEsp slot).trans (sameLife_start live ended slot)
  · rw [result]
    exact .refl _

theorem schedule_nextPid (table : ProcTable) (currentEsp : Nat) :
    (table.schedule currentEsp).2.nextPid = table.nextPid := by
  rcases table.schedule_cases currentEsp with ⟨next, -, -, result⟩ | ⟨-, -, result⟩ | ⟨-, result⟩
  · rw [result]
    show (table.suspend currentEsp).nextPid = _
    unfold suspend
    split <;> rfl
  · rw [result]
    show (table.saveCurrent currentEsp).nextPid = _
    unfold saveCurrent
    split <;> rfl
  · rw [result]

/-- After `schedule` only the current slot runs. -/
theorem schedule_running {table : ProcTable} {currentEsp : Nat}
    (running : ∀ slot, (table.processes slot).state = .running → slot = table.current)
    {slot : ProcIdx}
    (runs : ((table.schedule currentEsp).2.processes slot).state = .running) :
    slot = (table.schedule currentEsp).2.current := by
  rcases table.schedule_cases currentEsp with
    ⟨next, -, differ, result⟩ | ⟨-, -, result⟩ | ⟨-, result⟩
  · rw [result] at runs ⊢
    by_contra other
    have apart : slot ≠ next := other
    rw [activateProcess_processes, modify_of_ne _ apart] at runs
    by_cases same : slot = table.current
    · subst same
      exact table.suspend_not_running currentEsp runs
    · rw [table.suspend_processes_of_ne currentEsp same] at runs
      exact same (running slot runs)
  · rw [result] at runs ⊢
    by_contra other
    have apart : slot ≠ table.current := fun same => other (by
      rw [same]; exact (table.saveCurrent_current currentEsp).symm)
    have kept : (table.saveCurrent currentEsp).keep.processes slot = table.processes slot := by
      unfold keep
      rw [saveCurrent_current, modify_of_ne _ apart,
        table.saveCurrent_processes_of_ne currentEsp apart]
    rw [kept] at runs
    exact apart (running slot runs)
  · rw [result] at runs ⊢
    exact running slot runs

end ProcTable

/-! ## The invariant -/

/-- The table holds the processes that the log says are still to be reaped, each
under the number it was created with. -/
structure Tied (life : Life) : Prop where
  counter : life.table.nextPid = births life.log + 1
  running : ∀ slot, (life.table.processes slot).state = .running → slot = life.table.current
  occupied : ∀ slot, (life.table.processes slot).state ≠ .terminated →
    occupant slot life.log ≠ 0 ∧
      (life.table.processes slot).pid = occupant slot life.log ∧
      ¬ Reaped life.log (occupant slot life.log)
  created : ∀ (child parent : Nat) slot (result : Int), .created child parent slot result ∈ life.log →
    0 < child ∧ child ≤ births life.log ∧ parent < child ∧ result = child ∧
      (Reaped life.log child ∨
        occupant slot life.log = child ∧ (life.table.processes slot).state ≠ .terminated ∧
          (life.table.processes slot).ppid = parent)
  once : ∀ child parent slot result parent' slot' result',
    .created child parent slot result ∈ life.log →
      .created child parent' slot' result' ∈ life.log → slot' = slot
  zombie : ∀ slot, (life.table.processes slot).state = .zombie →
    .exited (occupant slot life.log) (life.table.processes slot).exitCode ∈ life.log
  exited : ∀ process exitCode, .exited process exitCode ∈ life.log →
    process ≤ births life.log ∧
      (Reaped life.log process ∨
        ∃ slot, occupant slot life.log = process ∧
          (life.table.processes slot).state = .zombie ∧
          (life.table.processes slot).exitCode = exitCode)
  answered : ∀ caller statusPtr answer, .waited caller statusPtr answer ∈ life.log →
    answer.result = -1 ∨
      ∃ child, child ≤ births life.log ∧ answer.result = BitVec.ofNat 64 child
  justified : ∀ record earlier, (record :: earlier) <:+ life.log → Justified earlier record

namespace Tied

variable {life : Life}

theorem init (stack : Nat → Word) : Tied ⟨ProcTable.schedulerInit stack, []⟩ where
  counter := rfl
  running slot runs := by cases runs
  occupied slot live := absurd rfl live
  created child parent slot result member := by cases member
  once child parent slot result parent' slot' result' member := by cases member
  zombie slot ended := by cases ended
  exited process exitCode member := by cases member
  answered caller statusPtr answer member := by cases member
  justified record earlier suffix := by simp at suffix

/-- A number that has not been given out has not been reaped. -/
theorem not_reaped_of_large (tied : Tied life) {process : Nat}
    (large : births life.log < process) (small : process < PID_LIMIT) :
    ¬ Reaped life.log process := by
  rintro ⟨caller, statusPtr, answer, member, result⟩
  rcases tied.answered _ _ _ member with refused | ⟨child, known, same⟩
  · exact ofNat_ne_neg_one small (result.symm.trans refused)
  · have := ofNat_inj_of_small small (by omega) (result.symm.trans same)
    omega

/-- A process lives in one slot. -/
theorem slot_eq (tied : Tied life) {slot other : ProcIdx} {process : Nat}
    (here : occupant slot life.log = process) (there : occupant other life.log = process)
    (known : process ≠ 0) : other = slot := by
  obtain ⟨parent, result, member⟩ := occupant_mem (here ▸ known : occupant slot life.log ≠ 0)
  obtain ⟨parent', result', member'⟩ :=
    occupant_mem (there ▸ known : occupant other life.log ≠ 0)
  rw [here] at member
  rw [there] at member'
  exact tied.once _ _ _ _ _ _ _ member member'

theorem distinctPids (tied : Tied life) : DistinctPids life.table := by
  intro slot live
  obtain ⟨known, pid, -⟩ := tied.occupied slot live
  refine ⟨pid ▸ known, fun other otherLive same => ?_⟩
  obtain ⟨-, otherPid, -⟩ := tied.occupied other otherLive
  exact tied.slot_eq rfl ((otherPid.symm.trans same).trans pid) known

/-- The parent that `create_process` records is the process that is executing. -/
theorem callerPid_eq (tied : Tied life) : life.table.callerPid = life.self := by
  unfold ProcTable.callerPid Life.self
  by_cases running : life.table.currentProcess.state = .running
  · rw [if_pos running, if_pos running]
    refine (tied.occupied life.table.current ?_).2.1
    rw [show (life.table.processes life.table.current).state = _ from running]
    decide
  · rw [if_neg running, if_neg running]

theorem occupant_le (tied : Tied life) (slot : ProcIdx) :
    occupant slot life.log ≤ births life.log := by
  by_cases known : occupant slot life.log = 0
  · omega
  · obtain ⟨parent, result, member⟩ := occupant_mem known
    exact (tied.created _ _ _ _ member).2.1

theorem self_le (tied : Tied life) : life.self ≤ births life.log := by
  unfold Life.self
  split
  · exact tied.occupant_le _
  · omega

/-- A record that is justified keeps the log justified. -/
theorem justified_cons (tied : Tied life) {record : Record}
    (owes : Justified life.log record) (new : Record) (earlier : List Record)
    (suffix : (new :: earlier) <:+ (record :: life.log)) : Justified earlier new := by
  rcases List.suffix_cons_iff.mp suffix with same | older
  · cases same
    exact owes
  · exact tied.justified _ _ older

/-- Scheduling keeps the invariant. -/
theorem schedule (tied : Tied life) (currentEsp : Nat) :
    Tied { life with table := (life.table.schedule currentEsp).2 } := by
  have kept := life.table.schedule_sameLife currentEsp
  constructor
  · exact (life.table.schedule_nextPid currentEsp).trans tied.counter
  · intro slot runs
    exact ProcTable.schedule_running tied.running runs
  · intro slot live
    obtain ⟨known, pid, unreaped⟩ := tied.occupied slot ((kept slot).terminated.not.mp live)
    exact ⟨known, (kept slot).pid.trans pid, unreaped⟩
  · intro child parent slot result member
    obtain ⟨positive, bound, older, number, fate⟩ := tied.created child parent slot result member
    refine ⟨positive, bound, older, number, fate.imp_right fun ⟨here, live, parentPid⟩ => ?_⟩
    exact ⟨here, (kept slot).terminated.not.mpr live, (kept slot).ppid.trans parentPid⟩
  · exact tied.once
  · intro slot ended
    rw [show ({ life with table := (life.table.schedule currentEsp).2 } : Life).table.processes
      slot = (life.table.schedule currentEsp).2.processes slot from rfl, (kept slot).exitCode]
    exact tied.zombie slot ((kept slot).zombie.mp ended)
  · intro process exitCode member
    obtain ⟨bound, fate⟩ := tied.exited process exitCode member
    refine ⟨bound, fate.imp_right fun ⟨slot, here, ended, code⟩ => ?_⟩
    exact ⟨slot, here, (kept slot).zombie.mpr ended, (kept slot).exitCode.trans code⟩
  · exact tied.answered
  · exact tied.justified

/-- A new process takes a number, a pid and a slot that nobody owns. -/
theorem createProcess (tied : Tied life) (layout : StackLayout) (entryPoint pml4 : Nat)
    (few : births (life.createdLog layout entryPoint pml4) < PID_LIMIT) :
    Tied
      { table := (life.table.createProcess layout entryPoint pml4).2
        log := life.createdLog layout entryPoint pml4 } := by
  cases found : life.table.createdSlot pml4 with
  | none =>
      rw [show life.createdLog layout entryPoint pml4 = life.log by
        simp only [Life.createdLog, found], ProcTable.createProcess_fails layout found]
      exact tied
  | some used =>
      have log : life.createdLog layout entryPoint pml4 =
          .created (births life.log + 1) life.self used
            (life.table.createProcess layout entryPoint pml4).1 :: life.log := by
        simp only [Life.createdLog, found]
      rw [log] at few ⊢
      have room : births life.log + 1 < PID_LIMIT := few
      obtain ⟨free, result, current, nextPid, process, ready, pid, ppid, -, -, processes⟩ :=
        ProcTable.createProcess_fills layout found
      have number : life.table.nextPid % 2 ^ 32 = births life.log + 1 := by
        rw [tied.counter]
        simp only [PID_LIMIT] at room
        omega
      have atUsed : (life.table.createProcess layout entryPoint pml4).2.processes used =
          process := by rw [processes, Function.update_self]
      have atOther : ∀ slot, slot ≠ used →
          (life.table.createProcess layout entryPoint pml4).2.processes slot =
            life.table.processes slot := fun slot differ => by
        rw [processes, Function.update_of_ne differ]
      have occupantOther : ∀ slot, slot ≠ used →
          occupant slot (.created (births life.log + 1) life.self used
            (life.table.createProcess layout entryPoint pml4).1 :: life.log) =
              occupant slot life.log := fun slot differ => if_neg (Ne.symm differ)
      have occupantUsed : occupant used (.created (births life.log + 1) life.self used
          (life.table.createProcess layout entryPoint pml4).1 :: life.log) =
            births life.log + 1 := if_pos rfl
      -- Whoever was created in the free slot before has been reaped.
      have reused : ∀ old parent result, .created old parent used result ∈ life.log →
          Reaped life.log old := by
        intro old parent result member
        exact (tied.created _ _ _ _ member).2.2.2.2.resolve_right fun fate => fate.2.1 free
      constructor
      · simp only [nextPid, tied.counter, births]
      · intro slot runs
        by_cases same : slot = used
        · subst same
          rw [atUsed, ready] at runs
          cases runs
        · rw [atOther slot same] at runs
          exact (tied.running slot runs).trans current.symm
      · intro slot live
        rw [reaped_created_iff]
        by_cases same : slot = used
        · subst same
          rw [occupantUsed, atUsed, pid, number]
          exact ⟨by omega, rfl, tied.not_reaped_of_large (by omega) room⟩
        · rw [occupantOther slot same]
          rw [atOther slot same] at live ⊢
          exact tied.occupied slot live
      · intro child parent slot value member
        rw [reaped_created_iff]
        rcases List.mem_cons.mp member with new | old
        · cases new
          refine ⟨by omega, Nat.le_refl _, Nat.lt_succ_of_le tied.self_le, ?_, Or.inr ?_⟩
          · rw [result, number, toInt32_of_small room]
          · rw [occupantUsed, atUsed, ready, ppid, tied.callerPid_eq]
            exact ⟨rfl, by decide, rfl⟩
        · obtain ⟨positive, bound, older, same, fate⟩ := tied.created _ _ _ _ old
          refine ⟨positive, Nat.le_succ_of_le bound, older, same, ?_⟩
          refine fate.imp_right fun ⟨here, live, parentPid⟩ => ?_
          have differ : slot ≠ used := fun same => live (same ▸ free)
          rw [occupantOther slot differ, atOther slot differ]
          exact ⟨here, live, parentPid⟩
      · intro child parent slot value parent' slot' value' member member'
        rcases List.mem_cons.mp member with new | old <;>
          rcases List.mem_cons.mp member' with new' | old'
        · cases new
          cases new'
          rfl
        · cases new
          have := (tied.created _ _ _ _ old').2.1
          omega
        · cases new'
          have := (tied.created _ _ _ _ old).2.1
          omega
        · exact tied.once _ _ _ _ _ _ _ old old'
      · intro slot ended
        by_cases same : slot = used
        · subst same
          rw [atUsed, ready] at ended
          cases ended
        · rw [occupantOther slot same]
          rw [atOther slot same] at ended ⊢
          exact List.mem_cons_of_mem _ (tied.zombie slot ended)
      · intro gone exitCode member
        rw [reaped_created_iff]
        obtain ⟨bound, fate⟩ := tied.exited gone exitCode (List.mem_of_ne_of_mem (by simp) member)
        refine ⟨Nat.le_succ_of_le bound, fate.imp_right fun ⟨slot, here, ended, code⟩ => ?_⟩
        have differ : slot ≠ used := fun same => by
          rw [same, free] at ended
          cases ended
        refine ⟨slot, ?_⟩
        rw [occupantOther slot differ, atOther slot differ]
        exact ⟨here, ended, code⟩
      · intro caller statusPtr answer member
        refine (tied.answered caller statusPtr answer
          (List.mem_of_ne_of_mem (by simp) member)).imp_right ?_
        rintro ⟨child, bound, same⟩
        exact ⟨child, Nat.le_succ_of_le bound, same⟩
      · exact tied.justified_cons reused

/-- The running process becomes a zombie with its exit code. -/
theorem exit (tied : Tied life) (exitCode : Int)
    (running : life.table.currentProcess.state = .running) :
    Tied
      { table := life.table.exitCurrentProcess exitCode
        log := .exited life.self exitCode :: life.log } := by
  have runs : (life.table.processes life.table.current).state = .running := running
  have live : (life.table.processes life.table.current).state ≠ .terminated := by
    rw [runs]; decide
  have self : life.self = occupant life.table.current life.log := if_pos running
  have atSelf : (life.table.exitCurrentProcess exitCode).processes life.table.current =
      { life.table.processes life.table.current with exitCode, state := .zombie } :=
    life.table.modify_same _ _
  have atOther : ∀ slot, slot ≠ life.table.current →
      (life.table.exitCurrentProcess exitCode).processes slot = life.table.processes slot :=
    fun slot differ => life.table.modify_of_ne differ _
  have sameOccupant : ∀ slot,
      occupant slot (.exited life.self exitCode :: life.log) = occupant slot life.log :=
    fun slot => rfl
  have lives : ∀ slot, ((life.table.exitCurrentProcess exitCode).processes slot).state ≠
      .terminated ↔ (life.table.processes slot).state ≠ .terminated := by
    intro slot
    by_cases same : slot = life.table.current
    · rw [same, atSelf]
      exact iff_of_true (by simp) live
    · rw [atOther slot same]
  have names : ∀ slot,
      ((life.table.exitCurrentProcess exitCode).processes slot).pid =
          (life.table.processes slot).pid ∧
        ((life.table.exitCurrentProcess exitCode).processes slot).ppid =
          (life.table.processes slot).ppid := by
    intro slot
    by_cases same : slot = life.table.current
    · rw [same, atSelf]
      exact ⟨rfl, rfl⟩
    · rw [atOther slot same]
      exact ⟨rfl, rfl⟩
  constructor
  · exact tied.counter
  · intro slot slotRuns
    by_cases same : slot = life.table.current
    · exact same
    · rw [atOther slot same] at slotRuns
      exact tied.running slot slotRuns
  · intro slot slotLive
    rw [reaped_exited_iff, sameOccupant]
    obtain ⟨known, pid, unreaped⟩ := tied.occupied slot ((lives slot).mp slotLive)
    exact ⟨known, (names slot).1.trans pid, unreaped⟩
  · intro child parent slot result member
    rw [reaped_exited_iff, sameOccupant]
    obtain ⟨positive, bound, older, number, fate⟩ :=
      tied.created child parent slot result (List.mem_of_ne_of_mem (by simp) member)
    refine ⟨positive, bound, older, number, fate.imp_right fun ⟨here, slotLive, ppid⟩ => ?_⟩
    exact ⟨here, (lives slot).mpr slotLive, (names slot).2.trans ppid⟩
  · intro child parent slot result parent' slot' result' member member'
    exact tied.once _ _ _ _ _ _ _ (List.mem_of_ne_of_mem (by simp) member)
      (List.mem_of_ne_of_mem (by simp) member')
  · intro slot ended
    rw [sameOccupant]
    by_cases same : slot = life.table.current
    · rw [same, atSelf, self]
      exact List.mem_cons_self
    · rw [atOther slot same] at ended ⊢
      exact List.mem_cons_of_mem _ (tied.zombie slot ended)
  · intro process code member
    rw [reaped_exited_iff]
    rcases List.mem_cons.mp member with new | old
    · cases new
      refine ⟨tied.self_le, Or.inr ⟨life.table.current, self.symm, ?_, ?_⟩⟩ <;> rw [atSelf]
    · obtain ⟨bound, fate⟩ := tied.exited process code old
      refine ⟨bound, fate.imp_right fun ⟨slot, here, ended, same⟩ => ⟨slot, here, ?_⟩⟩
      have differ : slot ≠ life.table.current := fun this => by
        rw [this, runs] at ended
        cases ended
      rw [atOther slot differ]
      exact ⟨ended, same⟩
  · intro caller statusPtr answer member
    exact tied.answered caller statusPtr answer (List.mem_of_ne_of_mem (by simp) member)
  · refine tied.justified_cons fun code member => ?_
    rw [self] at member
    obtain ⟨known, -, unreaped⟩ := tied.occupied life.table.current live
    rcases (tied.exited _ _ member).2 with reaped | ⟨slot, here, ended, -⟩
    · exact unreaped reaped
    · rw [tied.slot_eq rfl here known, runs] at ended
      cases ended

/-- A failing `wait4` leaves no exited child behind. -/
theorem refused (tied : Tied life)
    (running : life.table.currentProcess.state = .running)
    (childless : ∀ slot,
      (life.table.processes slot).ppid = life.table.currentProcess.pid →
        (life.table.processes slot).state ≠ .zombie)
    (child : Nat) (slot : ProcIdx) (result : Int) (exitCode : Int)
    (created : .created child life.self slot result ∈ life.log)
    (exited : .exited child exitCode ∈ life.log) : Reaped life.log child := by
  obtain ⟨positive, -, -, -, fate⟩ := tied.created _ _ _ _ created
  rcases fate with reaped | ⟨here, -, ppid⟩
  · exact reaped
  · rcases (tied.exited _ _ exited).2 with reaped | ⟨other, there, ended, -⟩
    · exact reaped
    · have same := tied.slot_eq here there (by omega)
      subst same
      have pid : life.table.currentProcess.pid = life.self := by
        rw [← tied.callerPid_eq]
        exact (if_pos running).symm
      exact absurd ended (childless other (ppid.trans pid.symm))

/-- A failing `wait4` changes nothing but the log. -/
theorem wait4_refused (tied : Tied life) (statusPtr : Nat) (stored : Option (Nat × Int))
    (owes : Justified life.log (.waited life.self statusPtr ⟨-1, stored⟩))
    (few : births life.log < PID_LIMIT) :
    Tied { life with log := .waited life.self statusPtr ⟨-1, stored⟩ :: life.log } := by
  have reaped_iff : ∀ process, process ≤ births life.log →
      (Reaped (.waited life.self statusPtr ⟨-1, stored⟩ :: life.log) process ↔
        Reaped life.log process) := by
    intro process bound
    rw [reaped_waited_iff, or_iff_right]
    exact fun same => ofNat_ne_neg_one (by omega) same.symm
  constructor
  · exact tied.counter
  · exact tied.running
  · intro slot live
    obtain ⟨known, pid, unreaped⟩ := tied.occupied slot live
    exact ⟨known, pid, (reaped_iff _ (tied.occupant_le slot)).not.mpr unreaped⟩
  · intro child parent slot result member
    obtain ⟨positive, bound, older, number, fate⟩ :=
      tied.created child parent slot result (List.mem_of_ne_of_mem (by simp) member)
    exact ⟨positive, bound, older, number, fate.imp_left (Reaped.cons · _)⟩
  · intro child parent slot result parent' slot' result' member member'
    exact tied.once _ _ _ _ _ _ _ (List.mem_of_ne_of_mem (by simp) member)
      (List.mem_of_ne_of_mem (by simp) member')
  · intro slot ended
    exact List.mem_cons_of_mem _ (tied.zombie slot ended)
  · intro process code member
    obtain ⟨bound, fate⟩ := tied.exited process code (List.mem_of_ne_of_mem (by simp) member)
    exact ⟨bound, fate.imp_left (Reaped.cons · _)⟩
  · intro caller pointer answer member
    rcases List.mem_cons.mp member with new | old
    · cases new
      exact Or.inl rfl
    · exact tied.answered _ _ _ old
  · exact tied.justified_cons owes

/-- Reaping a zombie empties its slot and answers with its number. -/
theorem wait4_reaps (tied : Tied life) (statusPtr : Nat) {found : ProcIdx}
    (running : life.table.currentProcess.state = .running)
    (child : (life.table.processes found).ppid = life.table.currentProcess.pid)
    (zombie : (life.table.processes found).state = .zombie)
    (few : births life.log < PID_LIMIT) :
    Tied
      { table := life.table.modify found fun process =>
          { process with state := .terminated, pid := 0, ppid := 0, exitCode := 0 }
        log := .waited life.self statusPtr
          ⟨BitVec.ofNat 64 (life.table.processes found).pid,
            if statusPtr = 0 then none
            else some (statusPtr, (life.table.processes found).exitCode)⟩ :: life.log } := by
  have live : (life.table.processes found).state ≠ .terminated := by rw [zombie]; decide
  obtain ⟨known, pid, unreaped⟩ := tied.occupied found live
  have bound := tied.occupant_le found
  rw [pid]
  have reaped_iff : ∀ process answer, process ≤ births life.log →
      (Reaped (.waited life.self statusPtr
          ⟨BitVec.ofNat 64 (occupant found life.log), answer⟩ :: life.log) process ↔
        process = occupant found life.log ∨ Reaped life.log process) := by
    intro process answer small
    rw [reaped_waited_iff]
    refine or_congr_left ⟨fun same => ?_, fun same => by rw [same]⟩
    exact (ofNat_inj_of_small (by omega) (by omega) same).symm
  have atOther : ∀ slot, slot ≠ found →
      (life.table.modify found fun process =>
        { process with state := .terminated, pid := 0, ppid := 0, exitCode := 0 }).processes
          slot = life.table.processes slot := fun slot differ =>
    life.table.modify_of_ne differ _
  have atFound : ((life.table.modify found fun process =>
      { process with state := .terminated, pid := 0, ppid := 0, exitCode := 0 }).processes
        found).state = .terminated := by rw [life.table.modify_same]
  constructor
  · exact tied.counter
  · intro slot runs
    by_cases same : slot = found
    · rw [same, atFound] at runs
      cases runs
    · rw [atOther slot same] at runs
      exact tied.running slot runs
  · intro slot slotLive
    have differ : slot ≠ found := fun same => slotLive (same ▸ atFound)
    rw [atOther slot differ] at slotLive ⊢
    obtain ⟨slotKnown, slotPid, slotUnreaped⟩ := tied.occupied slot slotLive
    refine ⟨slotKnown, slotPid, (reaped_iff _ _ (tied.occupant_le slot)).not.mpr ?_⟩
    rintro (same | reaped)
    · exact differ (tied.slot_eq rfl same known)
    · exact slotUnreaped reaped
  · intro number parent slot result member
    obtain ⟨positive, small, older, same, fate⟩ :=
      tied.created number parent slot result (List.mem_of_ne_of_mem (by simp) member)
    refine ⟨positive, small, older, same, ?_⟩
    rw [reaped_iff _ _ small]
    rcases fate with reaped | ⟨here, slotLive, ppid⟩
    · exact Or.inl (Or.inr reaped)
    · by_cases this : slot = found
      · exact Or.inl (Or.inl (by rw [← this]; exact here.symm))
      · refine Or.inr ?_
        rw [atOther slot this]
        exact ⟨here, slotLive, ppid⟩
  · intro number parent slot result parent' slot' result' member member'
    exact tied.once _ _ _ _ _ _ _ (List.mem_of_ne_of_mem (by simp) member)
      (List.mem_of_ne_of_mem (by simp) member')
  · intro slot ended
    have differ : slot ≠ found := fun same => by
      rw [same, atFound] at ended
      cases ended
    rw [atOther slot differ] at ended ⊢
    exact List.mem_cons_of_mem _ (tied.zombie slot ended)
  · intro process code member
    obtain ⟨small, fate⟩ := tied.exited process code (List.mem_of_ne_of_mem (by simp) member)
    refine ⟨small, ?_⟩
    rw [reaped_iff _ _ small]
    rcases fate with reaped | ⟨slot, here, ended, same⟩
    · exact Or.inl (Or.inr reaped)
    · by_cases this : slot = found
      · exact Or.inl (Or.inl (by rw [← this]; exact here.symm))
      · refine Or.inr ⟨slot, here, ?_⟩
        rw [atOther slot this]
        exact ⟨ended, same⟩
  · intro caller pointer answer member
    rcases List.mem_cons.mp member with new | old
    · cases new
      exact Or.inr ⟨_, bound, rfl⟩
    · exact tied.answered _ _ _ old
  · refine tied.justified_cons ?_
    obtain ⟨parent, result, created⟩ := occupant_mem known
    obtain ⟨-, -, -, number, fate⟩ := tied.created _ _ _ _ created
    obtain ⟨-, -, ppid⟩ := fate.resolve_left unreaped
    have callerPid : life.table.currentProcess.pid = life.self := by
      rw [← tied.callerPid_eq]
      exact (if_pos running).symm
    obtain rfl : parent = life.self := (ppid.symm.trans child).trans callerPid
    have small := ofNat_ne_neg_one (show occupant found life.log < PID_LIMIT by omega)
    simp only [Justified, if_neg small]
    refine ⟨_, found, result, _, created, tied.zombie found zombie, unreaped, ?_, rfl, rfl⟩
    rw [number, BitVec.ofInt_natCast]

/-- `wait4` keeps the invariant. -/
theorem wait4 (tied : Tied life) (statusPtr : Nat)
    (running : life.table.currentProcess.state = .running)
    (few : births life.log < PID_LIMIT) :
    Tied
      { table := (life.table.sysWait4 statusPtr).2
        log := .waited life.self statusPtr (life.table.sysWait4 statusPtr).1 :: life.log } := by
  rcases life.table.sysWait4_cases statusPtr with
    ⟨childless, result⟩ | ⟨found, child, zombie, result⟩
  · rw [result]
    refine tied.wait4_refused statusPtr none ?_ few
    simp only [Justified, if_true]
    exact tied.refused running childless
  · rw [result]
    exact tied.wait4_reaps statusPtr running child zombie few

/-- One event keeps the invariant. -/
theorem step {layout : StackLayout} {next : Life} (tied : Tied life)
    (step : LifeStep layout life next) (few : births next.log < PID_LIMIT) : Tied next := by
  cases step with
  | createProcess entryPoint pml4 => exact tied.createProcess layout entryPoint pml4 few
  | schedule currentEsp => exact tied.schedule currentEsp
  | exit exitCode running => exact tied.exit exitCode running
  | wait4 statusPtr running => exact tied.wait4 statusPtr running few

end Tied

/-- The log only grows. -/
theorem births_le_of_step {layout : StackLayout} {life next : Life}
    (step : LifeStep layout life next) : births life.log ≤ births next.log := by
  cases step with
  | createProcess entryPoint pml4 =>
      unfold Life.createdLog
      cases life.table.createdSlot pml4 with
      | none => exact Nat.le_refl _
      | some slot => exact Nat.le_succ _
  | schedule currentEsp => exact Nat.le_refl _
  | exit exitCode running => exact Nat.le_refl _
  | wait4 statusPtr running => exact Nat.le_refl _

/-- The invariant holds in every state of a run that has not used up the
pids. -/
theorem Lived.tied {layout : StackLayout} {life : Life} (lived : Lived layout life)
    (few : births life.log < PID_LIMIT) : Tied life := by
  induction lived with
  | init stack => exact Tied.init stack
  | step lived step ih =>
      exact (ih (Nat.lt_of_le_of_lt (births_le_of_step step) few)).step step few

/-- Live pids are distinct and not 0; every exit status is delivered to the
parent, once and unchanged; a slot is reused only after it has been reaped; and
`wait4` fails only when no exited child is left. -/
theorem exit_status_delivered_once {layout : StackLayout} {life : Life}
    (lived : Lived layout life) (few : births life.log < 2 ^ 31) :
    DistinctPids life.table ∧
      ∀ record earlier, (record :: earlier) <:+ life.log → Justified earlier record :=
  ⟨(lived.tied few).distinctPids, (lived.tied few).justified⟩

/-- A run in which the first process creates a child, the child exits with 7 and
its parent waits. -/
def firstWait : Life :=
  let layout : StackLayout := ⟨0x100000, 0x200000⟩
  let create (life : Life) : Life :=
    { table := (life.table.createProcess layout 0x400000 1).2
      log := life.createdLog layout 0x400000 1 }
  let switch (life : Life) : Life := { life with table := (life.table.schedule 0).2 }
  let exit (life : Life) : Life :=
    { table := life.table.exitCurrentProcess 7, log := .exited life.self 7 :: life.log }
  let wait (life : Life) : Life :=
    { table := (life.table.sysWait4 64).2
      log := .waited life.self 64 (life.table.sysWait4 64).1 :: life.log }
  wait (switch (exit (switch (create (switch (create
    ⟨ProcTable.schedulerInit fun _ => 0, []⟩))))))

/-- In that run the parent receives the pid and the code of its child. -/
theorem exit_status_delivered_to_first_process :
    firstWait.log =
        [.waited 1 64 ⟨2, some (64, 7)⟩, .exited 2 7, .created 2 1 1 2, .created 1 0 0 1] ∧
      DistinctPids firstWait.table ∧
      ∀ record earlier, (record :: earlier) <:+ firstWait.log → Justified earlier record := by
  have lived : Lived ⟨0x100000, 0x200000⟩ firstWait :=
    .step (.step (.step (.step (.step (.step (.step (.init fun _ => 0)
      (.createProcess _ 0x400000 1)) (.schedule _ 0)) (.createProcess _ 0x400000 1))
      (.schedule _ 0)) (.exit _ 7 (by decide +kernel))) (.schedule _ 0))
      (.wait4 _ 64 (by decide +kernel))
  have log : firstWait.log =
      [.waited 1 64 ⟨2, some (64, 7)⟩, .exited 2 7, .created 2 1 1 2, .created 1 0 0 1] := by
    decide +kernel
  exact ⟨log, exit_status_delivered_once lived (by decide +kernel)⟩

end Notux.Proc
