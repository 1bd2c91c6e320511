import Notux.Fs.Layout

/-!
# The process table

`process.c`: eight slots, the index of the current one, the pid counter, and
the kernel stacks on which the saved register frames live.  The arrays
`kernel_stacks` and `user_stacks` are placed by the linker, so their addresses
are parameters.  `create_user_pml4` reports only whether it found memory; its
result is an argument, null on failure.
-/

namespace Notux.Proc

open Notux.Fs

abbrev MAX_PROCESSES : Nat := 8
abbrev KERNEL_STACK_SIZE : Nat := 8192
abbrev USER_STACK_SIZE : Nat := 16384
abbrev NOFILE : Nat := 16

instance : NeZero MAX_PROCESSES := ⟨by decide⟩

instance : NeZero NOFILE := ⟨by decide⟩

/-- An entry of the inode table, as `struct inode *` points to it. -/
abbrev Slot := Fin NINODE

/-- A process slot. -/
abbrev ProcIdx := Fin MAX_PROCESSES

/-- A 64-bit word of memory. -/
abbrev Word := BitVec 64

inductive ProcessState where
  | ready
  | running
  | zombie
  | terminated
deriving DecidableEq, Repr

/-- One entry of `ofiles`; a null `ip` means the descriptor is closed. -/
@[ext]
structure OFile where
  ip : Option Slot
  offset : Nat
  flags : BitVec 32
deriving DecidableEq, Repr

/-- A closed descriptor. -/
def OFile.closed : OFile := ⟨none, 0, 0⟩

structure Process where
  pid : Nat
  ppid : Nat
  exitCode : Int
  esp : Nat
  kernelStack : Nat
  state : ProcessState
  pml4 : Nat
  heapStart : Nat
  heapEnd : Nat
  ofiles : Fin NOFILE → OFile

/-- A slot as `scheduler_init` leaves it. -/
def Process.initial : Process where
  pid := 0
  ppid := 0
  exitCode := 0
  esp := 0
  kernelStack := 0
  state := .terminated
  pml4 := 0
  heapStart := 0
  heapEnd := 0
  ofiles _ := .closed

/-- The globals of `process.c`, with the kernel stacks as a memory of words. -/
structure ProcTable where
  processes : ProcIdx → Process
  current : ProcIdx
  nextPid : Nat
  stack : Nat → Word

/-- Where the linker put the stacks. -/
structure StackLayout where
  kernelStacks : Nat
  userStacks : Nat

namespace StackLayout

variable (layout : StackLayout)

/-- `&kernel_stacks[idx][sizeof(kernel_stacks[idx])]`. -/
def kernelTop (idx : ProcIdx) : Nat := layout.kernelStacks + (idx + 1) * KERNEL_STACK_SIZE

/-- `&user_stacks[idx][sizeof(user_stacks[idx])]`. -/
def userTop (idx : ProcIdx) : Nat := layout.userStacks + (idx + 1) * USER_STACK_SIZE

end StackLayout

/-- A `uint32_t` seen as an `int`. -/
def toInt32 (value : Nat) : Int := (BitVec.ofNat 32 value).toInt

namespace ProcTable

/-- Change one slot. -/
def modify (table : ProcTable) (idx : ProcIdx) (change : Process → Process) : ProcTable :=
  { table with processes := Function.update table.processes idx (change (table.processes idx)) }

/-- `scheduler_init`. -/
def schedulerInit (stack : Nat → Word) : ProcTable where
  processes _ := .initial
  current := 0
  nextPid := 1
  stack := stack

/-- `get_current_process`. -/
def currentProcess (table : ProcTable) : Process := table.processes table.current

/-- The first slot that satisfies a test. -/
def firstSlot (test : ProcIdx → Bool) : Option ProcIdx := (List.finRange MAX_PROCESSES).find? test

/-- `get_process_by_pid`. -/
def getProcessByPid (table : ProcTable) (pid : Nat) : Option ProcIdx :=
  firstSlot fun i =>
    (table.processes i).pid = pid ∧ (table.processes i).state ≠ .terminated

/-- `*(--stack) = word`. -/
def push (frame : (Nat → Word) × Nat) (word : Word) : (Nat → Word) × Nat :=
  (Function.update frame.1 (frame.2 - 8) word, frame.2 - 8)

/-- The words `create_process` pushes: SS, RSP, RFLAGS, CS, RIP and fifteen
zero registers. -/
def initialFrame (userTop entryPoint : Nat) : List Word :=
  [0x1B, BitVec.ofNat 64 userTop, 0x202, 0x23, BitVec.ofNat 64 entryPoint] ++
    List.replicate 15 0

/-- The parent a new process records: the pid of the current process if it is
running, 0 if there is none. -/
def callerPid (table : ProcTable) : Nat :=
  if table.currentProcess.state = .running then table.currentProcess.pid else 0

/-- `create_process`. -/
def createProcess (layout : StackLayout) (entryPoint pml4 : Nat) (table : ProcTable) :
    Int × ProcTable :=
  match firstSlot fun i => (table.processes i).state = .terminated with
  | none => (-1, table)
  | some idx =>
      if pml4 = 0 then (-1, table)
      else
        let frame := (initialFrame (layout.userTop idx) entryPoint).foldl push
          (table.stack, layout.kernelTop idx)
        let pid := table.nextPid % 2 ^ 32
        (toInt32 pid,
          { table with
            processes := Function.update table.processes idx
              { pid
                ppid := table.callerPid
                exitCode := 0
                esp := frame.2
                kernelStack := layout.kernelTop idx
                state := .ready
                pml4
                heapStart := 0
                heapEnd := 0
                ofiles := fun _ => .closed }
            nextPid := table.nextPid + 1
            stack := frame.1 })

/-- `set_process_entry`: install RIP in the saved frame. -/
def setProcessEntry (idx : ProcIdx) (entryPoint : Nat) (table : ProcTable) : ProcTable :=
  let esp := (table.processes idx).esp
  if esp = 0 then table
  else
    { table with
      stack := Function.update table.stack (esp + 15 * 8) (BitVec.ofNat 64 entryPoint) }

/-- `set_process_argv`: install RDI and RSI in the saved frame. -/
def setProcessArgv (idx : ProcIdx) (argc argvPtr : Nat) (table : ProcTable) : ProcTable :=
  let esp := (table.processes idx).esp
  if esp = 0 then table
  else
    { table with
      stack := Function.update
        (Function.update table.stack (esp + 9 * 8) (BitVec.ofNat 64 argc))
        (esp + 10 * 8) (BitVec.ofNat 64 argvPtr) }

/-- `activate_process`.  Loading the stack pointer and the page tables of the
new process has no effect on the table. -/
def activateProcess (idx : ProcIdx) (table : ProcTable) : ProcTable :=
  { table.modify idx fun process => { process with state := .running } with current := idx }

/-- The slots `schedule` looks at, in its order: every slot but the current
one, starting after it. -/
def others (current : ProcIdx) : List ProcIdx :=
  (List.range (MAX_PROCESSES - 1)).map fun i => Fin.ofNat MAX_PROCESSES (current + (i + 1))

/-- Save the interrupted frame of a running process. -/
def saveCurrent (currentEsp : Nat) (table : ProcTable) : ProcTable :=
  if table.currentProcess.state = .running then
    table.modify table.current fun process => { process with esp := currentEsp }
  else table

/-- `schedule`: the frame to resume, or nothing when it halts for want of a
runnable process. -/
def schedule (currentEsp : Nat) (table : ProcTable) : Option Nat × ProcTable :=
  let table := table.saveCurrent currentEsp
  match (others table.current).find? fun i => (table.processes i).state = .ready with
  | some next =>
      let table :=
        if table.currentProcess.state = .running then
          table.modify table.current fun process => { process with state := .ready }
        else table
      let table := table.activateProcess next
      (some table.currentProcess.esp, table)
  | none =>
      if table.currentProcess.state ≠ .terminated ∧ table.currentProcess.state ≠ .zombie then
        let table := table.modify table.current fun process => { process with state := .running }
        (some table.currentProcess.esp, table)
      else (none, table)

/-- `exit_current_process`, up to its final halt. -/
def exitCurrentProcess (exitCode : Int) (table : ProcTable) : ProcTable :=
  table.modify table.current fun process => { process with exitCode, state := .zombie }

/-- The failure exit of `spawn_from_xv6fs` after `load_elf_into_process`. -/
def terminate (idx : ProcIdx) (table : ProcTable) : ProcTable :=
  table.modify idx fun process => { process with state := .terminated }

/-- The zombie child `wait4` reaps. -/
def zombieChild (table : ProcTable) : Option ProcIdx :=
  firstSlot fun i =>
    (table.processes i).ppid = table.currentProcess.pid ∧ (table.processes i).state = .zombie

/-- System call 61: the pid and exit code of the reaped child, if any. -/
def wait4 (table : ProcTable) : Option (Nat × Int) × ProcTable :=
  match table.zombieChild with
  | none => (none, table)
  | some found =>
      (some ((table.processes found).pid, (table.processes found).exitCode),
        table.modify found fun process =>
          { process with state := .terminated, pid := 0, ppid := 0, exitCode := 0 })

end ProcTable

end Notux.Proc
