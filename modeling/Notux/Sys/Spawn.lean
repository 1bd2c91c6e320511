import Notux.Fs.Direct
import Notux.Proc.Wait
import Notux.Sys.Holders

/-!
# The contract of `execve`

`execve` tries the disk first and the ramfs image second.  The two spawn paths
agree on a contract only in part: the second does not return the pid, hands down
no descriptor and leaves its process ready when the image does not load.  So the
contract holds exactly as long as that path does not get as far as creating a
process in vain.
-/

namespace Notux.Sys

open Notux.Store Notux.Proc Notux.Fs

/-! ## The ramfs image -/

/-- `streq`. -/
def streq (memory : Nat → Byte) : List Byte → Bool
  | [] => memory 0 = 0
  | head :: rest => memory 0 = head && streq (fun i => memory (i + 1)) rest

/-- A `uint32_t` in memory. -/
def word32 (memory : Nat → Byte) (off : Nat) : Nat :=
  (List.range 4).foldr (fun i value => (memory (off + i)).toNat + 256 * value) 0

abbrev RAMFS_MAGIC : Nat := 0x52414D46

/-- `sizeof(ramfs_entry_t)`. -/
abbrev RAMFS_ENTRY_SIZE : Nat := 40

/-- `ramfs_open` on the image passed to `ramfs_init`, if there was one. -/
def ramfsOpen (disk : Option (Nat → Byte)) (name : List Byte) : Option Nat :=
  match disk with
  | none => none
  | some disk =>
      if word32 disk 0 = RAMFS_MAGIC then
        (List.range (word32 disk 4)).find? fun i =>
          streq (fun j => disk (8 + RAMFS_ENTRY_SIZE * i + j)) name
      else none

/-- The entry point `spawn_from_ramfs` reads from the file it finds. -/
def ramfsEntry (disk : Option (Nat → Byte)) (name : List Byte) : Option Nat :=
  match disk, ramfsOpen disk name with
  | some disk, some fd =>
      some (elfEntry fun i => disk (word32 disk (8 + RAMFS_ENTRY_SIZE * fd + 32) + i))
  | _, _ => none

/-- System call 59 with the ramfs image in place. -/
def execve (disk : Option (Nat → Byte)) (filename : Option CString) (env ramfsEnv : SpawnEnv) :
    FsM Int :=
  sysExecve filename env (filename.bind fun name => ramfsEntry disk name.bytes) ramfsEnv

/-! ## The image on disk -/

/-- The part of `spawn_from_xv6fs` that reads and checks the image. -/
def findImage (path : List Byte) : FsM (Option (Nat → Byte)) := do
  match ← namei path with
  | none => return none
  | some ip =>
      ilock ip
      let inode ← getInode ip
      let size := inode.din.size.toNat
      if size = 0 ∨ size > MAX_ELF_SIZE then
        iunlock ip
        iput ip
        return none
      else
        let (readBytes, bytes) ← readi ip 0 size
        let image ← loadBuffer bytes
        iunlock ip
        iput ip
        if readBytes ≠ size then return none
        else if elfHeaderOk image then return some image
        else return none

/-- `spawn_from_xv6fs` reads the image and then spawns it. -/
theorem spawnFromXv6fs_eq (path : List Byte) (env : SpawnEnv) :
    spawnFromXv6fs path env =
      findImage path >>= fun found =>
        match found with
        | none => pure (-1)
        | some image => spawnImage env image := by
  unfold spawnFromXv6fs findImage
  simp only [bind_assoc]
  congr 1
  funext found
  cases found with
  | none => rfl
  | some ip =>
      simp only [bind_assoc]
      congr 1
      funext _
      congr 1
      funext inode
      by_cases wrongSize : inode.din.size.toNat = 0 ∨ inode.din.size.toNat > MAX_ELF_SIZE
      · simp only [if_pos wrongSize, bind_assoc, pure_bind]
      · simp only [if_neg wrongSize, bind_assoc]
        congr 1
        funext result
        obtain ⟨readBytes, bytes⟩ := result
        dsimp only
        congr 1
        funext image
        congr 1
        funext _
        congr 1
        funext _
        by_cases short : readBytes ≠ inode.din.size.toNat
        · simp only [if_pos short, pure_bind]
        · simp only [if_neg short]
          by_cases header : elfHeaderOk image
          · simp only [if_pos header, pure_bind]
          · simp only [if_neg header, pure_bind]

/-- The image that `spawn_from_xv6fs` finds under a path. -/
def imageOf (path : List Byte) (world : FsWorld) : Option (Nat → Byte) :=
  match (findImage path).run world with
  | ⟨.ret found, _, _⟩ => found
  | ⟨.stop _, _, _⟩ => none

/-- Looking for the image leaves the process table alone. -/
theorem findImage_table (path : List Byte) (world : FsWorld) :
    (findImage path).wp (fun _ => True) (fun _ _ => True)
      (fun _ after => after.mem.table = world.mem.table) world := by
  have frame : ∀ {α : Type} {program : FsM α} {delta : α → Slot → Int} {middle : FsWorld},
      Owes program delta → middle.mem.table = world.mem.table →
      program.wp (fun _ => True) (fun _ _ => True)
        (fun _ after => after.mem.table = world.mem.table) middle :=
    fun owes same => (owes _).mono fun _ _ moved => moved.1.trans same
  unfold findImage
  rw [Prog.wp_bind]
  refine (frame namei_owes rfl).mono fun found middle same => ?_
  cases found with
  | none => exact same
  | some ip =>
      simp only [Prog.wp_bind]
      refine (frame ilock_takes.owes same).mono fun _ _ same => ?_
      refine (frame getInode_takes.owes same).mono fun inode _ same => ?_
      split
      · simp only [Prog.wp_bind]
        refine (frame iunlock_takes.owes same).mono fun _ _ same => ?_
        exact (frame iput_takes.owes same).mono fun _ _ same => same
      · simp only [Prog.wp_bind]
        refine (frame readi_takes.owes same).mono fun result _ same => ?_
        obtain ⟨readBytes, bytes⟩ := result
        have loads : Takes (loadBuffer bytes) fun _ => 0 := fun world =>
          ⟨rfl, (add_zero _).symm⟩
        dsimp only
        refine (frame loads.owes same).mono fun image _ same => ?_
        refine (frame iunlock_takes.owes same).mono fun _ _ same => ?_
        refine (frame iput_takes.owes same).mono fun _ _ same => ?_
        split
        · exact same
        · split <;> exact same

/-! ## What the spawn paths do to the process table -/

/-- The slot holds a process: `READY`, `RUNNING` or `ZOMBIE`. -/
def Live (table : ProcTable) (slot : ProcIdx) : Prop :=
  (table.processes slot).state ≠ .terminated

/-- The same processes are live. -/
def SameLive (before after : ProcTable) : Prop := ∀ slot, Live after slot ↔ Live before slot

/-- Two descriptors are both closed or have the same open file. -/
def SameOFile (mine theirs : OFile) : Prop :=
  mine.ip = theirs.ip ∧ (theirs.ip ≠ none → mine = theirs)

/-- A process was created in one slot, with the pid that was returned; it is
ready to start at the entry point, and a child of the caller that shares its
first three descriptors. -/
structure Spawned (before after : ProcTable) (pid : Int) (entryPoint : Nat) (child : ProcIdx) :
    Prop where
  free : ¬ Live before child
  ready : (after.processes child).state = .ready
  others : ∀ slot, slot ≠ child → (Live after slot ↔ Live before slot)
  pid : (after.processes child).pid = pid
  entry : after.stack ((after.processes child).esp + 15 * 8) = BitVec.ofNat 64 entryPoint
  ppid : (after.processes child).ppid = before.currentProcess.pid
  stdio : ∀ fd ∈ stdio,
    SameOFile ((after.processes child).ofiles fd) (before.currentProcess.ofiles fd)

/-- A process was created in a slot and left ready. -/
structure Filled (before after : ProcTable) (child : ProcIdx) : Prop where
  free : ¬ Live before child
  ready : (after.processes child).state = .ready
  pid : (after.processes child).pid = before.nextPid % 2 ^ 32
  others : ∀ slot, slot ≠ child → (Live after slot ↔ Live before slot)

/-- A run from one process table to another. -/
abbrev Makes {α : Type} (program : FsM α) (Q : α → ProcTable → Prop) (world : FsWorld) : Prop :=
  program.wp (fun _ => True) (fun _ _ => True) (fun value after => Q value after.mem.table) world

/-- A slot is found exactly as long as one is free and there is memory. -/
theorem createdSlot_congr {before after : ProcTable} (same : SameLive before after) (pml4 : Nat) :
    after.createdSlot pml4 = before.createdSlot pml4 := by
  unfold ProcTable.createdSlot ProcTable.firstSlot
  congr 2
  funext i
  have := same i
  simp only [Live] at this
  by_cases free : (before.processes i).state = .terminated
  · simp [free, not_not.mp (this.not.mpr (not_not.mpr free))]
  · simp [free, this.mpr free]

/-- The descriptors that are handed down. -/
def handDown (fds : List (Fin NOFILE)) (caller child : Fin NOFILE → OFile) : Fin NOFILE → OFile :=
  fun fd => if fd ∈ fds ∧ (caller fd).ip ≠ none then caller fd else child fd

@[simp]
theorem handDown_nil (caller child : Fin NOFILE → OFile) : handDown [] caller child = child := by
  funext fd
  simp [handDown]

theorem handDown_cons (fd : Fin NOFILE) (rest : List (Fin NOFILE))
    (caller child : Fin NOFILE → OFile) :
    handDown (fd :: rest) caller child =
      handDown rest caller
        (if (caller fd).ip = none then child else Function.update child fd (caller fd)) := by
  funext other
  by_cases closed : (caller fd).ip = none
  · by_cases same : other = fd
    · subst same
      simp [handDown, closed]
    · simp [handDown, closed, same]
  · by_cases same : other = fd
    · subst same
      by_cases member : other ∈ rest
      · simp [handDown, closed, member]
      · simp [handDown, closed, member]
    · simp [handDown, closed, same]

/-- Give a process descriptors of the current one. -/
def giveOfiles (fds : List (Fin NOFILE)) (child : ProcIdx) (table : ProcTable) : ProcTable :=
  table.modify child fun process =>
    { process with ofiles := handDown fds table.currentProcess.ofiles process.ofiles }

theorem onTable_makes {α : Type} {step : ProcTable → α × ProcTable} {world : FsWorld}
    {Q : α → FsWorld → Prop}
    (rest : ∀ after : FsWorld, after.mem.table = (step world.mem.table).2 →
      Q (step world.mem.table).1 after) :
    (onTable step).wp (fun _ => True) (fun _ _ => True) Q world :=
  rest { world with mem := { world.mem with table := (step world.mem.table).2 } } rfl

/-- Handing down one descriptor. -/
theorem inheritFd_makes {world : FsWorld} {child : ProcIdx} (fd : Fin NOFILE) :
    Makes (inheritFd child fd) (fun _ after => after = giveOfiles [fd] child world.mem.table)
      world := by
  unfold inheritFd Makes giveOfiles
  simp only [handDown_cons, handDown_nil]
  rw [Prog.wp_bind, wp_getOfile]
  cases isOpen : (world.mem.table.currentProcess.ofiles fd).ip with
  | none =>
      show world.mem.table = _
      simp [ProcTable.modify]
  | some ip =>
      simp only [Prog.wp_bind, Prog.wp_modifyMem]
      exact (idup_takes.owes _).mono fun _ after moved => moved.1

/-- Handing down descriptors one after the other. -/
theorem inheritAll_makes {child : ProcIdx} (fds : List (Fin NOFILE)) {world : FsWorld}
    (differ : child ≠ world.mem.table.current) :
    Makes (forEach fds (inheritFd child))
      (fun _ after => after = giveOfiles fds child world.mem.table) world := by
  induction fds generalizing world with
  | nil =>
      show world.mem.table = _
      simp [giveOfiles, ProcTable.modify]
  | cons fd rest ih =>
      unfold forEach Makes
      rw [Prog.wp_bind]
      refine (inheritFd_makes fd).mono fun _ middle first => ?_
      have caller : middle.mem.table.currentProcess = world.mem.table.currentProcess := by
        rw [first]
        exact world.mem.table.modify_of_ne (Ne.symm differ) _
      refine (ih (by rw [first]; exact differ)).mono fun _ after second => ?_
      rw [second]
      unfold giveOfiles
      rw [caller, first]
      simp only [giveOfiles, ProcTable.modify, Function.update_self, Function.update_idem,
        handDown_cons, handDown_nil]

/-- A process table without the open files. -/
def withoutFiles (table : ProcTable) : ProcTable :=
  { table with processes := fun slot =>
      { table.processes slot with ofiles := fun _ => .closed } }

theorem withoutFiles_createProcess (layout : StackLayout) (entryPoint pml4 : Nat)
    (table : ProcTable) :
    (withoutFiles table).createProcess layout entryPoint pml4 =
      ((table.createProcess layout entryPoint pml4).1,
        withoutFiles (table.createProcess layout entryPoint pml4).2) := by
  have slot : (ProcTable.firstSlot fun i =>
      ((withoutFiles table).processes i).state = .terminated) =
      ProcTable.firstSlot fun i => (table.processes i).state = .terminated := rfl
  unfold ProcTable.createProcess
  rw [slot]
  cases ProcTable.firstSlot fun i => (table.processes i).state = .terminated with
  | none => rfl
  | some idx =>
      by_cases null : pml4 = 0
      · simp only [if_pos null]
      · simp only [if_neg null, withoutFiles]
        congr 2
        funext other
        by_cases same : other = idx
        · subst same
          simp only [Function.update_self]
          rfl
        · simp only [Function.update_of_ne same]

theorem withoutFiles_modify (table : ProcTable) (idx : ProcIdx) (change : Process → Process) :
    withoutFiles (table.modify idx change) = (withoutFiles table).modify idx fun _ =>
      { change (table.processes idx) with ofiles := fun _ => .closed } :=
  congrArg (fun processes => { table with processes })
    (Function.comp_update (fun process : Process => { process with ofiles := fun _ => .closed })
      table.processes idx (change (table.processes idx)))

theorem withoutFiles_terminate (child : ProcIdx) (table : ProcTable) :
    (withoutFiles table).terminate child = withoutFiles (table.terminate child) :=
  (withoutFiles_modify table child fun process => { process with state := .terminated }).symm

theorem withoutFiles_giveOfiles (fds : List (Fin NOFILE)) (child : ProcIdx) (table : ProcTable) :
    withoutFiles (giveOfiles fds child table) = withoutFiles table := by
  unfold giveOfiles
  rw [withoutFiles_modify]
  exact congrArg (fun processes => { withoutFiles table with processes })
    (Function.update_eq_self child (withoutFiles table).processes)

/-- What a child inherits is forgotten. -/
theorem inheritAll_withoutFiles (child : ProcIdx) (fds : List (Fin NOFILE)) (world : FsWorld) :
    Makes (forEach fds (inheritFd child))
      (fun _ after => withoutFiles after = withoutFiles world.mem.table) world := by
  induction fds generalizing world with
  | nil => exact rfl
  | cons fd rest ih =>
      unfold forEach Makes
      rw [Prog.wp_bind]
      apply (inheritFd_makes fd).mono
      intro _ middle first
      apply (ih middle).mono
      intro _ after second
      calc withoutFiles after.mem.table = withoutFiles middle.mem.table := second
        _ = withoutFiles (giveOfiles [fd] child world.mem.table) := by rw [first]
        _ = withoutFiles world.mem.table := withoutFiles_giveOfiles [fd] child world.mem.table

/-- The slot a new process was put into is the one found under its pid, unless
an older process has the same pid. -/
theorem getProcessByPid_created {before after : ProcTable} {child : ProcIdx} {process : Process}
    (processes : after.processes = Function.update before.processes child process)
    (alive : process.state ≠ .terminated)
    (fresh : ∀ slot, Live before slot → (before.processes slot).pid ≠ process.pid) :
    after.getProcessByPid process.pid = some child := by
  have atChild : after.processes child = process := by rw [processes, Function.update_self]
  have only : ∀ slot, (after.processes slot).pid = process.pid ∧
      (after.processes slot).state ≠ .terminated → slot = child := by
    intro slot both
    by_contra differ
    rw [processes, Function.update_of_ne differ] at both
    exact fresh slot both.2 both.1
  unfold ProcTable.getProcessByPid
  cases found : ProcTable.firstSlot fun i => (after.processes i).pid = process.pid ∧
      (after.processes i).state ≠ .terminated with
  | none =>
      have missed := List.find?_eq_none.mp found child (List.mem_finRange child)
      exact absurd (by simpa [atChild] using alive) missed
  | some slot =>
      rw [only slot (by simpa using ProcTable.firstSlot_eq_some found)]

/-- No live process has the pid the next one will get. -/
def NextPidFree (table : ProcTable) : Prop :=
  ∀ slot, Live table slot → (table.processes slot).pid ≠ table.nextPid % 2 ^ 32

/-- What `spawn_from_xv6fs` does with an image when it can create a process: the
process is started or undone, unless its pid is negative as an `int`. -/
inductive ImageSpawned (env : SpawnEnv) (image : Nat → Byte) (before : ProcTable)
    (child : ProcIdx) : Int → ProcTable → Prop where
  | started (pid : Int) (after : ProcTable) (loads : env.loads) (positive : 0 ≤ pid)
      (spawned : Spawned before after pid (elfEntry image) child) :
      ImageSpawned env image before child pid after
  | undone (after : ProcTable) (fails : ¬ env.loads) (same : SameLive before after)
      (nextPid : after.nextPid = before.nextPid + 1) :
      ImageSpawned env image before child (-1) after

theorem spawnImage_fails {env : SpawnEnv} {image : Nat → Byte} {world : FsWorld}
    (full : world.mem.table.createdSlot env.pml4 = none) :
    Makes (spawnImage env image) (fun pid after => pid = -1 ∧ after = world.mem.table) world := by
  unfold spawnImage Makes
  rw [Prog.wp_bind]
  refine onTable_makes fun after same => ?_
  rw [ProcTable.createProcess_fails env.layout full] at same ⊢
  rw [if_pos (show (-1 : Int) < 0 by decide)]
  exact ⟨rfl, same⟩

theorem toInt32_of_large {value : Nat} (large : 2 ^ 31 ≤ value) (bound : value < 2 ^ 32) :
    toInt32 value < 0 := by
  unfold toInt32
  rw [BitVec.toInt_eq_toNat_cond]
  simp only [BitVec.toNat_ofNat, Nat.mod_eq_of_lt bound]
  split <;> omega

theorem filled_of_created {layout : StackLayout} {entryPoint pml4 : Nat} {before : ProcTable}
    {child : ProcIdx} (found : before.createdSlot pml4 = some child) :
    Filled before (before.createProcess layout entryPoint pml4).2 child := by
  obtain ⟨free, -, -, -, process, ready, pid, -, -, -, processes⟩ :=
    ProcTable.createProcess_fills layout found
  constructor
  · exact not_not.mpr free
  · rw [processes, Function.update_self, ready]
  · rw [processes, Function.update_self, pid]
  · intro slot differ
    simp only [Live, processes, Function.update_of_ne differ]

/-- A pid from 2^31 on is taken for a failure, and the process stays. -/
theorem spawnImage_overflows {env : SpawnEnv} {image : Nat → Byte} {world : FsWorld}
    {child : ProcIdx} (found : world.mem.table.createdSlot env.pml4 = some child)
    (large : 2 ^ 31 ≤ world.mem.table.nextPid % 2 ^ 32) :
    Makes (spawnImage env image) (fun pid after => pid = -1 ∧ Filled world.mem.table after child)
      world := by
  unfold spawnImage Makes
  rw [Prog.wp_bind]
  refine onTable_makes fun after same => ?_
  obtain ⟨-, result, -⟩ := ProcTable.createProcess_fills env.layout found
  rw [result, if_pos (toInt32_of_large large (Nat.mod_lt _ (by decide)))]
  refine ⟨rfl, ?_⟩
  rw [same]
  exact filled_of_created found

theorem setProcessEntry_stack {table : ProcTable} {idx : ProcIdx} {entryPoint : Nat}
    (hasFrame : (table.processes idx).esp ≠ 0) :
    (table.setProcessEntry idx entryPoint).stack ((table.processes idx).esp + 15 * 8) =
      BitVec.ofNat 64 entryPoint := by
  unfold ProcTable.setProcessEntry
  simp only [if_neg hasFrame, Function.update_self]

/-- `set_process_argv` leaves RIP alone. -/
theorem setProcessArgv_stack_entry (table : ProcTable) (idx : ProcIdx) (argc argvPtr : Nat) :
    (table.setProcessArgv idx argc argvPtr).stack ((table.processes idx).esp + 15 * 8) =
      table.stack ((table.processes idx).esp + 15 * 8) := by
  unfold ProcTable.setProcessArgv
  simp only
  split
  · rfl
  · dsimp only
    rw [Function.update_of_ne (by omega), Function.update_of_ne (by omega)]

/-- With a fresh pid the process created is the one that is filled, and it is
started or undone. -/
theorem spawnImage_spawns {env : SpawnEnv} {image : Nat → Byte} {world : FsWorld}
    {child : ProcIdx} (running : world.mem.table.currentProcess.state = .running)
    (found : world.mem.table.createdSlot env.pml4 = some child)
    (small : world.mem.table.nextPid % 2 ^ 32 < 2 ^ 31)
    (fresh : NextPidFree world.mem.table) :
    Makes (spawnImage env image) (ImageSpawned env image world.mem.table child) world := by
  obtain ⟨free, result, current, nextPid, process, ready, pid, ppid, closed, esp, processes⟩ :=
    ProcTable.createProcess_fills env.layout found
  have bound : world.mem.table.nextPid % 2 ^ 32 < 2 ^ 32 := Nat.mod_lt _ (by decide)
  have value : toInt32 (world.mem.table.nextPid % 2 ^ 32) =
      (world.mem.table.nextPid % 2 ^ 32 : Nat) := toInt32_of_small small
  have differ : child ≠ world.mem.table.current := by
    rintro rfl
    exact absurd (free.symm.trans running) (by decide)
  unfold spawnImage Makes
  rw [Prog.wp_bind]
  refine onTable_makes fun created same => ?_
  rw [result, value, if_neg (by omega)]
  simp only [Prog.wp_bind, Prog.wp_getMem]
  have lookup : created.mem.table.getProcessByPid
      ((world.mem.table.nextPid % 2 ^ 32 : Nat) : Int).toNat = some child := by
    rw [Int.toNat_natCast, ← pid, same]
    exact getProcessByPid_created processes (by rw [ready]; decide) (by rw [pid]; exact fresh)
  rw [lookup]
  simp only [Prog.wp_bind]
  have createdCurrent : created.mem.table.current = world.mem.table.current := by
    rw [same, current]
  have caller : created.mem.table.currentProcess = world.mem.table.currentProcess := by
    unfold ProcTable.currentProcess
    rw [createdCurrent, same, processes, Function.update_of_ne (Ne.symm differ)]
  refine (inheritAll_makes _ (by rw [createdCurrent]; exact differ)).mono
    fun _ inherited given => ?_
  -- From here on only the frame of the child and its state change.
  have atChild : inherited.mem.table.processes child =
      { process with
        ofiles := handDown [0, 1, 2] world.mem.table.currentProcess.ofiles process.ofiles } := by
    rw [given, giveOfiles, ProcTable.modify_same, caller, same, processes, Function.update_self]
  have atOther : ∀ slot, slot ≠ child →
      inherited.mem.table.processes slot = world.mem.table.processes slot := by
    intro slot apart
    rw [given, giveOfiles, ProcTable.modify_of_ne _ apart, same, processes,
      Function.update_of_ne apart]
  have atEsp : (inherited.mem.table.processes child).esp ≠ 0 := by
    rw [atChild]
    simp only [esp, frameBase_eq]
    omega
  have others : ∀ {after : ProcTable}, (∀ slot, slot ≠ child →
      after.processes slot = inherited.mem.table.processes slot) → ∀ slot, slot ≠ child →
      (Live after slot ↔ Live world.mem.table slot) := by
    intro after kept slot apart
    simp only [Live, kept slot apart, atOther slot apart]
  split
  · next loads =>
    have spawned : ∀ after : ProcTable, after.processes = inherited.mem.table.processes →
        after.stack ((inherited.mem.table.processes child).esp + 15 * 8) =
          BitVec.ofNat 64 (elfEntry image) →
        Spawned world.mem.table after (world.mem.table.nextPid % 2 ^ 32 : Nat) (elfEntry image)
          child := by
      intro after kept entry
      refine ⟨not_not.mpr free, ?_, others fun slot _ => by rw [kept], ?_, ?_, ?_, ?_⟩
      · rw [kept, atChild, ← ready]
      · rw [kept, atChild, ← pid]
      · rw [kept, entry]
      · rw [kept, atChild]
        simp only [ppid]
        exact if_pos running
      · intro fd member
        rw [kept, atChild]
        by_cases isOpen : (world.mem.table.currentProcess.ofiles fd).ip = none
        · simp [handDown, isOpen, closed, SameOFile, OFile.closed]
        · have inherits : fd ∈ [0, 1, 2] ∧
              (world.mem.table.currentProcess.ofiles fd).ip ≠ none := ⟨member, isOpen⟩
          simp only [handDown, if_pos inherits]
          exact ⟨rfl, fun _ => rfl⟩
    simp only [Prog.wp_bind]
    refine onTable_makes fun entered sameEntry => ?_
    have entry : entered.mem.table.stack
        ((inherited.mem.table.processes child).esp + 15 * 8) =
          BitVec.ofNat 64 (elfEntry image) := by
      rw [sameEntry, setProcessEntry_stack atEsp]
    have kept : entered.mem.table.processes = inherited.mem.table.processes := by
      rw [sameEntry, ProcTable.setProcessEntry_processes]
    cases env.argv with
    | none => exact .started _ _ loads (by omega) (spawned _ kept entry)
    | some argv =>
        simp only [Prog.wp_bind]
        refine onTable_makes fun final sameArgv => ?_
        refine .started _ _ loads (by omega) (spawned _ ?_ ?_)
        · rw [sameArgv, ProcTable.setProcessArgv_processes, kept]
        · rw [sameArgv, ← kept, setProcessArgv_stack_entry, kept, entry]
  · next fails =>
    simp only [Prog.wp_bind]
    refine onTable_makes fun final terminated => ?_
    refine .undone _ fails ?_ ?_
    · intro slot
      by_cases this : slot = child
      · subst this
        rw [terminated]
        simp only [Live, ProcTable.terminate, ProcTable.modify_same]
        exact iff_of_false (by simp) (not_not.mpr free)
      · refine others (fun other apart => ?_) slot this
        rw [terminated]
        show (inherited.mem.table.terminate child).processes other = _
        rw [ProcTable.terminate, ProcTable.modify_of_ne _ apart]
    · rw [terminated]
      show inherited.mem.table.nextPid = _
      rw [given]
      show created.mem.table.nextPid = _
      rw [same, nextPid]

/-- `spawn_from_ramfs` leaves whatever process it creates ready, and never
returns its pid. -/
theorem spawnFromRamfs_fills {file : Option Nat} {env : SpawnEnv} {world : FsWorld} :
    Makes (spawnFromRamfs file env)
      (fun result after =>
        (result = -1 ∧ after = world.mem.table ∧
          (file = none ∨ world.mem.table.createdSlot env.pml4 = none)) ∨
        ∃ child, (result = -1 ∨ result = 0) ∧ file ≠ none ∧
          world.mem.table.createdSlot env.pml4 = some child ∧
          Filled world.mem.table after child)
      world := by
  unfold spawnFromRamfs Makes
  cases file with
  | none => exact Or.inl ⟨rfl, rfl, Or.inl rfl⟩
  | some entryPoint =>
      dsimp only
      rw [Prog.wp_bind]
      refine onTable_makes fun created same => ?_
      cases found : world.mem.table.createdSlot env.pml4 with
      | none =>
          rw [ProcTable.createProcess_fails env.layout found] at same ⊢
          rw [if_pos (show (-1 : Int) < 0 by decide)]
          exact Or.inl ⟨rfl, same, Or.inr rfl⟩
      | some child =>
          have filled : ∀ after : ProcTable, after.processes = created.mem.table.processes →
              Filled world.mem.table after child := by
            intro after kept
            have first : Filled world.mem.table
                (world.mem.table.createProcess env.layout 0 env.pml4).2 child :=
              filled_of_created found
            rw [← same] at first
            refine ⟨first.free, ?_, ?_, fun slot differ => ?_⟩
            · rw [kept, first.ready]
            · rw [kept, first.pid]
            · rw [← first.others slot differ, Live, Live, kept]
          split
          · exact Or.inr ⟨child, Or.inl rfl, by simp, rfl, filled _ rfl⟩
          · simp only [Prog.wp_bind, Prog.wp_getMem]
            split
            · exact Or.inr ⟨child, Or.inl rfl, by simp, rfl, filled _ rfl⟩
            · split
              · simp only [Prog.wp_bind]
                refine onTable_makes fun entered sameEntry => ?_
                refine Or.inr ⟨child, Or.inr rfl, by simp, rfl, filled _ ?_⟩
                rw [sameEntry, ProcTable.setProcessEntry_processes]
              · exact Or.inr ⟨child, Or.inl rfl, by simp, rfl, filled _ rfl⟩

/-! ## The contract -/

/-- What `execve` owes: a negative result leaves the live processes as they
were; any other result is the pid of one new process, set up to run a file of
that name. -/
def ExecveContract (before after : ProcTable) (isEntry : Nat → Prop) (result : Int) : Prop :=
  if result < 0 then SameLive before after
  else ∃ child entryPoint, isEntry entryPoint ∧ Spawned before after result entryPoint child

/-- A file of that name that `execve` looks at has this entry point. -/
def EntryOf (world : FsWorld) (disk : Option (Nat → Byte)) (filename : Option CString)
    (entryPoint : Nat) : Prop :=
  ∃ name, filename = some name ∧
    ((∃ image, imageOf name.bytes world = some image ∧ elfEntry image = entryPoint) ∨
      ramfsEntry disk name.bytes = some entryPoint)

/-- `create_process` finds a slot and memory. -/
def CanCreate (table : ProcTable) (pml4 : Nat) : Prop := table.createdSlot pml4 ≠ none

/-- The condition for the contract: the process for an image on disk gets a pid
that is not negative as an `int` and belongs to no other process; and whenever
the ramfs image has the file, and a slot and memory for it, the spawn from disk
succeeds. -/
structure SpawnsFromDisk (world : FsWorld) (disk : Option (Nat → Byte)) (name : List Byte)
    (env ramfsEnv : SpawnEnv) : Prop where
  pid : imageOf name world ≠ none → CanCreate world.mem.table env.pml4 →
    world.mem.table.nextPid % 2 ^ 32 < 2 ^ 31 ∧ NextPidFree world.mem.table
  fallback : ramfsEntry disk name ≠ none → CanCreate world.mem.table ramfsEnv.pml4 →
    imageOf name world ≠ none ∧ CanCreate world.mem.table env.pml4 ∧ env.loads

theorem SameLive.refl (table : ProcTable) : SameLive table table := fun _ => Iff.rfl

/-- The only slot that comes to life is that of the spawned process. -/
theorem Spawned.eq_of_live {before after : ProcTable} {pid : Int} {entryPoint : Nat}
    {child slot : ProcIdx} (spawned : Spawned before after pid entryPoint child)
    (free : ¬ Live before slot) (live : Live after slot) : slot = child := by
  by_contra differ
  exact free ((spawned.others slot differ).mp live)

theorem Filled.live {before after : ProcTable} {child : ProcIdx}
    (filled : Filled before after child) : Live after child := by
  unfold Live
  rw [filled.ready]
  decide

/-- A process for the ramfs image breaks the contract: it is new, and its pid is
not what `execve` returns. -/
theorem not_contract_of_filled {before middle after : ProcTable} {isEntry : Nat → Prop}
    {result : Int} {child : ProcIdx} (same : SameLive before middle)
    (filled : Filled middle after child) (value : result = -1 ∨ result = 0)
    (positive : middle.nextPid % 2 ^ 32 ≠ 0) :
    ¬ ExecveContract before after isEntry result := by
  have free : ¬ Live before child := fun live => filled.free ((same child).mpr live)
  intro contract
  unfold ExecveContract at contract
  rcases value with rfl | rfl
  · rw [if_pos (by decide)] at contract
    exact free ((contract child).mp filled.live)
  · rw [if_neg (by decide)] at contract
    obtain ⟨slot, entryPoint, -, spawned⟩ := contract
    have here := spawned.eq_of_live free filled.live
    subst here
    have pid := spawned.pid
    rw [filled.pid] at pid
    exact positive (by exact_mod_cast pid)

/-- A process whose pid was taken for a failure breaks the contract, whether or
not another one is created for the ramfs image. -/
theorem not_contract_of_stale {before middle after : ProcTable} {isEntry : Nat → Prop}
    {result : Int} {stale : ProcIdx} (left : Filled before middle stale)
    (last : result = -1 ∧ after = middle ∨ ∃ child, Filled middle after child) :
    ¬ ExecveContract before after isEntry result := by
  intro contract
  unfold ExecveContract at contract
  rcases last with ⟨rfl, rfl⟩ | ⟨child, filled⟩
  · rw [if_pos (by decide)] at contract
    exact left.free ((contract stale).mp left.live)
  · have differ : stale ≠ child := fun same => filled.free (same ▸ left.live)
    have stays : Live after stale := (filled.others stale differ).mpr left.live
    have free : ¬ Live before child := fun live =>
      filled.free ((left.others child (Ne.symm differ)).mpr live)
    by_cases negative : result < 0
    · rw [if_pos negative] at contract
      exact left.free ((contract stale).mp stays)
    · rw [if_neg negative] at contract
      obtain ⟨slot, entryPoint, -, spawned⟩ := contract
      exact differ ((spawned.eq_of_live left.free stays).trans
        (spawned.eq_of_live free filled.live).symm)

/-- What a run that returns has made. -/
theorem Makes.of_run {α : Type} {program : FsM α} {Q : α → ProcTable → Prop}
    {world after : FsWorld} {value : α} {writes : List (Nat × Block)}
    (makes : Makes program Q world) (returned : program.run world = ⟨.ret value, after, writes⟩) :
    Q value after.mem.table := by
  have ends := makes.run
  rw [returned] at ends
  exact ends

/-- How `spawn_from_xv6fs` ends, as far as the table tells. -/
inductive DiskSpawned (env : SpawnEnv) (found : Option (Nat → Byte)) (before : ProcTable) :
    Int → ProcTable → Prop where
  | nothing (failed : found = none ∨ ¬ CanCreate before env.pml4) :
      DiskSpawned env found before (-1) before
  | overflowed (image : Nat → Byte) (child : ProcIdx) (after : ProcTable)
      (isImage : found = some image) (slot : before.createdSlot env.pml4 = some child)
      (large : 2 ^ 31 ≤ before.nextPid % 2 ^ 32) (filled : Filled before after child) :
      DiskSpawned env found before (-1) after
  | spawned (image : Nat → Byte) (child : ProcIdx) (result : Int) (after : ProcTable)
      (isImage : found = some image) (slot : before.createdSlot env.pml4 = some child)
      (small : before.nextPid % 2 ^ 32 < 2 ^ 31)
      (made : ImageSpawned env image before child result after) :
      DiskSpawned env found before result after

/-- `spawn_from_xv6fs` ends in one of these ways if the next pid is free or not
needed. -/
theorem spawnFromXv6fs_ends {path : List Byte} {env : SpawnEnv} {world after : FsWorld}
    {result : Int} {writes : List (Nat × Block)}
    (running : world.mem.table.currentProcess.state = .running)
    (fresh : imageOf path world ≠ none → CanCreate world.mem.table env.pml4 →
      NextPidFree world.mem.table)
    (returned : (spawnFromXv6fs path env).run world = ⟨.ret result, after, writes⟩) :
    DiskSpawned env (imageOf path world) world.mem.table result after.mem.table := by
  rw [spawnFromXv6fs_eq] at returned
  obtain ⟨found, middle, first, second, looked, spawned⟩ := Prog.run_bind_ret returned
  have table : middle.mem.table = world.mem.table :=
    Makes.of_run (Q := fun _ after => after = world.mem.table) (findImage_table path world) looked
  have isFound : imageOf path world = found := by
    unfold imageOf
    rw [looked]
  rw [isFound] at fresh ⊢
  rw [← table] at running fresh ⊢
  cases found with
  | none =>
      cases spawned
      exact .nothing (Or.inl rfl)
  | some image =>
      dsimp only at spawned
      cases slot : middle.mem.table.createdSlot env.pml4 with
      | none =>
          obtain ⟨rfl, same⟩ := (spawnImage_fails slot).of_run spawned
          rw [same]
          exact .nothing (Or.inr (not_not.mpr slot))
      | some child =>
          by_cases small : middle.mem.table.nextPid % 2 ^ 32 < 2 ^ 31
          · have free := fresh (by simp) (by simp [CanCreate, slot])
            exact .spawned image child _ _ rfl slot small
              ((spawnImage_spawns running slot small free).of_run spawned)
          · obtain ⟨rfl, filled⟩ := (spawnImage_overflows slot (by omega)).of_run spawned
            exact .overflowed image child _ rfl slot (by omega) filled

/-- How the two stages of `execve` follow each other. -/
theorem execve_stages {disk : Option (Nat → Byte)} {name : CString} {env ramfsEnv : SpawnEnv}
    {world after : FsWorld} {result : Int} {writes : List (Nat × Block)}
    (returned : (execve disk (some name) env ramfsEnv).run world = ⟨.ret result, after, writes⟩) :
    ∃ first middle moreWrites,
      (spawnFromXv6fs name.bytes env).run world = ⟨.ret first, middle, moreWrites⟩ ∧
      ((0 ≤ first ∧ result = first ∧ after = middle) ∨
        (first < 0 ∧
          ((result = -1 ∧ after.mem.table = middle.mem.table ∧
            (ramfsEntry disk name.bytes = none ∨
              middle.mem.table.createdSlot ramfsEnv.pml4 = none)) ∨
          ∃ child, (result = -1 ∨ result = 0) ∧ ramfsEntry disk name.bytes ≠ none ∧
            middle.mem.table.createdSlot ramfsEnv.pml4 = some child ∧
            Filled middle.mem.table after.mem.table child))) := by
  unfold execve sysExecve at returned
  dsimp only [Option.bind] at returned
  obtain ⟨first, middle, moreWrites, otherWrites, spawned, rest⟩ := Prog.run_bind_ret returned
  refine ⟨first, middle, moreWrites, spawned, ?_⟩
  by_cases negative : first < 0
  · rw [if_pos negative] at rest
    exact Or.inr ⟨negative, spawnFromRamfs_fills.of_run rest⟩
  · rw [if_neg negative] at rest
    cases rest
    exact Or.inl ⟨by omega, rfl, rfl⟩

/-- Under the condition `execve` meets its contract. -/
theorem execve_contract_of {disk : Option (Nat → Byte)} {name : CString}
    {env ramfsEnv : SpawnEnv} {world after : FsWorld} {result : Int}
    {writes : List (Nat × Block)}
    (running : world.mem.table.currentProcess.state = .running)
    (returned : (execve disk (some name) env ramfsEnv).run world = ⟨.ret result, after, writes⟩)
    (condition : SpawnsFromDisk world disk name.bytes env ramfsEnv) :
    ExecveContract world.mem.table after.mem.table (EntryOf world disk (some name)) result := by
  obtain ⟨first, middle, moreWrites, spawned, ends⟩ := execve_stages returned
  have fresh := fun isImage slot => (condition.pid isImage slot).2
  have stage := spawnFromXv6fs_ends running fresh spawned
  -- The second stage changes nothing once it cannot create a process.
  have second : SameLive world.mem.table middle.mem.table → first < 0 →
      ¬ (imageOf name.bytes world ≠ none ∧ CanCreate world.mem.table env.pml4 ∧ env.loads) →
      ExecveContract world.mem.table after.mem.table (EntryOf world disk (some name))
        result := by
    intro same negative fails
    rcases ends with ⟨positive, -⟩ | ⟨-, ⟨rfl, kept, -⟩ | ⟨child, -, file, slot, -⟩⟩
    · omega
    · unfold ExecveContract
      rw [if_pos (by decide), kept]
      exact same
    · rw [createdSlot_congr same] at slot
      exact absurd (condition.fallback file (by simp [CanCreate, slot])) fails
  generalize isMiddle : middle.mem.table = made at stage
  cases stage with
  | nothing failed =>
      refine second (by rw [isMiddle]; exact .refl _) (by decide) fun ⟨isImage, canCreate, _⟩ => ?_
      exact failed.elim isImage fun not => not canCreate
  | overflowed image child _ isImage slot large filled =>
      have := (condition.pid (by simp [isImage]) (by simp [CanCreate, slot])).1
      omega
  | spawned image child _ _ isImage slot small imageSpawned =>
      cases imageSpawned with
      | started _ _ loads positive isSpawned =>
          rcases ends with ⟨-, rfl, rfl⟩ | ⟨negative, -⟩
          · unfold ExecveContract
            rw [if_neg (by omega), isMiddle]
            exact ⟨child, _, ⟨name, rfl, Or.inl ⟨image, isImage, rfl⟩⟩, isSpawned⟩
          · omega
      | undone _ fails same nextPid =>
          exact second (by rw [isMiddle]; exact same) (by decide) fun both => fails both.2.2

/-- Where the next pid is free and the next two do not wrap, the contract needs
the condition. -/
theorem condition_of_execve_contract {disk : Option (Nat → Byte)} {name : CString}
    {env ramfsEnv : SpawnEnv} {world after : FsWorld} {result : Int}
    {writes : List (Nat × Block)}
    (running : world.mem.table.currentProcess.state = .running)
    (returned : (execve disk (some name) env ramfsEnv).run world = ⟨.ret result, after, writes⟩)
    (positive : 0 < world.mem.table.nextPid) (early : world.mem.table.nextPid + 1 < 2 ^ 32)
    (fresh : NextPidFree world.mem.table)
    (contract : ExecveContract world.mem.table after.mem.table (EntryOf world disk (some name))
      result) :
    SpawnsFromDisk world disk name.bytes env ramfsEnv := by
  obtain ⟨first, middle, moreWrites, spawned, ends⟩ := execve_stages returned
  have stage := spawnFromXv6fs_ends running (fun _ _ => fresh) spawned
  generalize isMiddle : middle.mem.table = made at stage
  rw [isMiddle] at ends
  cases stage with
  | nothing failed =>
      have noImage : ¬ (imageOf name.bytes world ≠ none ∧ CanCreate world.mem.table env.pml4) :=
        fun ⟨isImage, canCreate⟩ => failed.elim isImage fun not => not canCreate
      refine ⟨fun isImage canCreate => absurd ⟨isImage, canCreate⟩ noImage,
        fun file canCreate => ?_⟩
      rcases ends with ⟨negative, -⟩ | ⟨-, ⟨-, -, neither⟩ | ⟨child, value, -, -, filled⟩⟩
      · omega
      · exact absurd canCreate (neither.elim (absurd · file) not_not.mpr)
      · exact absurd contract (not_contract_of_filled (.refl _) filled value (by omega))
  | overflowed image child _ isImage slot large filled =>
      refine absurd contract (not_contract_of_stale filled ?_)
      rcases ends with ⟨negative, -⟩ | ⟨-, ⟨value, same, -⟩ | ⟨child', -, -, -, filled'⟩⟩
      · omega
      · exact Or.inl ⟨value, same⟩
      · exact Or.inr ⟨child', filled'⟩
  | spawned image child _ _ isImage slot small imageSpawned =>
      have canCreate : CanCreate world.mem.table env.pml4 := by simp [CanCreate, slot]
      refine ⟨fun _ _ => ⟨small, fresh⟩, fun file canFill => ?_⟩
      cases imageSpawned with
      | started _ _ loads positive isSpawned => exact ⟨by simp [isImage], canCreate, loads⟩
      | undone _ fails same nextPid =>
          rcases ends with ⟨negative, -⟩ | ⟨-, ⟨-, -, neither⟩ | ⟨child', value, -, -, filled⟩⟩
          · omega
          · rw [createdSlot_congr same] at neither
            exact absurd canFill (neither.elim (absurd · file) not_not.mpr)
          · exact absurd contract (not_contract_of_filled same filled value (by omega))

/-- `execve` meets its contract if, whenever the disk has an image and a process
can be created for it, the next pid is below 2^31 and free, and whenever the
ramfs image has the file and a process can be created for it, the spawn from disk
succeeds; and only if, as long as the pids of the two processes it may create
have not wrapped and the first is free. -/
theorem execve_contract_iff {disk : Option (Nat → Byte)} {filename : Option CString}
    {env ramfsEnv : SpawnEnv} {world after : FsWorld} {result : Int}
    {writes : List (Nat × Block)}
    (running : world.mem.table.currentProcess.state = .running)
    (returned : (execve disk filename env ramfsEnv).run world = ⟨.ret result, after, writes⟩) :
    ((∀ name, filename = some name → SpawnsFromDisk world disk name.bytes env ramfsEnv) →
      ExecveContract world.mem.table after.mem.table (EntryOf world disk filename) result) ∧
    (0 < world.mem.table.nextPid → world.mem.table.nextPid + 1 < 2 ^ 32 →
      NextPidFree world.mem.table →
      ExecveContract world.mem.table after.mem.table (EntryOf world disk filename) result →
      ∀ name, filename = some name → SpawnsFromDisk world disk name.bytes env ramfsEnv) := by
  cases filename with
  | none =>
      cases returned
      refine ⟨fun _ => ?_, fun _ _ _ _ name absent => by cases absent⟩
      unfold ExecveContract
      rw [if_pos (by decide)]
      exact .refl _
  | some name =>
      refine ⟨fun condition => execve_contract_of running returned (condition name rfl), ?_⟩
      rintro positive early fresh contract other same
      obtain rfl := Option.some.inj same
      exact condition_of_execve_contract running returned positive early fresh contract

/-! ## A process at address 0 -/

/-- The world in which the first process is running. -/
def runningWorld : FsWorld :=
  { rootWorld with mem.table := (rootWorld.mem.table.schedule 0).2 }

/-- A ramfs image with one empty file, `/x`. -/
def emptyFileImage : Nat → Byte := fun i =>
  [0x46, 0x4D, 0x41, 0x52, 1, 0, 0, 0, 47, 120].getD i 0

/-- A spawn whose image does not load. -/
def failingSpawn : SpawnEnv := { plainSpawn with loads := false }

/-- A disk with a file `p` that starts with the header of an ELF image. -/
def programDisk : Disk := fun blockno =>
  if blockno = 2 then
    setDinode (setDinode Buffer.zero ROOTINO (oneBlock T_DIR 1 48 40)) 2 (oneBlock T_FILE 1 64 41)
  else if blockno = 40 then entryBlock [(1, [dot]), (1, [dot, dot]), (2, [112])]
  else if blockno = 41 then fun i =>
    [0x7F, 0x45, 0x4C, 0x46, 2, 1, 0, 0, 0, 0, 0, 0, 0, 0, 0, 0, 2, 0, 62, 0, 1, 0, 0, 0,
      0x00, 0x10, 0x40].getD i 0
  else Buffer.zero

/-- The first process is running on it. -/
def programWorld : FsWorld := { runningWorld with disk := programDisk }

/-- `/p`. -/
def programPath : CString := ⟨[slash, 112], by decide⟩

/-- An `execve` of the image creates process 2, ready to start at its entry point. -/
theorem execve_contract_of_program :
    ∃ after writes,
      (execve none (some programPath) plainSpawn plainSpawn).run programWorld =
        ⟨.ret 2, after, writes⟩ ∧
      ExecveContract programWorld.mem.table after.mem.table
        (EntryOf programWorld none (some programPath)) 2 := by
  have outcome : ((execve none (some programPath) plainSpawn plainSpawn).run
      programWorld).outcome = .ret 2 := by decide +kernel
  have fresh : NextPidFree programWorld.mem.table := by
    unfold NextPidFree Live
    decide +kernel
  cases ran : (execve none (some programPath) plainSpawn plainSpawn).run programWorld with
  | mk result after writes =>
      rw [ran] at outcome
      obtain rfl : result = .ret 2 := outcome
      refine ⟨after, writes, rfl, ?_⟩
      refine (execve_contract_iff (by decide +kernel) ran).1 fun name same => ?_
      obtain rfl := Option.some.inj same
      exact ⟨fun _ _ => ⟨by decide +kernel, fresh⟩, fun file => absurd rfl file⟩

/-- An `execve` of a ramfs file that is no executable fails and leaves a process
ready at address 0. -/
theorem execve_breaks_contract :
    performAll [.timer 0] rootWorld = some runningWorld ∧
    ∃ after writes,
      (execve (some emptyFileImage) (some missingPath) plainSpawn failingSpawn).run
        runningWorld = ⟨.ret (-1), after, writes⟩ ∧
      ¬ ExecveContract runningWorld.mem.table after.mem.table
        (EntryOf runningWorld (some emptyFileImage) (some missingPath)) (-1) := by
  refine ⟨rfl, ?_⟩
  cases ran : (execve (some emptyFileImage) (some missingPath) plainSpawn failingSpawn).run
      runningWorld with
  | mk result after writes =>
      have observed : (result, (after.mem.table.processes 1).state,
          (after.mem.table.stack ((after.mem.table.processes 1).esp + 15 * 8))) =
            (.ret (-1), .ready, 0) := by
        have computed :
            let run := (execve (some emptyFileImage) (some missingPath) plainSpawn
              failingSpawn).run runningWorld
            (run.outcome, (run.world.mem.table.processes 1).state,
              (run.world.mem.table.stack
                ((run.world.mem.table.processes 1).esp + 15 * 8))) =
              (.ret (-1), .ready, 0) := by decide +kernel
        rwa [ran] at computed
      simp only [Prod.mk.injEq] at observed
      obtain ⟨rfl, ready, -⟩ := observed
      refine ⟨after, writes, rfl, fun contract => ?_⟩
      unfold ExecveContract at contract
      rw [if_pos (by decide)] at contract
      refine absurd ((contract 1).mp ?_) (by unfold Live; decide +kernel)
      unfold Live
      rw [ready]
      decide

end Notux.Sys
