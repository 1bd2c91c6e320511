import Notux.Sys.Append
import Notux.Sys.Spawn

/-!
# What calls do to descriptors

A descriptor is made by `open`, copied by `dup`, `dup2` and `execve`, moved by `read`,
`write` and `lseek`, and closed by `close` and `dup2`.  No other call touches one.
-/

namespace Notux.Sys

open Notux.Store Notux.Proc Notux.Fs

/-- The table after a descriptor of the current process has been set. -/
def withOfile (table : ProcTable) (fd : Fin NOFILE) (file : OFile) : ProcTable :=
  table.modify table.current fun process =>
    { process with ofiles := Function.update process.ofiles fd file }

/-- Setting a descriptor of the current process. -/
theorem ofiles_withOfile (table : ProcTable) (fd fd' : Fin NOFILE) (file : OFile) (idx : ProcIdx) :
    ((withOfile table fd file).processes idx).ofiles fd' =
      if idx = table.current ∧ fd' = fd then file else (table.processes idx).ofiles fd' := by
  unfold withOfile
  by_cases isCurrent : idx = table.current
  · rw [isCurrent, table.modify_same]
    dsimp only
    by_cases same : fd' = fd
    · rw [same, Function.update_self, if_pos ⟨rfl, rfl⟩]
    · rw [Function.update_of_ne same, if_neg (fun both => same both.2)]
  · rw [table.modify_of_ne isCurrent, if_neg (fun both => isCurrent both.1)]

/-- A call moves the position of a descriptor, or nothing. -/
def Repositions (low : Nat) (fd : Int) (before after : ProcTable) : Prop :=
  after = before ∨ ∃ fd' ip offset, toFd low fd = some fd' ∧
    (before.currentProcess.ofiles fd').ip = some ip ∧
    after = withOfile before fd' { before.currentProcess.ofiles fd' with offset }

/-- `open` puts a file into a free descriptor, or fails. -/
def Installs (flags : BitVec 32) (before : ProcTable) (r : Int) (after : ProcTable) : Prop :=
  r = -1 ∧ after = before ∨ ∃ (fd : Fin NOFILE) (ip : Slot), r = (fd : Nat) ∧
    (before.currentProcess.ofiles fd).ip = none ∧ after = withOfile before fd ⟨some ip, 0, flags⟩

/-- No descriptor changes. -/
def SameOfiles (before after : ProcTable) : Prop :=
  ∀ idx, (after.processes idx).ofiles = (before.processes idx).ofiles

/-- `execve` closes descriptors of processes it creates, and hands standard descriptors of the
caller down. -/
def HandsDown (before after : ProcTable) : Prop :=
  ∀ idx fd, (after.processes idx).ofiles fd = (before.processes idx).ofiles fd ∨
    ((after.processes idx).ofiles fd).ip = none ∨
    fd ∈ stdio ∧ (after.processes idx).ofiles fd = before.currentProcess.ofiles fd

/-- A descriptor is closed, or nothing. -/
def Closes (fd : Int) (before after : ProcTable) : Prop :=
  after = before ∨ ∃ fd', toFd 0 fd = some fd' ∧ after = withOfile before fd' .closed

/-- `dup` and `dup2` copy a descriptor, or fail. -/
def Copies (low : Nat) (oldfd : Int) (before : ProcTable) (r : Int) (after : ProcTable) : Prop :=
  r = -1 ∧ after = before ∨ ∃ (old new : Fin NOFILE) (ip : Slot), toFd low oldfd = some old ∧
    r = (new : Nat) ∧ (before.currentProcess.ofiles old).ip = some ip ∧
    after = withOfile before new (before.currentProcess.ofiles old)

section Parts

variable {α : Type} {program : FsM α} {world : FsWorld}

/-- A part of a call that keeps the process table. -/
theorem makes_of_owes {delta : α → Slot → Int} (owes : Owes program delta)
    {Q : α → FsWorld → Prop}
    (rest : ∀ value after, after.mem.table = world.mem.table → Q value after) :
    Leads program Q world :=
  (owes world).mono fun value after moved => rest value after moved.1

theorem makes_of_takes {delta : α → Slot → Int} (takes : Takes program delta)
    {Q : α → FsWorld → Prop}
    (rest : ∀ value after, after.mem.table = world.mem.table → Q value after) :
    Leads program Q world :=
  makes_of_owes takes.owes rest

theorem makes_setOfile {fd : Fin NOFILE} {file : OFile} {Q : Unit → FsWorld → Prop}
    (rest : ∀ after, after.mem.table = withOfile world.mem.table fd file → Q () after) :
    Leads (setOfile fd file) Q world :=
  rest _ rfl

/-- What is known of a descriptor that is found or not. -/
theorem leads_found_or {low : Nat} {fd : Int}
    {Q : Option (Fin NOFILE × OFile × Slot) → FsWorld → Prop}
    (closed : (∀ fd', toFd low fd = some fd' → (ofileOf world fd').ip = none) → Q none world)
    (isOpen : ∀ fd' ip, toFd low fd = some fd' →
      (ofileOf world fd').ip = some ip → Q (some (fd', ofileOf world fd', ip)) world) :
    Leads (openFile low fd) Q world := by
  unfold openFile
  cases isFd : toFd low fd with
  | none => exact closed fun fd' found => by rw [isFd] at found; cases found
  | some fd' =>
      unfold Leads
      rw [Prog.wp_bind, wp_getOfile]
      cases found : (world.mem.table.currentProcess.ofiles fd').ip with
      | none =>
          apply closed
          intro other isOther
          rw [isFd] at isOther
          rwa [← Option.some.inj isOther]
      | some ip => exact isOpen fd' ip isFd found

theorem leads_found {low : Nat} {fd : Int} {Q : Option (Fin NOFILE × OFile × Slot) → FsWorld → Prop}
    (closed : Q none world) (isOpen : ∀ fd' ip, toFd low fd = some fd' →
      (ofileOf world fd').ip = some ip → Q (some (fd', ofileOf world fd', ip)) world) :
    Leads (openFile low fd) Q world :=
  leads_found_or (fun _ => closed) isOpen

/-- The lowest free descriptor of the current process. -/
theorem leads_free {Q : Option (Fin NOFILE) → FsWorld → Prop} (full : Q none world)
    (free : ∀ fd, (world.mem.table.currentProcess.ofiles fd).ip = none → Q (some fd) world) :
    Leads freeFd Q world :=
  leads_freeFd ⟨rfl, rfl⟩ full free

end Parts

section Calls

variable {world : FsWorld}

theorem sysRead_makes (fd : Int) (bufNull : Bool) (count : Nat) (key : Byte) :
    Makes (sysRead fd bufNull count key)
      (fun _ after => Repositions 0 fd world.mem.table after) world := by
  unfold sysRead Makes
  split
  · exact Or.inl rfl
  · rw [Prog.wp_bind]
    apply leads_found
    · dsimp only
      split
      · split <;> exact Or.inl rfl
      · exact Or.inl rfl
    · intro fd' ip isFd isOpen
      dsimp only
      split
      · exact Or.inl rfl
      · simp only [Prog.wp_bind]
        apply makes_of_takes ilock_takes
        intro _ locked first
        apply makes_of_takes readi_takes
        rintro ⟨r, bytes⟩ readWorld second
        apply makes_of_takes iunlock_takes
        intro _ unlocked third
        have same := third.trans (second.trans first)
        unfold when
        split
        · apply makes_setOfile
          intro after moved
          rw [same] at moved
          exact Or.inr ⟨fd', ip, _, isFd, isOpen, moved⟩
        · exact Or.inl same

theorem sysWrite_makes (fd : Int) (bufNull : Bool) (buf : Nat → Byte) (count : Nat) :
    Makes (sysWrite fd bufNull buf count)
      (fun _ after => Repositions 1 fd world.mem.table after) world := by
  unfold sysWrite Makes
  rw [Prog.wp_bind]
  apply leads_found
  · dsimp only
    split <;> exact Or.inl rfl
  · intro fd' ip isFd isOpen
    dsimp only
    split
    · exact Or.inl rfl
    · simp only [Prog.wp_bind]
      apply makes_of_takes ilock_takes
      intro _ locked first
      apply makes_of_takes getInode_takes
      intro inode _ second
      apply makes_of_takes writei_takes
      intro r written third
      apply makes_of_takes iupdate_takes
      intro _ stored fourth
      apply makes_of_takes iunlock_takes
      intro _ unlocked fifth
      have same := fifth.trans (fourth.trans (third.trans (second.trans first)))
      unfold when
      split
      · apply makes_setOfile
        intro after moved
        rw [same] at moved
        exact Or.inr ⟨fd', ip, _, isFd, isOpen, moved⟩
      · exact Or.inl same

theorem sysLseek_makes (fd offset whence : Int) :
    Makes (sysLseek fd offset whence)
      (fun _ after => Repositions 3 fd world.mem.table after) world := by
  unfold sysLseek Makes
  rw [Prog.wp_bind]
  apply leads_found
  · exact Or.inl rfl
  · intro fd' ip isFd isOpen
    simp only [Prog.wp_bind]
    apply makes_of_takes ilock_takes
    intro _ locked first
    apply makes_of_takes getInode_takes
    intro inode _ second
    apply makes_of_takes iunlock_takes
    intro _ unlocked third
    have same := third.trans (second.trans first)
    generalize (if whence = 0 then offset else _) = newOffset
    split
    · exact Or.inl same
    · rw [Prog.wp_bind]
      apply makes_setOfile
      intro after moved
      rw [same] at moved
      exact Or.inr ⟨fd', ip, _, isFd, isOpen, moved⟩

theorem sysOpen_makes (path : Option CString) (flags : BitVec 32) :
    Makes (sysOpen path flags) (Installs flags world.mem.table) world := by
  unfold sysOpen Makes
  cases path with
  | none => exact Or.inl ⟨rfl, rfl⟩
  | some path =>
      dsimp only
      rw [Prog.wp_bind]
      apply makes_of_owes openInode_owes
      intro found middle first
      cases found with
      | none => exact Or.inl ⟨rfl, first⟩
      | some ip =>
          dsimp only
          have unlock : Takes (when (hasFlag flags O_CREAT = true) (iunlock ip)) fun _ => 0 :=
            .when fun _ => iunlock_takes
          rw [Prog.wp_bind]
          apply leads_free
          · simp only [Prog.wp_bind]
            apply makes_of_takes unlock
            intro _ unlocked second
            apply makes_of_takes iput_takes
            intro _ dropped third
            exact Or.inl ⟨rfl, third.trans (second.trans first)⟩
          · intro fd free
            simp only [Prog.wp_bind]
            apply makes_setOfile
            intro set moved
            apply makes_of_takes unlock
            intro _ after second
            rw [first] at free moved
            exact Or.inr ⟨fd, ip, rfl, free, second.trans moved⟩

theorem sysClose_makes (fd : Int) :
    Makes (sysClose fd) (fun _ after => Closes fd world.mem.table after) world := by
  unfold sysClose Makes
  rw [Prog.wp_bind]
  apply leads_found
  · exact Or.inl rfl
  · intro fd' ip isFd isOpen
    simp only [Prog.wp_bind]
    apply makes_of_takes iput_takes
    intro _ dropped first
    apply makes_setOfile
    intro after moved
    rw [first] at moved
    exact Or.inr ⟨fd', isFd, moved⟩

theorem sysDup_makes (oldfd : Int) :
    Makes (sysDup oldfd) (Copies 3 oldfd world.mem.table) world := by
  unfold sysDup Makes
  rw [Prog.wp_bind]
  apply leads_found
  · exact Or.inl ⟨rfl, rfl⟩
  · intro old ip isFd isOpen
    dsimp only
    rw [Prog.wp_bind]
    apply leads_free
    · exact Or.inl ⟨rfl, rfl⟩
    · intro new free
      simp only [Prog.wp_bind]
      apply makes_setOfile
      intro set moved
      apply makes_of_takes idup_takes
      intro _ after second
      exact Or.inr ⟨old, new, ip, isFd, rfl, isOpen, second.trans moved⟩

/-- Setting a descriptor to what it is changes nothing. -/
theorem withOfile_self (table : ProcTable) (fd : Fin NOFILE) :
    withOfile table fd (table.currentProcess.ofiles fd) = table := by
  have same : { table.processes table.current with
      ofiles := Function.update (table.processes table.current).ofiles fd
        (table.currentProcess.ofiles fd) } = table.processes table.current := by
    rw [ProcTable.currentProcess, Function.update_eq_self]
  unfold withOfile ProcTable.modify
  dsimp only
  rw [same, Function.update_eq_self]

theorem sysDup2_makes (oldfd newfd : Int) :
    Makes (sysDup2 oldfd newfd) (Copies 0 oldfd world.mem.table) world := by
  unfold sysDup2 Makes
  rw [Prog.wp_bind]
  apply leads_found
  · exact Or.inl ⟨rfl, rfl⟩
  · intro old ip isFd isOpen
    cases toFd 0 newfd with
    | none => exact Or.inl ⟨rfl, rfl⟩
    | some new =>
        dsimp only
        split
        · next same =>
          subst same
          exact Or.inr ⟨old, old, ip, isFd, rfl, isOpen, (withOfile_self _ old).symm⟩
        · have finish : ∀ middle : FsWorld, middle.mem.table = world.mem.table →
              Leads (do
                setOfile new (ofileOf world old)
                let _ ← idup ip
                return ((new : Nat) : Int) : FsM Int)
                (fun r after => Copies 0 oldfd world.mem.table r after.mem.table) middle := by
            intro middle first
            unfold Leads
            simp only [Prog.wp_bind]
            apply makes_setOfile
            intro set moved
            apply makes_of_takes idup_takes
            intro _ after second
            rw [first] at moved
            exact Or.inr ⟨old, new, ip, isFd, rfl, isOpen, second.trans moved⟩
          rw [Prog.wp_bind, wp_getOfile]
          cases target : (world.mem.table.currentProcess.ofiles new).ip with
          | none => exact finish world rfl
          | some other =>
              refine (Prog.wp_bind (iput other) _).mpr ?_
              apply makes_of_takes iput_takes
              intro _ middle first
              exact finish middle first

end Calls

/-! ## Calls that leave the descriptors of the caller alone -/

section Others

variable {world : FsWorld} {before middle after : ProcTable}

theorem SameOfiles.of_eq (same : after = before) : SameOfiles before after :=
  fun _ => same ▸ rfl

theorem SameOfiles.exit (before : ProcTable) (exitCode : Int) :
    SameOfiles before (before.exitCurrentProcess exitCode) := by
  intro other
  unfold ProcTable.exitCurrentProcess
  exact ofiles_modify before _ other rfl

theorem SameOfiles.terminate (before : ProcTable) (idx : ProcIdx) :
    SameOfiles before (before.terminate idx) := by
  intro other
  unfold ProcTable.terminate
  exact ofiles_modify before _ other rfl

theorem SameOfiles.wait4 (before : ProcTable) : SameOfiles before before.wait4.2 := by
  unfold ProcTable.wait4
  split
  · exact .of_eq rfl
  · intro other
    dsimp only
    exact ofiles_modify before _ other rfl

theorem sysChdir_makes (path : Option CString) :
    Makes (sysChdir path) (fun _ after => after = world.mem.table) world := by
  unfold sysChdir Makes
  cases path with
  | none => rfl
  | some path =>
      dsimp only
      rw [Prog.wp_bind]
      apply makes_of_owes namei_owes
      intro found middle first
      cases found with
      | none => exact first
      | some ip =>
          simp only [Prog.wp_bind]
          apply makes_of_takes ilock_takes
          intro _ locked second
          apply makes_of_takes getInode_takes
          intro inode _ third
          split
          · simp only [Prog.wp_bind]
            apply makes_of_takes iunlock_takes
            intro _ unlocked fourth
            apply makes_of_takes iput_takes
            intro _ after fifth
            exact fifth.trans (fourth.trans (third.trans (second.trans first)))
          · simp only [Prog.wp_bind]
            apply makes_of_takes iunlock_takes
            intro _ unlocked fourth
            apply makes_of_owes xv6fsBridgeSetCwd_owes
            intro _ after fifth
            exact fifth.trans (fourth.trans (third.trans (second.trans first)))

theorem sysMkdir_makes (path : Option CString) :
    Makes (sysMkdir path) (fun _ after => after = world.mem.table) world := by
  unfold sysMkdir Makes
  cases path with
  | none => rfl
  | some path =>
      dsimp only
      rw [Prog.wp_bind]
      apply makes_of_owes xv6fsCreate_owes
      intro found middle first
      cases found with
      | none => exact first
      | some ip =>
          simp only [Prog.wp_bind]
          apply makes_of_takes iunlock_takes
          intro _ unlocked second
          apply makes_of_takes iput_takes
          intro _ after third
          exact third.trans (second.trans first)

theorem sysUnlink_makes (path : Option CString) :
    Makes (sysUnlink path) (fun _ after => after = world.mem.table) world := by
  unfold sysUnlink Makes
  cases path with
  | none => rfl
  | some path => exact makes_of_owes xv6fsUnlink_owes fun _ _ same => same

end Others

/-! ## Handing down -/

section HandingDown

variable {world : FsWorld} {before middle after : ProcTable}

/-- A part of `execve`, which leaves the caller's descriptors as they are. -/
structure Hands (before after : ProcTable) : Prop where
  hands : HandsDown before after
  caller : after.currentProcess.ofiles = before.currentProcess.ofiles

theorem Hands.refl : Hands before before := ⟨fun _ _ => Or.inl rfl, rfl⟩

theorem Hands.handsDown (first : Hands before middle) (second : HandsDown middle after) :
    HandsDown before after := by
  intro idx fd
  rcases second idx fd with same | closed | ⟨standard, handed⟩
  · rw [same]
    exact first.hands idx fd
  · exact Or.inr (Or.inl closed)
  · rw [first.caller] at handed
    exact Or.inr (Or.inr ⟨standard, handed⟩)

theorem Hands.trans (first : Hands before middle) (second : Hands middle after) :
    Hands before after :=
  ⟨first.handsDown second.hands, second.caller.trans first.caller⟩

theorem Hands.of_same (current : after.current = before.current) (same : SameOfiles before after) :
    Hands before after := by
  refine ⟨fun idx fd => Or.inl (by rw [same idx]), ?_⟩
  rw [ProcTable.currentProcess, ProcTable.currentProcess, current, same]

/-- A new process has no descriptors. -/
theorem handsDown_createProcess (layout : StackLayout) (entryPoint pml4 : Nat) :
    HandsDown before (before.createProcess layout entryPoint pml4).2 := by
  intro other fd
  rcases createProcess_fills layout entryPoint pml4 before with
    result | ⟨idx, process, free, -, -, closed, -, current, processes⟩
  · rw [result]
    exact Or.inl rfl
  · rw [processes]
    by_cases isNew : other = idx
    · rw [isNew, Function.update_self]
      exact Or.inr (Or.inl (closed fd))
    · rw [Function.update_of_ne isNew]
      exact Or.inl rfl

theorem currentProcess_createProcess {table : ProcTable}
    (running : table.currentProcess.state = .running) (layout : StackLayout)
    (entryPoint pml4 : Nat) :
    (table.createProcess layout entryPoint pml4).2.currentProcess = table.currentProcess := by
  rcases createProcess_fills layout entryPoint pml4 table with
    result | ⟨idx, process, free, -, -, -, -, current, processes⟩
  · rw [result]
  · have differ : table.current ≠ idx := by
      rintro rfl
      exact absurd (free.symm.trans running) (by decide)
    simp only [ProcTable.currentProcess, current, processes]
    exact Function.update_of_ne differ _ _

theorem currentProcess_share (table : ProcTable) (child : ProcIdx) (fd : Fin NOFILE) :
    (table.modify child fun process => { process with
      ofiles := Function.update process.ofiles fd (table.currentProcess.ofiles fd)
      }).currentProcess.ofiles = table.currentProcess.ofiles := by
  unfold ProcTable.currentProcess
  by_cases self : table.current = child
  · change ((table.modify child _).processes table.current).ofiles = _
    rw [self, ProcTable.modify_same]
    exact Function.update_eq_self fd _
  · change ((table.modify child _).processes table.current).ofiles = _
    rw [ProcTable.modify_of_ne _ self]

theorem Hands.share (child : ProcIdx) {fd : Fin NOFILE} (standard : fd ∈ stdio) :
    Hands before (before.modify child fun process => { process with
      ofiles := Function.update process.ofiles fd (before.currentProcess.ofiles fd) }) := by
  refine ⟨fun idx other => ?_, currentProcess_share before child fd⟩
  by_cases isChild : idx = child
  · rw [isChild, ProcTable.modify_same]
    by_cases shared : other = fd
    · rw [shared]
      exact Or.inr (Or.inr ⟨standard, Function.update_self ..⟩)
    · exact Or.inl (Function.update_of_ne shared ..)
  · rw [before.modify_of_ne isChild]
    exact Or.inl rfl

theorem inheritAll_hands {child : ProcIdx} {fds : List (Fin NOFILE)}
    (standard : ∀ fd ∈ fds, fd ∈ stdio) (first : Hands before world.mem.table) :
    Makes (forEach fds (inheritFd child)) (fun _ after => Hands before after) world := by
  induction fds generalizing world with
  | nil => exact first
  | cons fd rest ih =>
      unfold forEach Makes
      rw [Prog.wp_bind]
      have others : ∀ {next : FsWorld}, Hands before next.mem.table → Makes
          (forEach rest (inheritFd child)) (fun _ after => Hands before after) next :=
        ih fun other member => standard other (List.mem_cons_of_mem _ member)
      unfold inheritFd
      rw [Prog.wp_bind, wp_getOfile]
      cases isOpen : (world.mem.table.currentProcess.ofiles fd).ip with
      | none => exact others first
      | some ip =>
          simp only [Prog.wp_bind, Prog.wp_modifyMem]
          apply makes_of_takes idup_takes
          intro _ next same
          apply others
          rw [same]
          exact first.trans (.share child (standard fd List.mem_cons_self))

theorem onTable_hands {α : Type} {step : ProcTable → α × ProcTable}
    (first : Hands before world.mem.table)
    (current : (step world.mem.table).2.current = world.mem.table.current)
    (same : SameOfiles world.mem.table (step world.mem.table).2) :
    Makes (onTable step) (fun _ after => Hands before after) world :=
  first.trans (.of_same current same)

theorem setProcessEntry_hands {child : ProcIdx} {entryPoint : Nat}
    (first : Hands before world.mem.table) :
    Makes (onTable fun table => ((), table.setProcessEntry child entryPoint))
      (fun _ after => Hands before after) world := by
  apply onTable_hands first <;> unfold ProcTable.setProcessEntry <;> dsimp only <;> split
  · rfl
  · rfl
  · exact .of_eq rfl
  · exact fun _ => rfl

theorem setProcessArgv_hands {child : ProcIdx} {argc argvPtr : Nat}
    (first : Hands before world.mem.table) :
    Makes (onTable fun table => ((), table.setProcessArgv child argc argvPtr))
      (fun _ after => Hands before after) world := by
  apply onTable_hands first <;> unfold ProcTable.setProcessArgv <;> dsimp only <;> split
  · rfl
  · rfl
  · exact .of_eq rfl
  · exact fun _ => rfl

theorem spawnImage_hands (running : world.mem.table.currentProcess.state = .running)
    (env : SpawnEnv) (image : Nat → Byte) :
    Makes (spawnImage env image) (fun _ after => Hands world.mem.table after) world := by
  unfold spawnImage Makes
  rw [Prog.wp_bind]
  apply onTable_makes
  intro created same
  have first : Hands world.mem.table created.mem.table := by
    rw [same]
    exact ⟨handsDown_createProcess env.layout 0 env.pml4,
      congrArg Process.ofiles (currentProcess_createProcess running env.layout 0 env.pml4)⟩
  split
  · exact first
  · simp only [Prog.wp_bind, Prog.wp_getMem]
    split
    · exact first
    · simp only [Prog.wp_bind]
      apply (inheritAll_hands (fun _ member => member) first).mono
      intro _ inherited second
      split
      · simp only [Prog.wp_bind]
        apply (setProcessEntry_hands second).mono
        intro _ entered third
        split
        · exact third
        · simp only [Prog.wp_bind]
          exact (setProcessArgv_hands third).mono fun _ _ last => last
      · simp only [Prog.wp_bind]
        apply (onTable_hands second rfl (.terminate _ _)).mono
        exact fun _ _ last => last

theorem spawnFromRamfs_hands (first : Hands before world.mem.table) (file : Option Nat)
    (env : SpawnEnv) :
    Makes (spawnFromRamfs file env) (fun _ after => HandsDown before after) world := by
  unfold spawnFromRamfs Makes
  cases file with
  | none => exact first.hands
  | some entryPoint =>
      dsimp only
      rw [Prog.wp_bind]
      apply onTable_makes
      intro created same
      have second : HandsDown before created.mem.table := by
        rw [same]
        exact first.handsDown (handsDown_createProcess env.layout 0 env.pml4)
      split
      · exact second
      · simp only [Prog.wp_bind, Prog.wp_getMem]
        split
        · exact second
        · split
          · simp only [Prog.wp_bind]
            apply onTable_makes
            intro after entered
            change HandsDown before after.mem.table
            rw [entered]
            unfold ProcTable.setProcessEntry
            dsimp only
            split <;> exact second
          · exact second

theorem sysExecve_makes (running : world.mem.table.currentProcess.state = .running)
    (filename : Option CString) (env : SpawnEnv) (ramfs : Option Nat) (ramfsEnv : SpawnEnv) :
    Makes (sysExecve filename env ramfs ramfsEnv)
      (fun _ after => HandsDown world.mem.table after) world := by
  unfold sysExecve Makes
  cases filename with
  | none => exact Hands.refl.hands
  | some filename =>
      dsimp only
      rw [Prog.wp_bind, spawnFromXv6fs_eq, Prog.wp_bind]
      apply (findImage_table filename.bytes world).mono
      intro found middle same
      have finish : ∀ (res : Int) (next : FsWorld), Hands world.mem.table next.mem.table →
          Makes (if res < 0 then spawnFromRamfs ramfs ramfsEnv else pure res)
            (fun _ after => HandsDown world.mem.table after) next := by
        intro res next hands
        split
        · exact spawnFromRamfs_hands hands ramfs ramfsEnv
        · exact hands.hands
      cases found with
      | none =>
          apply finish (-1) middle
          rw [same]
          exact .refl
      | some image =>
          rw [← same] at running
          apply (spawnImage_hands running env image).mono
          intro res next hands
          rw [same] at hands
          exact finish res next hands

end HandingDown

/-! ## Every call -/

/-- What a call does to the descriptors. -/
def Changes (before : ProcTable) (call : Call) (r : Int) (after : ProcTable) : Prop :=
  match call with
  | .read fd .. => Repositions 0 fd before after
  | .write fd .. => Repositions 1 fd before after
  | .lseek fd .. => Repositions 3 fd before after
  | .openFile _ flags => Installs flags before r after
  | .close fd => Closes fd before after
  | .dup oldfd => Copies 3 oldfd before r after
  | .dup2 oldfd _ => Copies 0 oldfd before r after
  | .execve .. => HandsDown before after
  | .exit _ | .wait4 | .chdir _ | .mkdir _ | .unlink _ => SameOfiles before after

theorem syscallHandler_makes {world : FsWorld}
    (running : world.mem.table.currentProcess.state = .running) (call : Call) :
    Makes (syscallHandler call) (Changes world.mem.table call) world := by
  cases call with
  | read fd bufNull count key =>
      exact (Prog.wp_bind _ _).mpr ((sysRead_makes fd bufNull count key).mono fun _ _ made => made)
  | write fd bufNull buf count => exact sysWrite_makes fd bufNull buf count
  | openFile path flags => exact sysOpen_makes path flags
  | close fd => exact sysClose_makes fd
  | lseek fd offset whence => exact sysLseek_makes fd offset whence
  | dup oldfd => exact sysDup_makes oldfd
  | dup2 oldfd newfd => exact sysDup2_makes oldfd newfd
  | execve filename env ramfs ramfsEnv => exact sysExecve_makes running filename env ramfs ramfsEnv
  | exit exitCode =>
      refine (Prog.wp_bind _ _).mpr (onTable_makes fun after same => ?_)
      change SameOfiles world.mem.table after.mem.table
      rw [same]
      exact .exit _ exitCode
  | wait4 =>
      refine (Prog.wp_bind _ _).mpr (onTable_makes fun after same => ?_)
      have kept : SameOfiles world.mem.table after.mem.table := by
        rw [same]
        exact .wait4 _
      cases world.mem.table.wait4.1 <;> exact kept
  | chdir path => exact (sysChdir_makes path).mono fun _ _ same => .of_eq same
  | mkdir path => exact (sysMkdir_makes path).mono fun _ _ same => .of_eq same
  | unlink path => exact (sysUnlink_makes path).mono fun _ _ same => .of_eq same

/-- A switch between processes touches no descriptor. -/
theorem perform_timer_ofiles {world next : FsWorld} {currentEsp : Nat}
    (performed : perform (.timer currentEsp) world = some next) :
    SameOfiles world.mem.table next.mem.table := by
  intro idx
  have switched := ofiles_schedule world.mem.table currentEsp idx
  unfold perform at performed
  dsimp only at performed
  split at performed
  · next switch table result =>
    rw [result] at switched
    rw [← Option.some.inj performed]
    exact switched
  · cases performed

end Notux.Sys
