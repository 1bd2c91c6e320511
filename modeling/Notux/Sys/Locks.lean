import Notux.Sys.Run
import Notux.Fs.Removal
import Notux.Mkfs.Mount

/-!
# Lock discipline of the system calls

The functions behind the system calls take no lock that is held and release none that is
free, on every path, and return with no lock held.  Only `xv6fs_create` and
`xv6fs_unlink` lock two inodes at once; they rely on what the files are.
-/

namespace Notux.Sys

open Notux.Store Notux.Proc Notux.Fs

/-! ## Well-formed states -/

/-- A directory entry in use that names the directory it is in is `.` or `..`. -/
def SelfByDots (files : Files) : Prop :=
  ∀ d node off, files d = some node → node.type = T_DIR → node.IsEntry off →
    (node.dirent off).inum ≠ 0 → (node.dirent off).inum.toNat = d →
    IsDots (cstr (node.dirent off).name)

/-- The file system is sound, the working directory is referenced, and no directory
contains itself under a name of its own. -/
def WellFormed (world : FsWorld) : Prop :=
  ∃ g, Sound ∅ world g ∧ g.Idle ∧ g.pinned = ∅ ∧ ROOTINO < g.sb.ninodes ∧
    oneOf world.mem.cwd ≤ g.held ∧ SelfByDots (g.files world.disk)

theorem isDots_of_namecmp {name : List Byte} {stored : Fin DIRSIZ → Byte}
    (same : namecmp name stored = true) (dots : IsDots (cstr stored)) : IsDots name := by
  have cut : name.take DIRSIZ = cstr stored := by simpa [namecmp] using same
  have short : ∀ {other : List Byte}, other.length < DIRSIZ → name.take DIRSIZ = other →
      name = other := by
    intro other less taken
    rw [← taken, List.length_take] at less
    rw [← taken, List.take_of_length_le (by omega)]
  rw [← cut] at dots
  rcases dots with one | two
  · exact Or.inl (short (by decide) one)
  · exact Or.inr (short (by decide) two)

theorem SelfByDots.noSelf {files : Files} (self : SelfByDots files) : files.NoSelf := by
  intro d node off name isThere isDir found notDots same
  have isEntry : node.IsEntry off := mem_entries.mp (List.mem_of_find?_eq_some found)
  have names : node.Names name off := by simpa using List.find?_some found
  exact notDots (isDots_of_namecmp names.2
    (self d node off isThere isDir isEntry names.1 same))

/-- No lock is misused, and the given ones are held at the end. -/
abbrev Disciplined {α : Type} (program : FsM α) (locks : α → Set Slot) (world : FsWorld) : Prop :=
  program.wp (fun _ => True) (fun reason _ => ¬ reason.Locking)
    (fun value after => Holding (locks value) after.mem) world

/-- Misuse of locks aside, every panic is permitted. -/
theorem permits_unlocked {aligned : Prop} : Permits (fun reason _ => ¬ reason.Locking) aligned where
  benign _ _ _ := id
  ragged _ _ := ⟨nofun, nofun⟩
  noType _ := nofun

section Calls

variable {world : FsWorld} {ip : Slot}

theorem xv6fsCreate_disciplined {path : List Byte} {type major minor : BitVec 16}
    (wellFormed : WellFormed world) (unlocked : Holding ∅ world.mem) :
    Disciplined (xv6fsCreate path type major minor) lockOf world := by
  obtain ⟨g, sound, idle, unpinned, root, cwd, -⟩ := wellFormed
  have ready : Ready world g := ⟨⟨sound, idle, unpinned, unlocked⟩, root, cwd⟩
  apply (xv6fsCreate_spec (fun _ _ _ => trivial) permits_unlocked ready).mono
  rintro result after ⟨g', files', -, -, step, -, -⟩
  exact step.holding

theorem xv6fsUnlink_disciplined {path : List Byte} (wellFormed : WellFormed world)
    (unlocked : Holding ∅ world.mem) : Disciplined (xv6fsUnlink path) (fun _ => ∅) world := by
  obtain ⟨g, sound, idle, unpinned, root, cwd, self⟩ := wellFormed
  have ready : Ready world g := ⟨⟨sound, idle, unpinned, unlocked⟩, root, cwd⟩
  apply (xv6fsUnlink_spec (fun _ _ _ => trivial) permits_unlocked ready (.inl self.noSelf)).mono
  rintro result after ⟨g', files', -, step, -, -⟩
  exact step.holding

/-! ## Descriptors -/

/-- A change of the kernel's memory apart from the inode table. -/
theorem modifyMem_holding {locks : Set Slot} {change : Kernel → Kernel}
    (table : ∀ kernel, (change kernel).icacheLocked = kernel.icacheLocked)
    (icache : ∀ kernel, (change kernel).icache = kernel.icache) :
    Safely (Holding locks) (modifyMem change) fun _ => Holding locks := by
  apply Prog.Carries.modifyMem
  intro kernel holding
  constructor
  · rw [table]
    exact holding.table
  · rw [icache]
    exact holding.held
  · rw [icache]
    exact holding.used

variable {locks : Set Slot}

theorem setOfileOf_holding {idx : ProcIdx} {fd : Fin NOFILE} {file : OFile} :
    Safely (Holding locks) (modifyMem (setOfileOf idx fd file)) fun _ => Holding locks :=
  modifyMem_holding (fun _ => rfl) fun _ => rfl

theorem setOfile_holding {fd : Fin NOFILE} {file : OFile} :
    Safely (Holding locks) (setOfile fd file) fun _ => Holding locks :=
  modifyMem_holding (fun _ => rfl) fun _ => rfl

theorem getOfile_holding {fd : Fin NOFILE} :
    Safely (Holding locks) (getOfile fd) fun _ => Holding locks :=
  .seq .getMem fun _ => .pure fun _ => id

theorem openFile_holding {low : Nat} {fd : Int} :
    Safely (Holding locks) (openFile low fd) fun _ => Holding locks := by
  unfold openFile
  cases toFd low fd with
  | none => exact .pure fun _ => id
  | some fd =>
      refine .seq getOfile_holding fun file => ?_
      cases file.ip <;> exact .pure fun _ => id

theorem freeFd_holding : Safely (Holding locks) freeFd fun _ => Holding locks :=
  .seq .getMem fun _ => .pure fun _ => id

theorem onTable_holding {α : Type} {step : ProcTable → α × ProcTable} :
    Safely (Holding locks) (onTable step) fun _ => Holding locks :=
  .fetch fun _ holding => .bind (.setMem ⟨holding.table, holding.held, holding.used⟩)
    fun _ => .pure fun _ => id

theorem loadBuffer_holding {bytes : List Byte} :
    Safely (Holding locks) (loadBuffer bytes) fun _ => Holding locks :=
  .fetch fun _ holding => .bind (.setMem ⟨holding.table, holding.held, holding.used⟩)
    fun _ => .pure fun _ => id

/-- Locking an inode while no other is locked. -/
theorem ilock_alone : Safely (Holding ∅) (ilock ip) fun _ => Holding (insert ip ∅) :=
  ilock_holding (Set.notMem_empty ip)

theorem iunlock_alone : Safely (Holding (insert ip ∅)) (iunlock ip) fun _ => Holding ∅ :=
  iunlock_holding (Set.notMem_empty ip)

theorem iput_alone : Safely (Holding ∅) (iput ip) fun _ => Holding ∅ :=
  iput_holding (Set.notMem_empty ip)

theorem sysRead_holding (fd : Int) (bufNull : Bool) (count : Nat) (key : Byte) :
    Safely (Holding ∅) (sysRead fd bufNull count key) fun _ => Holding ∅ := by
  unfold sysRead
  split
  · exact .pure fun _ => id
  · refine .seq openFile_holding fun found => ?_
    cases found with
    | none =>
        dsimp only
        split
        · split <;> exact .pure fun _ => id
        · exact .pure fun _ => id
    | some found =>
        obtain ⟨fd, file, ip⟩ := found
        dsimp only
        split
        · exact .pure fun _ => id
        · refine ilock_alone.bind fun _ => .seq readi_steady fun both => ?_
          refine iunlock_alone.bind fun _ => .seq (.when fun _ => setOfile_holding) fun _ => ?_
          exact .pure fun _ => id

theorem sysWrite_holding (fd : Int) (bufNull : Bool) (buf : Nat → Byte) (count : Nat) :
    Safely (Holding ∅) (sysWrite fd bufNull buf count) fun _ => Holding ∅ := by
  refine .seq openFile_holding fun found => ?_
  cases found with
  | none =>
      dsimp only
      split <;> exact .pure fun _ => id
  | some found =>
      obtain ⟨fd, file, ip⟩ := found
      dsimp only
      split
      · exact .pure fun _ => id
      · refine ilock_alone.bind fun _ => .seq getInode_steady fun inode => ?_
        refine .seq writei_steady fun r => .seq iupdate_steady fun _ => ?_
        refine iunlock_alone.bind fun _ => .seq (.when fun _ => setOfile_holding) fun _ => ?_
        exact .pure fun _ => id

theorem sysClose_holding (fd : Int) :
    Safely (Holding ∅) (sysClose fd) fun _ => Holding ∅ := by
  refine .seq openFile_holding fun found => ?_
  cases found with
  | none => exact .pure fun _ => id
  | some found => exact .seq iput_alone fun _ => .seq setOfile_holding fun _ => .pure fun _ => id

theorem sysLseek_holding (fd offset whence : Int) :
    Safely (Holding ∅) (sysLseek fd offset whence) fun _ => Holding ∅ := by
  refine .seq openFile_holding fun found => ?_
  cases found with
  | none => exact .pure fun _ => id
  | some found =>
      obtain ⟨fd, file, ip⟩ := found
      have move : ∀ newOffset : Int, Safely (Holding ∅) (
          if newOffset < 0 then return -1
          else do
            setOfile fd { file with offset := newOffset.toNat % 2 ^ 32 }
            return newOffset : FsM Int) fun _ => Holding ∅ := by
        intro newOffset
        split
        · exact .pure fun _ => id
        · exact .seq setOfile_holding fun _ => .pure fun _ => id
      exact ilock_alone.bind fun _ => .seq getInode_steady fun inode =>
        iunlock_alone.bind fun _ => move _

theorem sysDup_holding (oldfd : Int) :
    Safely (Holding ∅) (sysDup oldfd) fun _ => Holding ∅ := by
  refine .seq openFile_holding fun found => ?_
  cases found with
  | none => exact .pure fun _ => id
  | some found =>
      refine .seq freeFd_holding fun newfd => ?_
      cases newfd with
      | none => exact .pure fun _ => id
      | some newfd =>
          exact .seq setOfile_holding fun _ => .seq idup_safely fun _ => .pure fun _ => id

theorem sysDup2_holding (oldfd newfd : Int) :
    Safely (Holding ∅) (sysDup2 oldfd newfd) fun _ => Holding ∅ := by
  refine .seq openFile_holding fun found => ?_
  cases found with
  | none => exact .pure fun _ => id
  | some found =>
      obtain ⟨old, file, ip⟩ := found
      cases toFd 0 newfd with
      | none => exact .pure fun _ => id
      | some newfd =>
          dsimp only
          split
          · exact .pure fun _ => id
          · refine .seq getOfile_holding fun target => ?_
            have finish : Safely (Holding ∅) (do
                setOfile newfd file
                let _ ← idup ip
                return ((newfd : Nat) : Int) : FsM Int) fun _ => Holding ∅ :=
              .seq setOfile_holding fun _ => .seq idup_safely fun _ => .pure fun _ => id
            cases target.ip with
            | none => exact finish
            | some old => exact .seq iput_alone fun _ => finish

/-! ## Paths -/

theorem sysChdir_holding (path : Option CString) :
    Safely (Holding ∅) (sysChdir path) fun _ => Holding ∅ := by
  cases path with
  | none => exact .pure fun _ => id
  | some path =>
      refine .seq namei_holding fun found => ?_
      cases found with
      | none => exact .pure fun _ => id
      | some ip =>
          refine ilock_alone.bind fun _ => .seq getInode_steady fun inode => ?_
          split
          · exact iunlock_alone.bind fun _ => .seq iput_alone fun _ => .pure fun _ => id
          · exact iunlock_alone.bind fun _ => .seq xv6fsBridgeSetCwd_holding fun _ =>
              .pure fun _ => id

theorem truncate_holding : Safely (Holding locks) (truncate ip) fun _ => Holding locks :=
  .seq mapDin_steady fun _ => iupdate_steady

/-- What `open` does once it has its inode. -/
theorem openRest_holding (flags : BitVec 32) (ip : Slot) :
    Safely (Holding (if hasFlag flags O_CREAT = true then insert ip ∅ else ∅)) (do
      match ← freeFd with
      | none =>
          when (hasFlag flags O_CREAT = true) (iunlock ip)
          iput ip
          return -1
      | some fd =>
          setOfile fd ⟨some ip, 0, flags⟩
          when (hasFlag flags O_CREAT = true) (iunlock ip)
          return ((fd : Nat) : Int) : FsM Int) fun _ => Holding ∅ := by
  have unlock : Safely (Holding (if hasFlag flags O_CREAT = true then insert ip ∅ else ∅))
      (when (hasFlag flags O_CREAT = true) (iunlock ip)) fun _ => Holding ∅ := by
    unfold when
    split
    · exact iunlock_alone
    · exact .pure fun _ => id
  refine .seq freeFd_holding fun fd => ?_
  cases fd with
  | none => exact unlock.bind fun _ => .seq iput_alone fun _ => .pure fun _ => id
  | some fd => exact .seq setOfile_holding fun _ => unlock.bind fun _ => .pure fun _ => id

variable (wellFormed : WellFormed world) (unlocked : Holding ∅ world.mem)

include wellFormed unlocked

theorem sysOpen_disciplined (path : Option CString) (flags : BitVec 32) :
    Disciplined (sysOpen path flags) (fun _ => ∅) world := by
  cases path with
  | none => exact unlocked
  | some path =>
      unfold sysOpen openInode
      dsimp only
      by_cases creates : hasFlag flags O_CREAT = true
      · rw [if_pos creates]
        simp only [Disciplined, Prog.wp_bind]
        apply (xv6fsCreate_disciplined wellFormed unlocked).mono
        intro created after holding
        cases created with
        | none => exact holding
        | some ip =>
            have rest := openRest_holding flags ip
            rw [if_pos creates] at rest
            simp only [Prog.wp_bind]
            have cut : Safely (Holding (insert ip ∅)) (when (hasFlag flags O_TRUNC = true)
                (truncate ip)) fun _ => Holding (insert ip ∅) := .when fun _ => truncate_holding
            apply (cut after holding).mono
            intro _ final held
            simp only [Prog.wp_pure, Prog.wp_bind]
            exact (Prog.wp_bind _ _).mp (rest final held)
      · rw [if_neg creates]
        simp only [Disciplined, Prog.wp_bind]
        apply (namei_holding world unlocked).mono
        intro found after holding
        cases found with
        | none => exact holding
        | some ip =>
            have rest := openRest_holding flags ip
            rw [if_neg creates] at rest
            simp only [Prog.wp_bind]
            have cut : Safely (Holding ∅) (when (hasFlag flags O_TRUNC = true) do
                ilock ip
                truncate ip
                iunlock ip) fun _ => Holding ∅ :=
              .when fun _ => ilock_alone.bind fun _ => truncate_holding.bind fun _ => iunlock_alone
            apply (cut after holding).mono
            intro _ final held
            simp only [Prog.wp_pure, Prog.wp_bind]
            exact (Prog.wp_bind _ _).mp (rest final held)

theorem sysMkdir_disciplined (path : Option CString) :
    Disciplined (sysMkdir path) (fun _ => ∅) world := by
  cases path with
  | none => exact unlocked
  | some path =>
      unfold sysMkdir
      simp only [Disciplined, Prog.wp_bind]
      apply (xv6fsCreate_disciplined wellFormed unlocked).mono
      intro created after holding
      cases created with
      | none => exact holding
      | some ip =>
          have rest : Safely (Holding (insert ip ∅)) (do
              iunlock ip
              iput ip
              return 0 : FsM Int) fun _ => Holding ∅ :=
            iunlock_alone.bind fun _ => .seq iput_alone fun _ => .pure fun _ => id
          exact rest after holding

theorem sysUnlink_disciplined (path : Option CString) :
    Disciplined (sysUnlink path) (fun _ => ∅) world := by
  cases path with
  | none => exact unlocked
  | some path => exact xv6fsUnlink_disciplined wellFormed unlocked

end Calls

/-! ## Processes -/

section Spawn

theorem inheritFd_holding {child : ProcIdx} {fd : Fin NOFILE} :
    Safely (Holding ∅) (inheritFd child fd) fun _ => Holding ∅ := by
  refine .seq getOfile_holding fun file => ?_
  cases file.ip with
  | none => exact .pure fun _ => id
  | some ip => exact .seq setOfileOf_holding fun _ => .seq idup_safely fun _ => .pure fun _ => id

theorem spawnImage_holding (env : SpawnEnv) (image : Nat → Byte) :
    Safely (Holding ∅) (spawnImage env image) fun _ => Holding ∅ := by
  refine .seq onTable_holding fun pid => ?_
  split
  · exact .pure fun _ => id
  · refine .seq .getMem fun kernel => ?_
    cases kernel.table.getProcessByPid pid.toNat with
    | none => exact .pure fun _ => id
    | some child =>
        refine .seq (.forEach fun _ _ => inheritFd_holding) fun _ => ?_
        split
        · refine .seq onTable_holding fun _ => ?_
          cases env.argv with
          | none => exact .pure fun _ => id
          | some argv => exact .seq onTable_holding fun _ => .pure fun _ => id
        · exact .seq onTable_holding fun _ => .pure fun _ => id

theorem spawnFromXv6fs_holding (path : List Byte) (env : SpawnEnv) :
    Safely (Holding ∅) (spawnFromXv6fs path env) fun _ => Holding ∅ := by
  refine .seq namei_holding fun found => ?_
  cases found with
  | none => exact .pure fun _ => id
  | some ip =>
      refine ilock_alone.bind fun _ => .seq getInode_steady fun inode => ?_
      dsimp only
      split
      · exact iunlock_alone.bind fun _ => .seq iput_alone fun _ => .pure fun _ => id
      · refine .seq readi_steady fun both => .seq loadBuffer_holding fun image => ?_
        refine iunlock_alone.bind fun _ => .seq iput_alone fun _ => ?_
        split
        · exact .pure fun _ => id
        · split
          · exact spawnImage_holding _ _
          · exact .pure fun _ => id

theorem spawnFromRamfs_holding (file : Option Nat) (env : SpawnEnv) :
    Safely (Holding ∅) (spawnFromRamfs file env) fun _ => Holding ∅ := by
  cases file with
  | none => exact .pure fun _ => id
  | some entryPoint =>
      refine .seq onTable_holding fun pid => ?_
      split
      · exact .pure fun _ => id
      · refine .seq .getMem fun kernel => ?_
        cases kernel.table.getProcessByPid pid.toNat with
        | none => exact .pure fun _ => id
        | some child =>
            dsimp only
            split
            · exact .seq onTable_holding fun _ => .pure fun _ => id
            · exact .pure fun _ => id

theorem sysExecve_holding (filename : Option CString) (env : SpawnEnv) (ramfs : Option Nat)
    (ramfsEnv : SpawnEnv) :
    Safely (Holding ∅) (sysExecve filename env ramfs ramfsEnv) fun _ => Holding ∅ := by
  cases filename with
  | none => exact .pure fun _ => id
  | some filename =>
      refine .seq (spawnFromXv6fs_holding _ _) fun res => ?_
      split
      · exact spawnFromRamfs_holding _ _
      · exact .pure fun _ => id

end Spawn

/-! ## Every operation -/

/-- A system call, or one of the functions behind the calls with what its caller does to
the inode it returns. -/
inductive Operation where
  | call (request : Call)
  | create (path : CString) (type major minor : BitVec 16)
  | unlink (path : CString)
  | namei (path : CString)
  | setCwd (ip : Slot)

/-- The program of an operation. -/
def Operation.program : Operation → FsM Unit
  | .call request => do
      let _ ← syscallHandler request
      return ()
  | .create path type major minor => do
      match ← xv6fsCreate path.bytes type major minor with
      | none => return ()
      | some ip =>
          iunlock ip
          iput ip
  | .unlink path => do
      let _ ← xv6fsUnlink path.bytes
      return ()
  | .namei path => do
      let _ ← Fs.namei path.bytes
      return ()
  | .setCwd ip => xv6fsBridgeSetCwd ip

theorem syscallHandler_disciplined {world : FsWorld} (wellFormed : WellFormed world)
    (unlocked : Holding ∅ world.mem) (call : Call) :
    Disciplined (syscallHandler call) (fun _ => ∅) world := by
  cases call with
  | read fd bufNull count key =>
      have program : Safely (Holding ∅) (syscallHandler (.read fd bufNull count key)) fun _ =>
          Holding ∅ := .seq (sysRead_holding fd bufNull count key) fun _ => .pure fun _ => id
      exact program world unlocked
  | write fd bufNull buf count => exact sysWrite_holding fd bufNull buf count world unlocked
  | openFile path flags => exact sysOpen_disciplined wellFormed unlocked path flags
  | close fd => exact sysClose_holding fd world unlocked
  | lseek fd offset whence => exact sysLseek_holding fd offset whence world unlocked
  | dup oldfd => exact sysDup_holding oldfd world unlocked
  | dup2 oldfd newfd => exact sysDup2_holding oldfd newfd world unlocked
  | execve filename env ramfs ramfsEnv =>
      exact sysExecve_holding filename env ramfs ramfsEnv world unlocked
  | exit exitCode =>
      have program : Safely (Holding ∅) (syscallHandler (.exit exitCode)) fun _ => Holding ∅ :=
        .seq onTable_holding fun _ => .pure fun _ => id
      exact program world unlocked
  | wait4 =>
      have program : Safely (Holding ∅) (syscallHandler .wait4) fun _ => Holding ∅ := by
        refine .seq onTable_holding fun reaped => ?_
        cases reaped <;> exact .pure fun _ => id
      exact program world unlocked
  | chdir path => exact sysChdir_holding path world unlocked
  | mkdir path => exact sysMkdir_disciplined wellFormed unlocked path
  | unlink path => exact sysUnlink_disciplined wellFormed unlocked path

/-- From every well-formed state with no lock held, every operation takes only free locks,
releases only held ones, and returns with none held. -/
theorem locks_disciplined {world : FsWorld} (wellFormed : WellFormed world)
    (unlocked : Holding ∅ world.mem) (operation : Operation) :
    operation.program.wp (fun _ => True) (fun reason _ => ¬ reason.Locking)
      (fun _ after => Holding ∅ after.mem) world := by
  cases operation with
  | call request =>
      refine (Prog.wp_bind _ _).mpr ((syscallHandler_disciplined wellFormed unlocked request).mono ?_)
      exact fun _ _ holding => holding
  | create path type major minor =>
      refine (Prog.wp_bind _ _).mpr ((xv6fsCreate_disciplined wellFormed unlocked).mono ?_)
      intro created after holding
      cases created with
      | none => exact holding
      | some ip =>
          have rest : Safely (Holding (insert ip ∅)) (do
              iunlock ip
              iput ip : FsM Unit) fun _ => Holding ∅ := iunlock_alone.bind fun _ => iput_alone
          exact rest after holding
  | unlink path =>
      refine (Prog.wp_bind _ _).mpr ((xv6fsUnlink_disciplined wellFormed unlocked).mono ?_)
      exact fun _ _ holding => holding
  | namei path =>
      refine (Prog.wp_bind _ _).mpr ((namei_holding world unlocked).mono ?_)
      exact fun _ _ holding => holding
  | setCwd ip => exact xv6fsBridgeSetCwd_holding world unlocked

/-- The directories of an image contain themselves as `.` and `..` only. -/
theorem selfByDots_image (binary : List Byte) :
    SelfByDots (Mkfs.table (Mkfs.imageNodes binary)) := by
  intro d node off found isDir entry _ self
  have check : ∀ {nlink : BitVec 16} {entries : List Dirent}, node = Mkfs.dirNode nlink entries →
      DIRENT_SIZE * entries.length < 2 ^ 32 →
      (∀ de ∈ entries, de.inum.toNat = d → IsDots (cstr de.name)) →
      IsDots (cstr (node.dirent off).name) := by
    rintro nlink entries rfl small all
    exact all _ (Mkfs.mem_of_isEntry small entry) self
  rcases Mkfs.dir_of_image found isDir with ⟨rfl, same⟩ | ⟨rfl, same⟩ | ⟨rfl, same⟩ | ⟨rfl, same⟩ <;>
    exact check same (by decide) (by decide)

/-- A freshly mounted image is well formed. -/
theorem wellFormed_of_mounts {binary : List Byte} {world : FsWorld}
    (mounts : Mkfs.Mounts binary world) : WellFormed world := by
  obtain ⟨g, sound, idle, unpinned, held, -, sb, files⟩ := mounts.sound
  refine ⟨g, sound, idle, unpinned, ?_, ?_, files ▸ selfByDots_image binary⟩
  · rw [sb]
    decide
  · rw [mounts.cwd, held]
    exact le_rfl

theorem locks_disciplined_of_mounts : ∃ world, WellFormed world ∧ Holding ∅ world.mem ∧
    (Operation.unlink ⟨[slash, 120], by decide⟩).program.wp (fun _ => True)
      (fun reason _ => ¬ reason.Locking) (fun _ after => Holding ∅ after.mem) world := by
  obtain ⟨world, mounts, mem⟩ := Mkfs.exists_mounts
  have unlocked : Holding ∅ world.mem := by
    rw [mem]
    exact ⟨rfl, fun _ => ⟨nofun, nofun⟩, nofun⟩
  have wellFormed := wellFormed_of_mounts mounts
  exact ⟨world, wellFormed, unlocked, locks_disciplined wellFormed unlocked _⟩

end Notux.Sys
