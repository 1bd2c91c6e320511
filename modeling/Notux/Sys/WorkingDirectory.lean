import Notux.Sys.Modes

/-!
# The working directory

The kernel keeps one working directory for all processes.  A relative path of one process
starts wherever the last `chdir` of any process has led, so two runs agree on it if their
working directories do.
-/

namespace Notux.Sys

open Notux.Store Notux.Proc Notux.Fs

/-! ## What a path leads to -/

/-- The inode number that `namei` finds under a path, if it returns. -/
def inodeOf (path : List Byte) (world : FsWorld) : Option (Option Nat) :=
  match (namei path).run world with
  | ⟨.ret found, after, _⟩ => some (after.mem.inumOf found)
  | ⟨.stop _, _, _⟩ => none

/-- The directory and the name that `nameiparent` finds under a path, if it returns. -/
def parentOf (path : List Byte) (world : FsWorld) : Option (Option (Nat × List Byte)) :=
  match (nameiparent path).run world with
  | ⟨.ret found, after, _⟩ =>
      some (found.map fun found => ((after.mem.icache found.1).inum, found.2))
  | ⟨.stop _, _, _⟩ => none

/-- In two worlds a path leads to the same inode, wherever the lookup returns. -/
structure LeadsAlike (path : List Byte) (left right : FsWorld) : Prop where
  inode : ∀ i j, inodeOf path left = some i → inodeOf path right = some j → i = j
  parent : ∀ i j, parentOf path left = some i → parentOf path right = some j → i = j

/-- A path that does not start at the root. -/
def Relative (path : List Byte) : Prop := path.head? ≠ some slash

/-- There is no working directory yet, and the inode table has no entry for the root and none
to spare. -/
def Stuck (kernel : Kernel) : Prop :=
  kernel.cwd = none ∧
    igetScan kernel.icache ROOTINO (List.finRange NINODE) none = .inr none

section Lookups

variable {world : FsWorld} {g : Ghost} {path : List Byte}

/-- `namei` finds what the files on the disk say. -/
theorem inodeOf_eq (intact : Intact world g) {found : Option Nat}
    (returned : inodeOf path world = some found) :
    found = ((filesOn world).resolve world.mem.cwdInum path false).map Prod.fst := by
  have ends := (namei_leaves intact path).run
  unfold inodeOf at returned
  split at returned
  · next ip after writes result =>
    rw [result] at ends
    obtain ⟨-, -, -, -, -, expected⟩ := ends
    rw [← intact.files_eq, ← expected]
    exact (Option.some.inj returned).symm
  · cases returned

/-- `nameiparent` finds what the files on the disk say. -/
theorem parentOf_eq (intact : Intact world g) {found : Option (Nat × List Byte)}
    (returned : parentOf path world = some found) :
    found = (filesOn world).resolve world.mem.cwdInum path true := by
  have holds : (nameiparent path).wp (fun _ => True) (fun _ _ => True) _ world :=
    nameiparent_step (fun _ _ _ => trivial) permits_all intact.toReady
  have ends := holds.run
  unfold parentOf at returned
  split at returned
  · next ip after writes result =>
    rw [result] at ends
    obtain ⟨-, -, -, -, expected, -, -⟩ := ends
    rw [← intact.files_eq, ← expected]
    exact (Option.some.inj returned).symm
  · cases returned

/-- The empty path leads to the working directory. -/
theorem resolve_nil (files : Files) (cwd : Nat) : files.resolve cwd [] false = some (cwd, []) := rfl

section Locked

variable {P : Disk → Prop} {F : Stop → FsWorld → Prop}

theorem wp_acquire {Q : Unit → FsWorld → Prop} (unlocked : world.mem.icacheLocked = false)
    (rest : Q () { world with mem := { world.mem with icacheLocked := true } }) :
    acquire.wp P F Q world := by
  unfold acquire
  simp only [Prog.wp_bind, Prog.wp_getMem, unlocked]
  exact rest

theorem wp_release {Q : Unit → FsWorld → Prop} (locked : world.mem.icacheLocked = true)
    (rest : Q () { world with mem := { world.mem with icacheLocked := false } }) :
    release.wp P F Q world := by
  unfold release
  simp only [Prog.wp_bind, Prog.wp_getMem, locked]
  exact rest

end Locked

/-- The working directory is there, unless the root cannot be entered into the inode table. -/
theorem myprocCwd_returns (unlocked : world.mem.icacheLocked = false) (free : ¬ Stuck world.mem) :
    myprocCwd.wp (fun _ => True) (fun _ _ => False)
      (fun _ after => after.mem.icacheLocked = false) world := by
  unfold myprocCwd
  simp only [Prog.wp_bind, Prog.wp_getMem]
  cases isCwd : world.mem.cwd with
  | some ip => exact unlocked
  | none =>
      have atOnce : ∀ ip, namexLoop false ([slash].length + 1) ip [slash] = pure (some (ip, [])) :=
        fun _ => rfl
      unfold namexRoot iget
      simp only [Prog.wp_bind, Prog.wp_getMem, atOnce]
      apply wp_acquire unlocked
      dsimp only
      cases chosen : igetScan world.mem.icache ROOTINO (List.finRange NINODE) none with
      | inl ip =>
          simp only [Prog.wp_bind, modifyInode, Prog.wp_modifyMem]
          apply wp_release rfl
          exact rfl
      | inr empty =>
          cases empty with
          | none => exact free ⟨isCwd, chosen⟩
          | some ip =>
              simp only [Prog.wp_bind, modifyInode, Prog.wp_modifyMem]
              apply wp_release rfl
              exact rfl

/-- The empty path is found, unless the root cannot be entered into the inode table. -/
theorem inodeOf_nil (intact : Intact world g) (free : ¬ Stuck world.mem) :
    inodeOf [] world = some (some world.mem.cwdInum) := by
  have returns : (namei []).wp (fun _ => True) (fun _ _ => False) (fun _ _ => True) world := by
    have atOnce : ∀ ip, namexLoop false (([] : List Byte).length + 1) ip [] =
        pure (some (ip, [])) := fun _ => rfl
    unfold namei namex idup
    simp only [List.head?_nil, reduceCtorEq, if_false, Prog.wp_bind, atOnce]
    apply (myprocCwd_returns intact.holding.table free).mono
    intro ip middle unlocked
    apply wp_acquire unlocked
    simp only [modifyInode, Prog.wp_modifyMem]
    apply wp_release rfl
    trivial
  cases found : inodeOf [] world with
  | some result => rw [inodeOf_eq intact found, resolve_nil, Option.map_some]
  | none =>
      have ends := returns.run
      unfold inodeOf at found
      split at found
      · cases found
      · next stopped =>
        rw [stopped] at ends
        exact ends.elim

/-- Where the root cannot be entered into the inode table, no relative path is looked up. -/
theorem namex_stuck {parent : Bool} (unlocked : world.mem.icacheLocked = false)
    (stuck : Stuck world.mem) (relative : Relative path) :
    (namex path parent).wp (fun _ => True) (fun _ _ => True) (fun _ _ => False) world := by
  obtain ⟨noCwd, noEntry⟩ := stuck
  unfold namex myprocCwd namexRoot iget
  rw [if_neg relative]
  simp only [Prog.wp_bind, Prog.wp_getMem, noCwd]
  apply wp_acquire unlocked
  dsimp only
  rw [noEntry]
  trivial

theorem inodeOf_stuck (intact : Intact world g) (stuck : Stuck world.mem)
    (relative : Relative path) : inodeOf path world = none := by
  have never : (namei path).wp (fun _ => True) (fun _ _ => True) (fun _ _ => False) world := by
    unfold namei
    rw [Prog.wp_bind]
    exact (namex_stuck intact.holding.table stuck relative).mono fun _ _ => False.elim
  have ends := never.run
  unfold inodeOf
  split
  · next result =>
    rw [result] at ends
    exact ends.elim
  · rfl

theorem parentOf_stuck (intact : Intact world g) (stuck : Stuck world.mem)
    (relative : Relative path) : parentOf path world = none := by
  have never : (nameiparent path).wp (fun _ => True) (fun _ _ => True) (fun _ _ => False) world :=
    namex_stuck intact.holding.table stuck relative
  have ends := never.run
  unfold parentOf
  split
  · next result =>
    rw [result] at ends
    exact ends.elim
  · rfl

end Lookups

/-! ## Two runs -/

/-- Two runs from one start that differ only in `chdir` calls of process `a`. -/
inductive Differ (meets : FsWorld → Event → Prop) (a : ProcIdx) (start : FsWorld) :
    FsWorld → FsWorld → Prop where
  | start : Differ meets a start start start
  | both {left right left' right' : FsWorld} {event : Event}
      (differ : Differ meets a start left right) (meetsLeft : meets left event)
      (meetsRight : meets right event) (performed : perform event left = some left')
      (performed' : perform event right = some right') : Differ meets a start left' right'
  | left {left right next : FsWorld} {path : Option CString}
      (differ : Differ meets a start left right) (caller : left.mem.table.current = a)
      (condition : meets left (.call (.chdir path)))
      (performed : perform (.call (.chdir path)) left = some next) : Differ meets a start next right
  | right {left right next : FsWorld} {path : Option CString}
      (differ : Differ meets a start left right) (caller : right.mem.table.current = a)
      (condition : meets right (.call (.chdir path)))
      (performed : perform (.call (.chdir path)) right = some next) : Differ meets a start left next

/-- Each of the two is a run. -/
theorem Differ.reaches {meets : FsWorld → Event → Prop} {a : ProcIdx} {start left right : FsWorld}
    (differ : Differ meets a start left right) :
    Reaches meets start left ∧ Reaches meets start right := by
  induction differ with
  | start => exact ⟨.start, .start⟩
  | both _ meetsLeft meetsRight performed performed' ih =>
      exact ⟨ih.1.step meetsLeft performed, ih.2.step meetsRight performed'⟩
  | left _ _ condition performed ih => exact ⟨ih.1.step condition performed, ih.2⟩
  | right _ _ condition performed ih => exact ⟨ih.1, ih.2.step condition performed⟩

/-- The files depend on the disk alone. -/
theorem filesOn_congr {left right : FsWorld} (disk : left.disk = right.disk)
    (sb : left.mem.sb = right.mem.sb) : filesOn left = filesOn right := by
  unfold filesOn
  rw [disk, sb]

theorem filesOn_afterTimer {currentEsp : Nat} {left right : FsWorld}
    (disk : left.disk = right.disk) (sb : left.mem.sb = right.mem.sb) :
    filesOn (afterTimer currentEsp left) = filesOn (afterTimer currentEsp right) :=
  filesOn_congr disk sb

/-- A call without writes leaves the disk. -/
theorem afterCall_disk {call : Call} {world : FsWorld}
    (quiet : ((syscallHandler call).run world).writes = []) :
    (afterCall call world).disk = world.disk := by
  unfold afterCall
  rw [Prog.run_disk, quiet]
  rfl

/-- `chdir("/")`. -/
def stayingCall : Call := .chdir (some rootPath)

/-- The first process has started another one. -/
def forkedWorld : FsWorld :=
  afterCall (.execve (some missingPath) plainSpawn (some 0x400000) plainSpawn) firstWorld

/-- `chdir("/d")`. -/
def movingCall : Call := .chdir (some ⟨[slash, 100], by decide⟩)

/-- The first process goes to `/d`, the second one runs. -/
def movedWorld : FsWorld := afterTimer 0x101000 (afterCall movingCall forkedWorld)

theorem differ_moved {meets : FsWorld → Event → Prop} (always : ∀ world event, meets world event) :
    Differ meets 0 bootedWorld movedWorld (afterTimer 0x101000 forkedWorld) := by
  have forked : perform (.call (.execve (some missingPath) plainSpawn (some 0x400000) plainSpawn))
      firstWorld = some forkedWorld := perform_afterCall (r := 0) rfl (by decide +kernel)
  have moved : perform (.call movingCall) forkedWorld = some (afterCall movingCall forkedWorld) :=
    perform_afterCall (r := 0) (by decide +kernel) (by decide +kernel)
  have both : Differ meets 0 bootedWorld forkedWorld forkedWorld :=
    (Differ.start.both (always _ _) (always _ _) perform_first perform_first).both
      (always _ _) (always _ _) forked forked
  exact (both.left (by decide +kernel) (always _ _) moved).both (always _ (.timer 0x101000))
    (always _ _) (perform_afterTimer (by decide +kernel)) (perform_afterTimer (by decide +kernel))

end Notux.Sys
