import Notux.Sys.Covering
import Notux.Sys.Descriptors

/-!
# What calls do to the files

Between two calls the file system is sound, no lock is held, and every descriptor of a live
process has a reference of its own.  Every call keeps it so, and does to the files what its
name says, as long as nobody writes into a directory through a descriptor.
-/

namespace Notux.Fs

open Notux.Store Notux.Proc

/-! ## Files that are gone -/

/-- Files without links may be gone. -/
def Files.Sheds (files files' : Files) : Prop :=
  ∀ i, files' i = files i ∨ files' i = none ∧ ∃ node, files i = some node ∧ node.nlink = 0

namespace Files

variable {files files' files'' : Files}

theorem Sheds.refl : files.Sheds files := fun _ => Or.inl rfl

theorem Sheds.trans (first : files.Sheds files') (second : files'.Sheds files'') :
    files.Sheds files'' := by
  intro i
  rcases second i with same | ⟨gone, node, found, unlinked⟩
  · rw [same]
    exact first i
  · rcases first i with same | ⟨gone', -⟩
    · exact Or.inr ⟨gone, node, same ▸ found, unlinked⟩
    · rw [gone'] at found
      cases found

theorem Loses.sheds {start : Nat} (loses : files.Loses start files') : files.Sheds files' := by
  intro i
  rcases loses i with same | ⟨gone, -, unlinked⟩
  · exact Or.inl same
  · exact Or.inr ⟨gone, unlinked⟩

theorem Drops.sheds {n : Nat} (drops : files.Drops n files') : files.Sheds files' := by
  intro i
  rcases drops with rfl | ⟨rfl, unlinked⟩
  · exact Or.inl rfl
  · by_cases same : i = n
    · rw [same, Function.update_self]
      exact Or.inr ⟨rfl, unlinked⟩
    · exact Or.inl (Function.update_of_ne same _ _)

end Files

/-- A file without its content. -/
def Node.emptied (node : Node) : Node := { node with size := 0 }

/-- A write keeps the type of a file. -/
theorem write_type (node : Node) (src : Nat → Byte) (off n : Nat) :
    (node.write src off n).2.type = node.type := by
  unfold Node.write
  repeat' split
  all_goals rfl

end Notux.Fs

namespace Notux.Sys

open Notux.Store Notux.Proc Notux.Fs

/-! ## Between two calls -/

/-- The file system is sound, no lock is held, the working directory is referenced, and so is
every descriptor of a live process. -/
structure Intact (world : FsWorld) (g : Ghost) : Prop extends Ready world g where
  counted : g.held = world.mem.refs
  covered : 0 ≤ spare world.mem

/-- What a part of a call leaves. -/
structure Leaves (locks : Set Slot) (world : FsWorld) (g : Ghost) (files : Files)
    (after : FsWorld) (g' : Ghost) : Prop where
  stands : Stands locks after g'
  sb : g'.sb = g.sb
  files : g'.files after.disk = files
  counted : g'.held = after.mem.refs

section Leaves

variable {locks locks' : Set Slot} {world middle after : FsWorld} {g g' g'' : Ghost}
  {files files' : Files}

theorem Leaves.trans (first : Leaves locks world g files middle g')
    (second : Leaves locks' middle g' files' after g'') : Leaves locks' world g files' after g'' :=
  ⟨second.stands, second.sb.trans first.sb, second.files, second.counted⟩

/-- References are counted along every operation. -/
theorem Leaves.of_step {floor held : Slot → Int} {k : Nat} (counted : g.held = world.mem.refs)
    (unpinned : g.pinned = ∅) (step : Step locks floor k world g files held after g') :
    Leaves locks world g files after g' := by
  refine ⟨step.stands unpinned, step.sb, step.files, ?_⟩
  have same := step.refs
  rw [counted, sub_self] at same
  exact (sub_eq_zero.mp same).symm

/-- An operation after what has been left. -/
theorem Leaves.step {floor held : Slot → Int} {k : Nat} (first : Leaves locks world g files middle g')
    (step : Step locks' floor k middle g' files' held after g'') :
    Leaves locks' world g files' after g'' :=
  first.trans (.of_step first.counted first.stands.unpinned step)

/-- A change of the process table changes no file. -/
theorem Leaves.setTable (leaves : Leaves locks world g files after g') (table : ProcTable) :
    Leaves locks world g files { after with mem := { after.mem with table } } g' where
  stands :=
    { sound := leaves.stands.sound.sameEntries (sameEntries_refl _) rfl rfl
      idle := leaves.stands.idle
      unpinned := leaves.stands.unpinned
      holding := ⟨leaves.stands.holding.table, leaves.stands.holding.held,
        leaves.stands.holding.used⟩ }
  sb := leaves.sb
  files := leaves.files
  counted := leaves.counted

end Leaves

theorem permits_all {aligned : Prop} : Permits (fun _ _ => True) aligned :=
  ⟨fun _ _ _ _ => trivial, fun _ _ => ⟨trivial, trivial⟩, fun _ => trivial⟩

namespace Intact

variable {world after : FsWorld} {g g' : Ghost} {files : Files}

theorem leaves (intact : Intact world g) :
    Leaves ∅ world g (g.files world.disk) world g :=
  ⟨intact.toStands, rfl, rfl, intact.counted⟩

/-- What a whole call leaves, as long as no reference was taken from its holder. -/
theorem next (intact : Intact world g) (leaves : Leaves ∅ world g files after g')
    (covered : 0 ≤ spare after.mem) : Intact after g' where
  toStands := leaves.stands
  root := by
    rw [leaves.sb]
    exact intact.root
  cwd := by
    rw [leaves.counted]
    have holders := add_nonneg covered (allHeld_nonneg after.mem.table)
    rw [spare, sub_add_cancel, Kernel.outstanding] at holders
    exact sub_nonneg.mp holders
  counted := leaves.counted
  covered := covered

/-- The references cover the holders. -/
theorem holders_le (intact : Intact world g) : allHeld world.mem.table ≤ world.mem.refs := by
  have covered := intact.covered
  rw [spare, Kernel.outstanding, sub_nonneg] at covered
  exact covered.trans (sub_le_self _ (nonneg_oneOf _))

end Intact

/-! ## Parts of calls -/

section Parts

variable {world middle : FsWorld} {g g' : Ghost} {files : Files} {ip : Slot} {n : Nat}
  {locks : Set Slot}

/-- Setting a descriptor changes the process table only. -/
theorem leads_setTable {fd : Fin NOFILE} {file : OFile} {Q : Unit → FsWorld → Prop}
    (rest : ∀ table, Q () { middle with mem := { middle.mem with table } }) :
    Leads (setOfile fd file) Q middle :=
  rest _

theorem ilock_leaves (left : Leaves locks world g files middle g') (free : ip ∉ locks)
    (inum : (middle.mem.icache ip).inum = n) :
    Leads (ilock ip) (fun _ after => after.disk = middle.disk ∧ Caches after ip n ∧
      Leaves (insert ip locks) world g files after g') middle := by
  apply (ilock_step permits_all left.stands free inum).mono
  rintro _ after ⟨disk, caches, steps⟩
  have next := left.step (steps 0)
  rw [left.files] at next
  exact ⟨disk, caches, next⟩

theorem iunlock_leaves (left : Leaves (insert ip locks) world g files middle g')
    (free : ip ∉ locks) : Leads (iunlock ip) (fun _ after =>
      (after.mem.icache ip).inum = (middle.mem.icache ip).inum ∧
      Leaves locks world g files after g') middle := by
  apply (iunlock_step permits_all left.stands free).mono
  rintro _ after ⟨-, steps⟩
  have next := left.step (steps 0)
  rw [left.files] at next
  exact ⟨((steps fun _ => 1).keeps ip Int.one_pos).1, next⟩

theorem iput_leaves (left : Leaves locks world g files middle g') (free : ip ∉ locks) :
    Leads (iput ip) (fun _ after => ∃ g'' files',
      files.Drops (middle.mem.icache ip).inum files' ∧ Leaves locks world g files' after g'' ∧
      after.mem.refs = middle.mem.refs - one ip ∧ (¬ middle.mem.Frees ip → files' = files))
      middle := by
  apply (iput_frees (fun _ _ _ => trivial) permits_all left.stands free rfl).mono
  rintro _ after ⟨g'', files', drops, keeps, step⟩
  have next := left.step step
  rw [left.files] at drops keeps
  refine ⟨g'', files', drops, next, ?_, keeps⟩
  rw [← next.counted, step.held, left.counted]

theorem idup_leaves (left : Leaves ∅ world g files middle g')
    (inUse : 0 < (middle.mem.icache ip).ref) :
    Leads (idup ip) (fun _ after => ∃ g'', Leaves ∅ world g files after g'' ∧
      after.mem.refs = middle.mem.refs + one ip) middle := by
  have spec := idup_spec (P := fun _ => True) (F := OrLocking fun _ _ => True)
    (fun _ _ _ => Or.inl trivial) left.stands.sound left.stands.idle inUse
  apply (joint idup_safely left.stands.holding spec).mono
  rintro ip' after ⟨⟨-, gets⟩, holding⟩
  have step : Step ∅ g'.held 0 middle g' (g'.files middle.disk) (g'.held + one ip) after
      (g'.hold (g'.held + one ip)) := ⟨gets.moves, holding⟩
  have next := left.step step
  rw [left.files] at next
  refine ⟨_, next, ?_⟩
  rw [← next.counted, step.held, left.counted]

/-- `readi` of a locked inode. -/
theorem readi_leaves (left : Leaves locks world g files middle g') (caches : Caches middle ip n)
    {off count : Nat} :
    Leads (readi ip off (count % 2 ^ 32)) (fun _ after => after = middle) middle :=
  readi_spec left.stands.sound caches
    (caches.owns left.stands.sound (left.stands.idle.attached n)) (Nat.mod_lt _ (by decide)) rfl

/-- The size is reset and the inode stored. -/
theorem truncate_leaves (left : Leaves locks world g files middle g') (caches : Caches middle ip n) :
    Leads (truncate ip) (fun _ after => ∃ g'', Caches after ip n ∧ Leaves locks world g
      (Function.update files n ((files n).map Node.emptied)) after g'') middle := by
  have owns := caches.owns left.stands.sound (left.stands.idle.attached n)
  have found : files n = some ((g'.view n).node middle.disk) := by
    rw [← left.files]
    exact owns.files
  have both : Safely (Fs.Holding locks) (truncate ip) fun _ => Fs.Holding locks :=
    .seq mapDin_steady fun _ => iupdate_steady
  have empty : FileSound middle.disk (g'.put n { g'.view n with size := 0 }) n := by
    have view : (g'.put n { g'.view n with size := 0 }).view n = { g'.view n with size := 0 } :=
      put_view_self _ _ _
    refine ⟨?_, fun bn inside => ?_, fun isDir => ⟨fun _ => ?_, fun off _ inside => ?_⟩⟩
    · rw [view]
      exact Nat.zero_le _
    · rw [view] at inside
      exact absurd inside (Nat.not_lt_zero _)
    · rw [view]
      exact Nat.dvd_zero _
    · rw [view] at inside
      exact absurd inside (by simp [Dinode.node])
  have spec : (iupdate ip).wp (fun _ => True) (OrLocking fun _ _ => True) _
      { middle with mem := middle.mem.setInode ip (·.mapDin ({ · with size := 0 })) } :=
    setFields_spec (fun _ _ _ => trivial) left.stands.sound (left.stands.idle.only n) caches owns
      rfl owns.allocated empty
  apply (joint both left.stands.holding _).mono _
  · exact fun _ after => ∃ g'', Caches after ip n ∧ ∀ floor, Moves ∅ floor 0 middle g'
      (Function.update (g'.files middle.disk) n
        (some (({ g'.view n with size := 0 } : Dinode).node middle.disk))) g'.held after g''
  · unfold truncate
    simpa only [Prog.wp_bind, modifyInode, Prog.wp_modifyMem] using spec
  · rintro _ after ⟨⟨g'', caches', moves⟩, holding⟩
    have step : Step locks 0 0 middle g' _ g'.held after g'' := ⟨moves 0, holding⟩
    have next := left.step step
    rw [left.files] at next
    refine ⟨g'', caches', ?_⟩
    rw [found]
    exact next

end Parts

/-! ## Calls through descriptors -/

/-- The descriptor that a call closes. -/
def closedBy (world : FsWorld) : Call → Option (Fin NOFILE)
  | .close fd => toFd 0 fd
  | .dup2 oldfd newfd => do
      let old ← toFd 0 oldfd
      let new ← toFd 0 newfd
      if (ofileOf world old).ip.isSome = true ∧ old ≠ new then some new else none
  | _ => none

/-- What closing a descriptor does to the files: the file behind it is gone if `iput` frees it. -/
def GivesBack (world : FsWorld) (closed : Option (Fin NOFILE)) (files files' : Files) : Prop :=
  files' = files ∨ ∃ fd ∈ closed, ∃ ip, (ofileOf world fd).ip = some ip ∧ world.mem.Frees ip ∧
    files.Drops (world.mem.icache ip).inum files'

section GivesBack

variable {world : FsWorld} {closed : Option (Fin NOFILE)} {files files' : Files}

theorem GivesBack.none : GivesBack world closed files files := Or.inl rfl

theorem GivesBack.of_iput {fd : Fin NOFILE} {ip : Slot} (isFd : closed = some fd)
    (isOpen : (ofileOf world fd).ip = some ip) (drops : files.Drops (world.mem.icache ip).inum files')
    (keeps : ¬ world.mem.Frees ip → files' = files) : GivesBack world closed files files' := by
  by_cases frees : world.mem.Frees ip
  · exact Or.inr ⟨fd, isFd, ip, isOpen, frees, drops⟩
  · exact Or.inl (keeps frees)

theorem GivesBack.sheds (givesBack : GivesBack world closed files files') :
    files.Sheds files' := by
  rcases givesBack with rfl | ⟨fd, -, ip, -, -, drops⟩
  · exact .refl
  · exact drops.sheds

end GivesBack

section Descriptors

variable {world : FsWorld} {g : Ghost} (intact : Intact world g)

include intact

theorem sysRead_leaves (fd : Int) (bufNull : Bool) (count : Nat) (key : Byte) :
    Leads (sysRead fd bufNull count key)
      (fun _ after => ∃ g', Leaves ∅ world g (g.files world.disk) after g') world := by
  have start : ∃ g', Leaves ∅ world g (g.files world.disk) world g' := ⟨g, intact.leaves⟩
  unfold sysRead Leads
  split
  · exact start
  · rw [Prog.wp_bind]
    refine leads_openFile ⟨rfl, rfl⟩ ?_ fun fd ip isOpen => ?_
    · dsimp only
      split
      · split <;> exact start
      · exact start
    · dsimp only
      split
      · exact start
      · simp only [Prog.wp_bind]
        apply (ilock_leaves intact.leaves (Set.notMem_empty ip) rfl).mono
        rintro _ locked ⟨-, caches, left⟩
        apply (readi_leaves left caches).mono
        rintro both _ rfl
        apply (iunlock_leaves left (Set.notMem_empty ip)).mono
        rintro _ after ⟨-, left⟩
        unfold when
        split
        · exact ⟨g, left.setTable _⟩
        · exact ⟨g, left⟩

theorem sysLseek_leaves (fd offset whence : Int) :
    Leads (sysLseek fd offset whence)
      (fun _ after => ∃ g', Leaves ∅ world g (g.files world.disk) after g') world := by
  unfold sysLseek Leads
  rw [Prog.wp_bind]
  refine leads_openFile ⟨rfl, rfl⟩ ⟨g, intact.leaves⟩ fun fd ip isOpen => ?_
  simp only [Prog.wp_bind]
  apply (ilock_leaves intact.leaves (Set.notMem_empty ip) rfl).mono
  rintro _ locked ⟨-, caches, left⟩
  simp only [getInode, Prog.wp_bind, Prog.wp_getMem, Prog.wp_pure]
  apply (iunlock_leaves left (Set.notMem_empty ip)).mono
  rintro _ after ⟨-, left⟩
  generalize (if whence = 0 then offset else _) = newOffset
  split
  · exact ⟨g, left⟩
  · exact ⟨g, left.setTable _⟩

/-- A call that closes a descriptor. -/
theorem sysClose_leaves (fd : Int) :
    Leads (sysClose fd) (fun _ after => ∃ g' files',
      GivesBack world (closedBy world (.close fd)) (g.files world.disk) files' ∧
      Leaves ∅ world g files' after g') world := by
  unfold sysClose Leads
  rw [Prog.wp_bind]
  refine leads_found ⟨g, _, .none, intact.leaves⟩ fun fd' ip isFd isOpen => ?_
  simp only [Prog.wp_bind]
  apply (iput_leaves intact.leaves (Set.notMem_empty ip)).mono
  rintro _ after ⟨g', files', drops, left, -, keeps⟩
  exact ⟨g', files', .of_iput isFd isOpen drops keeps, left.setTable _⟩

omit intact in
theorem oneOf_le_held {process : Process} (alive : process.state ≠ .terminated) (fd : Fin NOFILE) :
    oneOf (process.ofiles fd).ip ≤ held process := by
  rw [held_of_alive alive]
  exact Finset.single_le_sum (f := fun fd => oneOf (process.ofiles fd).ip)
    (fun _ _ => nonneg_oneOf _) (Finset.mem_univ fd)

omit intact in
theorem held_le_allHeld (table : ProcTable) (idx : ProcIdx) :
    held (table.processes idx) ≤ allHeld table :=
  Finset.single_le_sum (f := fun idx => held (table.processes idx))
    (fun _ _ => held_nonneg _) (Finset.mem_univ idx)

/-- What the current process holds is referenced. -/
theorem Intact.held_le : held world.mem.table.currentProcess ≤ world.mem.refs :=
  (held_le_allHeld _ _).trans intact.holders_le

variable (alive : world.mem.table.currentProcess.state ≠ .terminated)

include alive

/-- The inode behind an open descriptor is referenced. -/
theorem Intact.inUse {fd : Fin NOFILE} {ip : Slot}
    (isOpen : (world.mem.table.currentProcess.ofiles fd).ip = some ip) :
    0 < (world.mem.icache ip).ref := by
  have below := ((oneOf_le_held alive fd).trans intact.held_le) ip
  rw [isOpen, oneOf_some, one_self] at below
  exact Int.lt_of_lt_of_le Int.one_pos below

theorem sysDup_leaves (oldfd : Int) :
    Leads (sysDup oldfd)
      (fun _ after => ∃ g', Leaves ∅ world g (g.files world.disk) after g') world := by
  unfold sysDup Leads
  rw [Prog.wp_bind]
  refine leads_openFile ⟨rfl, rfl⟩ ⟨g, intact.leaves⟩ fun fd ip isOpen => ?_
  dsimp only
  rw [Prog.wp_bind]
  refine leads_freeFd ⟨rfl, rfl⟩ ⟨g, intact.leaves⟩ fun newfd free => ?_
  simp only [Prog.wp_bind]
  apply leads_setTable
  intro table
  apply (idup_leaves (intact.leaves.setTable table) (intact.inUse alive isOpen)).mono
  rintro _ after ⟨g', left, -⟩
  exact ⟨g', left⟩

/-- Two descriptors hold two references. -/
theorem Intact.inUse_two {fd other : Fin NOFILE} {ip old : Slot} (differ : fd ≠ other)
    (isOpen : (world.mem.table.currentProcess.ofiles fd).ip = some ip)
    (otherOpen : (world.mem.table.currentProcess.ofiles other).ip = some old) :
    0 < world.mem.refs ip - one old ip := by
  have both : oneOf (world.mem.table.currentProcess.ofiles fd).ip +
      oneOf (world.mem.table.currentProcess.ofiles other).ip ≤
        held world.mem.table.currentProcess := by
    rw [held_of_alive alive]
    exact Finset.add_le_sum (f := fun fd => oneOf (world.mem.table.currentProcess.ofiles fd).ip)
      (fun _ _ => nonneg_oneOf _) (Finset.mem_univ fd) (Finset.mem_univ other) differ
  have below := (both.trans intact.held_le) ip
  rw [isOpen, otherOpen] at below
  simp only [oneOf_some, Pi.add_apply, one_self] at below
  omega

theorem sysDup2_leaves (oldfd newfd : Int) :
    Leads (sysDup2 oldfd newfd) (fun _ after => ∃ g' files',
      GivesBack world (closedBy world (.dup2 oldfd newfd)) (g.files world.disk) files' ∧
      Leaves ∅ world g files' after g') world := by
  generalize isClosed : closedBy world (.dup2 oldfd newfd) = closed
  have start : ∃ g' files', GivesBack world closed (g.files world.disk) files' ∧
      Leaves ∅ world g files' world g' := ⟨g, _, .none, intact.leaves⟩
  unfold sysDup2 Leads
  rw [Prog.wp_bind]
  refine leads_found start fun fd ip isFd isOpen => ?_
  cases isNew : toFd 0 newfd with
  | none => exact start
  | some newfd =>
      dsimp only
      split
      · exact start
      · next differ =>
        have closes : closed = some newfd := by
          rw [← isClosed, closedBy, isFd, isNew]
          exact if_pos ⟨by rw [isOpen]; rfl, differ⟩
        -- what follows once the old file of `newfd` is closed
        have finish : ∀ middle g' files', GivesBack world closed (g.files world.disk) files' →
            Leaves ∅ world g files' middle g' → 0 < (middle.mem.icache ip).ref →
            Leads (do
              setOfile newfd (world.mem.table.currentProcess.ofiles fd)
              let _ ← idup ip
              return ((newfd : Nat) : Int) : FsM Int)
              (fun _ after => ∃ g' files', GivesBack world closed (g.files world.disk) files' ∧
                Leaves ∅ world g files' after g') middle := by
          intro middle g' files' sheds left inUse
          unfold Leads
          simp only [Prog.wp_bind]
          apply leads_setTable
          intro table
          apply (idup_leaves (left.setTable table) inUse).mono
          rintro _ after ⟨g'', left, -⟩
          exact ⟨g'', files', sheds, left⟩
        rw [Prog.wp_bind, wp_getOfile]
        cases target : (world.mem.table.currentProcess.ofiles newfd).ip with
        | none =>
            exact finish world g _ .none intact.leaves (intact.inUse alive isOpen)
        | some old =>
            refine (Prog.wp_bind (iput old) _).mpr ?_
            apply (iput_leaves intact.leaves (Set.notMem_empty old)).mono
            rintro _ middle ⟨g', files', drops, left, refs, keeps⟩
            apply finish middle g' files' (.of_iput closes target drops keeps) left
            have counts := congrFun refs ip
            have both := intact.inUse_two alive differ isOpen target
            change (middle.mem.icache ip).ref = _ at counts
            rw [counts]
            exact both

end Descriptors

/-! ## Writing -/

/-- What a write does to the files: nothing, or it writes to the file behind the descriptor,
whose mode allows it. -/
def Writes (world : FsWorld) (files : Files) (fd : Int) (buf : Nat → Byte) (files' : Files) :
    Prop :=
  files' = files ∨ ∃ (fd' : Fin NOFILE) (ip : Slot) (node : Node) (off count : Nat),
    toFd 1 fd = some fd' ∧ (ofileOf world fd').ip = some ip ∧
    MayWrite (ofileOf world fd').flags ∧ files (world.mem.icache ip).inum = some node ∧
    files' = Function.update files (world.mem.icache ip).inum (some (node.write buf off count).2)

/-- A write does not go to a directory. -/
def SparesDirectories (world : FsWorld) (fd : Int) : Prop :=
  ∀ (fd' : Fin NOFILE) (ip : Slot), toFd 1 fd = some fd' → (ofileOf world fd').ip = some ip →
    MayWrite (ofileOf world fd').flags → (lockedDin world ip).type ≠ T_DIR

section Writing

variable {world : FsWorld} {g : Ghost}

theorem sysWrite_leaves (intact : Intact world g) (fd : Int) (bufNull : Bool) (buf : Nat → Byte)
    (count : Nat) (spares : SparesDirectories world fd) :
    Leads (sysWrite fd bufNull buf count) (fun _ after => ∃ g' files',
      Writes world (g.files world.disk) fd buf files' ∧ Leaves ∅ world g files' after g')
      world := by
  have start : ∃ g' files', Writes world (g.files world.disk) fd buf files' ∧
      Leaves ∅ world g files' world g' := ⟨g, _, Or.inl rfl, intact.leaves⟩
  unfold sysWrite Leads
  rw [Prog.wp_bind]
  apply leads_found
  · dsimp only
    split <;> exact start
  · intro fd' ip isFd isOpen
    dsimp only
    split
    · exact start
    · next allowed =>
      have mayWrite : MayWrite (ofileOf world fd').flags := by
        unfold MayWrite
        by_contra neither
        simp only [not_or, Bool.not_eq_true] at neither
        exact allowed neither
      simp only [Prog.wp_bind]
      apply (ilock_locks.and (ilock_leaves intact.leaves (Set.notMem_empty ip) rfl)).conseq
        (fun _ _ => trivial) fun _ _ _ => trivial
      rintro _ locked ⟨holds, disk, caches, left⟩
      simp only [getInode, Prog.wp_bind, Prog.wp_getMem, Prog.wp_pure]
      generalize (if hasFlag (ofileOf world fd').flags O_APPEND = true then
        (locked.mem.icache ip).din.size.toNat else _) = off
      have owns := caches.owns left.stands.sound (left.stands.idle.attached _)
      have type : ((g.view (world.mem.icache ip).inum).node locked.disk).type ≠ T_DIR := by
        rw [node_type, ← caches.din left.stands.sound, holds.din]
        exact spares fd' ip isFd isOpen mayWrite
      have found : g.files world.disk (world.mem.icache ip).inum =
          some ((g.view (world.mem.icache ip).inum).node locked.disk) := by
        rw [← left.files]
        exact owns.files
      have grown : EntriesSound g (world.mem.icache ip).inum
          (((g.view (world.mem.icache ip).inum).node locked.disk).write buf off
            (count % 2 ^ 32)).2 := .of_notDir (by rw [write_type]; exact type)
      have writes := writei_spec (P := fun _ => True) (F := OrLocking fun _ _ => True)
        (fun _ _ _ => trivial) caches (Nat.mod_lt count (by decide))
        left.stands.sound left.stands.idle owns (fun _ _ _ _ _ => Or.inl trivial)
        (fun _ _ _ _ => .of_notDir type) grown
      apply (joint writei_steady left.stands.holding writes).mono
      rintro r written ⟨⟨-, g₁, caches₁, moves⟩, holding₁⟩
      have step₁ : Step (insert ip ∅) 0 _ locked g _ g.held written g₁ := ⟨moves 0, holding₁⟩
      have left₁ := left.step step₁
      have again : (iupdate ip).wp (fun _ => True) (OrLocking fun _ _ => True) _ written :=
        (iupdate_again left₁.stands.sound left₁.stands.idle caches₁).conseq (fun _ _ => trivial)
          (fun _ _ _ => Or.inl trivial) fun _ _ => id
      apply (joint iupdate_steady left₁.stands.holding again).mono
      rintro _ stored ⟨⟨g₂, moves'⟩, holding₂⟩
      have step₂ : Step (insert ip ∅) 0 0 written g₁ _ g₁.held stored g₂ := ⟨moves' 0, holding₂⟩
      have left₂ := left₁.step step₂
      rw [left₁.files, left.files] at left₂
      apply (iunlock_leaves left₂ (Set.notMem_empty ip)).mono
      rintro _ after ⟨-, left₃⟩
      have wrote : Writes world (g.files world.disk) fd buf (Function.update (g.files world.disk)
          (world.mem.icache ip).inum (some (((g.view (world.mem.icache ip).inum).node
            locked.disk).write buf off (count % 2 ^ 32)).2)) :=
        Or.inr ⟨fd', ip, _, off, _, isFd, isOpen, mayWrite, found, rfl⟩
      unfold when
      split
      · exact ⟨g₂, _, wrote, left₃.setTable _⟩
      · exact ⟨g₂, _, wrote, left₃⟩

end Writing

/-! ## Calls with paths -/

/-- How `open` comes to its inode. -/
def Finds (files : Files) (cwd : Nat) (path : List Byte) (flags : BitVec 32) (found : Option Nat)
    (files' : Files) : Prop :=
  if hasFlag flags O_CREAT then files.Creates cwd path T_FILE 0 0 found files'
  else files.Loses (Files.startOf cwd path) files' ∧
    found = (files.resolve cwd path false).map Prod.fst

/-- The files after `O_TRUNC` has been looked at. -/
def cutBy (flags : BitVec 32) (found : Option Nat) (files : Files) : Files :=
  match found with
  | none => files
  | some n =>
      if hasFlag flags O_TRUNC then Function.update files n ((files n).map Node.emptied) else files

/-- What `open` does to the files; without a free descriptor the inode is given back. -/
def Opens (files : Files) (cwd : Nat) (path : Option CString) (flags : BitVec 32)
    (files' : Files) : Prop :=
  match path with
  | none => files' = files
  | some path => ∃ found middle, Finds files cwd path.bytes flags found middle ∧
      (files' = cutBy flags found middle ∨
        ∃ n ∈ found, (cutBy flags found middle).Drops n files')

theorem Opens.sheds {files files' : Files} {cwd : Nat} {place : CString} {flags : BitVec 32}
    (opens : Opens files cwd (some place) flags files') :
    ∃ found middle, Finds files cwd place.bytes flags found middle ∧
      (cutBy flags found middle).Sheds files' := by
  obtain ⟨found, middle, finds, rfl | ⟨n, -, drops⟩⟩ := opens
  · exact ⟨found, middle, finds, .refl⟩
  · exact ⟨found, middle, finds, drops.sheds⟩

/-- What `mkdir` does to the files, up to files without links. -/
def MakesDirectory (files : Files) (cwd : Nat) (path : Option CString) (files' : Files) : Prop :=
  match path with
  | none => files' = files
  | some path => ∃ found middle, files.Creates cwd path.bytes T_DIR 0 0 found middle ∧
      middle.Sheds files'

/-- What `unlink` does to the files. -/
def Unlinks (files : Files) (cwd : Nat) (path : Option CString) (files' : Files) : Prop :=
  match path with
  | none => files' = files
  | some path => ∃ r, files.Removes cwd path.bytes r files'

theorem one_le_one (ip other : Slot) : one ip other ≤ 1 := by
  by_cases same : other = ip
  · rw [same, one_self]
  · rw [one_of_ne same]
    exact Int.one_nonneg

/-- `chdir` replaces the reference of the working directory. -/
theorem setCwd_leaves {world middle : FsWorld} {g g' : Ghost} {files : Files} {ip : Slot}
    (left : Leaves ∅ world g files middle g') (root : ROOTINO < g'.sb.ninodes)
    (cwd : oneOf middle.mem.cwd ≤ g'.held) :
    Leads (xv6fsBridgeSetCwd ip) (fun _ after => ∃ g'' files', files.Sheds files' ∧
      Leaves ∅ world g files' after g'') middle := by
  have benign : ∀ reason world, Stop.Benign reason → OrLocking (fun _ _ => True) reason world :=
    fun _ _ _ => Or.inl trivial
  have nonneg : 0 ≤ g'.held := (nonneg_oneOf _).trans cwd
  have cwdHeld : ∀ ip, middle.mem.cwd = some ip → 0 < g'.held ip := by
    intro other isCwd
    have below := cwd other
    rw [isCwd, oneOf_some, one_self] at below
    exact Int.lt_of_lt_of_le Int.one_pos below
  have spec : (xv6fsBridgeSetCwd ip).wp (fun _ => True) (OrLocking fun _ _ => True)
      (fun _ after => ∃ floor g'' files' held, files.Sheds files' ∧
        Moves ∅ floor 0 middle g' files' held after g'') middle := by
    unfold xv6fsBridgeSetCwd
    rw [Prog.wp_bind]
    apply (myprocCwd_moves permits_all.accepts left.stands.sound left.stands.idle nonneg root
      cwdHeld).mono
    rintro old started ⟨g₁, moves, -, -, more, -, -⟩
    rw [Prog.wp_bind]
    apply (iput_spec (fun _ _ _ => trivial) benign moves.sound moves.idle rfl fun _ => by
      rw [moves.pinned, left.stands.unpinned]
      exact Set.notMem_empty _).mono
    rintro _ dropped ⟨g₂, moves'⟩
    have inum : (started.mem.icache old).inum = (started.mem.icache old).inum := rfl
    have sheds := (loses_of_frees moves.sound moves.idle inum).sheds
    rw [moves.files, left.files] at sheds
    rw [moves.files, left.files] at moves'
    have first : -1 ≤ g'.held := fun other => by
      have above : 0 ≤ g'.held other := nonneg other
      change -1 ≤ g'.held other
      omega
    have second : -1 ≤ g₁.held - one old := fun other => by
      have above : 0 ≤ g₁.held other := (nonneg.trans more) other
      have less := one_le_one old other
      change -1 ≤ g₁.held other - one old other
      omega
    have both := (moves.mono first le_rfl).trans (moves'.mono second le_rfl)
    have entries := sameEntries_refl dropped.mem
    exact ⟨-1, g₂, _, _, sheds, { both with
      sound := both.sound.sameEntries entries rfl rfl
      keeps := both.keeps.trans (keeps_of_sameEntries entries _) }⟩
  apply (joint xv6fsBridgeSetCwd_holding left.stands.holding spec).mono
  rintro _ after ⟨⟨floor, g'', files', held, sheds, moves⟩, holding⟩
  have step : Step ∅ floor 0 middle g' files' held after g'' := ⟨moves, holding⟩
  exact ⟨g'', files', sheds, left.step step⟩

section Paths

variable {world : FsWorld} {g : Ghost} (intact : Intact world g)

include intact

theorem namei_leaves (path : List Byte) :
    Leads (namei path) (fun found after => ∃ g' files',
      (g.files world.disk).Loses (Files.startOf world.mem.cwdInum path) files' ∧
      Leaves ∅ world g files' after g' ∧ oneOf after.mem.cwd ≤ g'.held ∧
      after.mem.inumOf found =
        ((g.files world.disk).resolve world.mem.cwdInum path false).map Prod.fst) world := by
  apply (namei_step (fun _ _ _ => trivial) permits_all intact.toReady).mono
  rintro found after ⟨g', files', loses, step, expected⟩
  have cwd : oneOf after.mem.cwd ≤ g'.held := by
    intro other
    have below : oneOf world.mem.cwd other ≤ g.held other := intact.cwd other
    have more : 0 ≤ oneOf found other := nonneg_oneOf _ other
    rw [step.held]
    change oneOf after.mem.cwd other ≤
      g.held other + oneOf after.mem.cwd other - oneOf world.mem.cwd other + oneOf found other
    omega
  exact ⟨g', files', loses, intact.leaves.step step, cwd, expected⟩

theorem xv6fsCreate_leaves (path : List Byte) (type major minor : BitVec 16) :
    Leads (xv6fsCreate path type major minor) (fun found after => ∃ g' files',
      (g.files world.disk).Creates world.mem.cwdInum path type major minor
        (after.mem.inumOf found) files' ∧
      (∀ ip ∈ found, Caches after ip (after.mem.icache ip).inum) ∧
      Leaves (lockOf found) world g files' after g') world := by
  apply (xv6fsCreate_spec (fun _ _ _ => trivial) permits_all intact.toReady).mono
  rintro found after ⟨g', files', creates, caches, step, -, -⟩
  exact ⟨g', files', creates, caches, intact.leaves.step step⟩

theorem openInode_leaves (path : CString) (flags : BitVec 32) :
    Leads (openInode path flags) (fun found after => ∃ g' files',
      Finds (g.files world.disk) world.mem.cwdInum path.bytes flags (after.mem.inumOf found)
        files' ∧
      Leaves (if hasFlag flags O_CREAT = true then lockOf found else ∅) world g
        (cutBy flags (after.mem.inumOf found) files') after g') world := by
  unfold openInode Finds
  by_cases creates : hasFlag flags O_CREAT = true
  · simp only [if_pos creates, Leads, Prog.wp_bind]
    apply (xv6fsCreate_leaves intact path.bytes T_FILE 0 0).mono
    rintro found after ⟨g', files', made, caches, left⟩
    cases found with
    | none => exact ⟨g', files', made, left⟩
    | some ip =>
        simp only [Prog.wp_bind]
        unfold when
        split
        · next cuts =>
          apply (truncate_leaves left (caches ip rfl)).mono
          rintro _ final ⟨g'', cached', left'⟩
          have same : final.mem.inumOf (some ip) = after.mem.inumOf (some ip) :=
            congrArg some cached'.inum
          refine ⟨g'', files', ?_, ?_⟩
          · rw [same]
            exact made
          · rw [same]
            unfold cutBy Kernel.inumOf
            dsimp only [Option.map]
            rw [if_pos cuts]
            exact left'
        · next spares =>
          refine ⟨g', files', made, ?_⟩
          unfold cutBy Kernel.inumOf
          dsimp only [Option.map]
          rw [if_neg spares]
          exact left
  · simp only [if_neg creates, Leads, Prog.wp_bind]
    apply (namei_leaves intact path.bytes).mono
    rintro found after ⟨g', files', loses, left, -, expected⟩
    cases found with
    | none => exact ⟨g', files', ⟨loses, expected⟩, left⟩
    | some ip =>
        simp only [Prog.wp_bind]
        unfold when
        split
        · next cuts =>
          simp only [Prog.wp_bind]
          apply (ilock_leaves left (Set.notMem_empty ip) rfl).mono
          rintro _ locked ⟨-, cached, left₁⟩
          apply (truncate_leaves left₁ cached).mono
          rintro _ cut ⟨g₂, cached', left₂⟩
          apply (iunlock_leaves left₂ (Set.notMem_empty ip)).mono
          rintro _ final ⟨inum, left₃⟩
          have same : final.mem.inumOf (some ip) = after.mem.inumOf (some ip) :=
            congrArg some (inum.trans cached'.inum)
          refine ⟨g₂, files', ?_, ?_⟩
          · rw [same]
            exact ⟨loses, expected⟩
          · rw [same]
            unfold cutBy Kernel.inumOf
            dsimp only [Option.map]
            rw [if_pos cuts]
            exact left₃
        · next spares =>
          refine ⟨g', files', ⟨loses, expected⟩, ?_⟩
          unfold cutBy Kernel.inumOf
          dsimp only [Option.map]
          rw [if_neg spares]
          exact left

theorem sysOpen_leaves (path : Option CString) (flags : BitVec 32) :
    Leads (sysOpen path flags) (fun _ after => ∃ g' files',
      Opens (g.files world.disk) world.mem.cwdInum path flags files' ∧
      Leaves ∅ world g files' after g') world := by
  unfold sysOpen Opens Leads
  cases path with
  | none => exact ⟨g, _, rfl, intact.leaves⟩
  | some path =>
      dsimp only
      rw [Prog.wp_bind]
      apply (openInode_leaves intact path flags).mono
      rintro found middle ⟨g₁, files₁, finds, left⟩
      cases found with
      | none =>
          have unlocked : (if hasFlag flags O_CREAT = true then lockOf none else ∅) =
              (∅ : Set Slot) := ite_self _
          rw [unlocked] at left
          exact ⟨g₁, _, ⟨_, files₁, finds, Or.inl rfl⟩, left⟩
      | some ip =>
          dsimp only
          -- the lock of a new inode is released
          have unlock : ∀ {start : FsWorld},
              Leaves (if hasFlag flags O_CREAT = true then lockOf (some ip) else ∅) world g
                (cutBy flags (middle.mem.inumOf (some ip)) files₁) start g₁ →
              Leads (when (hasFlag flags O_CREAT = true) (iunlock ip)) (fun _ after =>
                (after.mem.icache ip).inum = (start.mem.icache ip).inum ∧
                Leaves ∅ world g (cutBy flags (middle.mem.inumOf (some ip)) files₁) after g₁)
                start := by
            intro start left
            unfold when
            split
            · next creates =>
              rw [if_pos creates] at left
              apply (iunlock_leaves left (Set.notMem_empty ip)).mono
              exact fun _ after both => both
            · next finds =>
              rw [if_neg finds] at left
              exact ⟨rfl, left⟩
          rw [Prog.wp_bind]
          refine leads_freeFd ⟨rfl, rfl⟩ ?_ fun fd _ => ?_
          · simp only [Prog.wp_bind]
            apply (unlock left).mono
            rintro _ unlocked ⟨inum, left'⟩
            apply (iput_leaves left' (Set.notMem_empty ip)).mono
            rintro _ after ⟨g', files', drops, left'', -⟩
            rw [inum] at drops
            exact ⟨g', files', ⟨_, files₁, finds, Or.inr ⟨_, rfl, drops⟩⟩, left''⟩
          · simp only [Prog.wp_bind]
            apply leads_setTable
            intro table
            apply (unlock (left.setTable table)).mono
            rintro _ after ⟨-, left'⟩
            exact ⟨g₁, _, ⟨_, files₁, finds, Or.inl rfl⟩, left'⟩

theorem sysChdir_leaves (path : Option CString) :
    Leads (sysChdir path) (fun _ after => ∃ g' files', (g.files world.disk).Sheds files' ∧
      Leaves ∅ world g files' after g') world := by
  unfold sysChdir Leads
  cases path with
  | none => exact ⟨g, _, .refl, intact.leaves⟩
  | some path =>
      dsimp only
      rw [Prog.wp_bind]
      apply (namei_leaves intact path.bytes).mono
      rintro found middle ⟨g₁, files₁, loses, left, cwd, -⟩
      cases found with
      | none => exact ⟨g₁, files₁, loses.sheds, left⟩
      | some ip =>
          simp only [Prog.wp_bind]
          apply (ilock_takes.frame (ilock_leaves left (Set.notMem_empty ip) rfl)).mono
          rintro _ locked ⟨⟨-, -, left₁⟩, lockedCwd, -⟩
          simp only [getInode, Prog.wp_bind, Prog.wp_getMem, Prog.wp_pure]
          split
          · simp only [Prog.wp_bind]
            apply (iunlock_leaves left₁ (Set.notMem_empty ip)).mono
            rintro _ unlocked ⟨-, left₂⟩
            apply (iput_leaves left₂ (Set.notMem_empty ip)).mono
            rintro _ after ⟨g', files', drops, left₃, -⟩
            exact ⟨g', files', loses.sheds.trans drops.sheds, left₃⟩
          · simp only [Prog.wp_bind]
            apply (iunlock_takes.frame (iunlock_leaves left₁ (Set.notMem_empty ip))).mono
            rintro _ unlocked ⟨⟨-, left₂⟩, unlockedCwd, -⟩
            have root : ROOTINO < g₁.sb.ninodes := by
              rw [left₂.sb]
              exact intact.root
            rw [← lockedCwd, ← unlockedCwd] at cwd
            apply (setCwd_leaves left₂ root cwd).mono
            rintro _ after ⟨g', files', sheds, left₃⟩
            exact ⟨g', files', loses.sheds.trans sheds, left₃⟩

theorem sysMkdir_leaves (path : Option CString) :
    Leads (sysMkdir path) (fun _ after => ∃ g' files',
      MakesDirectory (g.files world.disk) world.mem.cwdInum path files' ∧
      Leaves ∅ world g files' after g') world := by
  unfold sysMkdir MakesDirectory Leads
  cases path with
  | none => exact ⟨g, _, rfl, intact.leaves⟩
  | some path =>
      dsimp only
      rw [Prog.wp_bind]
      apply (xv6fsCreate_leaves intact path.bytes T_DIR 0 0).mono
      rintro found middle ⟨g₁, files₁, creates, -, left⟩
      cases found with
      | none => exact ⟨g₁, files₁, ⟨_, files₁, creates, .refl⟩, left⟩
      | some ip =>
          simp only [Prog.wp_bind]
          apply (iunlock_leaves left (Set.notMem_empty ip)).mono
          rintro _ unlocked ⟨-, left₂⟩
          apply (iput_leaves left₂ (Set.notMem_empty ip)).mono
          rintro _ after ⟨g', files', drops, left₃, -⟩
          exact ⟨g', files', ⟨_, files₁, creates, drops.sheds⟩, left₃⟩

theorem sysUnlink_leaves (path : Option CString) :
    Leads (sysUnlink path) (fun _ after => ∃ g' files',
      Unlinks (g.files world.disk) world.mem.cwdInum path files' ∧
      Leaves ∅ world g files' after g') world := by
  unfold sysUnlink Unlinks Leads
  cases path with
  | none => exact ⟨g, _, rfl, intact.leaves⟩
  | some path =>
      apply (xv6fsUnlink_spec (fun _ _ _ => trivial) permits_all intact.toReady
        (Or.inr fun _ => trivial)).mono
      rintro r after ⟨g', files', removes, step, -, -⟩
      exact ⟨g', files', ⟨r, removes⟩, intact.leaves.step step⟩

end Paths

/-! ## Processes -/

section Spawning

variable {world : FsWorld} {g : Ghost}

theorem onTable_leaves {α : Type} {middle : FsWorld} {g' : Ghost} {files : Files}
    {step : ProcTable → α × ProcTable} (left : Leaves ∅ world g files middle g') :
    Leads (onTable step) (fun _ after => Leaves ∅ world g files after g') middle :=
  left.setTable _

/-- Every descriptor of the current process is referenced. -/
def Referenced (kernel : Kernel) : Prop :=
  ∀ fd ip, (kernel.table.currentProcess.ofiles fd).ip = some ip → 0 < kernel.refs ip

theorem inheritFd_leaves {middle : FsWorld} {g' : Ghost} {files : Files} {child : ProcIdx}
    {fd : Fin NOFILE} (left : Leaves ∅ world g files middle g')
    (referenced : Referenced middle.mem) :
    Leads (inheritFd child fd) (fun _ after => ∃ g'', Leaves ∅ world g files after g'' ∧
      Referenced after.mem) middle := by
  unfold inheritFd Leads
  rw [Prog.wp_bind, wp_getOfile]
  cases isOpen : (middle.mem.table.currentProcess.ofiles fd).ip with
  | none => exact ⟨g', left, referenced⟩
  | some ip =>
      simp only [Prog.wp_bind, Prog.wp_modifyMem]
      have inUse : 0 < (middle.mem.icache ip).ref := referenced fd ip isOpen
      have shared : Leaves ∅ world g files
          ⟨setOfileOf child fd (middle.mem.table.currentProcess.ofiles fd) middle.mem, middle.disk⟩
          g' := left.setTable _
      apply (idup_takes.frame (idup_leaves shared inUse)).mono
      rintro _ after ⟨⟨g'', left', refs⟩, -, table⟩
      refine ⟨g'', left', fun other owner otherOpen => ?_⟩
      have same : after.mem.table.currentProcess.ofiles =
          middle.mem.table.currentProcess.ofiles := by
        rw [table]
        exact currentProcess_share _ _ _
      rw [same] at otherOpen
      have above := referenced other owner otherOpen
      have more := nonneg_one ip owner
      rw [refs]
      change 0 < middle.mem.refs owner + one ip owner
      omega

theorem inheritAll_leaves {middle : FsWorld} {g' : Ghost} {files : Files} {child : ProcIdx}
    {fds : List (Fin NOFILE)} (left : Leaves ∅ world g files middle g')
    (referenced : Referenced middle.mem) :
    Leads (forEach fds (inheritFd child)) (fun _ after => ∃ g'', Leaves ∅ world g files after g'')
      middle := by
  induction fds generalizing middle g' with
  | nil => exact ⟨g', left⟩
  | cons fd rest ih =>
      unfold forEach Leads
      rw [Prog.wp_bind]
      apply (inheritFd_leaves left referenced).mono
      rintro _ next ⟨g'', left', referenced'⟩
      exact ih left' referenced'

theorem spawnImage_leaves {middle : FsWorld} {g' : Ghost} {files : Files}
    (left : Leaves ∅ world g files middle g')
    (running : middle.mem.table.currentProcess.state = .running)
    (referenced : Referenced middle.mem) (env : SpawnEnv) (image : Nat → Byte) :
    Leads (spawnImage env image) (fun _ after => ∃ g'', Leaves ∅ world g files after g'')
      middle := by
  unfold spawnImage Leads
  rw [Prog.wp_bind]
  change Prog.wp _ _ (if (middle.mem.table.createProcess env.layout 0 env.pml4).1 < 0 then _
    else _) _ { middle with mem := { middle.mem with
      table := (middle.mem.table.createProcess env.layout 0 env.pml4).2 } }
  have created := left.setTable (middle.mem.table.createProcess env.layout 0 env.pml4).2
  split
  · exact ⟨g', created⟩
  · simp only [Prog.wp_bind, Prog.wp_getMem]
    split
    · exact ⟨g', created⟩
    · next child found =>
      simp only [Prog.wp_bind]
      have still : Referenced { middle.mem with
          table := (middle.mem.table.createProcess env.layout 0 env.pml4).2 } := by
        intro fd ip isOpen
        rw [show ProcTable.currentProcess _ = _ from currentProcess_createProcess running
          env.layout 0 env.pml4] at isOpen
        exact referenced fd ip isOpen
      apply (inheritAll_leaves created still).mono
      rintro _ inherited ⟨g'', left'⟩
      split
      · simp only [Prog.wp_bind]
        apply (onTable_leaves left').mono
        intro _ entered left''
        cases env.argv with
        | none => exact ⟨g'', left''⟩
        | some argv =>
            simp only [Prog.wp_bind]
            exact (onTable_leaves left'').mono fun _ _ last => ⟨g'', last⟩
      · simp only [Prog.wp_bind]
        exact (onTable_leaves left').mono fun _ _ last => ⟨g'', last⟩

/-- Descriptors are referenced while no reference is missing. -/
theorem referenced_of_covered {kernel : Kernel} (covered : 0 ≤ spare kernel)
    (alive : kernel.table.currentProcess.state ≠ .terminated) : Referenced kernel := by
  intro fd ip isOpen
  have holders : allHeld kernel.table ≤ kernel.refs := by
    rw [spare, Kernel.outstanding, sub_nonneg] at covered
    exact covered.trans (sub_le_self _ (nonneg_oneOf _))
  have below := ((oneOf_le_held alive fd).trans ((held_le_allHeld _ _).trans holders)) ip
  rw [isOpen, oneOf_some, one_self] at below
  exact Int.lt_of_lt_of_le Int.one_pos below

/-- What a part of a call does, together with the references it takes. -/
theorem leads_with {α : Type} {program : FsM α} {delta : α → Slot → Int} {table : ProcTable}
    {extra : Slot → Int} {middle : FsWorld} {R Q : α → FsWorld → Prop} (owes : Owes program delta)
    (holding : Holding table extra middle) (spec : Leads program R middle)
    (rest : ∀ value after, R value after → Holding table (extra + delta value) after →
      Q value after) : Leads program Q middle := by
  have counts : Leads program (fun value after => Holding table (extra + delta value) after)
      middle := leads_of_owes owes holding fun _ _ => id
  apply (spec.and counts).conseq (fun _ _ => trivial) fun _ _ _ => trivial
  exact fun value after both => rest value after both.1 both.2

theorem loadBuffer_leaves {middle : FsWorld} {g' : Ghost} {files : Files} {locks : Set Slot}
    (left : Leaves locks world g files middle g') (bytes : List Byte) :
    Leads (loadBuffer bytes) (fun _ after => Leaves locks world g files after g') middle where
  stands :=
    { sound := left.stands.sound.sameEntries (sameEntries_refl _) rfl rfl
      idle := left.stands.idle
      unpinned := left.stands.unpinned
      holding := ⟨left.stands.holding.table, left.stands.holding.held, left.stands.holding.used⟩ }
  sb := left.sb
  files := left.files
  counted := left.counted

theorem spawnFromXv6fs_leaves (intact : Intact world g)
    (running : world.mem.table.currentProcess.state = .running) (path : List Byte)
    (env : SpawnEnv) :
    Leads (spawnFromXv6fs path env) (fun _ after => ∃ g' files',
      (g.files world.disk).Sheds files' ∧ Leaves ∅ world g files' after g') world := by
  have loads : ∀ bytes, Takes (loadBuffer bytes) fun _ => 0 := fun bytes world =>
    ⟨rfl, (add_zero _).symm⟩
  unfold spawnFromXv6fs Leads
  rw [Prog.wp_bind]
  apply leads_with namei_owes ⟨rfl, rfl⟩ (namei_leaves intact path)
  rintro found found' ⟨g₁, files₁, loses, left, -, -⟩ holding
  cases found with
  | none => exact ⟨g₁, files₁, loses.sheds, left⟩
  | some ip =>
      simp only [Prog.wp_bind]
      apply leads_with ilock_takes.owes holding (ilock_leaves left (Set.notMem_empty ip) rfl)
      rintro _ locked ⟨-, caches, left₁⟩ holding
      simp only [getInode, Prog.wp_bind, Prog.wp_getMem, Prog.wp_pure]
      split
      · simp only [Prog.wp_bind]
        apply (iunlock_leaves left₁ (Set.notMem_empty ip)).mono
        rintro _ unlocked ⟨-, left₂⟩
        apply (iput_leaves left₂ (Set.notMem_empty ip)).mono
        rintro _ after ⟨g', files', drops, left₃, -⟩
        exact ⟨g', files', loses.sheds.trans drops.sheds, left₃⟩
      · next fits =>
        simp only [Prog.wp_bind]
        have small : (locked.mem.icache ip).din.size.toNat % 2 ^ 32 =
            (locked.mem.icache ip).din.size.toNat :=
          Nat.mod_eq_of_lt (locked.mem.icache ip).din.size.isLt
        have reads : Leads (readi ip 0 ((locked.mem.icache ip).din.size.toNat % 2 ^ 32)) _ locked :=
          readi_leaves left₁ caches
        rw [small] at reads
        apply reads.mono
        rintro ⟨readBytes, bytes⟩ _ rfl
        apply leads_with (loads bytes).owes holding (loadBuffer_leaves left₁ bytes)
        intro image loaded left₂ holding
        apply leads_with iunlock_takes.owes holding (iunlock_leaves left₂ (Set.notMem_empty ip))
        rintro _ unlocked ⟨-, left₃⟩ holding
        apply leads_with iput_takes.owes holding (iput_leaves left₃ (Set.notMem_empty ip))
        rintro _ dropped ⟨g', files', drops, left₄, -⟩ holding
        have sheds := loses.sheds.trans drops.sheds
        split
        · exact ⟨g', files', sheds, left₄⟩
        · split
          · have table := holding.table
            have covered : 0 ≤ spare dropped.mem := by
              rw [holding.extra]
              simpa using intact.covered
            rw [← table] at running
            have referenced : Referenced dropped.mem :=
              referenced_of_covered covered (by rw [running]; decide)
            apply (spawnImage_leaves left₄ running referenced env image).mono
            rintro _ after ⟨g'', left₅⟩
            exact ⟨g'', files', sheds, left₅⟩
          · exact ⟨g', files', sheds, left₄⟩

theorem spawnFromRamfs_leaves {middle : FsWorld} {g' : Ghost} {files : Files}
    (left : Leaves ∅ world g files middle g') (file : Option Nat) (env : SpawnEnv) :
    Leads (spawnFromRamfs file env) (fun _ after => Leaves ∅ world g files after g') middle := by
  unfold spawnFromRamfs Leads
  cases file with
  | none => exact left
  | some entryPoint =>
      dsimp only
      rw [Prog.wp_bind]
      apply (onTable_leaves left).mono
      intro pid created left'
      split
      · exact left'
      · simp only [Prog.wp_bind, Prog.wp_getMem]
        split
        · exact left'
        · split
          · simp only [Prog.wp_bind]
            exact (onTable_leaves left').mono fun _ _ last => last
          · exact left'

theorem sysExecve_leaves (intact : Intact world g)
    (running : world.mem.table.currentProcess.state = .running) (filename : Option CString)
    (env : SpawnEnv) (ramfs : Option Nat) (ramfsEnv : SpawnEnv) :
    Leads (sysExecve filename env ramfs ramfsEnv) (fun _ after => ∃ g' files',
      (g.files world.disk).Sheds files' ∧ Leaves ∅ world g files' after g') world := by
  unfold sysExecve Leads
  cases filename with
  | none => exact ⟨g, _, .refl, intact.leaves⟩
  | some filename =>
      dsimp only
      rw [Prog.wp_bind]
      apply (spawnFromXv6fs_leaves intact running filename.bytes env).mono
      rintro res after ⟨g', files', sheds, left⟩
      split
      · exact (spawnFromRamfs_leaves left ramfs ramfsEnv).mono fun _ _ last =>
          ⟨g', files', sheds, last⟩
      · exact ⟨g', files', sheds, left⟩

end Spawning

/-! ## Every call -/

/-- What a call does to the files. -/
def Effect (world : FsWorld) (files : Files) (files' : Files) : Call → Prop
  | .read .. | .lseek .. | .dup _ | .exit _ | .wait4 => files' = files
  | .close fd => GivesBack world (closedBy world (.close fd)) files files'
  | .dup2 oldfd newfd => GivesBack world (closedBy world (.dup2 oldfd newfd)) files files'
  | .execve .. | .chdir _ => files.Sheds files'
  | .write fd _ buf _ => Writes world files fd buf files'
  | .openFile path flags => Opens files world.mem.cwdInum path flags files'
  | .mkdir path => MakesDirectory files world.mem.cwdInum path files'
  | .unlink path => Unlinks files world.mem.cwdInum path files'

/-- No event writes into a directory through a descriptor. -/
def NoRawDirectory (world : FsWorld) : Event → Prop
  | .call (.write fd _ _ _) => SparesDirectories world fd
  | _ => True

section EveryCall

variable {world : FsWorld} {g : Ghost} (intact : Intact world g)
  (running : world.mem.table.currentProcess.state = .running)

include intact running

theorem syscallHandler_leaves {call : Call} (spares : NoRawDirectory world (.call call)) :
    Leads (syscallHandler call) (fun _ after => ∃ g' files',
      Effect world (g.files world.disk) files' call ∧ Leaves ∅ world g files' after g')
      world := by
  have alive : world.mem.table.currentProcess.state ≠ .terminated := by
    rw [running]
    decide
  have same : ∀ {α : Type} {program : FsM α}, Leads program (fun _ after =>
      ∃ g', Leaves ∅ world g (g.files world.disk) after g') world →
      Leads program (fun _ after => ∃ g' files', files' = g.files world.disk ∧
        Leaves ∅ world g files' after g') world := by
    intro α program leaves
    apply leaves.mono
    rintro _ after ⟨g', left⟩
    exact ⟨g', _, rfl, left⟩
  cases call with
  | read fd bufNull count key =>
      exact (Prog.wp_bind _ _).mpr (same (sysRead_leaves intact fd bufNull count key))
  | write fd bufNull buf count => exact sysWrite_leaves intact fd bufNull buf count spares
  | openFile path flags => exact sysOpen_leaves intact path flags
  | close fd => exact sysClose_leaves intact fd
  | lseek fd offset whence => exact same (sysLseek_leaves intact fd offset whence)
  | dup oldfd => exact same (sysDup_leaves intact alive oldfd)
  | dup2 oldfd newfd => exact sysDup2_leaves intact alive oldfd newfd
  | execve filename env ramfs ramfsEnv =>
      exact sysExecve_leaves intact running filename env ramfs ramfsEnv
  | exit exitCode =>
      exact (Prog.wp_bind _ _).mpr ((onTable_leaves intact.leaves).mono fun _ _ left =>
        ⟨g, _, rfl, left⟩)
  | wait4 =>
      refine (Prog.wp_bind _ _).mpr ((onTable_leaves intact.leaves).mono ?_)
      intro reaped after left
      cases reaped <;> exact ⟨g, _, rfl, left⟩
  | chdir path => exact sysChdir_leaves intact path
  | mkdir path => exact sysMkdir_leaves intact path
  | unlink path => exact sysUnlink_leaves intact path

/-- Every call keeps the invariant. -/
theorem Intact.call {call : Call} (spares : NoRawDirectory world (.call call)) :
    Leads (syscallHandler call) (fun _ after => ∃ g', Intact after g' ∧ g'.sb = g.sb ∧
      Effect world (g.files world.disk) (g'.files after.disk) call) world := by
  apply ((syscallHandler_leaves intact running spares).and
    (syscallHandler_covers running)).conseq (fun _ _ => trivial) fun _ _ _ => trivial
  rintro r after ⟨⟨g', files', effect, left⟩, covers⟩
  refine ⟨g', intact.next left (intact.covered.trans covers), left.sb, ?_⟩
  rw [left.files]
  exact effect

end EveryCall

/-- A switch between processes changes no file. -/
theorem Intact.timer {world next : FsWorld} {g : Ghost} (intact : Intact world g)
    {currentEsp : Nat} (performed : perform (.timer currentEsp) world = some next) :
    Intact next g ∧ next.disk = world.disk := by
  simp only [perform] at performed
  split at performed
  · next resumed table result =>
    cases performed
    have same := allHeld_schedule world.mem.table currentEsp
    rw [result] at same
    have holding := holding_setTable ⟨rfl, rfl⟩ same
    refine ⟨intact.next (intact.leaves.setTable table) ?_, rfl⟩
    rw [holding.extra]
    exact intact.covered
  · cases performed

/-- Every event keeps the invariant. -/
theorem Intact.perform {world next : FsWorld} {g : Ghost} (intact : Intact world g) {event : Event}
    (spares : NoRawDirectory world event) (performed : Sys.perform event world = some next) :
    ∃ g', Intact next g' ∧ g'.sb = g.sb := by
  cases event with
  | timer currentEsp => exact ⟨g, (intact.timer performed).1, rfl⟩
  | call call =>
      unfold Sys.perform at performed
      dsimp only at performed
      split at performed
      · next running =>
        obtain ⟨r, g', intact', sb, -⟩ := afterRun_of_wp (intact.call running spares) performed
        exact ⟨g', intact', sb⟩
      · cases performed

/-- Along every run in which nobody writes into a directory through a descriptor, the file
system stays sound. -/
theorem Intact.reaches {start world : FsWorld} {g : Ghost} (intact : Intact start g)
    (reached : Reaches NoRawDirectory start world) : ∃ g', Intact world g' ∧ g'.sb = g.sb := by
  refine reached.induction (fun world => ∃ g', Intact world g' ∧ g'.sb = g.sb) ⟨g, intact, rfl⟩ ?_
  rintro before after event ⟨g', intact', sb⟩ spares performed
  obtain ⟨g'', intact'', sb'⟩ := intact'.perform spares performed
  exact ⟨g'', intact'', sb'.trans sb⟩

/-! ## After boot -/

/-- The kernel has mounted the small disk and lets the first process go. -/
def bootedWorld : FsWorld where
  disk := smallDisk
  mem :=
    { sb := smallSb
      xv6fsMounted := true
      icacheLocked := false
      icache := fun _ => Inode.vacant
      cwd := none
      table := bootTable ⟨0x100000, 0x200000⟩ (fun _ => 0) 0x400000 1
      elfLoadBuffer := fun _ => 0 }

theorem booted_bootedWorld : Booted bootedWorld.mem where
  refs _ := rfl
  cwd := rfl
  table := ⟨⟨0x100000, 0x200000⟩, fun _ => 0, 0x400000, 1, by decide, rfl⟩

/-- Whatever disk of small files it has mounted, it is in order. -/
theorem intact_of_direct {disk : Disk} {owner : Nat → Option (Nat × Nat)}
    (direct : Direct smallSb disk owner) :
    Intact { bootedWorld with disk } (directGhost smallSb disk owner) where
  sound := direct.sound rfl rfl (cacheSound_of_single 0
    (show 0 < smallSb.ninodes by decide) (fun valid => absurd valid Bool.false_ne_true)
    (le_refl (0 : Int)) fun _ _ => rfl)
  idle := directGhost_idle
  unpinned := rfl
  holding := ⟨rfl, fun _ => ⟨nofun, nofun⟩, nofun⟩
  root := (by decide : ROOTINO < smallSb.ninodes)
  cwd := le_refl (0 : Slot → Int)
  counted := rfl
  covered := le_of_eq ((refsMatchHolders_iff_spare _).mp booted_bootedWorld.refsMatchHolders).symm

theorem bootedWorld_intact : Intact bootedWorld (directGhost smallSb smallDisk smallOwner) :=
  intact_of_direct smallDisk_direct

/-- `/f`. -/
def smallPath : CString := ⟨[slash, 102], by decide⟩

/-- The first process opens a file. -/
def openingCall (flags : BitVec 32) : Call := .openFile (some smallPath) flags

/-- The world in which the first process runs. -/
def firstWorld : FsWorld :=
  { bootedWorld with mem :=
    { bootedWorld.mem with table := (bootedWorld.mem.table.schedule 0).2 } }

theorem perform_first : perform (.timer 0) bootedWorld = some firstWorld := rfl

/-- The world after a call. -/
def afterCall (call : Call) (world : FsWorld) : FsWorld := ((syscallHandler call).run world).world

theorem run_of_outcome {call : Call} {world : FsWorld} {r : Int}
    (outcome : ((syscallHandler call).run world).outcome = .ret r) :
    (syscallHandler call).run world =
      ⟨.ret r, afterCall call world, ((syscallHandler call).run world).writes⟩ := by
  unfold afterCall
  generalize (syscallHandler call).run world = result at outcome ⊢
  cases result
  cases outcome
  rfl

/-- A call that returns is performed. -/
theorem perform_afterCall {call : Call} {world : FsWorld} {r : Int}
    (running : world.mem.table.currentProcess.state = .running)
    (outcome : ((syscallHandler call).run world).outcome = .ret r) :
    perform (.call call) world = some (afterCall call world) := by
  unfold perform afterRun
  dsimp only
  rw [if_pos running, run_of_outcome outcome]

/-- The world after a timer interrupt. -/
def afterTimer (currentEsp : Nat) (world : FsWorld) : FsWorld :=
  { world with mem := { world.mem with table := (world.mem.table.schedule currentEsp).2 } }

theorem perform_afterTimer {currentEsp : Nat} {world : FsWorld}
    (goesOn : (world.mem.table.schedule currentEsp).1 ≠ none) :
    perform (.timer currentEsp) world = some (afterTimer currentEsp world) := by
  unfold perform afterTimer
  dsimp only
  cases result : world.mem.table.schedule currentEsp with
  | mk resumed table =>
      cases resumed with
      | none => exact absurd (congrArg Prod.fst result) goesOn
      | some _ => rfl

end Notux.Sys
