import Notux.Sys.Forest
import Notux.Mkfs.Names
import Notux.Sys.Directories

/-!
# Names over runs

Whatever processes do, as long as none of them writes into a directory or resets one, the files
stay a forest of names: every call is a run of the abstract forest.
-/

namespace Notux.Sys

open Notux.Store Notux.Proc Notux.Fs

section Calls

variable {world : FsWorld} {g : Ghost} {extra : Nat → Nat}

theorem filesOn_bounded (intact : Intact world g) : (filesOn world).Bounded g.sb.ninodes := by
  intro i present
  obtain ⟨node, found⟩ := Option.ne_none_iff_exists'.mp present
  rw [← intact.files_eq] at found
  exact (intact.idle.owns_of_files found).1.inRange

theorem write_nlink (node : Node) (src : Nat → Byte) (off n : Nat) :
    (node.write src off n).2.nlink = node.nlink := by
  unfold Node.write
  repeat' split
  all_goals rfl

/-- A regular file may be emptied. -/
theorem advance_cutBy {files : Files} (forest : files.Forest extra) {flags : BitVec 32}
    {found : Option Nat} (noDir : hasFlag flags O_TRUNC = true → ∀ n ∈ found, ∀ node,
      files n = some node → node.type ≠ T_DIR) :
    Files.Advance extra files (cutBy flags found files) := by
  unfold cutBy
  cases found with
  | none => exact forest.refl
  | some n =>
      dsimp only
      split
      · next resets =>
        cases isNode : files n with
        | none =>
            rw [Option.map_none, ← isNode, Function.update_eq_self]
            exact forest.refl
        | some node => exact forest.update isNode (noDir resets n rfl node isNode) rfl rfl
      · exact forest.refl

/-- The links of a file stay when it is emptied. -/
theorem cutBy_nlink {files : Files} {flags : BitVec 32} {found : Option Nat} {i : Nat} {node : Node}
    (isNode : files i = some node) : ∃ node', cutBy flags found files i = some node' ∧
      node'.nlink = node.nlink := by
  unfold cutBy
  cases found with
  | none => exact ⟨node, isNode, rfl⟩
  | some n =>
      dsimp only
      split
      · by_cases same : i = n
        · subst same
          rw [Function.update_self, isNode]
          exact ⟨_, rfl, rfl⟩
        · rw [Function.update_of_ne same]
          exact ⟨node, isNode, rfl⟩
      · exact ⟨node, isNode, rfl⟩

/-- Who has a link is still there when files without links are gone. -/
theorem boundedLinks_of_sheds {limit : Nat} {files files' : Files} (sheds : files.Sheds files')
    (bounded : files'.Bounded limit) : files.BoundedLinks limit := by
  intro i node found linked
  rcases sheds i with same | ⟨-, other, isOther, unlinked⟩
  · apply bounded i
    rw [same, found]
    exact Option.some_ne_none _
  · rw [found] at isOther
    cases isOther
    exact absurd unlinked linked

section Advance

variable (intact : Intact world g) (roomy : Files.Roomy g.sb.ninodes extra)
  (forest : (filesOn world).Forest extra)

include intact roomy forest

/-- Opening a path advances the forest. -/
theorem open_advances {path : Option CString} {flags : BitVec 32} {files' : Files}
    (bounded' : files'.Bounded g.sb.ninodes) (spares : SparesReset world path flags)
    (opens : Opens (filesOn world) world.mem.cwdInum path flags files') :
    Files.Advance extra (filesOn world) files' := by
  cases path with
  | none =>
      cases opens
      exact forest.refl
  | some place =>
      obtain ⟨found, middle, finds, sheds⟩ := opens.sheds
      have linked := boundedLinks_of_sheds sheds bounded'
      unfold Finds at finds
      by_cases creates : hasFlag flags O_CREAT = true
      · rw [if_pos creates] at finds
        have noDir := noDir_of_creates finds
        have linked' : middle.BoundedLinks g.sb.ninodes := by
          intro i node isNode hasLink
          obtain ⟨node', isNode', same⟩ := cutBy_nlink isNode
          exact linked i node' isNode' (same ▸ hasLink)
        have made := forest.creates (filesOn_bounded intact) linked' roomy finds
        have cut : Files.Advance extra middle (cutBy flags found middle) :=
          advance_cutBy made.forest fun _ => noDir
        exact (made.trans cut).trans (cut.forest.sheds sheds)
      · rw [if_neg creates] at finds
        obtain ⟨loses, rfl⟩ := finds
        have lost := forest.sheds loses.sheds
        have cut : Files.Advance extra middle (cutBy flags
            (((filesOn world).resolve world.mem.cwdInum place.bytes false).map Prod.fst) middle) := by
          apply advance_cutBy lost.forest
          intro resets n isFound node isNode
          obtain ⟨result, resolved, rfl⟩ := Option.map_eq_some_iff.mp isFound
          exact spares resets (by simpa using creates) place rfl result resolved node
            (loses.within isNode)
        exact (lost.trans cut).trans (cut.forest.sheds sheds)

omit roomy in
/-- Writing to a regular file leaves the forest alone. -/
theorem write_advances (running : world.mem.table.currentProcess.state = .running) {fd : Int}
    {buf : Nat → Byte} {files' : Files} (spares : SparesDirectories world fd)
    (writes : Writes world (filesOn world) fd buf files') :
    Files.Advance extra (filesOn world) files' := by
  rcases writes with rfl | ⟨fd', ip, node, off, count, isFd, isOpen, may, found, rfl⟩
  · exact forest.refl
  · have alive : world.mem.table.currentProcess.state ≠ .terminated := by
      rw [running]
      decide
    have used := intact.inUse alive isOpen
    have type : (lockedDin world ip).type = node.type := by
      rw [← intact.files_eq] at found
      rw [lockedDin_view intact.sound intact.idle used]
      exact congrArg Node.type (intact.idle.owns_of_files found).2
    have notDir : node.type ≠ T_DIR := type ▸ spares fd' ip isFd isOpen may
    exact forest.update found notDir (write_type node buf off count) (write_nlink node buf off count)

/-- Every call advances the forest. -/
theorem call_advances (running : world.mem.table.currentProcess.state = .running) {call : Call}
    (spares : SparesContent world (.call call)) {files' : Files}
    (bounded' : files'.Bounded g.sb.ninodes)
    (effect : Effect world (filesOn world) files' call) :
    Files.Advance extra (filesOn world) files' := by
  have same : files' = filesOn world → Files.Advance extra (filesOn world) files' := by
    rintro rfl
    exact forest.refl
  cases call with
  | read fd bufNull count key => exact same effect
  | write fd bufNull buf count => exact write_advances intact forest running spares effect
  | openFile path flags => exact open_advances intact roomy forest bounded' spares effect
  | close fd => exact forest.sheds effect.sheds
  | lseek fd offset whence => exact same effect
  | dup oldfd => exact same effect
  | dup2 oldfd newfd => exact forest.sheds effect.sheds
  | execve filename env ramfs ramfsEnv => exact forest.sheds effect
  | exit exitCode => exact same effect
  | wait4 => exact same effect
  | chdir path => exact forest.sheds effect
  | mkdir path =>
      cases path with
      | none => exact same effect
      | some path =>
          obtain ⟨found, middle, creates, sheds⟩ := effect
          have linked := boundedLinks_of_sheds sheds bounded'
          have made := forest.creates (filesOn_bounded intact) linked roomy creates
          exact made.trans (made.forest.sheds sheds)
  | unlink path =>
      cases path with
      | none => exact same effect
      | some path =>
          obtain ⟨r, removes⟩ := effect
          exact forest.removes removes

/-- Every event advances the forest. -/
theorem perform_advances {next : FsWorld} {event : Event} (spares : SparesContent world event)
    (performed : perform event world = some next) : ∃ g', Intact next g' ∧ g'.sb = g.sb ∧
      Files.Advance extra (filesOn world) (filesOn next) := by
  cases event with
  | timer currentEsp =>
      obtain ⟨intact', disk⟩ := intact.timer performed
      refine ⟨g, intact', rfl, ?_⟩
      rw [← intact'.files_eq, disk, intact.files_eq]
      exact forest.refl
  | call call =>
      unfold perform at performed
      dsimp only at performed
      split at performed
      · next running =>
        obtain ⟨r, g', intact', sb, effect⟩ :=
          afterRun_of_wp (intact.call running spares.noRaw) performed
        rw [intact.files_eq, intact'.files_eq] at effect
        refine ⟨g', intact', sb, ?_⟩
        apply call_advances intact roomy forest running spares _ effect
        rw [← sb]
        exact filesOn_bounded intact'
      · cases performed

end Advance

/-- In every run the files stay a forest, and the run is a run of the abstract forest. -/
theorem reaches_advances {start : FsWorld} (intact : Intact start g)
    (roomy : Files.Roomy g.sb.ninodes extra) (forest : (filesOn start).Forest extra)
    (reached : Reaches SparesContent start world) : (∃ g', Intact world g' ∧ g'.sb = g.sb) ∧
      Files.Advance extra (filesOn start) (filesOn world) := by
  refine reached.induction (fun world => (∃ g', Intact world g' ∧ g'.sb = g.sb) ∧
    Files.Advance extra (filesOn start) (filesOn world)) ⟨⟨g, intact, rfl⟩, forest.refl⟩ ?_
  rintro before after event ⟨⟨g', intact', sb⟩, advance⟩ spares performed
  obtain ⟨g'', intact'', sb', step⟩ :=
    perform_advances intact' (sb.symm ▸ roomy) advance.forest spares performed
  exact ⟨⟨g'', intact'', sb'.trans sb⟩, advance.trans step⟩

end Calls

/-! ## Creating and removing paths -/

/-- What creating a path leaves: the path leads to the inode that is returned, and nothing else
leads elsewhere; or nothing has changed. -/
def CreateKeeps (world : FsWorld) (path : CString) (result : Option Slot) (after : FsWorld) : Prop :=
  match result with
  | none => filesOn after = filesOn world
  | some ip => ∃ d name, (filesOn world).resolve world.mem.cwdInum path.bytes true = some (d, name) ∧
      (filesOn world).Binds (filesOn after) d name (after.mem.icache ip).inum ∧
      (filesOn after).resolve after.mem.cwdInum path.bytes false =
        some ((after.mem.icache ip).inum, [])

/-- What removing a path leaves: the path leads nowhere, and nothing else leads elsewhere; or
nothing has changed. -/
def UnlinkKeeps (world : FsWorld) (path : CString) (result : Int) (after : FsWorld) : Prop :=
  if result = 0 then
    ∃ d name n, (filesOn world).resolve world.mem.cwdInum path.bytes true = some (d, name) ∧
      (filesOn world).Unbinds (filesOn after) d name n ∧
      (filesOn after).resolve after.mem.cwdInum path.bytes false = none
  else filesOn after = filesOn world

section Paths

variable {world : FsWorld} {g : Ghost} {extra : Nat → Nat} (intact : Intact world g)
  (roomy : Files.Roomy g.sb.ninodes extra) (forest : (filesOn world).Forest extra)
  {path : CString}
  (attached : (filesOn world).Attached (Files.startOf world.mem.cwdInum path.bytes))

include intact forest attached

include roomy in
theorem create_keeps_names (type major minor : BitVec 16) :
    (xv6fsCreate path.bytes type major minor).wp (fun _ => True) (fun _ _ => True)
      (CreateKeeps world path) world := by
  apply (xv6fsCreate_spec (fun _ _ _ => trivial) permits_all intact.toReady).mono
  rintro result after ⟨g', files', creates, -, step, -, cwdInum⟩
  rw [intact.files_eq] at creates
  have filesAfter : filesOn after = files' := by
    rw [← files_eq_filesOn step.sound step.idle]
    exact step.files
  have bounded' : files'.BoundedLinks g.sb.ninodes := by
    intro i node found _
    rw [← step.files] at found
    have owns := (step.idle.owns_of_files found).1
    exact step.sb ▸ owns.inRange
  unfold CreateKeeps
  rw [filesAfter, cwdInum]
  generalize isResult : after.mem.inumOf result = inum at creates
  cases creates with
  | noParent missing loses =>
      cases result with
      | none => exact forest.loses_eq attached loses
      | some ip => cases isResult
  | @inParent d name middle _ _ parent loses creates =>
      have same := forest.loses_eq attached loses
      subst same
      have attachedDir := forest.attached_resolve attached parent
      cases result with
      | none =>
          cases isResult
          exact forest.createsIn_none attachedDir creates
      | some ip =>
          cases isResult
          have binds := forest.createsIn_some attachedDir (filesOn_bounded intact) bounded' roomy
            (Files.resolve_fits parent) creates
          exact ⟨d, name, parent, binds, Files.walk_bound binds (Nat.lt_succ_self _) parent⟩

theorem unlink_keeps_names :
    (xv6fsUnlink path.bytes).wp (fun _ => True) (fun _ _ => True)
      (UnlinkKeeps world path) world := by
  apply (xv6fsUnlink_spec (fun _ _ _ => trivial) permits_all intact.toReady
    (Or.inr fun _ => trivial)).mono
  rintro r after ⟨g', files', removes, step, -, cwdInum⟩
  rw [intact.files_eq] at removes
  have filesAfter : filesOn after = files' := by
    rw [← files_eq_filesOn step.sound step.idle]
    exact step.files
  unfold UnlinkKeeps
  rw [filesAfter, cwdInum]
  cases removes with
  | noParent missing loses =>
      rw [if_neg (by decide)]
      exact forest.loses_eq attached loses
  | @inParent d name middle _ _ parent loses removes =>
      have same := forest.loses_eq attached loses
      subst same
      have attachedDir := forest.attached_resolve attached parent
      split
      · next succeeds =>
        subst succeeds
        obtain ⟨n, unbinds⟩ :=
          forest.removesIn_succeeds attachedDir (Files.resolve_fits parent) removes
        exact ⟨d, name, n, parent, unbinds, Files.walk_unbound unbinds parent⟩
      · next fails =>
        apply forest.removesIn_fails attachedDir fails _ removes
        intro node found
        obtain ⟨node', found', isDir⟩ := Files.resolve_parent parent
        rw [found] at found'
        cases found'
        exact isDir

end Paths

/-! ## From an image on -/

/-- A mounted image is in order. -/
theorem intact_of_mounts {binary : List Byte} {world : FsWorld} (mounts : Mkfs.Mounts binary world)
    (unlocked : Fs.Holding ∅ world.mem) (covered : 0 ≤ spare world.mem) :
    ∃ g, Intact world g ∧ g.sb = Mkfs.sb := by
  obtain ⟨g, sound, idle, unpinned, held, -, sb, -⟩ := mounts.sound
  have refs : world.mem.refs = 0 := funext mounts.mounted.unused
  refine ⟨g, ⟨⟨⟨sound, idle, unpinned, unlocked⟩, ?_, ?_⟩, ?_, covered⟩, sb⟩
  · rw [sb]
    decide
  · rw [mounts.cwd, held]
    exact le_refl 0
  · rw [held, refs]

theorem files_of_mounts {binary : List Byte} {world : FsWorld} (mounts : Mkfs.Mounts binary world) :
    filesOn world = Mkfs.table (Mkfs.imageNodes binary) := by
  obtain ⟨g, sound, idle, -, -, -, -, files⟩ := mounts.sound
  rw [← files_eq_filesOn sound idle]
  exact files

/-- The kernel has mounted an image of `mkfs` and lets the first process go. -/
structure Starts (binary : List Byte) (start : FsWorld) : Prop where
  mounts : Mkfs.Mounts binary start
  booted : Booted start.mem
  unlocked : Fs.Holding ∅ start.mem

/-- The memory of a kernel that has mounted an image. -/
def imageKernel : Kernel :=
  { Mkfs.freshKernel with table := bootTable ⟨0x100000, 0x200000⟩ (fun _ => 0) 0x400000 1 }

/-- It has mounted any image that `mkfs` makes. -/
theorem Starts.of_made {chunks : List (List Byte)} {final : Mkfs.Image}
    (made : Mkfs.mkfs (some chunks) = some final) :
    Starts chunks.flatten ⟨imageKernel, final.disk⟩ where
  mounts := ⟨⟨chunks, final, rfl, made, rfl⟩, ⟨rfl, rfl, fun _ => rfl⟩, rfl⟩
  booted := ⟨fun _ => rfl, rfl, ⟨0x100000, 0x200000⟩, fun _ => 0, 0x400000, 1, by decide, rfl⟩
  unlocked := ⟨rfl, fun _ => ⟨nofun, nofun⟩, nofun⟩

section Starts

variable {binary : List Byte} {start world : FsWorld} (starts : Starts binary start)

include starts

theorem Starts.intact : ∃ g, Intact start g ∧ g.sb = Mkfs.sb :=
  intact_of_mounts starts.mounts starts.unlocked
    (le_of_eq ((refsMatchHolders_iff_spare _).mp starts.booted.refsMatchHolders).symm)

theorem Starts.files : filesOn start = Mkfs.table (Mkfs.imageNodes binary) :=
  files_of_mounts starts.mounts

omit starts in
theorem roomy_image {g : Ghost} (sb : g.sb = Mkfs.sb) :
    Files.Roomy g.sb.ninodes Mkfs.imageExtra where
  limit := by
    rw [sb]
    decide
  extra := Mkfs.imageExtra_le

theorem Starts.forest : (filesOn start).Forest Mkfs.imageExtra := by
  rw [starts.files]
  exact Mkfs.forest_image

/-- Along every run from an image the files are a forest. -/
theorem Starts.advance (reached : Reaches SparesContent start world) :
    Files.Advance Mkfs.imageExtra (filesOn start) (filesOn world) := by
  obtain ⟨g, intact, sb⟩ := starts.intact
  exact (reaches_advances intact (roomy_image sb) starts.forest reached).2

end Starts

/-- `/z`. -/
def freshPath : CString := ⟨[slash, 122], by decide⟩

/-- `/bin`. -/
def binPath : CString := ⟨[slash, 98, 105, 110], by decide⟩

/-- `/etc` and `/root`. -/
def etcPath : CString := ⟨[slash, 101, 116, 99], by decide⟩
def homePath : CString := ⟨[slash, 114, 111, 111, 116], by decide⟩

theorem attached_absolute {files : Files} {cwd : Nat} {path : List Byte}
    (absolute : path.head? = some slash) : files.Attached (Files.startOf cwd path) := by
  unfold Files.startOf
  rw [if_pos absolute]
  exact .refl

/-! ## A small tree -/

/-- The small disk, with a second link for the root.  Its file is called `etc`, its directory
`root`. -/
def treeDisk : Disk := fun blockno =>
  if blockno = 2 then setDinode (smallDisk 2) 1 (oneBlock T_DIR 2 64 64)
  else if blockno = 64 then
    entryBlock [(1, [46]), (1, [46, 46]), (2, [101, 116, 99]), (3, [114, 111, 111, 116])]
  else smallDisk blockno

theorem treeDisk_direct : Direct smallSb treeDisk smallOwner :=
  direct_of (directBlocks_of smallOwner_lt (by decide +kernel) (by decide +kernel)
    (by decide +kernel)) (by decide +kernel) (by decide +kernel)

/-- The kernel has mounted that disk and lets the first process go. -/
def treeWorld : FsWorld := { bootedWorld with disk := treeDisk }

theorem treeWorld_intact : Intact treeWorld (directGhost smallSb treeDisk smallOwner) :=
  intact_of_direct treeDisk_direct

/-- The file and the directory are in the root. -/
def treeNames : List (Nat × List Byte × Nat) :=
  [(1, [101, 116, 99], 2), (1, [114, 111, 111, 116], 3)]

/-- Every entry of directory `d` but the dots is in the list. -/
def InTree (d : Nat) (node : Node) : Prop :=
  ∀ off ∈ node.entries, IsDots (node.nameAt off) ∨
    (d, node.nameAt off, node.inumAt off) ∈ treeNames

instance (d : Nat) (node : Node) : Decidable (InTree d node) :=
  inferInstanceAs (Decidable (∀ off ∈ node.entries, IsDots (node.nameAt off) ∨
    (d, node.nameAt off, node.inumAt off) ∈ treeNames))

/-- The root has a link more than its names and directories account for. -/
def treeExtra (i : Nat) : Nat := if i = 1 then 1 else 0

theorem treeWorld_inRange {i : Nat} {node : Node} (found : filesOn treeWorld i = some node) :
    i < smallSb.ninodes :=
  filesOn_bounded treeWorld_intact i (found ▸ Option.some_ne_none node)

/-- Every directory of the tree starts with its dots, has no name twice and binds what is in the
list. -/
theorem treeWorld_dirs {d : Nat} {node : Node} (found : filesOn treeWorld d = some node)
    (isDir : node.type = T_DIR) : d ∈ [1, 3] ∧ node.Listed d ∧ node.inumAt DIRENT_SIZE = 1 ∧
      InTree d node := by
  have inRange := treeWorld_inRange found
  have kinds : ∀ d < smallSb.ninodes, ∀ node ∈ filesOn treeWorld d, node.type = T_DIR →
      d ∈ [1, 3] ∧ DIRENT_SIZE ∣ node.size.toNat := by
    decide +kernel
  have dots : ∀ d < smallSb.ninodes, ∀ node ∈ filesOn treeWorld d, node.type = T_DIR →
      0 ∈ node.entries ∧ node.inumAt 0 = d ∧ node.nameAt 0 = [dot] := by
    decide +kernel
  have above : ∀ d < smallSb.ninodes, ∀ node ∈ filesOn treeWorld d, node.type = T_DIR →
      DIRENT_SIZE ∈ node.entries ∧ node.inumAt DIRENT_SIZE = 1 ∧
        node.nameAt DIRENT_SIZE = [dot, dot] := by
    decide +kernel
  have used : ∀ d < smallSb.ninodes, ∀ node ∈ filesOn treeWorld d, node.type = T_DIR →
      ∀ off ∈ node.entries, (node.dirent off).inum ≠ 0 := by
    decide +kernel
  have distinct : ∀ d < smallSb.ninodes, ∀ node ∈ filesOn treeWorld d, node.type = T_DIR →
      ∀ off ∈ node.entries, ∀ other ∈ node.entries, node.nameAt off = node.nameAt other →
        off = other := by
    decide +kernel
  have bound : ∀ d < smallSb.ninodes, ∀ node ∈ filesOn treeWorld d, node.type = T_DIR →
      InTree d node := by
    decide +kernel
  obtain ⟨known, whole⟩ := kinds d inRange node found isDir
  obtain ⟨first, itself, dot⟩ := dots d inRange node found isDir
  obtain ⟨second, up, dotdot⟩ := above d inRange node found isDir
  refine ⟨known, ?_, up, bound d inRange node found isDir⟩
  constructor
  · exact whole
  · exact ⟨mem_entries.mp first, used d inRange node found isDir 0 first⟩
  · exact itself
  · exact dot
  · exact ⟨mem_entries.mp second, used d inRange node found isDir DIRENT_SIZE second⟩
  · exact dotdot
  · exact fun off other isUsed isUsed' => distinct d inRange node found isDir off
      (mem_entries.mpr isUsed.1) other (mem_entries.mpr isUsed'.1)

theorem treeWorld_listing : (filesOn treeWorld).Listing [1, 3] treeNames where
  child := by
    intro d name n
    constructor
    · intro bound
      obtain ⟨node, found, isDir, binds⟩ := Files.child_iff.mp bound
      unfold Node.bound Node.answer at binds
      split at binds
      · next asked =>
        obtain ⟨off, lookup, isNumber⟩ := Option.map_eq_some_iff.mp binds
        obtain ⟨used, named⟩ := Node.lookup_used lookup
        rw [List.take_of_length_le asked.1] at named
        subst named isNumber
        exact ((treeWorld_dirs found isDir).2.2.2 off (mem_entries.mpr used.1)).resolve_left asked.2
      · cases binds
    · have there : ∀ place ∈ treeNames,
          (filesOn treeWorld).naming.child place.1 place.2.1 = some place.2.2 := by
        decide +kernel
      exact there (d, name, n)
  isDir := by
    intro i
    rw [Files.dirOf_ne_none_iff]
    constructor
    · rintro ⟨node, found, isDir⟩
      exact (treeWorld_dirs found isDir).1
    · have there : ∀ i ∈ [1, 3], (filesOn treeWorld i).map (·.type) = some T_DIR := by
        decide +kernel
      exact fun known => Option.map_eq_some_iff.mp (there i known)

theorem treeWorld_forest : (filesOn treeWorld).Forest treeExtra where
  noZero := rfl
  listed d node found isDir := (treeWorld_dirs found isDir).2.1
  formed := by
    have root : ∃ node, filesOn treeWorld 1 = some node ∧ node.type = T_DIR :=
      Option.map_eq_some_iff.mp (by decide +kernel :
        (filesOn treeWorld 1).map (·.type) = some T_DIR)
    have isThere : ∀ place ∈ treeNames, (filesOn treeWorld place.2.2).isSome = true := by
      decide +kernel
    have below : ∀ place ∈ treeNames, place.2.2 ≠ ROOTINO ∧ place.1 = 1 ∧
        place.1 < place.2.2 := by
      decide
    refine @Files.Listing.wellFormed _ _ _ treeWorld_listing treeExtra smallSb.ninodes ?finite ?top
      ?places (by decide) ?up (by decide +kernel) (by decide +kernel) ?standing (by decide)
    case finite =>
      intro i present
      exact (filesOn_bounded treeWorld_intact i present).le
    case top =>
      obtain ⟨node, found, isDir⟩ := root
      exact ⟨_, Naming.dirOf_eq_some (Files.naming_dir found isDir),
        (treeWorld_dirs found isDir).2.2.1⟩
    case places =>
      intro place listed
      obtain ⟨node, found⟩ := Option.isSome_iff_exists.mp (isThere place listed)
      rw [Files.naming_eq found]
      exact ⟨Option.some_ne_none _, (below place listed).1, (below place listed).2.2⟩
    case up =>
      intro place listed dir isDir
      obtain ⟨node, found, type⟩ := Files.dirOf_ne_none_iff.mp (isDir ▸ Option.some_ne_none dir)
      rw [Naming.dirOf_eq_some (Files.naming_dir found type)] at isDir
      cases isDir
      exact (treeWorld_dirs found type).2.2.1.trans (below place listed).2.1.symm
    case standing =>
      intro i more
      unfold treeExtra at more
      split at more
      · next root => simp [root]
      · exact absurd rfl more

theorem treeWorld_roomy : Files.Roomy smallSb.ninodes treeExtra where
  limit := by decide
  extra := by
    intro i
    unfold treeExtra
    split <;> decide

/-- The first process runs. -/
def treeFirst : FsWorld := afterTimer 0 treeWorld

/-- It has created `/g` and opened it. -/
def grownWorld : FsWorld := afterCall creatingCall treeFirst

theorem grownWorld_reached : Reaches SparesContent treeWorld grownWorld := by
  have outcome : ((syscallHandler creatingCall).run treeFirst).outcome = .ret 3 := by
    decide +kernel
  have spares : SparesContent treeFirst (.call creatingCall) := by
    intro resets
    exact absurd resets (by decide)
  exact reaches_afterCall (perform_afterTimer (by decide)) rfl trivial spares outcome

/-! ## What runs keep -/

end Notux.Sys
