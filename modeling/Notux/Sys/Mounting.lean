import Notux.Sys.Reading
import Notux.Sys.Refusal

/-!
# Mounting a disk

What the kernel does with a disk before the first process goes.  It leaves a disk without the magic
number alone.  On any other disk it sees to the directories that it needs, which takes nothing away
and does nothing where they are there, and reads `/README`.
-/

namespace Notux.Sys

open Notux.Store Notux.Proc Notux.Fs

/-- `/README`. -/
def readmePath : CString := ⟨[slash, 82, 69, 65, 68, 77, 69], by decide⟩

/-- `create_default_dirs`, for one path. -/
def createDefaultDir (path : CString) : FsM Unit := do
  match ← xv6fsCreate path.bytes T_DIR 0 0 with
  | none => return ()
  | some ip =>
      iunlock ip
      iput ip

/-- `create_default_dirs`. -/
def createDefaultDirs : FsM Unit := do
  createDefaultDir etcPath
  createDefaultDir binPath
  createDefaultDir homePath

/-- What `kernel` does with the disk: what it reads from `/README`, if the disk is mounted. -/
def mountDisk : FsM (Option (Int × List Byte)) := do
  let mounted ← xv6fsIinit
  if mounted < 0 then return none
  else
    createDefaultDirs
    let readme ← xv6fsBridgeReadFile readmePath.bytes 511
    return some readme

/-! ## Paths with one element -/

/-- The paths of `create_default_dirs`. -/
def defaultDirs : List CString := [etcPath, binPath, homePath]

theorem createDefaultDirs_eq : createDefaultDirs = forEach defaultDirs createDefaultDir := by
  simp only [createDefaultDirs, defaultDirs, forEach, bind_pure_unit]

theorem root_isDir {files : Files} {extra : Nat → Nat} (forest : files.Forest extra) :
    ∃ node, files ROOTINO = some node ∧ node.type = T_DIR :=
  Files.dirOf_ne_none_iff.mp (forest.formed.standing ROOTINO forest.formed.anchored)

/-- The path has one element, in the root. -/
structure InRoot (path : CString) (name : List Byte) : Prop where
  absolute : path.bytes.head? = some slash
  element : skipelem path.bytes = some (name, [])

/-- The names of `create_default_dirs`. -/
def defaultNames : List (List Byte) := [Mkfs.ascii "etc", Mkfs.ascii "bin", Mkfs.ascii "root"]

theorem inRoot_defaultDirs {path : CString} (member : path ∈ defaultDirs) :
    ∃ name ∈ defaultNames, InRoot path name := by
  simp only [defaultDirs, List.mem_cons, List.not_mem_nil, or_false] at member
  rcases member with rfl | rfl | rfl
  · exact ⟨Mkfs.ascii "etc", by decide, rfl, by decide⟩
  · exact ⟨Mkfs.ascii "bin", by decide, rfl, by decide⟩
  · exact ⟨Mkfs.ascii "root", by decide, rfl, by decide⟩

section InRoot

variable {world : FsWorld} {extra : Nat → Nat} {path : CString} {name : List Byte}
  (forest : (filesOn world).Forest extra) (inRoot : InRoot path name)

include forest inRoot

theorem InRoot.parent :
    (filesOn world).resolve world.mem.cwdInum path.bytes true = some (ROOTINO, name) := by
  obtain ⟨root, isRoot, isDir⟩ := root_isDir forest
  unfold Files.resolve
  rw [if_pos inRoot.absolute]
  exact Files.walk_last inRoot.element isRoot isDir

theorem InRoot.inumAt_eq : inumAt world path.bytes = (filesOn world).find ROOTINO name := by
  have parent := inRoot.parent forest
  unfold inumAt
  unfold Files.resolve at parent ⊢
  rw [Files.walk_to_last (Nat.lt_succ_self _) parent, Option.map_map]
  exact Option.map_id_fun' ▸ rfl

/-- Creating the directory is refused exactly where something is there. -/
theorem InRoot.refused_iff :
    CreateRefused world path.bytes T_DIR ↔ inumAt world path.bytes ≠ none := by
  have parent := inRoot.parent forest
  rw [inRoot.inumAt_eq forest]
  constructor
  · intro refused
    obtain ⟨n, node, isName, -⟩ := refused _ _ parent
    rw [isName]
    exact Option.some_ne_none n
  · intro isThere d nm leads
    cases parent.symm.trans leads
    obtain ⟨n, isName⟩ := Option.ne_none_iff_exists'.mp isThere
    obtain ⟨root, isRoot, isDir⟩ := root_isDir forest
    obtain ⟨node, isNode⟩ := known_node forest .refl isRoot isDir isName
    exact ⟨n, node, isName, isNode, fun both => absurd both.1 (by decide)⟩

end InRoot

/-! ## Directories are made where they are missing -/

/-- Only directories are new, and only under these names in the root. -/
structure Furnishes (names : List (List Byte)) (files files' : Files) : Prop extends
    files.Grows files' where
  fresh : ∀ i nm m, files i ≠ none → files'.find i nm = some m → files.find i nm = some m ∨
    i = ROOTINO ∧ nm.take DIRSIZ ∈ names ∧ ∃ node, files' m = some node ∧ node.type = T_DIR

theorem Furnishes.refl {names : List (List Byte)} {files : Files} : Furnishes names files files where
  keeps _ _ _ := id
  stays _ node found := ⟨node, found, rfl⟩
  fresh _ _ _ _ := Or.inl

theorem Furnishes.trans {names : List (List Byte)} {files files' files'' : Files}
    (first : Furnishes names files files') (second : Furnishes names files' files'') :
    Furnishes names files files'' where
  keeps i nm m found := second.keeps i nm m (first.keeps i nm m found)
  stays i node found := by
    obtain ⟨node', found', type⟩ := first.stays i node found
    obtain ⟨node'', found'', type'⟩ := second.stays i node' found'
    exact ⟨node'', found'', type'.trans type⟩
  fresh i nm m present isName := by
    have present' : files' i ≠ none := by
      obtain ⟨node, found⟩ := Option.ne_none_iff_exists'.mp present
      obtain ⟨node', found', -⟩ := first.stays i node found
      rw [found']
      exact Option.some_ne_none node'
    rcases second.fresh i nm m present' isName with old | new
    · rcases first.fresh i nm m present old with older | ⟨atRoot, listed, node, found, isDir⟩
      · exact Or.inl older
      · obtain ⟨node', found', type⟩ := second.stays m node found
        exact Or.inr ⟨atRoot, listed, node', found', type.trans isDir⟩
    · exact Or.inr new

/-- The file system goes on with more directories. -/
structure Prepared (names : List (List Byte)) (sb : Superblock) (extra : Nat → Nat)
    (world after : FsWorld) : Prop where
  intact : ∃ g, Intact after g ∧ g.sb = sb
  forest : (filesOn after).Forest extra
  furnishes : Furnishes names (filesOn world) (filesOn after)
  cwd : after.mem.cwd = world.mem.cwd
  table : after.mem.table = world.mem.table
  refs : after.mem.refs = world.mem.refs

theorem Prepared.trans {names : List (List Byte)} {sb : Superblock} {extra : Nat → Nat}
    {world middle after : FsWorld} (first : Prepared names sb extra world middle)
    (second : Prepared names sb extra middle after) : Prepared names sb extra world after where
  intact := second.intact
  forest := second.forest
  furnishes := first.furnishes.trans second.furnishes
  cwd := second.cwd.trans first.cwd
  table := second.table.trans first.table
  refs := second.refs.trans first.refs

/-- What is created as a directory is a directory. -/
theorem isDir_of_createsIn {files files' : Files} {d n : Nat} {name : List Byte}
    {major minor : BitVec 16} (creates : files.CreatesIn d name T_DIR major minor (some n) files') :
    ∃ node, files' n = some node ∧ node.type = T_DIR := by
  cases creates with
  | known _ _ _ _ _ asked _ => exact absurd asked (by decide)
  | @made parent parent' newborn off _ _ isThere isDir absent positive free born vacant fits drops =>
      have apart : n ≠ d := by
        rintro rfl
        rw [isThere] at free
        cases free
      refine ⟨newborn, ?_, ?_⟩
      · rw [drops.other apart, Function.update_of_ne apart, Function.update_self]
      · unfold Node.Born at born
        rw [if_pos rfl] at born
        obtain ⟨-, first, next, -, -, rfl⟩ := born
        rfl

section Making

variable {world : FsWorld} {g : Ghost} {extra : Nat → Nat} (intact : Intact world g)
  (roomy : Files.Roomy g.sb.ninodes extra) (forest : (filesOn world).Forest extra)
  {path : CString} {name : List Byte} {names : List (List Byte)} (inRoot : InRoot path name)

include inRoot in
/-- A path from the root does not ask for the working directory. -/
theorem InRoot.create_takes {type major minor : BitVec 16} :
    Takes (xv6fsCreate path.bytes type major minor) oneOf := by
  rw [xv6fsCreate_eq]
  unfold nameiparent namex
  rw [if_pos inRoot.absolute]
  apply Prog.Shifts.bind namexRoot_takes
  intro found
  cases found with
  | none => exact .pure (by simp [walked])
  | some found => exact .congr createIn_takes fun _ => by simp [walked]

include intact in
/-- What a part of the boot leaves. -/
theorem prepared_of_leaves {after : FsWorld} {g' : Ghost} {files' : Files}
    (left : Leaves ∅ world g files' after g') (forest' : files'.Forest extra)
    (furnishes : Furnishes names (filesOn world) files') (cwd : after.mem.cwd = world.mem.cwd)
    (table : after.mem.table = world.mem.table) (refs : after.mem.refs = world.mem.refs) :
    Prepared names g.sb extra world after := by
  have files : filesOn after = files' := by
    rw [← files_eq_filesOn left.stands.sound left.stands.idle]
    exact left.files
  have covered : 0 ≤ spare after.mem := by
    have same : spare after.mem = spare world.mem := by
      rw [spare, spare, Kernel.outstanding, Kernel.outstanding, cwd, table, refs]
    exact same ▸ intact.covered
  exact ⟨⟨g', intact.next left covered, left.sb⟩, files ▸ forest', files ▸ furnishes, cwd, table,
    refs⟩

include intact roomy forest inRoot

/-- A missing directory is made, and nothing else. -/
theorem createDefaultDir_prepares (listed : name ∈ names) :
    Leads (createDefaultDir path) (fun _ after => Prepared names g.sb extra world after ∧
      inumAt after path.bytes ≠ none) world := by
  have attached : (filesOn world).Attached (Files.startOf world.mem.cwdInum path.bytes) :=
    attached_absolute inRoot.absolute
  unfold createDefaultDir Leads
  rw [Prog.wp_bind]
  have keeps := create_keeps_names intact roomy forest attached T_DIR 0 0
  have leaves := xv6fsCreate_leaves intact path.bytes T_DIR 0 0
  have declines := xv6fsCreate_declines intact forest attached T_DIR 0 0
  have takes : Takes (xv6fsCreate path.bytes T_DIR 0 0) oneOf := inRoot.create_takes
  apply (((keeps.and leaves).and declines).and (takes world)).conseq (fun _ _ => trivial)
    fun _ _ _ => trivial
  rintro result middle ⟨⟨⟨keeps, g', files', creates, -, left⟩, refuses, goes⟩, same, moved⟩
  have cwd : middle.mem.cwd = world.mem.cwd := congrArg Prod.fst same
  have table : middle.mem.table = world.mem.table := congrArg Prod.snd same
  have before : g.files world.disk = filesOn world := intact.files_eq
  have filesAfter : filesOn middle = files' := by
    rw [← files_eq_filesOn left.stands.sound left.stands.idle]
    exact left.files
  cases result with
  | none =>
      have unchanged : filesOn middle = filesOn world := keeps
      have isThere : inumAt world path.bytes ≠ none := by
        rw [← inRoot.refused_iff forest]
        by_contra notRefused
        exact goes notRefused rfl
      simp only [Prog.wp_pure]
      refine ⟨?_, ?_⟩
      · apply prepared_of_leaves intact left _ _ cwd table
        · rw [moved, oneOf_none, add_zero]
        · rw [← filesAfter, unchanged]
          exact forest
        · rw [← filesAfter, unchanged]
          exact .refl
      · rw [inRoot.inumAt_eq (unchanged ▸ forest), unchanged, ← inRoot.inumAt_eq forest]
        exact isThere
  | some ip =>
      obtain ⟨d, nm, parent, binds, leads⟩ := keeps
      cases (inRoot.parent forest).symm.trans parent
      rw [filesAfter] at binds leads
      rw [before] at creates
      have bounded' : files'.BoundedLinks g.sb.ninodes := by
        intro i node found _
        rw [← left.files] at found
        exact left.sb ▸ (left.stands.idle.owns_of_files found).1.inRange
      have forest' := (forest.creates (filesOn_bounded intact) bounded' roomy creates).forest
      have below : files'.Attached (middle.mem.icache ip).inum :=
        forest'.attached_resolve (attached_absolute inRoot.absolute) leads
      obtain ⟨node, isNode, isDir⟩ : ∃ node, files' (middle.mem.icache ip).inum = some node ∧
          node.type = T_DIR := by
        change (filesOn world).Creates _ _ _ _ _ (some (middle.mem.icache ip).inum) _ at creates
        cases creates with
        | inParent _ _ creates => exact isDir_of_createsIn creates
      have furnishes : Furnishes names (filesOn world) files' := by
        refine ⟨binds.grows, fun i other m present isName => ?_⟩
        by_cases new : i = ROOTINO ∧ other.take DIRSIZ = name
        · obtain ⟨rfl, rfl⟩ := new
          rw [Files.find_take, binds.bound] at isName
          cases isName
          exact Or.inr ⟨rfl, listed, node, isNode, isDir⟩
        · rw [binds.others i other present new] at isName
          exact Or.inl isName
      simp only [Prog.wp_bind]
      apply (iunlock_takes.frame ((iunlock_leaves left (Set.notMem_empty ip)).and
        (iunlock_takes middle))).conseq (fun _ _ => trivial) fun _ _ _ => trivial
      rintro _ unlocked ⟨⟨⟨sameInum, left₂⟩, -, sameRefs⟩, sameCwd, sameTable⟩
      apply (iput_takes.frame (iput_leaves left₂ (Set.notMem_empty ip))).mono
      rintro _ after ⟨⟨g'', files'', drops, left₃, lastRefs, -⟩, lastCwd, lastTable⟩
      rw [sameInum] at drops
      rw [forest'.drops_eq below drops] at left₃
      have prepared : Prepared names g.sb extra world after := by
        apply prepared_of_leaves intact left₃ forest' furnishes
        · exact lastCwd.trans (sameCwd.trans cwd)
        · exact lastTable.trans (sameTable.trans table)
        · rw [lastRefs, sameRefs, moved, oneOf_some, add_zero, add_sub_cancel_right]
      refine ⟨prepared, ?_⟩
      have filesEnd : filesOn after = files' := by
        rw [← files_eq_filesOn left₃.stands.sound left₃.stands.idle]
        exact left₃.files
      rw [inRoot.inumAt_eq prepared.forest, filesEnd, binds.bound]
      exact Option.some_ne_none _

omit roomy in
/-- Where the directory is there, nothing happens. -/
theorem createDefaultDir_rests (isThere : inumAt world path.bytes ≠ none) :
    (createDefaultDir path).wp (fun _ => False) (OnlyFull (Scarce 3 world.mem.refs))
      (fun _ => Rests world) world := by
  have refused := (inRoot.refused_iff forest).mpr isThere
  unfold createDefaultDir
  rw [Prog.wp_bind]
  apply (xv6fsCreate_declines intact forest (attached_absolute inRoot.absolute) T_DIR 0 0).conseq
    (fun _ goes => goes refused) fun _ _ stops => stops refused
  rintro result after ⟨refuses, -⟩
  obtain ⟨rfl, rests⟩ := refuses refused
  exact rests

end Making

/-- An absolute path leads where it led. -/
theorem inumAt_grows {world after : FsWorld} {path : List Byte} {n : Nat}
    (absolute : path.head? = some slash) (grows : (filesOn world).Grows (filesOn after))
    (leads : inumAt world path = some n) : inumAt after path = some n := by
  obtain ⟨result, resolved, rfl⟩ := Option.map_eq_some_iff.mp leads
  unfold Files.resolve at resolved
  rw [if_pos absolute] at resolved
  unfold inumAt Files.resolve
  rw [if_pos absolute, Files.walk_grows grows resolved]
  rfl

section Loops

variable {world : FsWorld} {g : Ghost} {extra : Nat → Nat} (intact : Intact world g)
  (roomy : Files.Roomy g.sb.ninodes extra) (forest : (filesOn world).Forest extra)
  {names : List (List Byte)} {paths : List CString}
  (each : ∀ path ∈ paths, ∃ name ∈ names, InRoot path name)

include intact roomy forest each

theorem forEach_prepares : Leads (forEach paths createDefaultDir) (fun _ after =>
    Prepared names g.sb extra world after ∧ ∀ path ∈ paths, inumAt after path.bytes ≠ none)
      world := by
  induction paths generalizing world g with
  | nil => exact ⟨⟨⟨g, intact, rfl⟩, forest, .refl, rfl, rfl, rfl⟩, nofun⟩
  | cons path rest ih =>
      obtain ⟨name, listed, inRoot⟩ := each path List.mem_cons_self
      unfold forEach Leads
      rw [Prog.wp_bind]
      apply (createDefaultDir_prepares intact roomy forest inRoot listed).mono
      rintro _ middle ⟨prepared, isThere⟩
      obtain ⟨g', intact', sb⟩ := prepared.intact
      apply (ih intact' (sb.symm ▸ roomy) prepared.forest
        fun other member => each other (List.mem_cons_of_mem _ member)).mono
      rintro _ after ⟨prepared', others⟩
      rw [sb] at prepared'
      refine ⟨prepared.trans prepared', fun other member => ?_⟩
      rcases List.mem_cons.mp member with rfl | further
      · obtain ⟨n, leads⟩ := Option.ne_none_iff_exists'.mp isThere
        rw [inumAt_grows inRoot.absolute prepared'.furnishes.toGrows leads]
        exact Option.some_ne_none n
      · exact others other further

theorem forEach_rests (areThere : ∀ path ∈ paths, inumAt world path.bytes ≠ none) :
    (forEach paths createDefaultDir).wp (fun _ => False) (OnlyFull (Scarce 3 world.mem.refs))
      (fun _ after => Rests world after ∧ Prepared names g.sb extra world after) world := by
  induction paths generalizing world g with
  | nil => exact ⟨.refl intact.holding, ⟨g, intact, rfl⟩, forest, .refl, rfl, rfl, rfl⟩
  | cons path rest ih =>
      obtain ⟨name, listed, inRoot⟩ := each path List.mem_cons_self
      unfold forEach
      rw [Prog.wp_bind]
      apply ((createDefaultDir_rests intact forest inRoot (areThere path List.mem_cons_self)).and
        (createDefaultDir_prepares intact roomy forest inRoot listed)).conseq
          (fun _ both => both.1) fun _ _ both => both.1
      rintro _ middle ⟨rests, prepared, -⟩
      obtain ⟨g', intact', sb⟩ := prepared.intact
      have stay : ∀ other ∈ rest, inumAt middle other.bytes ≠ none := by
        intro other member
        obtain ⟨_, -, inRoot'⟩ := each other (List.mem_cons_of_mem _ member)
        obtain ⟨n, leads⟩ :=
          Option.ne_none_iff_exists'.mp (areThere other (List.mem_cons_of_mem _ member))
        rw [inumAt_grows inRoot'.absolute prepared.furnishes.toGrows leads]
        exact Option.some_ne_none n
      have rounds := ih intact' (sb.symm ▸ roomy) prepared.forest
        (fun other member => each other (List.mem_cons_of_mem _ member)) stay
      rw [prepared.refs] at rounds
      apply rounds.mono
      rintro _ after ⟨rests', prepared'⟩
      rw [sb] at prepared'
      exact ⟨rests.trans rests', prepared.trans prepared'⟩

end Loops

/-! ## The disk -/

/-- The kernel after `xv6fs_iinit`. -/
def Kernel.mounting (kernel : Kernel) (sb : Superblock) : Kernel :=
  { kernel with
    sb
    xv6fsMounted := if sb.magic = XV6_MAGIC then true else kernel.xv6fsMounted
    icacheLocked := false
    icache := fun ip => { kernel.icache ip with locked := false } }

/-- `xv6fs_iinit` reads the superblock and asks for the magic number. -/
theorem xv6fsIinit_wp {P : Disk → Prop} {F : Stop → FsWorld → Prop} {Q : Int → FsWorld → Prop}
    {world : FsWorld} {sb : Superblock} (isSb : Superblock.ofBlock (world.disk 1) = sb)
    (holds : Q (if sb.magic = XV6_MAGIC then 0 else -1) ⟨Kernel.mounting world.mem sb, world.disk⟩) :
    xv6fsIinit.wp P F Q world := by
  unfold Kernel.mounting at holds
  subst isSb
  simp only [xv6fsIinit, readsb, brelse, Prog.wp_bind, Prog.wp_modifyMem, Prog.wp_bread,
    Prog.wp_data, Prog.wp_pure]
  intro slot
  split at holds
  · next isMagic =>
    rw [if_pos isMagic]
    exact holds
  · next other =>
    rw [if_neg other]
    exact holds

/-- A disk without the magic number is left alone. -/
theorem foreign_disk_left {world : FsWorld}
    (foreign : (Superblock.ofBlock (world.disk 1)).magic ≠ XV6_MAGIC) :
    Silent (fun _ _ => False) (fun readme after => readme = none ∧
      after.mem.xv6fsMounted = world.mem.xv6fsMounted ∧ after.disk = world.disk)
      (mountDisk.run world) := by
  apply silent_of_wp
  unfold mountDisk
  rw [Prog.wp_bind]
  apply xv6fsIinit_wp rfl
  rw [if_neg foreign, if_pos (by decide)]
  refine ⟨rfl, ?_, rfl⟩
  exact if_neg foreign

/-- The superblock that `mkfs` writes is the one that the kernel reads. -/
theorem ofBlock_superblockBlock : Superblock.ofBlock Mkfs.superblockBlock = Mkfs.sb := by
  decide +kernel

theorem superblock_of_made {chunks : List (List Byte)} {final : Mkfs.Image}
    (made : Mkfs.mkfs (some chunks) = some final) :
    Superblock.ofBlock (final.disk 1) = Mkfs.sb := by
  obtain ⟨image, rfl, g, holds⟩ := Mkfs.mkfs_built Mkfs.freshKernel_mounted made
  have notBitmap : Mkfs.NotBitmap 1 := Or.inl (by decide)
  rw [Mkfs.finished_disk, Mkfs.bitmapped_of_notBitmap image notBitmap, holds.building.super]
  exact ofBlock_superblockBlock

/-- No inode is in use and no descriptor is open. -/
structure Cold (kernel : Kernel) : Prop where
  refs : ∀ ip, (kernel.icache ip).ref = 0
  cwd : kernel.cwd = none
  closed : allHeld kernel.table = 0

/-- A path from the root is read without asking for the working directory. -/
theorem read_takes {path : List Byte} {maxlen : Nat} (absolute : path.head? = some slash) :
    Takes (xv6fsBridgeReadFile path maxlen) fun _ => 0 := by
  have leads : Takes (namei path) oneOf := by
    unfold namei namex
    rw [if_pos absolute]
    apply Prog.Shifts.bind namexRoot_takes
    intro found
    cases found with
    | none => exact .pure (by simp [walked])
    | some found => exact .pure (by simp [walked])
  unfold xv6fsBridgeReadFile
  apply Prog.Shifts.bind leads
  intro found
  cases found with
  | none => exact .pure (by simp)
  | some ip =>
      exact .bind_zero ilock_takes fun _ => .bind_zero readi_takes fun _ =>
        .bind_zero iunlock_takes fun _ => .bind iput_takes fun _ => .pure (by simp)

/-- A path with one element on an image. -/
theorem InRoot.inumAt_image {binary : List Byte} {world : FsWorld} {path : CString}
    {name : List Byte} {n : Nat} (inRoot : InRoot path name)
    (files : filesOn world = Mkfs.table (Mkfs.imageNodes binary))
    (member : (ROOTINO, name, n) ∈ Mkfs.imageNames) : inumAt world path.bytes = some n := by
  have forest : (filesOn world).Forest Mkfs.imageExtra := by
    rw [files]
    exact Mkfs.forest_image
  rw [inRoot.inumAt_eq forest, files]
  exact Files.find_of_child (Mkfs.child_image.mpr member)

theorem defaultDirs_image {binary : List Byte} {world : FsWorld}
    (files : filesOn world = Mkfs.table (Mkfs.imageNodes binary)) :
    ∀ path ∈ defaultDirs, inumAt world path.bytes ≠ none := by
  intro path member
  obtain ⟨name, listed, inRoot⟩ := inRoot_defaultDirs member
  have known : ∀ name ∈ defaultNames, ∃ place ∈ Mkfs.imageNames, place.1 = ROOTINO ∧
      place.2.1 = name := by decide
  obtain ⟨⟨d, other, n⟩, isPlace, rfl, rfl⟩ := known name listed
  rw [inRoot.inumAt_image files isPlace]
  exact Option.some_ne_none n

theorem readme_image {binary : List Byte} {world : FsWorld}
    (files : filesOn world = Mkfs.table (Mkfs.imageNodes binary)) :
    fileAt world readmePath.bytes = some (Mkfs.fileNode Mkfs.readmeText) := by
  have inRoot : InRoot readmePath (Mkfs.ascii "README") := ⟨rfl, by decide⟩
  have listed : (ROOTINO, Mkfs.ascii "README", 5) ∈ Mkfs.imageNames := by decide
  rw [fileAt, inRoot.inumAt_image files listed, Option.bind_some, files]
  rfl

/-- What the kernel starts from when it has mounted an image. -/
structure MountedAt (kernel : Kernel) : Prop extends Mkfs.Mounted kernel where
  cwd : kernel.cwd = none
  unlocked : Fs.Holding ∅ kernel

/-- With a process table it is ready for the first process. -/
theorem MountedAt.starts {kernel : Kernel} (mountedAt : MountedAt kernel) {chunks : List (List Byte)}
    {final : Mkfs.Image} (made : Mkfs.mkfs (some chunks) = some final) {layout : StackLayout}
    {stack : Nat → Word} {entryPoint pml4 : Nat} (isRoot : pml4 ≠ 0) :
    Starts chunks.flatten
      ⟨{ kernel with table := bootTable layout stack entryPoint pml4 }, final.disk⟩ where
  mounts := ⟨⟨chunks, final, rfl, made, rfl⟩, ⟨mountedAt.sb, mountedAt.mounted, mountedAt.unused⟩,
    mountedAt.cwd⟩
  booted := ⟨mountedAt.unused, mountedAt.cwd, layout, stack, entryPoint, pml4, isRoot, rfl⟩
  unlocked := ⟨mountedAt.unlocked.table, mountedAt.unlocked.held, mountedAt.unlocked.used⟩

theorem Cold.mountedAt {kernel : Kernel} (cold : Cold kernel) :
    MountedAt (Kernel.mounting kernel Mkfs.sb) where
  sb := rfl
  mounted := rfl
  unused := cold.refs
  cwd := cold.cwd
  unlocked := ⟨rfl, fun _ => ⟨nofun, nofun⟩, nofun⟩

/-- An image is mounted without a write. -/
theorem mountDisk_image {chunks : List (List Byte)} {final : Mkfs.Image}
    (made : Mkfs.mkfs (some chunks) = some final) {kernel : Kernel} (cold : Cold kernel) :
    mountDisk.wp (fun _ => False) (fun _ _ => False) (fun readme after =>
      readme = some (252, Mkfs.readmeText) ∧ MountedAt after.mem) ⟨kernel, final.disk⟩ := by
  unfold mountDisk
  rw [Prog.wp_bind]
  have isSb : Superblock.ofBlock ((⟨kernel, final.disk⟩ : FsWorld).disk 1) = Mkfs.sb :=
    superblock_of_made made
  have isMagic : Mkfs.sb.magic = XV6_MAGIC := rfl
  apply xv6fsIinit_wp isSb
  rw [if_pos isMagic, if_neg (by decide), createDefaultDirs_eq]
  -- the kernel has read the superblock
  generalize isStart : (⟨Kernel.mounting kernel Mkfs.sb, final.disk⟩ : FsWorld) = start
  have mountedAt : MountedAt start.mem := isStart ▸ cold.mountedAt
  have mounts : Mkfs.Mounts chunks.flatten start :=
    isStart ▸ ⟨⟨chunks, final, rfl, made, rfl⟩, cold.mountedAt.toMounted, cold.cwd⟩
  have refs : start.mem.refs = 0 := funext mountedAt.unused
  have settled : spare start.mem = 0 := by
    have closed : allHeld start.mem.table = 0 := isStart ▸ cold.closed
    rw [spare, Kernel.outstanding, refs, mountedAt.cwd, closed]
    rfl
  obtain ⟨g, intact, sb⟩ := intact_of_mounts mounts mountedAt.unlocked settled.ge
  have files := files_of_mounts mounts
  have forest : (filesOn start).Forest Mkfs.imageExtra := by
    rw [files]
    exact Mkfs.forest_image
  have room : ¬ Scarce 3 start.mem.refs := by
    rw [refs]
    unfold Scarce
    simp only [Pi.zero_apply, Finset.filter_true, Finset.card_univ, Fintype.card_fin]
    decide
  -- the directories are there
  rw [Prog.wp_bind]
  apply (forEach_rests intact (roomy_image sb) forest (fun _ => inRoot_defaultDirs)
    (defaultDirs_image files)).conseq (fun _ => id) fun _ _ stops => room stops.2
  rintro _ ensured ⟨rests, prepared⟩
  obtain ⟨g', intact', -⟩ := prepared.intact
  rw [Prog.wp_bind]
  have absolute : readmePath.bytes.head? = some slash := rfl
  have reads := xv6fsBridgeReadFile_reads intact' prepared.forest (by decide : 511 < 2 ^ 32)
    (attached_absolute absolute)
  rw [prepared.refs] at reads
  apply (reads.and (read_takes absolute ensured)).conseq (fun _ both => both.1)
    fun _ _ both => room both.1.2
  rintro _ after ⟨⟨rfl, rests'⟩, same, moved⟩
  have cwd : after.mem.cwd = ensured.mem.cwd := congrArg Prod.fst same
  refine ⟨?_, ?_⟩
  · rw [readme_image (rests.files.trans files)]
    have small : Mkfs.readmeText.length < 2 ^ 31 := by
      rw [Mkfs.length_readmeText]
      decide
    have all : Mkfs.readmeText.take 511 = Mkfs.readmeText :=
      List.take_of_length_le (by rw [Mkfs.length_readmeText]; decide)
    rw [Option.elim_some, read_fileNode small (by decide), all, Mkfs.length_readmeText,
      Nat.cast_ofNat]
  · constructor
    · constructor
      · rw [rests'.sb, rests.sb, mountedAt.sb]
      · rw [rests'.mounted, rests.mounted, mountedAt.mounted]
      · apply congrFun
        change after.mem.refs = 0
        rw [moved, prepared.refs, refs]
        rfl
    · rw [cwd, prepared.cwd, mountedAt.cwd]
    · exact rests'.unlocked

/-- The memory of a kernel that has just been started. -/
def coldKernel : Kernel :=
  { Mkfs.freshKernel with sb := ⟨0, 0, 0, 0, 0, 0, 0, 0⟩, xv6fsMounted := false }

theorem cold_coldKernel : Cold coldKernel where
  refs _ := rfl
  cwd := rfl
  closed := Finset.sum_eq_zero fun _ _ => held_of_closed fun _ => rfl

/-- Booting from an image of `mkfs` writes nothing, does not panic and reads the text of `/README`.
The kernel is then ready for the first process, whatever that is. -/
theorem image_mounts {chunks : List (List Byte)} {final : Mkfs.Image}
    (made : Mkfs.mkfs (some chunks) = some final) {kernel : Kernel} (cold : Cold kernel) :
    Silent (fun _ _ => False) (fun readme after => readme = some (252, Mkfs.readmeText) ∧
      ∀ layout stack entryPoint pml4, pml4 ≠ 0 → Starts chunks.flatten
        ⟨{ after.mem with table := bootTable layout stack entryPoint pml4 }, after.disk⟩)
      (mountDisk.run ⟨kernel, final.disk⟩) := by
  have silent := silent_of_wp (mountDisk_image made cold)
  apply silent.mono
  rintro readme ⟨isText, mountedAt⟩
  refine ⟨isText, fun layout stack entryPoint pml4 isRoot => ?_⟩
  rw [silent.sameDisk]
  exact mountedAt.starts made isRoot

/-- An image with two embedded bytes is mounted. -/
theorem image_mounts_small : ∃ final, Mkfs.mkfs (some [[127], [69]]) = some final ∧
    Silent (fun _ _ => False) (fun readme after => readme = some (252, Mkfs.readmeText) ∧
      ∀ layout stack entryPoint pml4, pml4 ≠ 0 → Starts ([[127], [69]] : List (List Byte)).flatten
        ⟨{ after.mem with table := bootTable layout stack entryPoint pml4 }, after.disk⟩)
      (mountDisk.run ⟨coldKernel, final.disk⟩) := by
  have fits : Mkfs.imageBlocks ([[127], [69]] : List (List Byte)).flatten.length ≤ Mkfs.FSSIZE := by
    decide
  obtain ⟨final, made⟩ := Mkfs.mkfs_succeeds fits
  exact ⟨final, made, image_mounts made cold_coldKernel⟩

end Notux.Sys
