import Notux.Fs.Names
import Notux.Sys.Modes
import Mathlib.Logic.Relation

/-!
# Directories between creating and removing

Opening, reading, writing, seeking, closing and duplicating leave a directory alone, apart from
the entries that `open` with `O_CREAT` adds, as long as no `O_TRUNC` without `O_CREAT` hits a
directory, nobody writes to one, and the last reference to one that has been unlinked is not given
back.
-/

namespace Notux.Sys

open Notux.Store Notux.Proc Notux.Fs

/-! ## What may become of a file -/

/-- An entry is stored where the directory has none in use, or at its end. -/
def Gains (node node' : Node) : Prop :=
  ∃ off de, node.Vacant off ∧ off + DIRENT_SIZE ≤ MAXFILE * BSIZE ∧ node' = node.enter off de

/-- What may become of the file behind an inode number: a directory may get an entry if
`adds`, and anything may become of what is not a directory, except a directory. -/
inductive Evolves (adds : Prop) : Option Node → Option Node → Prop where
  | entered {node node' : Node} (added : adds) (gains : Gains node node') :
      Evolves adds (some node) (some node')
  | file {old new : Option Node} (before : ∀ node ∈ old, node.type ≠ T_DIR)
      (after : ∀ node ∈ new, node.type ≠ T_DIR) : Evolves adds old new

/-- Several changes of one file. -/
abbrev EvolvesAll (adds : Prop) : Option Node → Option Node → Prop :=
  Relation.ReflTransGen (Evolves adds)

/-- Several entries are stored, if `adds`. -/
abbrev GainsAll (adds : Prop) : Node → Node → Prop :=
  Relation.ReflTransGen fun node node' => adds ∧ Gains node node'

section Node

variable {adds : Prop} {node node' : Node}

theorem Gains.type (gains : Gains node node') : node'.type = node.type := by
  obtain ⟨off, de, -, -, rfl⟩ := gains
  rfl

/-- An added entry keeps the size a whole number of entries. -/
theorem Gains.whole (gains : Gains node node')
    (whole : DIRENT_SIZE ∣ node.size.toNat) : DIRENT_SIZE ∣ node'.size.toNat := by
  obtain ⟨off, de, vacant, fits, rfl⟩ := gains
  rw [size_enter node de fits]
  rcases le_total node.size.toNat (off + DIRENT_SIZE) with longer | shorter
  · rw [max_eq_right longer]
    exact Nat.dvd_add vacant.1 (Nat.dvd_refl _)
  · rw [max_eq_left shorter]
    exact whole

theorem GainsAll.keeps {P : Node → Prop} (all : GainsAll adds node node')
    (step : ∀ {old new : Node}, Gains old new → P old → P new) (holds : P node) : P node' := by
  induction all with
  | refl => exact holds
  | tail _ last ih => exact step last.2 ih

theorem GainsAll.type (all : GainsAll adds node node') : node'.type = node.type :=
  all.keeps (P := fun other => other.type = node.type) (fun gains same => gains.type.trans same) rfl

/-- A directory has become a directory with more entries. -/
theorem EvolvesAll.directory {new : Option Node} (keeps : EvolvesAll adds (some node) new)
    (isDir : node.type = T_DIR) : ∃ node', new = some node' ∧ GainsAll adds node node' := by
  induction keeps with
  | refl => exact ⟨node, rfl, .refl⟩
  | tail _ last ih =>
      obtain ⟨middle, rfl, all⟩ := ih
      cases last with
      | entered added gains => exact ⟨_, rfl, all.tail ⟨added, gains⟩⟩
      | file before after => exact absurd (all.type.trans isDir) (before middle rfl)

/-- A directory was a directory before. -/
theorem EvolvesAll.origin {old : Option Node} (keeps : EvolvesAll adds old (some node'))
    (isDir : node'.type = T_DIR) : ∃ node, old = some node ∧ GainsAll adds node node' := by
  induction keeps using Relation.ReflTransGen.head_induction_on with
  | refl => exact ⟨node', rfl, .refl⟩
  | head first _ ih =>
      obtain ⟨middle, rfl, all⟩ := ih
      cases first with
      | entered added gains => exact ⟨_, rfl, all.head ⟨added, gains⟩⟩
      | file before after => exact absurd (all.type.symm.trans isDir) (after middle rfl)

end Node

/-! ## What operations make of directories -/

/-- What becomes of every file. -/
def FilesEvolve (adds : Prop) (files files' : Files) : Prop :=
  ∀ i, EvolvesAll adds (files i) (files' i)

section Files

variable {adds : Prop} {files files' files'' : Files}

theorem FilesEvolve.refl : FilesEvolve adds files files := fun _ => .refl

theorem FilesEvolve.trans (first : FilesEvolve adds files files')
    (second : FilesEvolve adds files' files'') : FilesEvolve adds files files'' :=
  fun i => (first i).trans (second i)

/-- One file changes. -/
theorem FilesEvolve.update {n : Nat} {new : Option Node}
    (change : EvolvesAll adds (files n) new) :
    FilesEvolve adds files (Function.update files n new) := by
  intro i
  by_cases same : i = n
  · rw [same, Function.update_self]
    exact change
  · rw [Function.update_of_ne same]

/-- One file may be gone, and it was no directory. -/
theorem FilesEvolve.of_drops {n : Nat} (drops : files.Drops n files')
    (linked : ∀ node, files n = some node → node.type = T_DIR → node.nlink ≠ 0) :
    FilesEvolve adds files files' := by
  rcases drops with rfl | ⟨rfl, node, found, unlinked⟩
  · exact .refl
  · apply FilesEvolve.update
    rw [found]
    apply Relation.ReflTransGen.single
    apply Evolves.file
    · rintro _ ⟨⟩ isDir
      exact linked node found isDir unlinked
    · exact nofun

/-- The directories on the way from an inode have links. -/
def LinkedFrom (files : Files) (start : Nat) : Prop :=
  ∀ i node, files.Leads start i → files i = some node → node.type = T_DIR → node.nlink ≠ 0

theorem FilesEvolve.of_loses {start : Nat} (loses : files.Loses start files')
    (linked : LinkedFrom files start) : FilesEvolve adds files files' := by
  intro i
  rcases loses i with same | ⟨gone, leads, node, found, unlinked⟩
  · rw [same]
  · rw [gone, found]
    apply Relation.ReflTransGen.single
    apply Evolves.file
    · rintro _ ⟨⟩ isDir
      exact linked i node leads found isDir unlinked
    · exact nofun

theorem type_file_ne_dir {node : Node} (isFile : node.type = T_FILE) : node.type ≠ T_DIR := by
  rw [isFile]
  decide

/-- What creating a regular file returns is no directory. -/
theorem noDir_of_createsIn {d : Nat} {name : List Byte} {result : Option Nat}
    (creates : files.CreatesIn d name T_FILE 0 0 result files') :
    ∀ n ∈ result, ∀ node, files' n = some node → node.type ≠ T_DIR := by
  cases creates with
  | known isThere isDir found drops target asked isFile =>
      rintro _ ⟨⟩ node isNode
      rw [target] at isNode
      cases isNode
      exact type_file_ne_dir isFile
  | refused => exact nofun
  | @made _ _ newborn _ n _ isThere isDir absent positive free born vacant fits drops =>
      unfold Node.Born at born
      rw [if_neg (by decide)] at born
      obtain ⟨rfl, rfl⟩ := born
      have apart : n ≠ d := by
        rintro rfl
        rw [free] at isThere
        cases isThere
      rintro _ ⟨⟩ node isNode
      rw [drops.other apart, Function.update_of_ne apart, Function.update_self] at isNode
      cases isNode
      exact type_file_ne_dir rfl

theorem noDir_of_creates {cwd : Nat} {path : List Byte} {result : Option Nat}
    (creates : files.Creates cwd path T_FILE 0 0 result files') :
    ∀ n ∈ result, ∀ node, files' n = some node → node.type ≠ T_DIR := by
  cases creates with
  | noParent => exact nofun
  | inParent parent loses creates => exact noDir_of_createsIn creates

/-- Creating a regular file adds an entry to its directory. -/
theorem FilesEvolve.of_createsIn {start d : Nat} {name : List Byte} {result : Option Nat}
    (linked : LinkedFrom files start) (leads : files.Leads start d)
    (within : ∀ i node, files' i = some node → files i = some node)
    (creates : files'.CreatesIn d name T_FILE 0 0 result files'') :
    FilesEvolve True files' files'' := by
  have here : ∀ node, files' d = some node → node.type = T_DIR → node.nlink ≠ 0 :=
    fun node isThere => linked d node leads (within d node isThere)
  cases creates with
  | known isThere isDir found drops target asked isFile => exact .of_drops drops here
  | @refused parent off _ _ isThere isDir found first second =>
      obtain ⟨used, -⟩ := Node.lookup_used found
      have next : files.Leads start (parent.dirent off).inum.toNat :=
        leads.tail ⟨parent, off, within d parent isThere, isDir, used.1, used.2, rfl⟩
      have there := fun node isNode => linked _ node next (within _ node (first.within isNode))
      exact (FilesEvolve.of_drops first here).trans (.of_drops second there)
  | @made parent parent' newborn off n _ isThere isDir absent positive free born vacant fits drops =>
      unfold Node.Born at born
      rw [if_neg (by decide)] at born
      obtain ⟨rfl, rfl⟩ := born
      have apart : d ≠ n := by
        rintro rfl
        rw [free] at isThere
        cases isThere
      have newborn : FilesEvolve True files'
          (Function.update files' n (some (.newborn T_FILE 0 0))) := by
        apply FilesEvolve.update
        rw [free]
        exact .single (.file nofun (by rintro _ ⟨⟩; exact type_file_ne_dir rfl))
      have entered : FilesEvolve True (Function.update files' n (some (.newborn T_FILE 0 0)))
          (Function.update (Function.update files' n (some (.newborn T_FILE 0 0))) d
            (some (parent'.enter off (.naming name n)))) := by
        apply FilesEvolve.update
        rw [Function.update_of_ne apart, isThere]
        exact .single (.entered trivial ⟨off, _, vacant, fits, rfl⟩)
      apply (newborn.trans entered).trans (.of_drops drops ?_)
      intro node isNode _
      rw [Function.update_self] at isNode
      cases isNode
      exact here parent' isThere isDir

theorem FilesEvolve.of_creates {cwd : Nat} {path : List Byte} {result : Option Nat}
    (linked : LinkedFrom files (Files.startOf cwd path))
    (creates : files.Creates cwd path T_FILE 0 0 result files') :
    FilesEvolve True files files' := by
  cases creates with
  | noParent missing loses => exact .of_loses loses linked
  | inParent parent loses creates =>
      exact (FilesEvolve.of_loses loses linked).trans
        (.of_createsIn linked (Files.walk_leads parent) (fun _ _ => loses.within) creates)

/-- The size of a regular file is reset. -/
theorem FilesEvolve.of_cutBy {flags : BitVec 32} {found : Option Nat}
    (noDir : hasFlag flags O_TRUNC = true → ∀ n ∈ found, ∀ node, files n = some node →
      node.type ≠ T_DIR) :
    FilesEvolve adds files (cutBy flags found files) := by
  unfold cutBy
  cases found with
  | none => exact .refl
  | some n =>
      dsimp only
      split
      · next resets =>
        apply FilesEvolve.update
        have before := noDir resets n rfl
        cases isNode : files n with
        | none => exact .refl
        | some node =>
            apply Relation.ReflTransGen.single
            apply Evolves.file
            · rintro _ ⟨⟩
              exact before node isNode
            · rintro _ ⟨⟩
              exact before node isNode
      · exact .refl

/-- `O_TRUNC` keeps types and links. -/
theorem cutBy_some {flags : BitVec 32} {found : Option Nat} {i : Nat} {node : Node}
    (isNode : cutBy flags found files i = some node) :
    ∃ node', files i = some node' ∧ node'.type = node.type ∧ node'.nlink = node.nlink := by
  unfold cutBy at isNode
  cases found with
  | none => exact ⟨node, isNode, rfl, rfl⟩
  | some n =>
      dsimp only at isNode
      split at isNode
      · by_cases same : i = n
        · subst same
          rw [Function.update_self] at isNode
          obtain ⟨node', isThere, rfl⟩ := Option.map_eq_some_iff.mp isNode
          exact ⟨node', isThere, rfl, rfl⟩
        · rw [Function.update_of_ne same] at isNode
          exact ⟨node, isNode, rfl, rfl⟩
      · exact ⟨node, isNode, rfl, rfl⟩

end Files

/-! ## Calls -/

/-- The calls that work on open files. -/
def OnOpenFiles : Call → Prop
  | .openFile .. | .read .. | .write .. | .lseek .. | .close _ | .dup _ | .dup2 .. => True
  | _ => False

/-- The calls that may add an entry to a directory. -/
def AddsEntry : Call → Prop
  | .openFile _ flags => hasFlag flags O_CREAT = true
  | _ => False

/-- `O_TRUNC` without `O_CREAT` does not hit a directory. -/
def SparesReset (world : FsWorld) (path : Option CString) (flags : BitVec 32) : Prop :=
  hasFlag flags O_TRUNC = true → hasFlag flags O_CREAT = false → ∀ place ∈ path,
    ∀ found ∈ (filesOn world).resolve world.mem.cwdInum place.bytes false,
      ∀ node, filesOn world found.1 = some node → node.type ≠ T_DIR

/-- No call resets the size of a directory or writes to one. -/
def SparesContent (world : FsWorld) : Event → Prop
  | .call (.openFile path flags) => SparesReset world path flags
  | .call (.write fd _ _ _) => SparesDirectories world fd
  | _ => True

/-- No call gives back the last reference to a directory without links: what it closes is none that
`iput` frees, and a path goes through none. -/
def SparesUnlinked (world : FsWorld) : Event → Prop
  | .call (.openFile path _) => ∀ place ∈ path,
      LinkedFrom (filesOn world) (Files.startOf world.mem.cwdInum place.bytes)
  | .call call => ∀ fd ∈ closedBy world call, ∀ ip, (ofileOf world fd).ip = some ip →
      world.mem.Frees ip → (world.mem.icache ip).din.type ≠ T_DIR
  | _ => True

/-- Directories are left alone, apart from new entries. -/
def SparesDirectory (world : FsWorld) (event : Event) : Prop :=
  SparesContent world event ∧ SparesUnlinked world event

/-- Time passes, or a process works on open files. -/
def WorksOnOpenFiles : Event → Prop
  | .timer _ => True
  | .call call => OnOpenFiles call

theorem SparesContent.noRaw {world : FsWorld} {event : Event} (spares : SparesContent world event) :
    NoRawDirectory world event := by
  unfold NoRawDirectory
  split
  · exact spares
  · trivial

section Calls

variable {world : FsWorld}

/-- What `open` makes of directories. -/
theorem open_evolves {path : Option CString} {flags : BitVec 32} {files' : Files}
    (spares : SparesReset world path flags)
    (unlinked : SparesUnlinked world (.call (.openFile path flags)))
    (opens : Opens (filesOn world) world.mem.cwdInum path flags files') :
    FilesEvolve (AddsEntry (.openFile path flags)) (filesOn world) files' := by
  cases path with
  | none =>
      cases opens
      exact .refl
  | some place =>
      obtain ⟨found, middle, finds, ends⟩ := opens
      have linked := unlinked place rfl
      -- the inode that was found is no directory without links
      have last : ∀ {adds : Prop},
          (∀ n ∈ found, ∀ node, middle n = some node → node.type = T_DIR → node.nlink ≠ 0) →
          FilesEvolve adds (cutBy flags found middle) files' := by
        intro adds linked
        rcases ends with rfl | ⟨n, isFound, drops⟩
        · exact .refl
        · apply FilesEvolve.of_drops drops
          intro node isNode isDir
          obtain ⟨node', isNode', type, nlink⟩ := cutBy_some isNode
          exact nlink ▸ linked n isFound node' isNode' (type ▸ isDir)
      unfold Finds at finds
      by_cases creates : hasFlag flags O_CREAT = true
      · rw [if_pos creates] at finds
        have noDir := noDir_of_creates finds
        have adds : AddsEntry (.openFile (some place) flags) = True := eq_true creates
        rw [adds]
        exact ((FilesEvolve.of_creates linked finds).trans (.of_cutBy fun _ => noDir)).trans
          (last fun n isFound node isNode isDir => absurd isDir (noDir n isFound node isNode))
      · rw [if_neg creates] at finds
        obtain ⟨loses, rfl⟩ := finds
        refine ((FilesEvolve.of_loses loses linked).trans (.of_cutBy ?_)).trans (last ?_)
        · intro resets n isFound node isNode
          obtain ⟨result, resolved, rfl⟩ := Option.map_eq_some_iff.mp isFound
          exact spares resets (by simpa using creates) place rfl result resolved node
            (loses.within isNode)
        · intro n isFound node isNode
          obtain ⟨result, resolved, rfl⟩ := Option.map_eq_some_iff.mp isFound
          exact linked _ node (Files.walk_leads resolved) (loses.within isNode)

variable {g : Ghost} (intact : Intact world g)

include intact

/-- Nothing that is written to is a directory. -/
theorem write_evolves (running : world.mem.table.currentProcess.state = .running) {fd : Int}
    {buf : Nat → Byte} {files' : Files} (spares : SparesDirectories world fd)
    (writes : Writes world (filesOn world) fd buf files') :
    FilesEvolve False (filesOn world) files' := by
  rcases writes with rfl | ⟨fd', ip, node, off, count, isFd, isOpen, may, found, rfl⟩
  · exact .refl
  · have alive : world.mem.table.currentProcess.state ≠ .terminated := by
      rw [running]
      decide
    have used := intact.inUse alive isOpen
    have type : (lockedDin world ip).type = node.type := by
      rw [← intact.files_eq] at found
      rw [lockedDin_view intact.sound intact.idle used]
      exact congrArg Node.type (intact.idle.owns_of_files found).2
    have notDir : node.type ≠ T_DIR := type ▸ spares fd' ip isFd isOpen may
    apply FilesEvolve.update
    rw [found]
    apply Relation.ReflTransGen.single
    apply Evolves.file
    · rintro _ ⟨⟩
      exact notDir
    · rintro _ ⟨⟩
      rw [write_type]
      exact notDir

/-- What is closed is no directory that goes. -/
theorem close_evolves {call : Call} (alive : world.mem.table.currentProcess.state ≠ .terminated)
    (unlinked : ∀ fd ∈ closedBy world call, ∀ ip, (ofileOf world fd).ip = some ip →
      world.mem.Frees ip → (world.mem.icache ip).din.type ≠ T_DIR) {files' : Files}
    (gives : GivesBack world (closedBy world call) (filesOn world) files') :
    FilesEvolve False (filesOn world) files' := by
  rcases gives with rfl | ⟨fd, isFd, ip, isOpen, frees, drops⟩
  · exact .refl
  · apply FilesEvolve.of_drops drops
    intro node found isDir
    have used := intact.inUse alive isOpen
    have type : (world.mem.icache ip).din.type = node.type := by
      rw [← intact.files_eq] at found
      rw [(intact.sound.cache.cached ip used frees.1).1]
      exact congrArg Node.type (intact.idle.owns_of_files found).2
    exact absurd (type.trans isDir) (unlinked fd isFd ip isOpen frees)

/-- Each call on open files makes of directories what it may. -/
theorem call_evolves (running : world.mem.table.currentProcess.state = .running) {call : Call}
    (works : OnOpenFiles call) (spares : SparesDirectory world (.call call)) {files' : Files}
    (effect : Effect world (filesOn world) files' call) :
    FilesEvolve (AddsEntry call) (filesOn world) files' := by
  have alive : world.mem.table.currentProcess.state ≠ .terminated := by
    rw [running]
    decide
  cases call with
  | read fd bufNull count key => exact (show files' = _ from effect) ▸ .refl
  | write fd bufNull buf count => exact write_evolves intact running spares.1 effect
  | openFile path flags => exact open_evolves spares.1 spares.2 effect
  | close fd => exact close_evolves intact alive spares.2 effect
  | lseek fd offset whence => exact (show files' = _ from effect) ▸ .refl
  | dup oldfd => exact (show files' = _ from effect) ▸ .refl
  | dup2 oldfd newfd => exact close_evolves intact alive spares.2 effect
  | execve filename env ramfs ramfsEnv => cases works
  | exit exitCode => cases works
  | wait4 => cases works
  | chdir path => cases works
  | mkdir path => cases works
  | unlink path => cases works

end Calls

/-! ## Reading a directory -/

/-- Every directory is a whole number of entries long. -/
def WholeDirectories (files : Files) : Prop :=
  ∀ i node, files i = some node → node.type = T_DIR → DIRENT_SIZE ∣ node.size.toNat

/-- A program does not panic because an entry of a directory cannot be read. -/
def NoReadPanic {α : Type} (program : FsM α) (world : FsWorld) : Prop :=
  Prog.Run.Ends (fun reason _ => reason ≠ .dirlookupRead ∧ reason ≠ .dirlinkRead)
    (fun _ _ => True) (program.run world)

section Reading

variable {world : FsWorld} {g : Ghost}

/-- The invariant may count on whole entries where they are. -/
theorem ready_aligned (ready : Ready world g) (whole : WholeDirectories (filesOn world)) :
    Ready world { g with aligned := True } where
  sound :=
    { laid := ready.sound.laid
      sameSb := ready.sound.sameSb
      mounted := ready.sound.mounted
      cache := ⟨ready.sound.cache.unique, ready.sound.cache.inRange, ready.sound.cache.cached,
        ready.sound.cache.holds⟩
      store := ⟨ready.sound.store.lags, ready.sound.store.clean⟩
      blocks := ⟨ready.sound.blocks.marks, ready.sound.blocks.metadata, ready.sound.blocks.inside,
        fun i p owns => ready.sound.blocks.points i p ⟨owns.inRange, owns.allocated, owns.attached⟩,
        fun b i p tag attached =>
          have owned := ready.sound.blocks.owned b i p tag attached
          ⟨⟨owned.1.inRange, owned.1.allocated, owned.1.attached⟩, owned.2⟩,
        ready.sound.blocks.credit⟩
      files := fun i owns => by
        have before : g.Owns i := ⟨owns.inRange, owns.allocated, owns.attached⟩
        have file := ready.sound.files i before
        refine ⟨file.small, file.full, fun isDir => ⟨fun _ => ?_, (file.entries isDir).2⟩⟩
        apply whole i _ _ isDir
        rw [← files_eq_filesOn ready.sound ready.idle]
        exact before.files
      pinned := fun i member =>
        have owns := ready.sound.pinned i member
        ⟨owns.inRange, owns.allocated, owns.attached⟩
      base := ready.sound.base }
  idle := ⟨ready.idle.dirty, ready.idle.detached⟩
  unpinned := ready.unpinned
  holding := ready.holding
  root := ready.root
  cwd := ready.cwd

theorem permits_readable :
    Permits (fun reason _ => reason ≠ .dirlookupRead ∧ reason ≠ .dirlinkRead) True where
  benign reason world benign _ := by
    constructor
    · rintro rfl
      exact benign
    · rintro rfl
      exact benign
  ragged ragged := absurd trivial ragged
  noType _ := ⟨nofun, nofun⟩

/-- A disk on which directories are known to be aligned. -/
theorem WholeDirectories.of_aligned (sound : Sound ∅ world g) (idle : g.Idle)
    (aligned : g.aligned) : WholeDirectories (filesOn world) := by
  intro i node found isDir
  rw [← files_eq_filesOn sound idle] at found
  obtain ⟨owns, rfl⟩ := idle.owns_of_files found
  exact ((sound.files i owns).entries isDir).1 aligned

variable (ready : Ready world g) (whole : WholeDirectories (filesOn world))

include ready whole

theorem namei_readable (path : List Byte) : NoReadPanic (namei path) world :=
  Prog.wp.run ((namei_step (P := fun _ => True) (fun _ _ _ => trivial) permits_readable
    (ready_aligned ready whole)).mono fun _ _ _ => trivial)

theorem create_readable (path : List Byte) (type major minor : BitVec 16) :
    NoReadPanic (xv6fsCreate path type major minor) world :=
  Prog.wp.run ((xv6fsCreate_spec (P := fun _ => True) (fun _ _ _ => trivial) permits_readable
    (ready_aligned ready whole)).mono fun _ _ _ => trivial)

theorem unlink_readable (path : List Byte) : NoReadPanic (xv6fsUnlink path) world :=
  Prog.wp.run ((xv6fsUnlink_spec (P := fun _ => True) (fun _ _ _ => trivial) permits_readable
    (ready_aligned ready whole) (.inr fun _ => ⟨nofun, nofun⟩)).mono fun _ _ _ => trivial)

end Reading

/-! ## Runs -/

/-- Each directory is what it was, up to entries added if `adds`. -/
def SparesDirs (adds : Prop) (files files' : Files) : Prop :=
  ∀ i node, files i = some node → node.type = T_DIR →
    ∃ node', files' i = some node' ∧ GainsAll adds node node'

/-- Whether an event may add an entry. -/
def AddsBy : Event → Prop
  | .timer _ => False
  | .call call => AddsEntry call

/-- Directories change only by creating: up to here they got entries at most, the next event
adds one only if it creates, and reading them does not panic. -/
structure OnlyCreating (meets : FsWorld → Event → Prop) (start world : FsWorld) : Prop where
  before : SparesDirs True (filesOn start) (filesOn world)
  next : ∀ event after, WorksOnOpenFiles event → meets world event →
    perform event world = some after → SparesDirs (AddsBy event) (filesOn world) (filesOn after)
  whole : WholeDirectories (filesOn world)
  resolves : ∀ path, NoReadPanic (namei path) world
  creates : ∀ path type major minor, NoReadPanic (xv6fsCreate path type major minor) world
  unlinks : ∀ path, NoReadPanic (xv6fsUnlink path) world

/-- A directory does not get shorter. -/
theorem GainsAll.size_le {adds : Prop} {node node' : Node} (all : GainsAll adds node node') :
    node.size.toNat ≤ node'.size.toNat := by
  apply all.keeps (P := fun other => node.size.toNat ≤ other.size.toNat) _ le_rfl
  rintro old _ ⟨off, de, -, fits, rfl⟩ longer
  rw [size_enter old de fits]
  exact longer.trans (le_max_left _ _)

theorem FilesEvolve.sparesDirs {adds : Prop} {files files' : Files}
    (evolve : FilesEvolve adds files files') : SparesDirs adds files files' := by
  intro i node found isDir
  have keeps := evolve i
  rw [found] at keeps
  exact keeps.directory isDir

/-- Directories stay whole numbers of entries long. -/
theorem FilesEvolve.whole {adds : Prop} {files files' : Files}
    (evolve : FilesEvolve adds files files') (whole : WholeDirectories files) :
    WholeDirectories files' := by
  intro i node' found isDir
  have keeps := evolve i
  rw [found] at keeps
  obtain ⟨node, before, all⟩ := keeps.origin isDir
  exact all.keeps Gains.whole (whole i node before (all.type.symm.trans isDir))

section Runs

/-- An event makes of directories what it may. -/
theorem perform_evolves {world next : FsWorld} {g : Ghost} (intact : Intact world g) {event : Event}
    (works : WorksOnOpenFiles event) (spares : SparesDirectory world event)
    (performed : perform event world = some next) :
    (∃ g', Intact next g') ∧ FilesEvolve (AddsBy event) (filesOn world) (filesOn next) := by
  cases event with
  | timer currentEsp =>
      obtain ⟨intact', disk⟩ := intact.timer performed
      refine ⟨⟨g, intact'⟩, ?_⟩
      rw [← intact.files_eq, ← intact'.files_eq, disk]
      exact .refl
  | call call =>
      unfold perform at performed
      dsimp only at performed
      split at performed
      · next running =>
        obtain ⟨r, g', intact', -, effect⟩ :=
          afterRun_of_wp (intact.call running spares.1.noRaw) performed
        rw [intact.files_eq, intact'.files_eq] at effect
        exact ⟨⟨g', intact'⟩, call_evolves intact running works spares effect⟩
      · cases performed

theorem FilesEvolve.mono {adds : Prop} {files files' : Files}
    (evolve : FilesEvolve adds files files') : FilesEvolve True files files' := by
  intro i
  refine Relation.ReflTransGen.mono (fun old new step => ?_) _ _ (evolve i)
  cases step with
  | entered added gains => exact .entered trivial gains
  | file before after => exact .file before after

end Runs

/-! ## On the small disk -/

theorem wholeDirectories_bootedWorld : WholeDirectories (filesOn bootedWorld) :=
  .of_aligned bootedWorld_intact.sound bootedWorld_intact.idle trivial

/-- The first process makes a call that returns. -/
theorem reaches_afterCall {meets : FsWorld → Event → Prop} {start first : FsWorld} {call : Call}
    {r : Int} (ticks : perform (.timer 0) start = some first)
    (running : first.mem.table.currentProcess.state = .running) (waits : meets start (.timer 0))
    (condition : meets first (.call call))
    (outcome : ((syscallHandler call).run first).outcome = .ret r) :
    Reaches meets start (afterCall call first) :=
  (Reaches.start.step waits ticks).step condition (perform_afterCall running outcome)

/-- `open("/g", O_CREAT | O_RDWR)`. -/
def creatingCall : Call := .openFile (some ⟨[slash, 103], by decide⟩) (O_CREAT ||| O_RDWR)

/-- Every file on the small disk has a link. -/
theorem bootedWorld_linked (i : Nat) (node : Node) (found : filesOn bootedWorld i = some node) :
    node.nlink ≠ 0 := by
  have all : ∀ i < smallSb.ninodes, ∀ node ∈ filesOn bootedWorld i, node.nlink ≠ 0 := by
    decide +kernel
  by_cases inRange : i < smallSb.ninodes
  · exact all i inRange node found
  · rw [← bootedWorld_intact.files_eq] at found
    exact absurd (bootedWorld_intact.idle.owns_of_files found).1.inRange inRange

/-- `open("/", O_TRUNC)`. -/
def resettingCall : Call := .openFile (some rootPath) O_TRUNC

end Notux.Sys
