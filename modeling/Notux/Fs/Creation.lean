import Notux.Fs.Steps

/-!
# Creating files

What `xv6fs_create` does to the files.  It returns the file that is there, or enters a
new one; a new directory starts with its two dot entries.
-/

namespace Notux.Fs

open Notux.Store Notux.Proc

/-! ## The files -/

/-- The entry for an inode under a name. -/
def Dirent.naming (name : List Byte) (inum : Nat) : Dirent := ⟨BitVec.ofNat 16 inum, strncpy name⟩

/-- A new inode with the link its name will be. -/
def Node.newborn (type major minor : BitVec 16) : Node := ⟨type, major, minor, 1, 0, fun _ => 0⟩

/-- The directory with one link more. -/
def Node.linked (node : Node) : Node := { node with nlink := node.nlink + 1 }

/-- The dot entries of directory `n` below directory `d` have been entered. -/
def Node.Dotted (n d : Nat) (first node : Node) : Prop :=
  ∃ off next, first.Vacant off ∧ (first.enter off (.naming [dot] n)).Vacant next ∧
    node = (first.enter off (.naming [dot] n)).enter next (.naming [dot, dot] d)

/-- What the new inode and its directory are before the entry is made. -/
def Node.Born (type major minor : BitVec 16) (n d : Nat) (parent parent' newborn : Node) : Prop :=
  if type = T_DIR then
    parent' = parent.linked ∧ Node.Dotted n d (.newborn type major minor) newborn
  else parent' = parent ∧ newborn = .newborn type major minor

namespace Files

/-- Creating `name` in directory `d`: the inode that is returned, and the files after. -/
inductive CreatesIn (files : Files) (d : Nat) (name : List Byte) (type major minor : BitVec 16) :
    Option Nat → Files → Prop where
  | known {parent child : Node} {off : Nat} {files' : Files} (isThere : files d = some parent)
      (isDir : parent.type = T_DIR) (found : parent.lookup name = some off)
      (drops : files.Drops d files') (target : files' (parent.dirent off).inum.toNat = some child)
      (asked : type = T_FILE) (isFile : child.type = T_FILE) :
      CreatesIn files d name type major minor (some (parent.dirent off).inum.toNat) files'
  | refused {parent : Node} {off : Nat} {middle files' : Files} (isThere : files d = some parent)
      (isDir : parent.type = T_DIR) (found : parent.lookup name = some off)
      (first : files.Drops d middle) (second : middle.Drops (parent.dirent off).inum.toNat files') :
      CreatesIn files d name type major minor none files'
  | made {parent parent' newborn : Node} {off n : Nat} {files' : Files}
      (isThere : files d = some parent) (isDir : parent.type = T_DIR)
      (absent : parent.lookup name = none) (positive : 0 < n) (free : files n = none)
      (born : Node.Born type major minor n d parent parent' newborn) (vacant : parent.Vacant off)
      (fits : off + DIRENT_SIZE ≤ MAXFILE * BSIZE)
      (drops : Drops (Function.update (Function.update files n (some newborn)) d
        (some (parent'.enter off (.naming name n)))) d files') :
      CreatesIn files d name type major minor (some n) files'

/-- Where a path starts. -/
def startOf (cwd : Nat) (path : List Byte) : Nat := if path.head? = some slash then ROOTINO else cwd

/-- Creating a path: the inode that is returned, and the files after. -/
inductive Creates (files : Files) (cwd : Nat) (path : List Byte) (type major minor : BitVec 16) :
    Option Nat → Files → Prop where
  | noParent {files' : Files} (missing : files.resolve cwd path true = none)
      (loses : files.Loses (startOf cwd path) files') :
      Creates files cwd path type major minor none files'
  | inParent {d : Nat} {name : List Byte} {middle files' : Files} {result : Option Nat}
      (parent : files.resolve cwd path true = some (d, name))
      (loses : files.Loses (startOf cwd path) middle)
      (creates : CreatesIn middle d name type major minor result files') :
      Creates files cwd path type major minor result files'

end Files

/-- Inode numbers that exist may be entered. -/
theorem allowed_naming {g : Ghost} {d n : Nat} (unpinned : g.pinned = ∅) (inRange : n < g.sb.ninodes)
    (name : List Byte) : EntryAllowed g d (.naming name n) := by
  intro _
  constructor
  · apply Nat.lt_of_le_of_lt _ inRange
    change (BitVec.ofNat 16 n).toNat ≤ n
    rw [BitVec.toNat_ofNat]
    exact Nat.mod_le _ _
  · rw [unpinned]
    exact nofun

/-- An empty directory has no names. -/
theorem lookup_newborn {type major minor : BitVec 16} {name : List Byte} :
    (Node.newborn type major minor).lookup name = none :=
  lookup_eq_none fun _ entry => absurd entry.2 (by simp [Node.newborn, DIRENT_SIZE])

/-- An entry under one name does not have another. -/
theorem lookup_enter_ne {node : Node} {off : Nat} {de : Dirent} {name : List Byte}
    (vacant : node.Vacant off) (fits : off + DIRENT_SIZE ≤ MAXFILE * BSIZE)
    (differs : namecmp name de.name = false) (absent : node.lookup name = none) :
    (node.enter off de).lookup name = none := by
  apply lookup_eq_none
  rintro other ⟨aligned, inside⟩ ⟨inUse, names⟩
  rw [dirent_enter node de vacant.1 aligned] at inUse names
  by_cases same : other = off
  · rw [if_pos same, differs] at names
    cases names
  · rw [if_neg same] at inUse names
    have entry : node.IsEntry other := by
      refine ⟨aligned, ?_⟩
      rw [size_enter node de fits] at inside
      have below := vacant.2.1
      have multiple := vacant.1
      simp only [DIRENT_SIZE] at *
      omega
    have none := List.find?_eq_none.mp absent other (mem_entries.mpr entry)
    exact none (by simpa using ⟨inUse, names⟩)

/-! ## The functions -/

section Functions

variable {P : Disk → Prop} {F : Stop → FsWorld → Prop} {world : FsWorld} {g : Ghost}
  {locks : Set Slot} {dp ip : Slot} {d n : Nat}
  (safe : ∀ world g, Sound ∅ world g → P world.disk) (permits : Permits F g.aligned)

include safe permits

/-- `createDots` counts the link of the new `..` and enters both names. -/
theorem createDots_spec {parent : Node} {major minor : BitVec 16} (stands : Stands locks world g)
    (cachesDp : Caches world dp d) (cachesIp : Caches world ip n) (differ : d ≠ n)
    (isThere : g.files world.disk d = some parent)
    (isNew : g.files world.disk n = some (.newborn T_DIR major minor)) :
    (createDots dp ip).wp P F
      (fun ok after => ok = true ∧ ∃ g' newborn,
        Node.Dotted n d (.newborn T_DIR major minor) newborn ∧ ∀ floor,
          Step locks floor 6 world g (Function.update (Function.update (g.files world.disk) d
            (some parent.linked)) n (some newborn)) g.held after g') world := by
  have parentNode : (g.view d).node world.disk = parent :=
    (stands.idle.owns_of_files isThere).2
  have ownsDp := cachesDp.owns stands.sound (stands.idle.attached d)
  have ownsIp := cachesIp.owns stands.sound (stands.idle.attached n)
  unfold createDots
  simp only [Prog.wp_bind]
  refine (Prog.wp_bind _ _).mp (setFields_step safe stands cachesDp
    (fun din => { din with nlink := din.nlink + 1 }) rfl rfl rfl ?_)
  intro first g₁ dp₁ counted
  have linked : ({ g.view d with nlink := (g.view d).nlink + 1 } : Dinode).node world.disk =
      parent.linked := by
    rw [← parentNode]
    rfl
  rw [linked] at counted
  have ip₁ : Caches first ip n := Step.caches counted cachesIp
  have node₁ : (g₁.view n).node first.disk = .newborn T_DIR major minor := by
    apply (counted 0).node ip₁
    rw [Function.update_of_ne differ.symm]
    exact isNew
  have stands₁ := (counted 0).stands stands.unpinned
  have type₁ : (g₁.view n).type = T_DIR := congrArg Node.type node₁
  have range₁ : ∀ {i}, i < g.sb.ninodes → i < g₁.sb.ninodes := fun inside => by
    rwa [(counted 0).sb]
  simp only [getInode, Prog.wp_bind, Prog.wp_getMem, Prog.wp_pure, ip₁.inum]
  refine (dirlink_step safe ((counted 0).permits permits) stands₁ ip₁ type₁ ?_
    (allowed_naming stands₁.unpinned (range₁ ownsIp.inRange) [dot])).mono ?_
  · rw [node₁]
    exact lookup_newborn
  rintro r second ⟨rfl, off, g₂, vacant, fits, ip₂, entered⟩
  rw [node₁] at vacant entered
  have dp₂ : Caches second dp d := Step.caches entered dp₁
  have stands₂ := (entered 0).stands stands₁.unpinned
  have node₂ : (g₂.view n).node second.disk =
      (Node.newborn T_DIR major minor).enter off (.naming [dot] n) := by
    apply (entered 0).node ip₂
    rw [Function.update_self]
    rfl
  have type₂ : (g₂.view n).type = T_DIR := congrArg Node.type node₂
  rw [if_neg (lt_irrefl _)]
  simp only [Prog.wp_bind, Prog.wp_getMem, Prog.wp_pure, dp₂.inum]
  refine (dirlink_step safe ((entered 0).permits ((counted 0).permits permits)) stands₂ ip₂ type₂ ?_
    (allowed_naming stands₂.unpinned ?_ [dot, dot])).mono ?_
  · rw [node₂]
    exact lookup_enter_ne vacant fits rfl lookup_newborn
  · rw [(entered 0).sb]
    exact range₁ ownsDp.inRange
  rintro r third ⟨rfl, next, g₃, vacant', -, -, entered'⟩
  rw [node₂] at vacant' entered'
  rw [if_neg (lt_irrefl _)]
  refine ⟨rfl, g₃, _, ⟨off, next, vacant, vacant', rfl⟩, fun floor => ?_⟩
  have all := ((counted floor).trans (entered floor)).trans (entered' floor)
  rw [(entered floor).files, (counted floor).files, Function.update_idem] at all
  rw [(entered floor).held, (counted floor).held] at all
  exact all

/-- `createLink` enters the name and leaves the new inode locked. -/
theorem createLink_spec {parent : Node} {name : List Byte}
    (stands : Stands (insert dp locks) world g) (free : dp ∉ locks) (cachesDp : Caches world dp d)
    (cachesIp : Caches world ip n) (isThere : g.files world.disk d = some parent)
    (isDir : parent.type = T_DIR) (absent : parent.lookup name = none) :
    (createLink dp ip name).wp P F
      (fun result after => result = some ip ∧ ∃ off g' files', parent.Vacant off ∧
        off + DIRENT_SIZE ≤ MAXFILE * BSIZE ∧
        Files.Drops (Function.update (g.files world.disk) d
          (some (parent.enter off (.naming name n)))) d files' ∧
        Step locks (g.held - one dp) 3 world g files' (g.held - one dp) after g') world := by
  have parentNode : (g.view d).node world.disk = parent :=
    (stands.idle.owns_of_files isThere).2
  have type : (g.view d).type = T_DIR := (congrArg Node.type parentNode).trans isDir
  have ownsIp := cachesIp.owns stands.sound (stands.idle.attached n)
  unfold createLink
  simp only [Prog.wp_bind, getInode, Prog.wp_getMem, Prog.wp_pure, cachesIp.inum]
  refine (dirlink_step safe permits stands cachesDp type (parentNode ▸ absent)
    (allowed_naming stands.unpinned ownsIp.inRange name)).mono ?_
  rintro r linked ⟨rfl, off, g₁, vacant, fits, dp₁, entered⟩
  rw [parentNode] at vacant entered
  rw [if_neg (lt_irrefl _)]
  simp only [Prog.wp_bind, Prog.wp_pure]
  have first := entered (g.held - one dp)
  refine (Prog.wp_bind _ _).mp ((iunlockput_step safe (first.permits permits)
    (first.stands stands.unpinned) free dp₁.inum).mono ?_)
  rintro _ after ⟨g', files', drops, step⟩
  rw [first.files] at drops
  rw [first.held] at step
  exact ⟨trivial, off, g', files', vacant, fits, drops, first.trans step⟩

/-- The new inode gets its dot entries, if it is a directory, and its name. -/
theorem createNew_spec {parent : Node} {name : List Byte} {type major minor : BitVec 16}
    (stands : Stands (insert ip (insert dp locks)) world g) (freeDp : dp ∉ locks) (apart : dp ≠ ip)
    (cachesDp : Caches world dp d) (cachesIp : Caches world ip n) (differ : d ≠ n)
    (isThere : g.files world.disk d = some parent) (isDir : parent.type = T_DIR)
    (absent : parent.lookup name = none)
    (isNew : g.files world.disk n = some (.newborn type major minor)) :
    (if type = T_DIR then do
        if ← createDots dp ip then createLink dp ip name
        else
          unlockputBoth ip dp
          return none
      else createLink dp ip name : FsM (Option Slot)).wp P F
      (fun result after => result = some ip ∧ ∃ off g' parent' newborn files',
        Node.Born type major minor n d parent parent' newborn ∧ parent.Vacant off ∧
        off + DIRENT_SIZE ≤ MAXFILE * BSIZE ∧
        Files.Drops (Function.update (Function.update (g.files world.disk) n (some newborn)) d
          (some (parent'.enter off (.naming name n)))) d files' ∧
        Step (insert ip locks) (g.held - one dp) 9 world g files' (g.held - one dp) after g')
      world := by
  have free : dp ∉ insert ip locks := by
    rintro (same | member)
    · exact apart same
    · exact freeDp member
  have swap : insert ip (insert dp locks) = insert dp (insert ip locks) := Set.insert_comm _ _ _
  split
  · next makesDir =>
    subst makesDir
    rw [Prog.wp_bind]
    refine (createDots_spec safe permits stands cachesDp cachesIp differ isThere isNew).mono ?_
    rintro ok dotted ⟨rfl, g₁, newborn, born, steps⟩
    have first := steps (g.held - one dp)
    have stands₁ := first.stands stands.unpinned
    rw [swap] at stands₁
    rw [if_pos rfl]
    have isThere₁ : g₁.files dotted.disk d = some parent.linked := by
      rw [first.files, Function.update_of_ne differ, Function.update_self]
    refine (createLink_spec safe (first.permits permits) stands₁ free (Step.caches steps cachesDp)
      (Step.caches steps cachesIp) isThere₁ isDir absent).mono ?_
    rintro result after ⟨rfl, off, g', files', vacant, fits, drops, step⟩
    rw [first.files, Function.update_comm differ, Function.update_idem] at drops
    rw [first.held] at step
    have isBorn : Node.Born T_DIR major minor n d parent parent.linked newborn := ⟨rfl, born⟩
    exact ⟨rfl, off, g', parent.linked, newborn, files', isBorn, vacant, fits, drops,
      first.trans step⟩
  · next makesFile =>
    rw [swap] at stands
    refine (createLink_spec safe permits stands free cachesDp cachesIp isThere isDir absent).mono ?_
    rintro result after ⟨rfl, off, g', files', vacant, fits, drops, step⟩
    have isBorn : Node.Born type major minor n d parent parent (.newborn type major minor) := by
      unfold Node.Born
      rw [if_neg makesFile]
      exact ⟨rfl, rfl⟩
    refine ⟨rfl, off, g', parent, _, files', isBorn, vacant, fits, ?_, step.mono le_rfl (by omega)⟩
    rwa [← isNew, Function.update_eq_self]

/-- The locks that `xv6fs_create` leaves held. -/
def lockOf (result : Option Slot) : Set Slot := result.elim ∅ fun ip => insert ip ∅

/-- The inode number behind a result. -/
def Kernel.inumOf (kernel : Kernel) (result : Option Slot) : Option Nat :=
  result.map fun ip => (kernel.icache ip).inum

/-- `createIn` does to the files what creating in a directory means. -/
theorem createIn_spec {name : List Byte} {type major minor : BitVec 16}
    (stands : Stands ∅ world g) (owed : one dp ≤ g.held)
    (inum : (world.mem.icache dp).inum = d)
    (dirOnly : ∀ node, g.files world.disk d = some node → node.type = T_DIR) :
    (createIn dp name type major minor).wp P F
      (fun result after => ∃ g' files',
        Files.CreatesIn (g.files world.disk) d name type major minor (after.mem.inumOf result)
          files' ∧
        (∀ ip ∈ result, Caches after ip (after.mem.icache ip).inum) ∧
        Step (lockOf result) (g.held - one dp) 9 world g files' (g.held - one dp + oneOf result)
          after g') world := by
  have freeDp : dp ∉ (∅ : Set Slot) := Set.notMem_empty dp
  have atDp : 0 < g.held dp := by
    have below : (1 : Int) ≤ g.held dp := by simpa [one_self] using owed dp
    omega
  unfold createIn
  rw [Prog.wp_bind]
  refine (ilock_step permits stands freeDp inum).mono ?_
  rintro _ locked ⟨disk, cachesDp, locks⟩
  have first := locks (g.held - one dp)
  have stands₁ := first.stands stands.unpinned
  have owns := first.owns cachesDp
  have files₁ : g.files locked.disk = g.files world.disk := by rw [disk]
  obtain ⟨parent, parentNode⟩ : ∃ parent, parent = (g.view d).node locked.disk := ⟨_, rfl⟩
  have isThere : g.files world.disk d = some parent := by
    rw [parentNode, ← files₁]
    exact owns.files
  have isDir : parent.type = T_DIR := dirOnly parent isThere
  have type₁ : (g.view d).type = T_DIR := by rw [parentNode] at isDir; exact isDir
  rw [Prog.wp_bind]
  refine (dirlookup_step permits stands₁ cachesDp type₁).mono ?_
  rw [← parentNode]
  rintro known looked ⟨⟨result, offset⟩, holding⟩
  cases known with
  | some known =>
      obtain ⟨next, off⟩ := known
      obtain ⟨-, -, gets⟩ := result
      have found : parent.lookup name = some off := offset.symm
      have second : Step (insert dp ∅) (g.held - one dp) 0 locked g (g.files locked.disk)
          (g.held + one next) looked (g.hold (g.held + one next)) :=
        ⟨gets.moves.mono (sub_one_le _ _) le_rfl, holding⟩
      have stands₂ := second.stands stands.unpinned
      have inum₂ : (looked.mem.icache dp).inum = d :=
        (gets.moves.keeps dp atDp).1.trans cachesDp.inum
      simp only [Prog.wp_bind]
      refine (Prog.wp_bind _ _).mp ((iunlockput_step safe (second.permits permits) stands₂ freeDp
        inum₂).mono ?_)
      rintro _ dropped ⟨g₃, files₃, drops, step⟩
      rw [second.files, files₁] at drops
      have held₃ : g₃.held = g.held - one dp + one next :=
        step.held.trans (by change g.held + one next - one dp = _; abel)
      have third := (first.trans second).trans (step.mono (by
        change g.held - one dp ≤ g.held + one next - one dp
        intro other
        have more := nonneg_one next other
        change g.held other - one dp other ≤ g.held other + one next other - one dp other
        omega) le_rfl)
      rw [← step.held, held₃] at third
      have aboveNext : 0 < (g.held + one next - one dp) next := by
        have spare : one dp next ≤ g.held next := owed next
        change 0 < g.held next + one next next - one dp next
        rw [one_self]
        omega
      have inum₃ : (dropped.mem.icache next).inum = (parent.dirent off).inum.toNat :=
        (step.keeps next aboveNext).1.trans gets.inum
      have freeNext : next ∉ (∅ : Set Slot) := Set.notMem_empty next
      refine (ilock_step (third.permits permits) (third.stands stands.unpinned) freeNext
        inum₃).mono ?_
      rintro _ relocked ⟨disk₄, cachesNext, locks₄⟩
      have fourth := third.trans (locks₄ (g.held - one dp))
      rw [third.files, held₃] at fourth
      simp only [getInode, Prog.wp_bind, Prog.wp_getMem, Prog.wp_pure]
      split
      · next both =>
        have target := fourth.found cachesNext
        refine ⟨g₃, files₃, ?_, ?_, fourth.mono le_rfl (by omega)⟩
        · rw [Kernel.inumOf, Option.map_some, cachesNext.inum]
          refine .known isThere isDir found drops target both.1 ?_
          rw [node_type, ← cachesNext.din fourth.sound]
          exact both.2
        · intro ip isNext
          rw [← Option.some.inj isNext, cachesNext.inum]
          exact cachesNext
      · simp only [Prog.wp_bind, Prog.wp_pure]
        refine (Prog.wp_bind _ _).mp ((iunlockput_step safe (fourth.permits permits)
          (fourth.stands stands.unpinned) freeNext cachesNext.inum).mono ?_)
        rintro _ after ⟨g₅, files₅, drops', step₅⟩
        rw [fourth.files] at drops'
        have held₅ : g₃.held - one next = g.held - one dp := by
          rw [held₃]
          abel
        rw [held₅] at step₅
        refine ⟨g₅, files₅, .refused isThere isDir found drops drops', by rintro _ ⟨⟩, ?_⟩
        rw [oneOf_none, add_zero]
        exact (fourth.trans step₅).mono le_rfl (by omega)
  | none =>
      obtain ⟨rfl, -⟩ := result
      have absent : parent.lookup name = none := offset.symm
      rw [Prog.wp_bind]
      refine (ialloc_step safe (first.permits permits) stands₁).mono ?_
      rintro ip claimed ⟨n, g₂, positive, inRange, free, inumIp, inUse, allocated⟩
      rw [files₁] at free allocated
      have differ : d ≠ n := by
        rintro rfl
        rw [isThere] at free
        cases free
      have dp₂ : Caches claimed dp d := cachesDp.keep allocated.keeps atDp
      have apart : dp ≠ ip := by
        rintro rfl
        exact differ (dp₂.inum.symm.trans inumIp)
      have freeIp : ip ∉ insert dp (∅ : Set Slot) := by
        rintro (same | member)
        · exact apart same.symm
        · exact member
      have second := first.trans (allocated.mono (sub_one_le _ _) le_rfl)
      rw [Prog.wp_bind]
      refine (ilock_step (second.permits permits) (second.stands stands.unpinned) freeIp
        inumIp).mono ?_
      rintro _ loaded ⟨disk₃, cachesIp, locks₃⟩
      have dp₃ : Caches loaded dp d := Step.caches locks₃ dp₂
      have third := second.trans (locks₃ (g.held - one dp))
      rw [second.files, second.held] at third
      have claimed : Node.claimed type = some ((g₂.view n).node loaded.disk) := by
        rw [← third.found cachesIp, Function.update_self]
      have fresh : (g₂.view n).node loaded.disk = .fresh type := by
        unfold Node.claimed at claimed
        split at claimed
        · cases claimed
        · exact (Option.some.inj claimed).symm
      simp only [Prog.wp_bind]
      refine (Prog.wp_bind _ _).mp (setFields_step safe (third.stands stands.unpinned) cachesIp
        (fun din => { din with major, minor, nlink := 1 }) rfl rfl rfl ?_)
      intro stored g₄ ip₄ stores
      have newborn : ({ g₂.view n with major, minor, nlink := 1 } : Dinode).node loaded.disk =
          .newborn type major minor := by
        have changed := congrArg (fun node : Node => { node with major, minor, nlink := 1 }) fresh
        exact changed
      rw [newborn, third.files, Function.update_idem, third.held] at stores
      have dp₄ : Caches stored dp d := Step.caches stores dp₃
      have fourth := third.trans (stores (g.held - one dp))
      have isThere₄ : g₄.files stored.disk d = some parent := by
        rw [fourth.files, Function.update_of_ne differ]
        exact isThere
      have isNew : g₄.files stored.disk n = some (.newborn type major minor) := by
        rw [fourth.files, Function.update_self]
      refine (createNew_spec safe (fourth.permits permits) (fourth.stands stands.unpinned) freeDp
        apart dp₄ ip₄ differ isThere₄ isDir absent isNew).mono ?_
      rintro result after ⟨rfl, off, g', parent', born, files', isBorn, vacant, fits, drops, last⟩
      rw [fourth.files, Function.update_idem] at drops
      have held₄ : g₄.held - one dp = g.held - one dp + one ip := by
        rw [fourth.held]
        abel
      rw [held₄] at last
      have all := fourth.trans (last.mono (fun other => by
        have more := nonneg_one ip other
        change g.held other - one dp other ≤ g.held other - one dp other + one ip other
        omega) le_rfl)
      have kept : Caches after ip n := by
        apply ip₄.keep last.keeps
        have spare : one dp ip ≤ g.held ip := owed ip
        change 0 < g.held ip - one dp ip + one ip ip
        rw [one_self]
        omega
      refine ⟨g', files', ?_, ?_, all⟩
      · rw [Kernel.inumOf, Option.map_some, kept.inum]
        exact .made isThere isDir absent positive free isBorn vacant fits drops
      · intro other isIp
        rw [← Option.some.inj isIp, kept.inum]
        exact kept

/-- Nothing runs: no lock is held, and the working directory is referenced. -/
structure Ready (world : FsWorld) (g : Ghost) : Prop extends Stands ∅ world g where
  root : ROOTINO < g.sb.ninodes
  cwd : oneOf world.mem.cwd ≤ g.held

omit safe permits in
theorem nonneg_oneOf (holder : Option Slot) : 0 ≤ oneOf holder := by
  intro other
  cases holder with
  | none => exact le_rfl
  | some ip => exact nonneg_one ip other

omit safe permits in
theorem sub_oneOf_le (held : Slot → Int) (holder : Option Slot) : held - oneOf holder ≤ held := by
  intro other
  have nonneg : 0 ≤ oneOf holder other := nonneg_oneOf holder other
  change held other - oneOf holder other ≤ held other
  omega

omit safe permits in
theorem Ready.cwdHeld (ready : Ready world g) (ip : Slot) (isCwd : world.mem.cwd = some ip) :
    0 < g.held ip := by
  have below : (1 : Int) ≤ g.held ip := by simpa [isCwd, one_self] using ready.cwd ip
  omega

omit safe permits in
/-- What a path walk to a directory leaves to the rest of the function. -/
theorem walked_owed {kernel kernel' : Kernel} {held : Slot → Int}
    (cwd : oneOf kernel.cwd ≤ held) :
    one dp ≤ held + oneOf kernel'.cwd - oneOf kernel.cwd + one dp := by
  intro other
  have below : oneOf kernel.cwd other ≤ held other := cwd other
  have more : 0 ≤ oneOf kernel'.cwd other := nonneg_oneOf _ other
  change one dp other ≤ held other + oneOf kernel'.cwd other - oneOf kernel.cwd other + one dp other
  omega

/-- `nameiparent` finds the directory that the files lead to. -/
theorem nameiparent_step {path : List Byte} (ready : Ready world g) :
    (nameiparent path).wp P F
      (fun result after => ∃ g' files',
        (g.files world.disk).Loses (Files.startOf world.mem.cwdInum path) files' ∧
        Step ∅ g.held 0 world g files'
          (g.held + oneOf after.mem.cwd - oneOf world.mem.cwd + walked result) after g' ∧
        result.map (fun found => ((after.mem.icache found.1).inum, found.2)) =
          (g.files world.disk).resolve world.mem.cwdInum path true ∧
        after.mem.table = world.mem.table ∧ after.mem.cwdInum = world.mem.cwdInum) world := by
  have nonneg : 0 ≤ g.held := (nonneg_oneOf _).trans ready.cwd
  apply (joint namex_holding ready.holding (namex_spec safe (fun world => Or.inl (permits.noType world))
    permits.accepts ready.sound ready.idle ready.unpinned nonneg ready.root (fun _ _ found => found)
    ready.cwdHeld)).mono
  rintro result after ⟨⟨⟨g', files', moves, loses, expected⟩, table, cwdInum⟩, holding⟩
  exact ⟨g', files', loses, ⟨moves, holding⟩, expected, table, cwdInum⟩

/-- `namei` finds the inode that the files lead to. -/
theorem namei_step {path : List Byte} (ready : Ready world g) :
    (namei path).wp P F
      (fun found after => ∃ g' files',
        (g.files world.disk).Loses (Files.startOf world.mem.cwdInum path) files' ∧
        Step ∅ g.held 0 world g files'
          (g.held + oneOf after.mem.cwd - oneOf world.mem.cwd + oneOf found) after g' ∧
        after.mem.inumOf found =
          ((g.files world.disk).resolve world.mem.cwdInum path false).map Prod.fst) world := by
  have nonneg : 0 ≤ g.held := (nonneg_oneOf _).trans ready.cwd
  unfold namei
  rw [Prog.wp_bind]
  apply (joint namex_holding ready.holding (namex_spec safe (fun world => Or.inl (permits.noType world))
    permits.accepts ready.sound ready.idle ready.unpinned nonneg ready.root (fun _ _ found => found)
    ready.cwdHeld)).mono
  rintro found after ⟨⟨⟨g', files', moves, loses, expected⟩, -, -⟩, holding⟩
  cases found with
  | none =>
      refine ⟨g', files', loses, ⟨moves, holding⟩, ?_⟩
      rw [← expected]
      rfl
  | some found =>
      refine ⟨g', files', loses, ⟨moves, holding⟩, ?_⟩
      rw [← expected]
      rfl

/-- `xv6fs_create` does to the files what creating a path means. -/
theorem xv6fsCreate_spec {path : List Byte} {type major minor : BitVec 16} (ready : Ready world g) :
    (xv6fsCreate path type major minor).wp P F
      (fun result after => ∃ g' files',
        (g.files world.disk).Creates world.mem.cwdInum path type major minor
          (after.mem.inumOf result) files' ∧
        (∀ ip ∈ result, Caches after ip (after.mem.icache ip).inum) ∧
        Step (lockOf result) (g.held - oneOf world.mem.cwd) 9 world g files'
          (g.held + oneOf after.mem.cwd - oneOf world.mem.cwd + oneOf result) after g' ∧
        after.mem.table = world.mem.table ∧ after.mem.cwdInum = world.mem.cwdInum) world := by
  rw [xv6fsCreate_eq, Prog.wp_bind]
  refine (nameiparent_step safe permits ready).mono ?_
  rintro found middle ⟨g₁, files₁, loses, walk, resolved, table, cwdInum⟩
  cases found with
  | none =>
      refine ⟨g₁, files₁, .noParent resolved.symm loses, nofun, ?_, table, cwdInum⟩
      exact walk.mono (sub_oneOf_le _ _) (Nat.zero_le _)
  | some found =>
      obtain ⟨dp, name⟩ := found
      obtain ⟨d, isInum⟩ : ∃ d, (middle.mem.icache dp).inum = d := ⟨_, rfl⟩
      have resolvedTo : (g.files world.disk).resolve world.mem.cwdInum path true = some (d, name) := by
        rw [← resolved, Option.map_some, isInum]
      have dirOnly : ∀ node, g₁.files middle.disk d = some node → node.type = T_DIR := by
        intro node isThere
        rw [walk.files] at isThere
        obtain ⟨parent, found, isDir⟩ := Files.resolve_parent resolvedTo
        rw [loses.within isThere] at found
        exact Option.some.inj found ▸ isDir
      have held₁ : g₁.held = g.held + oneOf middle.mem.cwd - oneOf world.mem.cwd + one dp := walk.held
      have owed : one dp ≤ g₁.held := held₁ ▸ walked_owed ready.cwd
      have heldAfter : g₁.held - one dp = g.held + oneOf middle.mem.cwd - oneOf world.mem.cwd := by
        rw [held₁, add_sub_cancel_right]
      refine (createIn_takes.frame (createIn_spec safe (walk.permits permits)
        (walk.stands ready.unpinned) owed isInum dirOnly)).mono ?_
      rintro result after ⟨⟨g', files', creates, caches, step⟩, sameCwd, sameTable⟩
      rw [walk.files] at creates
      rw [heldAfter] at step
      have floor : g.held - oneOf world.mem.cwd ≤
          g.held + oneOf middle.mem.cwd - oneOf world.mem.cwd := by
        intro other
        have more : 0 ≤ oneOf middle.mem.cwd other := nonneg_oneOf _ other
        change g.held other - oneOf world.mem.cwd other ≤
          g.held other + oneOf middle.mem.cwd other - oneOf world.mem.cwd other
        omega
      have still : after.mem.cwdInum = middle.mem.cwdInum := by
        apply cwdInum_of_keeps step.keeps sameCwd
        intro ip isCwd
        have below : oneOf world.mem.cwd ip ≤ g.held ip := ready.cwd ip
        change 0 < g.held ip + oneOf middle.mem.cwd ip - oneOf world.mem.cwd ip
        rw [isCwd, oneOf_some, one_self]
        omega
      refine ⟨g', files', .inParent resolvedTo loses creates, caches, ?_, sameTable.trans table,
        still.trans cwdInum⟩
      rw [sameCwd]
      exact ((walk.mono (sub_oneOf_le _ _) le_rfl).trans (step.mono floor le_rfl)).mono le_rfl
        (Nat.le_refl _)

end Functions

end Notux.Fs
