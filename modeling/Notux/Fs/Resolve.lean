import Notux.Fs.Directory
import Notux.Fs.Lifetime

/-!
# Path resolution

A path leads from an inode number to an inode number, by the first entry of every
name on the way.  That depends on the files alone: what `namex` returns is what the
files say, and what it does to them is to free directories without links that it has
walked through.
-/

namespace Notux.Fs

open Notux.Store Notux.Proc

/-! ## Walking through files -/

namespace Files

/-- Where the loop of `namex` comes to at inode `i`. -/
def walk (files : Files) (parent : Bool) : Nat → Nat → List Byte → Option (Nat × List Byte)
  | 0, _, _ => none
  | fuel + 1, i, path =>
      match skipelem path with
      | none => if parent then none else some (i, [])
      | some (name, rest) =>
          (files i).bind fun node =>
            if node.type ≠ T_DIR then none
            else if parent ∧ rest = [] then some (i, name)
            else (node.lookup name).bind fun off =>
              walk files parent fuel (node.dirent off).inum.toNat rest

/-- Where a path leads from a working directory. -/
def resolve (files : Files) (cwd : Nat) (path : List Byte) (parent : Bool) :
    Option (Nat × List Byte) :=
  files.walk parent (path.length + 1) (if path.head? = some slash then ROOTINO else cwd) path

/-- A path element: not empty, cut to `DIRSIZ` bytes, without slashes. -/
structure Element (name : List Byte) : Prop where
  nonempty : name ≠ []
  short : name.length ≤ DIRSIZ
  noSlash : slash ∉ name

/-- `nameiparent` leads to a directory. -/
theorem walk_parent {files : Files} {fuel i d : Nat} {path name : List Byte}
    (leads : files.walk true fuel i path = some (d, name)) :
    ∃ node, files d = some node ∧ node.type = T_DIR := by
  induction fuel generalizing i path with
  | zero => cases leads
  | succ fuel ih =>
      unfold walk at leads
      split at leads
      · simp at leads
      · obtain ⟨node, found, rest⟩ := Option.bind_eq_some_iff.mp leads
        split at rest
        · cases rest
        · next isDir =>
          split at rest
          · obtain ⟨rfl, -⟩ := Prod.mk.inj (Option.some.inj rest)
            exact ⟨node, found, not_not.mp isDir⟩
          · obtain ⟨off, -, further⟩ := Option.bind_eq_some_iff.mp rest
            exact ih further

theorem resolve_parent {files : Files} {cwd d : Nat} {path name : List Byte}
    (leads : files.resolve cwd path true = some (d, name)) :
    ∃ node, files d = some node ∧ node.type = T_DIR :=
  walk_parent leads

/-- A directory has an entry for an inode. -/
def Names (files : Files) (i j : Nat) : Prop :=
  ∃ node off, files i = some node ∧ node.type = T_DIR ∧ node.IsEntry off ∧
    (node.dirent off).inum ≠ 0 ∧ (node.dirent off).inum.toNat = j

/-- Entries lead from one inode to another. -/
def Leads (files : Files) : Nat → Nat → Prop := Relation.ReflTransGen files.Names

/-- Some files without links are gone, all of them on the way from an inode. -/
def Loses (files : Files) (start : Nat) (files' : Files) : Prop :=
  ∀ j, files' j = files j ∨
    files' j = none ∧ files.Leads start j ∧ ∃ node, files j = some node ∧ node.nlink = 0

variable {files files' files'' : Files} {start next : Nat}

theorem Loses.refl : files.Loses start files := fun _ => Or.inl rfl

theorem Loses.within (loses : files.Loses start files') {j : Nat} {node : Node}
    (found : files' j = some node) : files j = some node := by
  rcases loses j with same | ⟨gone, -⟩
  · rwa [← same]
  · rw [gone] at found
    cases found

theorem Leads.mono {j : Nat} (within : ∀ i node, files' i = some node → files i = some node)
    (leads : files'.Leads start j) : files.Leads start j := by
  apply Relation.ReflTransGen.mono _ _ _ leads
  rintro i k ⟨node, off, found, isDir, entry, inUse, names⟩
  exact ⟨node, off, within i node found, isDir, entry, inUse, names⟩

theorem Loses.trans (first : files.Loses start files') (second : files'.Loses next files'')
    (leads : files.Leads start next) : files.Loses start files'' := by
  intro j
  rcases second j with same | ⟨gone, path, node, found, unlinked⟩
  · rw [same]
    exact first j
  · right
    refine ⟨gone, leads.trans (path.mono fun _ _ => first.within), node, first.within found,
      unlinked⟩

end Files

/-! ## The loop -/

section Loop

variable {P : Disk → Prop} {F : Stop → FsWorld → Prop}

/-- What `namex` does from an inode on: it gives up its reference for one to the inode it
returns, and may lose files. -/
def Walks (start : Nat) (floor held : Slot → Int) (expected : Option (Nat × List Byte))
    (world : FsWorld) (g : Ghost) (result : Option (Slot × List Byte)) (after : FsWorld) : Prop :=
  ∃ g' files', Moves ∅ floor 0 world g files' (held + walked result) after g' ∧
    (g.files world.disk).Loses start files' ∧
    result.map (fun found => ((after.mem.icache found.1).inum, found.2)) = expected

/-- Dropping a reference loses at most the inode. -/
theorem loses_of_frees {world : FsWorld} {g : Ghost} {ip : Slot} {i : Nat}
    (sound : Sound ∅ world g) (idle : g.Idle) (inum : (world.mem.icache ip).inum = i) :
    (g.files world.disk).Loses i (if world.mem.Frees ip then
      Function.update (g.files world.disk) i none else g.files world.disk) := by
  split
  · next frees =>
    intro j
    by_cases same : j = i
    · subst same
      right
      obtain ⟨valid, unlinked, last⟩ := frees
      have caches : Caches world ip j := ⟨by omega, valid, inum⟩
      have owns := caches.owns sound (idle.attached j)
      rw [Function.update_self]
      refine ⟨rfl, .refl, _, owns.files, ?_⟩
      rw [node_nlink, ← caches.din sound]
      exact unlinked
    · rw [Function.update_of_ne same]
      exact Or.inl rfl
  · exact .refl

/-- Only a directory that a running function holds is looked at. -/
theorem namexLoop_spec {files : Files} {parent : Bool}
    (safe : ∀ world g, Sound ∅ world g → P world.disk)
    (noType : ∀ world, F .ilockNoType world) {fuel : Nat} {path : List Byte} {world : FsWorld}
    {g : Ghost} (enough : path.length < fuel) (accepts : Accepts F g.aligned) {ip : Slot} {i : Nat}
    (sound : Sound ∅ world g) (idle : g.Idle) (unpinned : g.pinned = ∅)
    (owed : one ip ≤ g.held) (inum : (world.mem.icache ip).inum = i)
    (within : ∀ j node, g.files world.disk j = some node → files j = some node) :
    (namexLoop parent fuel ip path).wp P F
      (Walks i (g.held - one ip) (g.held - one ip) (files.walk parent fuel i path) world g)
      world := by
  induction fuel generalizing path world g ip i with
  | zero => cases enough
  | succ fuel ih =>
      have atIp : 0 < g.held ip := by
        have below : (1 : Int) ≤ g.held ip := by simpa [one_self] using owed ip
        omega
      have kept : g.held - one ip + one ip = g.held := sub_add_cancel _ _
      have anyway : ∀ {world : FsWorld}, world.mem.Frees ip → i ∉ g.pinned := by
        rw [unpinned]
        exact fun _ => nofun
      unfold namexLoop Files.walk
      cases element : skipelem path with
      | none =>
          dsimp only
          cases parent with
          | true =>
              simp only [if_true, Prog.wp_bind, Prog.wp_pure]
              refine (iput_spec safe accepts.benign sound idle inum anyway).mono ?_
              rintro _ after ⟨g', moves⟩
              exact ⟨g', _, by simpa [walked] using moves, loses_of_frees sound idle inum, rfl⟩
          | false =>
              simp only [Bool.false_eq_true, if_false, Prog.wp_pure]
              refine ⟨g, _, ?_, .refl, ?_⟩
              · have stays := Moves.refl sound idle (g.held - one ip)
                simpa [walked, kept] using stays
              · simp [inum]
      | some both =>
          obtain ⟨name, rest⟩ := both
          have shorter : rest.length < fuel := by
            have less := skipelem_length element
            omega
          simp only [Prog.wp_bind]
          refine (ilock_spec accepts.benign sound idle inum fun _ => noType).mono
            fun _ locked loads => ?_
          have caches := loads.caches
          have owns := caches.owns loads.sound (idle.attached i)
          have lockedInum := caches.inum
          have found : files i = some ((g.view i).node locked.disk) := by
            apply within
            rw [← loads.disk]
            exact owns.files
          have first := loads.moves idle (g.held - one ip)
          -- the exits that return nothing
          have leave : (iunlockput ip).wp P F
              (fun _ after => Walks i (g.held - one ip) (g.held - one ip) none world g none after)
              locked := by
            refine (iunlockput_spec safe accepts.benign loads.sound idle lockedInum anyway).mono ?_
            rintro _ after ⟨g', moves⟩
            have loses := loses_of_frees loads.sound idle lockedInum
            rw [loads.disk] at loses moves
            refine ⟨g', _, ?_, loses, rfl⟩
            simpa [walked] using first.trans moves
          -- the turn to the inode that an entry names
          have turn : ∀ {off : Nat} {next : Slot} {after : FsWorld}, (g.view i).type = T_DIR →
              ((g.view i).node locked.disk).IsEntry off →
              ((g.view i).node locked.disk).Names name off →
              Gets ∅ (((g.view i).node locked.disk).dirent off).inum.toNat locked g next after →
              (iunlockput ip).wp P F (fun _ dropped => (namexLoop parent fuel next rest).wp P F
                (Walks i (g.held - one ip) (g.held - one ip) (files.walk parent fuel
                  (((g.view i).node locked.disk).dirent off).inum.toNat rest) world g) dropped)
                after := by
            intro off next after isDir entry names gets
            have taken := gets.moves
            have sameIp : (after.mem.icache ip).inum = i :=
              (taken.keeps ip atIp).1.trans lockedInum
            have loses := loses_of_frees taken.sound taken.idle sameIp
            refine (iunlockput_spec safe accepts.benign taken.sound taken.idle sameIp anyway).mono
              ?_
            rintro _ dropped ⟨g', moves⟩
            rw [← moves.files, taken.files, loads.disk] at loses
            have held : g'.held - one next = g.held - one ip := by
              rw [moves.held]
              change g.held + one next - one ip - one next = _
              abel
            have owedNext : one next ≤ g'.held := by
              rw [moves.held]
              intro other
              have spare : one ip other ≤ g.held other := owed other
              change one next other ≤ g.held other + one next other - one ip other
              omega
            have above : 0 < (g.held + one next - one ip) next := by
              have spare : one ip next ≤ g.held next := owed next
              change 0 < g.held next + one next next - one ip next
              rw [one_self]
              omega
            have aligned : g'.aligned = g.aligned := moves.aligned.trans taken.aligned
            refine (ih shorter (aligned.symm ▸ accepts) moves.sound moves.idle
              (moves.pinned.trans unpinned) owedNext ((moves.keeps next above).1.trans gets.inum)
              fun j node isThere => within j node (loses.within isThere)).mono ?_
            rintro result final ⟨g'', files', walks, losesMore, expected⟩
            rw [held] at walks
            have floor : g.held - one ip ≤ g.held := sub_one_le _ _
            have floor' : g.held - one ip ≤ g.held + one next - one ip := by
              intro other
              have nonneg := nonneg_one next other
              change g.held other - one ip other ≤ g.held other + one next other - one ip other
              omega
            refine ⟨g'', files', ?_, ?_, expected⟩
            · exact ((first.trans (taken.mono floor le_rfl)).trans
                (moves.mono floor' le_rfl)).trans walks
            · apply loses.trans losesMore
              refine .single ⟨(g.view i).node world.disk, off, owns.files, isDir, ?_⟩
              rw [← loads.disk]
              exact ⟨entry, names.1, rfl⟩
          simp only [getInode, Prog.wp_bind, Prog.wp_getMem, Prog.wp_pure, found,
            Option.bind_some, node_type, caches.din loads.sound]
          by_cases isDir : (g.view i).type = T_DIR
          · simp only [ne_eq, isDir, not_true_eq_false, if_false]
            by_cases last : parent = true ∧ rest = []
            · rw [if_pos last, if_pos last]
              simp only [Prog.wp_bind, Prog.wp_pure]
              refine (iunlock_spec accepts.benign loads.sound).mono fun _ after unlocks => ?_
              refine ⟨g, _, ?_, .refl, ?_⟩
              · have stays := first.trans (unlocks.moves idle (g.held - one ip))
                rw [loads.disk] at stays
                simpa [walked, kept] using stays
              · rw [Option.map_some, (unlocks.same ip).2.1, lockedInum]
            · rw [if_neg last, if_neg last]
              simp only [Prog.wp_bind]
              refine (dirlookup_first accepts loads.sound idle caches owns isDir).mono ?_
              rintro looked after ⟨result, offset⟩
              cases looked with
              | none =>
                  obtain ⟨rfl, -⟩ := result
                  rw [← offset, Option.map_none, Option.bind_none]
                  simpa only [Prog.wp_bind, Prog.wp_pure] using leave
              | some next =>
                  obtain ⟨next, off⟩ := next
                  obtain ⟨entry, names, gets⟩ := result
                  rw [← offset]
                  simp only [Option.map_some, Option.bind_some, Prog.wp_bind]
                  exact turn isDir entry names gets
          · simp only [ne_eq, isDir, not_false_eq_true, if_true]
            simpa only [Prog.wp_bind, Prog.wp_pure] using leave

end Loop

/-! ## `namex` -/

/-- The working directory: the root until somebody asks for it. -/
def Kernel.cwdInum (kernel : Kernel) : Nat :=
  match kernel.cwd with
  | none => ROOTINO
  | some ip => (kernel.icache ip).inum

/-- The working directory stays where it is while it is referenced. -/
theorem cwdInum_of_keeps {kernel kernel' : Kernel} {floor : Slot → Int}
    (keeps : Keeps floor kernel kernel') (same : kernel'.cwd = kernel.cwd)
    (above : ∀ ip, kernel.cwd = some ip → 0 < floor ip) : kernel'.cwdInum = kernel.cwdInum := by
  unfold Kernel.cwdInum
  rw [same]
  cases cwd : kernel.cwd with
  | none => rfl
  | some ip => exact (keeps ip (above ip cwd)).1

/-- A program that gives references and takes some leaves the working directory and the
process table alone. -/
theorem Takes.frame {α : Type} {program : FsM α} {delta : α → Slot → Int} {P : Disk → Prop}
    {F : Stop → FsWorld → Prop} {Q : α → FsWorld → Prop} {world : FsWorld}
    (takes : Takes program delta) (holds : program.wp P F Q world) :
    program.wp P F (fun value after => Q value after ∧ after.mem.cwd = world.mem.cwd ∧
      after.mem.table = world.mem.table) world :=
  (holds.and (takes world)).conseq (fun _ both => both.1) (fun _ _ both => both.1)
    fun _ _ both => ⟨both.1, congrArg Prod.fst both.2.1, congrArg Prod.snd both.2.1⟩

section Namex

variable {P : Disk → Prop} {F : Stop → FsWorld → Prop} {files : Files} {world : FsWorld}
  {g : Ghost} (safe : ∀ world g, Sound ∅ world g → P world.disk)
  (noType : ∀ world, F .ilockNoType world) (accepts : Accepts F g.aligned)
  (sound : Sound ∅ world g) (idle : g.Idle) (unpinned : g.pinned = ∅) (nonneg : 0 ≤ g.held)
  (root : ROOTINO < g.sb.ninodes)
  (within : ∀ j node, g.files world.disk j = some node → files j = some node)

include safe noType accepts unpinned nonneg within

/-- The walk from an inode that a reference has just been taken to. -/
theorem namexFrom_spec {parent : Bool} {path : List Byte} {ip : Slot} {i : Nat}
    {middle : FsWorld} (gets : Gets ∅ i world g ip middle) :
    (namexLoop parent (path.length + 1) ip path).wp P F
      (Walks i g.held g.held (files.walk parent (path.length + 1) i path) world g) middle := by
  have taken := gets.moves
  have owed : one ip ≤ (g.hold (g.held + one ip)).held := by
    intro other
    have above : 0 ≤ g.held other := nonneg other
    change one ip other ≤ g.held other + one ip other
    omega
  have same : (g.hold (g.held + one ip)).files middle.disk = g.files world.disk := taken.files
  have inside : ∀ j node, (g.hold (g.held + one ip)).files middle.disk j = some node →
      files j = some node := by
    rw [same]
    exact within
  have enough : path.length < path.length + 1 := Nat.lt_succ_self _
  have accepts' : Accepts F (g.hold (g.held + one ip)).aligned := accepts
  refine (namexLoop_spec safe noType enough accepts' taken.sound taken.idle unpinned owed gets.inum
    inside).mono ?_
  rintro result after ⟨g', files', moves, loses, expected⟩
  have held : (g.hold (g.held + one ip)).held - one ip = g.held := add_sub_cancel_right _ _
  rw [held] at moves
  rw [same] at loses
  exact ⟨g', files', taken.trans moves, loses, expected⟩

include sound idle root

theorem namexRoot_spec {path : List Byte} {parent : Bool} :
    (namexRoot path parent).wp P F
      (fun result after =>
        Walks ROOTINO g.held g.held (files.walk parent (path.length + 1) ROOTINO path) world g
            result after ∧
          after.mem.cwd = world.mem.cwd ∧ after.mem.table = world.mem.table) world := by
  refine namexRoot_takes.frame ?_
  unfold namexRoot
  rw [Prog.wp_bind]
  refine (iget_spec accepts.benign sound idle root).mono fun ip after gets => ?_
  exact namexFrom_spec safe noType accepts unpinned nonneg within gets

omit safe within noType unpinned in
/-- `myproc` takes a reference to the root if there is no working directory yet. -/
theorem myprocCwd_moves (cwdHeld : ∀ ip, world.mem.cwd = some ip → 0 < g.held ip) :
    myprocCwd.wp P F
      (fun ip after => ∃ g', Moves ∅ g.held 0 world g (g.files world.disk)
          (g.held + oneOf after.mem.cwd - oneOf world.mem.cwd) after g' ∧
        after.mem.cwd = some ip ∧ after.mem.table = world.mem.table ∧ g.held ≤ g'.held ∧
        0 < g'.held ip ∧ (after.mem.icache ip).inum = world.mem.cwdInum) world := by
  unfold myprocCwd
  simp only [Prog.wp_bind, Prog.wp_getMem]
  cases cwd : world.mem.cwd with
  | some ip =>
      refine ⟨g, ?_, cwd, rfl, le_rfl, cwdHeld ip cwd, ?_⟩
      · have stays := Moves.refl sound idle g.held
        simpa [cwd] using stays
      · simp [Kernel.cwdInum, cwd]
  | none =>
      have atOnce : ∀ ip, namexLoop false ([slash].length + 1) ip [slash] = pure (some (ip, [])) :=
        fun _ => rfl
      unfold namexRoot
      simp only [Prog.wp_bind, atOnce, Prog.wp_pure, Prog.wp_modifyMem]
      refine (iget_takes.frame (iget_spec accepts.benign sound idle root)).mono ?_
      rintro ip after ⟨gets, sameCwd, table⟩
      have taken := gets.moves
      have entries := sameEntries_refl after.mem
      refine ⟨g.hold (g.held + one ip), ?_, trivial, table, ?_, ?_, ?_⟩
      · refine { taken with
          sound := taken.sound.sameEntries entries rfl rfl
          keeps := taken.keeps.trans (keeps_of_sameEntries entries _)
          held := ?_ }
        simp [Ghost.hold, sub_eq_add_neg]
      · intro other
        have more := nonneg_one ip other
        change g.held other ≤ g.held other + one ip other
        omega
      · have above : 0 ≤ g.held ip := nonneg ip
        change 0 < g.held ip + one ip ip
        rw [one_self]
        omega
      · simpa [Kernel.cwdInum, cwd] using gets.inum

/-- `namex` returns what the files say. -/
theorem namex_spec {path : List Byte} {parent : Bool}
    (cwdHeld : ∀ ip, world.mem.cwd = some ip → 0 < g.held ip) :
    (namex path parent).wp P F
      (fun result after => Walks (if path.head? = some slash then ROOTINO else world.mem.cwdInum)
          g.held (g.held + oneOf after.mem.cwd - oneOf world.mem.cwd)
          (files.resolve world.mem.cwdInum path parent) world g result after ∧
        after.mem.table = world.mem.table ∧ after.mem.cwdInum = world.mem.cwdInum) world := by
  unfold namex Files.resolve
  split
  · next absolute =>
    refine (namexRoot_spec safe noType accepts sound idle unpinned nonneg root within).mono ?_
    rintro result after ⟨walks, sameCwd, table⟩
    rw [sameCwd, add_sub_cancel_right]
    obtain ⟨g', files', moves, -⟩ := id walks
    exact ⟨walks, table, cwdInum_of_keeps moves.keeps sameCwd cwdHeld⟩
  · next relative =>
    rw [Prog.wp_bind]
    refine (myprocCwd_moves accepts sound idle nonneg root cwdHeld).mono ?_
    rintro cwd middle ⟨g', moves, isCwd, table, more, held, inum⟩
    have inUse : 0 < (middle.mem.icache cwd).ref :=
      lt_of_lt_of_le held (moves.sound.cache.holds cwd)
    have inside : ∀ j node, g'.files middle.disk j = some node → files j = some node := by
      rw [moves.files]
      exact within
    have accepts' : Accepts F g'.aligned := by
      rw [moves.aligned]
      exact accepts
    have middleInum : middle.mem.cwdInum = world.mem.cwdInum := by
      rw [← inum, Kernel.cwdInum, isCwd]
    rw [Prog.wp_bind]
    refine (idup_takes_result.frame (idup_spec accepts.benign moves.sound moves.idle inUse)).mono ?_
    rintro ip duplicated ⟨⟨rfl, gets⟩, sameCwd, sameTable⟩
    refine ((namexLoop_takes _ _ _ _ (Nat.lt_succ_self _)).frame (namexFrom_spec safe noType accepts'
      (moves.pinned.trans unpinned) (nonneg.trans more) inside gets)).mono ?_
    rintro result after ⟨⟨g'', files', walks, loses, expected⟩, stillCwd, stillTable⟩
    have still : after.mem.cwdInum = middle.mem.cwdInum := by
      apply cwdInum_of_keeps walks.keeps (stillCwd.trans sameCwd)
      intro other isOther
      rw [isCwd] at isOther
      exact Option.some.inj isOther ▸ held
    rw [inum] at loses expected
    rw [moves.files] at loses
    refine ⟨⟨g'', files', ?_, loses, expected⟩, stillTable.trans (sameTable.trans table),
      still.trans middleInum⟩
    rw [stillCwd, sameCwd, ← moves.held]
    exact moves.trans (walks.mono more le_rfl)

end Namex

end Notux.Fs
