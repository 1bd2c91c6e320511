import Notux.Fs.Creation

/-!
# Removing files

What `xv6fs_unlink` does to the files.  It clears the entry of a file or of an empty
directory and takes the link away; the file goes when nobody refers to it any more.
-/

namespace Notux.Fs

open Notux.Store Notux.Proc

/-! ## The files -/

/-- The file with one link less. -/
def Node.unlinked (node : Node) : Node := { node with nlink := node.nlink - 1 }

/-- The directory without the entry at an offset, after its child has lost its name. -/
def Node.without (parent child : Node) (off : Nat) : Node :=
  (if child.type = T_DIR then parent.unlinked else parent).enter off Dirent.zero

/-- The two names that `xv6fs_unlink` refuses. -/
def IsDots (name : List Byte) : Prop := name = [dot] ∨ name = [dot, dot]

instance (name : List Byte) : Decidable (IsDots name) := inferInstanceAs (Decidable (_ ∨ _))

namespace Files

/-- Removing `name` from directory `d`: the return value, and the files after. -/
inductive RemovesIn (files : Files) (d : Nat) (name : List Byte) : Int → Files → Prop where
  | dots {files' : Files} (isDots : IsDots name) (drops : files.Drops d files') :
      RemovesIn files d name (-1) files'
  | missing {parent : Node} {files' : Files} (isThere : files d = some parent)
      (absent : parent.lookup name = none) (drops : files.Drops d files') :
      RemovesIn files d name (-1) files'
  | kept {parent : Node} {off : Nat} {middle files' : Files} (isThere : files d = some parent)
      (found : parent.lookup name = some off)
      (first : files.Drops (parent.dirent off).inum.toNat middle) (second : Drops middle d files') :
      RemovesIn files d name (-1) files'
  | removed {parent child : Node} {off : Nat} {middle files' : Files}
      (isThere : files d = some parent) (isDir : parent.type = T_DIR) (notDots : ¬ IsDots name)
      (found : parent.lookup name = some off) (apart : (parent.dirent off).inum.toNat ≠ d)
      (target : files (parent.dirent off).inum.toNat = some child)
      (linked : 1 ≤ child.nlink.toInt)
      (empty : child.type = T_DIR → ∀ o, child.IsEntry o → 2 * DIRENT_SIZE ≤ o →
        (child.dirent o).inum = 0)
      (first : Drops (Function.update files d (some (parent.without child off))) d middle)
      (second : Drops (Function.update middle (parent.dirent off).inum.toNat (some child.unlinked))
        (parent.dirent off).inum.toNat files') :
      RemovesIn files d name 0 files'

/-- Removing a path: the return value, and the files after. -/
inductive Removes (files : Files) (cwd : Nat) (path : List Byte) : Int → Files → Prop where
  | noParent {files' : Files} (missing : files.resolve cwd path true = none)
      (loses : files.Loses (startOf cwd path) files') : Removes files cwd path (-1) files'
  | inParent {d : Nat} {name : List Byte} {middle files' : Files} {result : Int}
      (parent : files.resolve cwd path true = some (d, name))
      (loses : files.Loses (startOf cwd path) middle)
      (removes : RemovesIn middle d name result files') : Removes files cwd path result files'

/-- No entry under another name than `.` and `..` names its own directory. -/
def NoSelf (files : Files) : Prop :=
  ∀ d node off name, files d = some node → node.type = T_DIR → node.lookup name = some off →
    ¬ IsDots name → (node.dirent off).inum.toNat ≠ d

end Files

/-! ## The functions -/

section Functions

variable {P : Disk → Prop} {F : Stop → FsWorld → Prop} {world : FsWorld} {g : Ghost}
  {locks : Set Slot} {dp ip : Slot} {d n : Nat}
  (safe : ∀ world g, Sound ∅ world g → P world.disk) (permits : Permits F g.aligned)

/-- An inode is not locked twice. -/
theorem ilock_twice {Q : Unit → FsWorld → Prop} (stops : F .acquiresleep world)
    (holding : Holding locks world.mem) (taken : ip ∈ locks) : (ilock ip).wp P F Q world := by
  have inUse := holding.used ip taken
  have isLocked := (holding.held ip).mpr taken
  unfold ilock acquiresleep getInode
  simp only [Prog.wp_bind, Prog.wp_getMem, Prog.wp_pure]
  rw [if_neg (by omega)]
  simp only [Prog.wp_bind, Prog.wp_getMem, Prog.wp_pure]
  rw [if_pos isLocked]
  exact stops

include safe permits

/-- Both inodes are given up, the child first. -/
theorem unlockputBoth_spec (stands : Stands (insert ip (insert dp ∅)) world g) (apart : dp ≠ ip)
    (owed : one ip + one dp ≤ g.held) (inumDp : (world.mem.icache dp).inum = d)
    (inumIp : (world.mem.icache ip).inum = n) :
    (unlockputBoth ip dp).wp P F
      (fun _ after => ∃ g' middle files', (g.files world.disk).Drops n middle ∧
        Files.Drops middle d files' ∧
        Step ∅ (g.held - one ip - one dp) 0 world g files' (g.held - one ip - one dp) after g')
      world := by
  have freeIp : ip ∉ insert dp (∅ : Set Slot) := by
    rintro (same | member)
    · exact apart same.symm
    · exact member
  unfold unlockputBoth
  simp only [Prog.wp_bind]
  refine (Prog.wp_bind _ _).mp ((iunlockput_step safe permits stands freeIp inumIp).mono ?_)
  rintro _ middle ⟨g₁, files₁, drops, step⟩
  have above : 0 < (g.held - one ip) dp := by
    have enough : one ip dp + one dp dp ≤ g.held dp := owed dp
    change 0 < g.held dp - one ip dp
    rw [one_self] at enough
    omega
  have inum₁ : (middle.mem.icache dp).inum = d := (step.keeps dp above).1.trans inumDp
  refine (Prog.wp_bind _ _).mp ((iunlockput_step safe (step.permits permits)
    (step.stands stands.unpinned) (Set.notMem_empty dp) inum₁).mono ?_)
  rintro _ after ⟨g', files', drops', last⟩
  rw [step.files] at drops'
  rw [step.held] at last
  exact ⟨g', files₁, files', drops, drops', (step.mono (sub_one_le _ _) le_rfl).trans last⟩

/-- `unlinkEntry` clears the entry and takes the link away. -/
theorem unlinkEntry_spec {parent child : Node} {off : Nat}
    (stands : Stands (insert ip (insert dp ∅)) world g) (cachesDp : Caches world dp d)
    (cachesIp : Caches world ip n) (differ : n ≠ d) (owed : one ip + one dp ≤ g.held)
    (isThere : g.files world.disk d = some parent) (isDir : parent.type = T_DIR)
    (entry : parent.IsEntry off) (target : g.files world.disk n = some child) :
    (unlinkEntry dp ip off).wp P F
      (fun r after => r = 0 ∧ ∃ g' middle files',
        Files.Drops (Function.update (g.files world.disk) d (some (parent.without child off))) d
          middle ∧
        Files.Drops (Function.update middle n (some child.unlinked)) n files' ∧
        Step ∅ (g.held - one ip - one dp) 0 world g files' (g.held - one ip - one dp) after g')
      world := by
  have parentNode : (g.view d).node world.disk = parent :=
    (stands.idle.owns_of_files isThere).2
  have childNode : (g.view n).node world.disk = child := (stands.idle.owns_of_files target).2
  have type : (g.view d).type = T_DIR := (congrArg Node.type parentNode).trans isDir
  have size : (g.view d).size = parent.size := congrArg Node.size parentNode
  have whole : off + DIRENT_SIZE ≤ (g.view d).size.toNat := by
    rw [size]
    exact entry.2
  have apart : dp ≠ ip := by
    rintro rfl
    exact differ (cachesIp.inum.symm.trans cachesDp.inum)
  have small := (stands.sound.files d (cachesDp.owns stands.sound (stands.idle.attached d))).small
  unfold unlinkEntry
  rw [Prog.wp_bind]
  refine (writeEntry_step safe permits stands cachesDp type entry.1
    (Nat.le_of_add_right_le whole) (fun inUse => absurd rfl inUse)).mono ?_
  rintro r cleared (⟨-, tooLong⟩ | ⟨rfl, -, g₁, dp₁, clears⟩)
  · exact absurd (Nat.le_trans whole small) (Nat.not_le.mpr tooLong)
  have free : enterCost ((g.view d).node world.disk) off = 0 := if_pos whole
  rw [free, parentNode] at clears
  have ip₁ : Caches cleared ip n := Step.caches clears cachesIp
  have child₁ : (g₁.view n).node cleared.disk = child := by
    apply (clears 0).node ip₁
    rw [Function.update_of_ne differ]
    exact target
  have parent₁ : (g₁.view d).node cleared.disk = parent.enter off Dirent.zero :=
    (clears 0).node dp₁ (Function.update_self _ _ _)
  have type₁ : (cleared.mem.icache ip).din.type = child.type := by
    rw [ip₁.din (clears 0).sound, ← child₁]
    rfl
  rw [if_neg (by simp)]
  simp only [Prog.wp_bind, getInode, Prog.wp_getMem, Prog.wp_pure, type₁]
  -- the directory loses the link of `..`
  have counted : (when (child.type = T_DIR) do
      modifyInode dp (·.mapDin fun din => { din with nlink := din.nlink - 1 })
      iupdate dp : FsM Unit).wp P F (fun _ after => ∃ g₂, Caches after dp d ∧ ∀ floor,
        Step (insert ip (insert dp ∅)) floor 0 world g
          (Function.update (g.files world.disk) d (some (parent.without child off))) g.held after g₂)
      cleared := by
    unfold when Node.without
    split
    · refine setFields_step safe ((clears 0).stands stands.unpinned) dp₁
        (fun din => { din with nlink := din.nlink - 1 }) rfl rfl rfl ?_
      intro after g₂ dp₂ stores
      have unlinked : ({ g₁.view d with nlink := (g₁.view d).nlink - 1 } : Dinode).node
          cleared.disk = parent.unlinked.enter off Dirent.zero := by
        have changed := congrArg (fun node : Node => { node with nlink := node.nlink - 1 }) parent₁
        exact changed
      rw [unlinked, (clears 0).files, Function.update_idem, (clears 0).held] at stores
      exact ⟨g₂, dp₂, fun floor => (clears floor).trans (stores floor)⟩
    · exact ⟨g₁, dp₁, clears⟩
  refine counted.mono ?_
  rintro _ unlinked ⟨g₂, dp₂, steps⟩
  have freeDp : dp ∉ insert ip (∅ : Set Slot) := by
    rintro (same | member)
    · exact apart same
    · exact member
  have second := steps (g.held - one ip - one dp)
  have stands₂ := second.stands stands.unpinned
  rw [Set.insert_comm] at stands₂
  have ip₂ : Caches unlinked ip n := Step.caches steps cachesIp
  refine (Prog.wp_bind _ _).mp ((iunlockput_step safe (second.permits permits) stands₂ freeDp
    dp₂.inum).mono ?_)
  rintro _ dropped ⟨g₃, middle, drops, step⟩
  rw [second.files] at drops
  rw [second.held] at step
  have above : 0 < (g.held - one dp) ip := by
    have enough : one ip ip + one dp ip ≤ g.held ip := owed ip
    change 0 < g.held ip - one dp ip
    rw [one_self] at enough
    omega
  have ip₃ : Caches dropped ip n := ip₂.keep step.keeps above
  have third := second.trans (step.mono (fun other => by
    have nonneg := nonneg_one ip other
    change g.held other - one ip other - one dp other ≤ g.held other - one dp other
    omega) le_rfl)
  have target₃ : middle n = some child := by
    rw [drops.other differ, Function.update_of_ne differ]
    exact target
  have child₃ : (g₃.view n).node dropped.disk = child := third.node ip₃ target₃
  have stands₃ := third.stands stands.unpinned
  refine (Prog.wp_bind _ _).mp (setFields_step safe stands₃ ip₃
    (fun din => { din with nlink := din.nlink - 1 }) rfl rfl rfl ?_)
  intro stored g₄ ip₄ stores
  have last : ({ g₃.view n with nlink := (g₃.view n).nlink - 1 } : Dinode).node dropped.disk =
      child.unlinked := by
    have changed := congrArg (fun node : Node => { node with nlink := node.nlink - 1 }) child₃
    exact changed
  rw [last, third.files, third.held] at stores
  have fourth := third.trans (stores (g.held - one ip - one dp))
  refine (Prog.wp_bind _ _).mp ((iunlockput_step safe (fourth.permits permits)
    (fourth.stands stands.unpinned) (Set.notMem_empty ip) ip₄.inum).mono ?_)
  rintro _ after ⟨g', files', drops', final⟩
  rw [fourth.files] at drops'
  have held : g₄.held - one ip = g.held - one ip - one dp := by
    rw [fourth.held]
    abel
  rw [held] at final
  exact ⟨trivial, g', middle, files', drops, drops', fourth.trans final⟩

/-- `unlinkIn` does to the files what removing from a directory means. -/
theorem unlinkIn_spec {name : List Byte} (stands : Stands ∅ world g) (owed : one dp ≤ g.held)
    (inum : (world.mem.icache dp).inum = d)
    (dirOnly : ∀ node, g.files world.disk d = some node → node.type = T_DIR)
    (noSelf : (g.files world.disk).NoSelf ∨ ∀ world, F .acquiresleep world) :
    (unlinkIn dp name).wp P F
      (fun r after => ∃ g' files', Files.RemovesIn (g.files world.disk) d name r files' ∧
        Step ∅ (g.held - one dp) 0 world g files' (g.held - one dp) after g') world := by
  have freeDp : dp ∉ (∅ : Set Slot) := Set.notMem_empty dp
  have atDp : 0 < g.held dp := by
    have below : (1 : Int) ≤ g.held dp := by simpa [one_self] using owed dp
    omega
  unfold unlinkIn
  rw [Prog.wp_bind]
  refine (ilock_step permits stands freeDp inum).mono ?_
  rintro _ locked ⟨disk, cachesDp, locks⟩
  have first := locks (g.held - one dp)
  have stands₁ := first.stands stands.unpinned
  have files₁ : g.files locked.disk = g.files world.disk := by rw [disk]
  -- the exits before an entry has been found
  have leave : ∀ {after : FsWorld}, after = locked → Holding (insert dp ∅) after.mem →
      (∀ files', (g.files world.disk).Drops d files' →
        Files.RemovesIn (g.files world.disk) d name (-1) files') →
      (iunlock dp).wp P F (fun _ middle => (iput dp).wp P F (fun _ final => ∃ g' files',
        Files.RemovesIn (g.files world.disk) d name (-1) files' ∧
        Step ∅ (g.held - one dp) 0 world g files' (g.held - one dp) final g') middle) after := by
    rintro after rfl holding result
    refine (Prog.wp_bind _ _).mp ((iunlockput_step safe permits stands₁ freeDp
      cachesDp.inum).mono ?_)
    rintro _ final ⟨g', files', drops, step⟩
    rw [files₁] at drops
    exact ⟨g', files', result files' drops, first.trans step⟩
  by_cases dots : name = [dot] ∨ name = [dot, dot]
  · rw [if_pos dots]
    simp only [Prog.wp_bind, Prog.wp_pure]
    exact leave rfl first.holding fun _ drops => .dots dots drops
  rw [if_neg dots]
  obtain ⟨parent, parentNode⟩ : ∃ parent, parent = (g.view d).node locked.disk := ⟨_, rfl⟩
  have isThere : g.files world.disk d = some parent := by
    rw [parentNode, ← files₁]
    exact (first.owns cachesDp).files
  have isDir : parent.type = T_DIR := dirOnly parent isThere
  have type₁ : (g.view d).type = T_DIR := by rw [parentNode] at isDir; exact isDir
  rw [Prog.wp_bind]
  refine (dirlookup_step permits stands₁ cachesDp type₁).mono ?_
  rw [← parentNode]
  rintro known looked ⟨⟨result, offset⟩, holding⟩
  cases known with
  | none =>
      obtain ⟨rfl, -⟩ := result
      simp only [Prog.wp_bind, Prog.wp_pure]
      exact leave rfl holding fun _ drops => .missing isThere offset.symm drops
  | some known =>
      obtain ⟨ip, off⟩ := known
      obtain ⟨entry, names, gets⟩ := result
      have found : parent.lookup name = some off := offset.symm
      have second : Step (insert dp ∅) (g.held - one dp) 0 locked g (g.files locked.disk)
          (g.held + one ip) looked (g.hold (g.held + one ip)) :=
        ⟨gets.moves.mono (sub_one_le _ _) le_rfl, holding⟩
      have stands₂ := second.stands stands.unpinned
      have dp₂ : Caches looked dp d := cachesDp.keep gets.moves.keeps atDp
      have both := first.trans second
      simp only [Prog.wp_bind]
      by_cases self : (parent.dirent off).inum.toNat = d
      · rcases noSelf with never | stops
        · exact absurd self (never d parent off name isThere isDir found dots)
        · have same : ip = dp := second.sound.cache.unique ip dp gets.inUse dp₂.inUse
            (gets.inum.trans (self.trans dp₂.inum.symm))
          exact ilock_twice (stops looked) holding (same ▸ Set.mem_insert dp ∅)
      have apart : dp ≠ ip := by
        rintro rfl
        exact self (gets.inum.symm.trans dp₂.inum)
      have freeIp : ip ∉ insert dp (∅ : Set Slot) := by
        rintro (same | member)
        · exact apart same.symm
        · exact member
      refine (ilock_step (both.permits permits) stands₂ freeIp gets.inum).mono ?_
      rintro _ loaded ⟨disk₃, cachesIp, locks₃⟩
      have dp₃ : Caches loaded dp d := Step.caches locks₃ dp₂
      have third := both.trans (locks₃ (g.held - one dp))
      rw [second.files, files₁, second.held] at third
      obtain ⟨child, childNode⟩ : ∃ child, child =
          ((g.hold (g.held + one ip)).view (parent.dirent off).inum.toNat).node loaded.disk :=
        ⟨_, rfl⟩
      have target : g.files world.disk (parent.dirent off).inum.toNat = some child := by
        rw [childNode]
        exact third.found cachesIp
      have owedBoth : one ip + one dp ≤ (g.hold (g.held + one ip)).held := by
        intro other
        have spare : one dp other ≤ g.held other := owed other
        change one ip other + one dp other ≤ g.held other + one ip other
        omega
      have held : (g.hold (g.held + one ip)).held - one ip - one dp = g.held - one dp := by
        change g.held + one ip - one ip - one dp = _
        abel
      have din : (loaded.mem.icache ip).din =
          (g.hold (g.held + one ip)).view (parent.dirent off).inum.toNat := cachesIp.din third.sound
      -- the exits that give up both inodes
      have giveUp : ∀ {after : FsWorld}, after = loaded →
          (unlockputBoth ip dp).wp P F (fun _ final => ∃ g' files',
            Files.RemovesIn (g.files world.disk) d name (-1) files' ∧
            Step ∅ (g.held - one dp) 0 world g files' (g.held - one dp) final g') after := by
        rintro after rfl
        refine (unlockputBoth_spec safe (third.permits permits) (third.stands stands.unpinned) apart
          owedBoth dp₃.inum cachesIp.inum).mono ?_
        rintro _ final ⟨g', middle, files', drops, drops', step⟩
        rw [third.files] at drops
        rw [held] at step
        exact ⟨g', files', .kept isThere found drops drops', third.trans step⟩
      -- the exit that removes the entry
      have remove : ∀ {after : FsWorld}, after = loaded → 1 ≤ child.nlink.toInt →
          (child.type = T_DIR → ∀ o, child.IsEntry o → 2 * DIRENT_SIZE ≤ o →
            (child.dirent o).inum = 0) →
          (unlinkEntry dp ip off).wp P F (fun r final => ∃ g' files',
            Files.RemovesIn (g.files world.disk) d name r files' ∧
            Step ∅ (g.held - one dp) 0 world g files' (g.held - one dp) final g') after := by
        rintro after rfl linked empty
        refine (unlinkEntry_spec safe (third.permits permits) (third.stands stands.unpinned) dp₃
          cachesIp self owedBoth (third.files ▸ isThere) isDir entry (third.files ▸ target)).mono ?_
        rintro r final ⟨rfl, g', middle, files', drops, drops', step⟩
        rw [third.files] at drops
        rw [held] at step
        exact ⟨g', files', .removed isThere isDir dots found self target linked empty drops drops',
          third.trans step⟩
      simp only [getInode, Prog.wp_bind, Prog.wp_getMem, Prog.wp_pure, din]
      have fields : (g.hold (g.held + one ip)).view (parent.dirent off).inum.toNat =
          g.view (parent.dirent off).inum.toNat := rfl
      split
      · simp only [Prog.wp_bind, Prog.wp_pure]
        exact giveUp rfl
      · next linked =>
        have isLinked : 1 ≤ child.nlink.toInt := by
          rw [childNode]
          exact Int.not_lt.mp linked
        split
        · next isDirectory =>
          rw [Prog.wp_bind]
          refine (isdirempty_step (third.stands stands.unpinned) cachesIp isDirectory
            (Nat.dvd_mul_left _ _)).mono ?_
          rw [← childNode]
          rintro empty after ⟨⟨rfl, clear⟩, -⟩
          split
          · next isEmpty => exact remove rfl isLinked fun _ => clear isEmpty
          · simp only [Prog.wp_bind, Prog.wp_pure]
            exact giveUp rfl
        · next isFile =>
          refine remove rfl isLinked fun isDirectory => absurd ?_ isFile
          rw [childNode] at isDirectory
          exact isDirectory

/-- `xv6fs_unlink` does to the files what removing a path means. -/
theorem xv6fsUnlink_spec {path : List Byte} (ready : Ready world g)
    (noSelf : (g.files world.disk).NoSelf ∨ ∀ world, F .acquiresleep world) :
    (xv6fsUnlink path).wp P F
      (fun r after => ∃ g' files',
        (g.files world.disk).Removes world.mem.cwdInum path r files' ∧
        Step ∅ (g.held - oneOf world.mem.cwd) 0 world g files'
          (g.held + oneOf after.mem.cwd - oneOf world.mem.cwd) after g' ∧
        after.mem.table = world.mem.table ∧ after.mem.cwdInum = world.mem.cwdInum) world := by
  rw [xv6fsUnlink_eq, Prog.wp_bind]
  refine (nameiparent_step safe permits ready).mono ?_
  rintro found middle ⟨g₁, files₁, loses, walk, resolved, table, cwdInum⟩
  cases found with
  | none =>
      have none : g.held + oneOf middle.mem.cwd - oneOf world.mem.cwd + walked none =
          g.held + oneOf middle.mem.cwd - oneOf world.mem.cwd := add_zero _
      rw [none] at walk
      exact ⟨g₁, files₁, .noParent resolved.symm loses, walk.mono (sub_oneOf_le _ _) le_rfl, table,
        cwdInum⟩
  | some found =>
      obtain ⟨dp, name⟩ := found
      obtain ⟨d, isInum⟩ : ∃ d, (middle.mem.icache dp).inum = d := ⟨_, rfl⟩
      have resolvedTo : (g.files world.disk).resolve world.mem.cwdInum path true = some (d, name) := by
        rw [← resolved, Option.map_some, isInum]
      have dirOnly : ∀ node, g₁.files middle.disk d = some node → node.type = T_DIR := by
        intro node isThere
        rw [walk.files] at isThere
        obtain ⟨parent, found, isDir⟩ := Files.resolve_parent resolvedTo
        rw [loses.within isThere] at found
        exact Option.some.inj found ▸ isDir
      have noSelf₁ : (g₁.files middle.disk).NoSelf ∨ ∀ world, F .acquiresleep world := by
        apply noSelf.imp_left
        intro never d node off name isThere
        rw [walk.files] at isThere
        exact never d node off name (loses.within isThere)
      have held₁ : g₁.held = g.held + oneOf middle.mem.cwd - oneOf world.mem.cwd + one dp := walk.held
      have owed : one dp ≤ g₁.held := held₁ ▸ walked_owed ready.cwd
      have heldAfter : g₁.held - one dp = g.held + oneOf middle.mem.cwd - oneOf world.mem.cwd := by
        rw [held₁, add_sub_cancel_right]
      refine (unlinkIn_takes.frame (unlinkIn_spec safe (walk.permits permits)
        (walk.stands ready.unpinned) owed isInum dirOnly noSelf₁)).mono ?_
      rintro result after ⟨⟨g', files', removes, step⟩, sameCwd, sameTable⟩
      rw [walk.files] at removes
      rw [heldAfter] at step
      have floor : g.held - oneOf world.mem.cwd ≤
          g.held + oneOf middle.mem.cwd - oneOf world.mem.cwd := by
        intro other
        have more : 0 ≤ oneOf middle.mem.cwd other := nonneg_oneOf _ other
        change g.held other - oneOf world.mem.cwd other ≤
          g.held other + oneOf middle.mem.cwd other - oneOf world.mem.cwd other
        omega
      have still : after.mem.cwdInum = middle.mem.cwdInum := by
        apply cwdInum_of_keeps step.keeps sameCwd
        intro ip isCwd
        have below : oneOf world.mem.cwd ip ≤ g.held ip := ready.cwd ip
        change 0 < g.held ip + oneOf middle.mem.cwd ip - oneOf world.mem.cwd ip
        rw [isCwd, oneOf_some, one_self]
        omega
      refine ⟨g', files', .inParent resolvedTo loses removes, ?_, sameTable.trans table,
        still.trans cwdInum⟩
      rw [sameCwd]
      exact (walk.mono (sub_oneOf_le _ _) le_rfl).trans (step.mono floor le_rfl)

end Functions

end Notux.Fs
