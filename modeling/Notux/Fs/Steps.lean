import Notux.Fs.Locks
import Notux.Fs.Resolve

/-!
# Steps under locks

What each function does to the files, together with what it does to the locks.  Creating
and removing a file lock two inodes at once; that they are not the same one is a fact
about the files, so the two accounts are kept side by side.
-/

namespace Notux.Fs

open Notux.Store Notux.Proc

/-- Which panics may happen if no lock is misused. -/
structure Permits (F : Stop → FsWorld → Prop) (aligned : Prop) : Prop where
  benign : ∀ reason world, reason.Benign → ¬ reason.Locking → F reason world
  ragged : ¬ aligned → ∀ world, F .dirlookupRead world ∧ F .dirlinkRead world
  noType : ∀ world, F .ilockNoType world

/-- The panics that are left to the account of the locks. -/
def OrLocking (F : Stop → FsWorld → Prop) (reason : Stop) (world : FsWorld) : Prop :=
  F reason world ∨ reason.Locking

theorem Permits.accepts {F : Stop → FsWorld → Prop} {aligned : Prop}
    (permits : Permits F aligned) : Accepts (OrLocking F) aligned where
  benign reason world isBenign := by
    by_cases locking : reason.Locking
    · exact Or.inr locking
    · exact Or.inl (permits.benign reason world isBenign locking)
  ragged asked world := ⟨Or.inl (permits.ragged asked world).1, Or.inl (permits.ragged asked world).2⟩

/-- Both accounts of a program at once. -/
theorem joint {α : Type} {program : FsM α} {before : Kernel → Prop} {after : α → Kernel → Prop}
    {P : Disk → Prop} {F : Stop → FsWorld → Prop} {Q : α → FsWorld → Prop} {world : FsWorld}
    (safely : Safely before program after) (start : before world.mem)
    (spec : program.wp P (OrLocking F) Q world) :
    program.wp P F (fun value final => Q value final ∧ after value final.mem) world := by
  apply (safely.along spec start).conseq (fun _ => id) _ fun _ _ => id
  rintro reason final ⟨accepted | locking, notLocking⟩
  · exact accepted
  · exact absurd locking notLocking

/-- A file may be gone if it had no links. -/
def Files.Drops (files : Files) (i : Nat) (files' : Files) : Prop :=
  files' = files ∨
    files' = Function.update files i none ∧ ∃ node, files i = some node ∧ node.nlink = 0

theorem Files.Drops.within {files files' : Files} {i j : Nat} {node : Node}
    (drops : files.Drops i files') (found : files' j = some node) : files j = some node := by
  rcases drops with rfl | ⟨rfl, -⟩
  · exact found
  · by_cases same : j = i
    · rw [same, Function.update_self] at found
      cases found
    · rwa [Function.update_of_ne same] at found

theorem Files.Drops.other {files files' : Files} {i j : Nat} (drops : files.Drops i files')
    (differ : j ≠ i) : files' j = files j := by
  rcases drops with rfl | ⟨rfl, -⟩
  · rfl
  · exact Function.update_of_ne differ _ _

/-- The invariant between two steps, with the locks that are held. -/
structure Stands (locks : Set Slot) (world : FsWorld) (g : Ghost) : Prop where
  sound : Sound ∅ world g
  idle : g.Idle
  unpinned : g.pinned = ∅
  holding : Holding locks world.mem

/-- An operation together with the locks that are held after it. -/
structure Step (locks : Set Slot) (floor : Slot → Int) (k : Nat) (world : FsWorld) (g : Ghost)
    (files : Files) (held : Slot → Int) (after : FsWorld) (g' : Ghost) : Prop
    extends Moves ∅ floor k world g files held after g' where
  holding : Holding locks after.mem

section Combining

variable {locks locks' : Set Slot} {floor lower : Slot → Int} {k m : Nat}
  {world middle after : FsWorld} {g g' g'' : Ghost} {files files' : Files}
  {held held' : Slot → Int}

theorem Step.stands (step : Step locks floor k world g files held after g')
    (unpinned : g.pinned = ∅) : Stands locks after g' :=
  ⟨step.sound, step.idle, step.pinned.trans unpinned, step.holding⟩

theorem Step.trans (first : Step locks floor k world g files held middle g')
    (second : Step locks' floor m middle g' files' held' after g'') :
    Step locks' floor (k + m) world g files' held' after g'' :=
  ⟨first.toMoves.trans second.toMoves, second.holding⟩

theorem Step.mono (step : Step locks floor k world g files held after g') (below : lower ≤ floor)
    (more : k ≤ m) : Step locks lower m world g files held after g' :=
  ⟨step.toMoves.mono below more, step.holding⟩

/-- A cached inode after an operation. -/
theorem Step.owns (step : Step locks floor k world g files held after g') {ip : Slot} {n : Nat}
    (caches : Caches after ip n) : g'.Owns n :=
  caches.owns step.sound (step.idle.attached n)

theorem Step.found (step : Step locks floor k world g files held after g') {ip : Slot} {n : Nat}
    (caches : Caches after ip n) : files n = some ((g'.view n).node after.disk) := by
  rw [← step.files]
  exact (step.owns caches).files

theorem Step.node (step : Step locks floor k world g files held after g') {ip : Slot} {n : Nat}
    {node : Node} (caches : Caches after ip n) (found : files n = some node) :
    (g'.view n).node after.disk = node :=
  Option.some.inj ((step.found caches).symm.trans found)

theorem Step.permits {F : Stop → FsWorld → Prop}
    (step : Step locks floor k world g files held after g') (permits : Permits F g.aligned) :
    Permits F g'.aligned := by
  rw [step.aligned]
  exact permits

/-- An inode stays cached while it is referenced. -/
theorem Step.caches (steps : ∀ floor, Step locks floor k world g files held after g') {ip : Slot}
    {n : Nat} (caches : Caches world ip n) : Caches after ip n :=
  caches.keep (steps fun _ => 1).keeps Int.one_pos

end Combining

section Functions

variable {P : Disk → Prop} {F : Stop → FsWorld → Prop} {world : FsWorld} {g : Ghost}
  {locks : Set Slot} {ip : Slot} {n : Nat}
  (safe : ∀ world g, Sound ∅ world g → P world.disk) (permits : Permits F g.aligned)

include permits

/-- `ilock` loads an inode and takes its lock. -/
theorem ilock_step (stands : Stands locks world g) (free : ip ∉ locks)
    (inum : (world.mem.icache ip).inum = n) :
    (ilock ip).wp P F
      (fun _ after => after.disk = world.disk ∧ Caches after ip n ∧
        ∀ floor, Step (insert ip locks) floor 0 world g (g.files world.disk) g.held after g)
      world := by
  apply (joint (ilock_holding free) stands.holding (ilock_spec permits.accepts.benign stands.sound
    stands.idle inum fun _ world => Or.inl (permits.noType world))).mono
  rintro _ after ⟨loads, holding⟩
  exact ⟨loads.disk, loads.caches, fun floor => ⟨loads.moves stands.idle floor, holding⟩⟩

/-- `iunlock` releases the lock. -/
theorem iunlock_step (stands : Stands (insert ip locks) world g) (free : ip ∉ locks) :
    (iunlock ip).wp P F
      (fun _ after => after.disk = world.disk ∧
        ∀ floor, Step locks floor 0 world g (g.files world.disk) g.held after g) world := by
  apply (joint (iunlock_holding free) stands.holding (iunlock_spec permits.accepts.benign
    stands.sound)).mono
  rintro _ after ⟨unlocks, holding⟩
  exact ⟨unlocks.disk, fun floor => ⟨unlocks.moves stands.idle floor, holding⟩⟩

/-- `dirlookup` finds the first entry that has the name. -/
theorem dirlookup_step {dp : Slot} {d : Nat} {name : List Byte} (stands : Stands locks world g)
    (caches : Caches world dp d) (isDir : (g.view d).type = T_DIR) :
    (dirlookup dp name).wp P F
      (fun found after => (Looked ∅ world g ((g.view d).node world.disk) name found after ∧
        found.map Prod.snd = ((g.view d).node world.disk).lookup name) ∧ Holding locks after.mem)
      world :=
  joint dirlookup_safely stands.holding (dirlookup_first permits.accepts stands.sound stands.idle
    caches (caches.owns stands.sound (stands.idle.attached d)) isDir)

include safe

/-- `iput` gives a reference back; the file goes with the last one if it has no links. -/
theorem iput_frees (stands : Stands locks world g) (free : ip ∉ locks)
    (inum : (world.mem.icache ip).inum = n) :
    (iput ip).wp P F
      (fun _ after => ∃ g' files', (g.files world.disk).Drops n files' ∧
        (¬ world.mem.Frees ip → files' = g.files world.disk) ∧
        Step locks (g.held - one ip) 0 world g files' (g.held - one ip) after g') world := by
  apply (joint (iput_holding free) stands.holding (iput_spec safe permits.accepts.benign stands.sound
    stands.idle inum fun _ => stands.unpinned ▸ nofun)).mono
  rintro _ after ⟨⟨g', moves⟩, holding⟩
  refine ⟨g', _, ?_, fun keeps => if_neg keeps, moves, holding⟩
  split
  · next frees =>
    obtain ⟨valid, unlinked, last⟩ := frees
    have caches : Caches world ip n := ⟨by omega, valid, inum⟩
    have owns := caches.owns stands.sound (stands.idle.attached n)
    refine Or.inr ⟨rfl, _, owns.files, ?_⟩
    rw [node_nlink, ← caches.din stands.sound]
    exact unlinked
  · exact Or.inl rfl

theorem iput_step (stands : Stands locks world g) (free : ip ∉ locks)
    (inum : (world.mem.icache ip).inum = n) :
    (iput ip).wp P F
      (fun _ after => ∃ g' files', (g.files world.disk).Drops n files' ∧
        Step locks (g.held - one ip) 0 world g files' (g.held - one ip) after g') world :=
  (iput_frees safe permits stands free inum).mono
    fun _ _ ⟨g', files', drops, _, step⟩ => ⟨g', files', drops, step⟩

theorem iunlockput_step (stands : Stands (insert ip locks) world g) (free : ip ∉ locks)
    (inum : (world.mem.icache ip).inum = n) :
    (iunlockput ip).wp P F
      (fun _ after => ∃ g' files', (g.files world.disk).Drops n files' ∧
        Step locks (g.held - one ip) 0 world g files' (g.held - one ip) after g') world := by
  unfold iunlockput
  rw [Prog.wp_bind]
  apply (iunlock_step permits stands free).mono
  rintro _ middle ⟨disk, unlocks⟩
  have first := unlocks (g.held - one ip)
  have still : (middle.mem.icache ip).inum = n :=
    ((unlocks fun _ => 1).keeps ip Int.one_pos).1.trans inum
  apply (iput_step safe permits (first.stands stands.unpinned) free still).mono
  rintro _ after ⟨g', files', drops, step⟩
  rw [disk] at drops
  exact ⟨g', files', drops, first.trans step⟩

omit permits in
/-- Fields of an inode are assigned and the inode is stored. -/
theorem setFields_step (stands : Stands locks world g) (caches : Caches world ip n)
    (change : Dinode → Dinode) (addrs : (change (g.view n)).addrs = (g.view n).addrs)
    (type : (change (g.view n)).type = (g.view n).type)
    (size : (change (g.view n)).size = (g.view n).size) {Q : Unit → FsWorld → Prop}
    (rest : ∀ after g', Caches after ip n → (∀ floor, Step locks floor 0 world g
      (Function.update (g.files world.disk) n (some ((change (g.view n)).node world.disk)))
      g.held after g') → Q () after) :
    (do
      modifyInode ip (·.mapDin change)
      iupdate ip : FsM Unit).wp P F Q world := by
  have owns := caches.owns stands.sound (stands.idle.attached n)
  have allocated : (change (g.view n)).type ≠ 0 := by
    rw [type]
    exact owns.allocated
  have spec := setFields_spec (F := OrLocking F) safe stands.sound (stands.idle.only n) caches owns
    addrs allocated ((stands.sound.files n owns).fields addrs type size)
  have both : Safely (Holding locks) (do
      modifyInode ip (·.mapDin change)
      iupdate ip : FsM Unit) fun _ => Holding locks :=
    .seq mapDin_steady fun _ => iupdate_steady
  apply (joint both stands.holding _).mono _
  · exact fun _ after => ∃ g', Caches after ip n ∧ ∀ floor, Moves ∅ floor 0 world g
      (Function.update (g.files world.disk) n (some ((change (g.view n)).node world.disk)))
      g.held after g'
  · simpa only [Prog.wp_bind, modifyInode, Prog.wp_modifyMem] using spec
  · rintro _ after ⟨⟨g', caches, moves⟩, holding⟩
    exact rest after g' caches fun floor => ⟨moves floor, holding⟩

/-- `ialloc` returns a reference to an empty file that did not exist before. -/
theorem ialloc_step (stands : Stands locks world g) {type : BitVec 16} :
    (ialloc type).wp P F
      (fun ip after => ∃ n g', 0 < n ∧ n < g.sb.ninodes ∧ g.files world.disk n = none ∧
        (after.mem.icache ip).inum = n ∧ 0 < (after.mem.icache ip).ref ∧
        Step locks g.held 0 world g (Function.update (g.files world.disk) n (Node.claimed type))
          (g.held + one ip) after g') world := by
  apply (joint ialloc_safely stands.holding (ialloc_spec safe permits.accepts.benign stands.sound
    stands.idle)).mono
  rintro ip after ⟨⟨n, g', positive, inRange, absent, inUse, inum, moves⟩, holding⟩
  exact ⟨n, g', positive, inRange, absent, inum, inUse, moves, holding⟩

section Directory

variable {dp : Slot} {d : Nat} (stands : Stands locks world g) (caches : Caches world dp d)
  (isDir : (g.view d).type = T_DIR)

include stands caches isDir

/-- `writei` of one entry. -/
theorem writeEntry_step {off : Nat} {de : Dirent} (aligned : DIRENT_SIZE ∣ off)
    (below : off ≤ (g.view d).size.toNat) (allowed : EntryAllowed g d de) :
    (writei dp de.bytes off DIRENT_SIZE).wp P F
      (fun r after => (r = -1 ∧ MAXFILE * BSIZE < off + DIRENT_SIZE) ∨
        (r = DIRENT_SIZE ∧ off + DIRENT_SIZE ≤ MAXFILE * BSIZE ∧
          ∃ g', Caches after dp d ∧ ∀ floor,
            Step locks floor (enterCost ((g.view d).node world.disk) off) world g
              (Function.update (g.files world.disk) d
                (some (((g.view d).node world.disk).enter off de))) g.held after g'))
      world := by
  have owns := caches.owns stands.sound (stands.idle.attached d)
  apply (joint writei_steady stands.holding (writeEntry_spec safe permits.accepts stands.sound
    stands.idle caches owns isDir aligned below allowed)).mono
  rintro r after ⟨failed | ⟨result, fits, g', still, moves⟩, holding⟩
  · exact Or.inl failed
  · exact Or.inr ⟨result, fits, g', still, fun floor => ⟨moves floor, holding⟩⟩

/-- `dirlink` enters a name that the directory does not have. -/
theorem dirlink_step {name : List Byte} {inum : Nat}
    (fresh : ((g.view d).node world.disk).lookup name = none)
    (allowed : EntryAllowed g d ⟨BitVec.ofNat 16 inum, strncpy name⟩) :
    (dirlink dp name inum).wp P F
      (fun r after => r = 0 ∧ ∃ off g', ((g.view d).node world.disk).Vacant off ∧
        off + DIRENT_SIZE ≤ MAXFILE * BSIZE ∧ Caches after dp d ∧ ∀ floor,
          Step locks floor 3 world g
            (Function.update (g.files world.disk) d
              (some (((g.view d).node world.disk).enter off
                ⟨BitVec.ofNat 16 inum, strncpy name⟩))) g.held after g')
      world := by
  have owns := caches.owns stands.sound (stands.idle.attached d)
  unfold dirlink
  rw [Prog.wp_bind]
  apply (dirlookup_step permits stands caches isDir).mono
  rintro found after ⟨⟨looked, offset⟩, holding⟩
  rw [fresh] at offset
  cases found with
  | some entry => cases offset
  | none =>
      obtain ⟨rfl, -⟩ := looked
      simp only [Prog.wp_bind, getInode, Prog.wp_getMem, Prog.wp_pure, caches.din stands.sound]
      apply (joint (dirlinkLoop_steady _ _ _) holding (dirlinkLoop_spec permits.accepts stands.sound
        caches owns isDir (Nat.dvd_zero _) (Nat.zero_le _) _)).mono
      · rintro off _ ⟨⟨rfl, vacant⟩, -⟩
        apply (writeEntry_step safe permits stands caches isDir vacant.1 vacant.2.1 allowed).mono
        rintro r final (⟨rfl, -⟩ | ⟨rfl, fits, g', cached, steps⟩)
        · exact permits.benign _ _ trivial (by rintro ⟨⟩)
        · refine ⟨rfl, off, g', vacant, fits, cached, fun floor => (steps floor).mono le_rfl ?_⟩
          unfold enterCost
          split <;> omega
      · rw [Nat.zero_add, Nat.succ_mul]
        exact Nat.lt_div_mul_add (by decide)

omit safe permits in
/-- `isdirempty` reads entries up to the first in use. -/
theorem isdirempty_step {o : Nat} (aligned : DIRENT_SIZE ∣ o) :
    (isdirempty dp ((g.view d).size.toNat / DIRENT_SIZE + 1) o).wp P F
      (fun empty after => (after = world ∧ (empty = true →
        ∀ off, ((g.view d).node world.disk).IsEntry off → o ≤ off →
          (((g.view d).node world.disk).dirent off).inum = 0)) ∧ Holding locks after.mem) world := by
  apply joint (isdirempty_steady _ _ _) stands.holding
  apply isdirempty_spec stands.sound caches
    (caches.owns stands.sound (stands.idle.attached d)) isDir aligned
  rw [Nat.succ_mul]
  have less := Nat.lt_div_mul_add (a := (g.view d).size.toNat) (b := DIRENT_SIZE) (by decide)
  omega

end Directory

end Functions

end Notux.Fs
