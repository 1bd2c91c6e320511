import Notux.Fs.BlockMap

/-!
# Files and the inode table

A file system stands for a partial map from inode numbers to files.  The
operations on the inode table leave that map alone, apart from `iupdate`, which
stores the changed fields of one inode.
-/

namespace Notux.Fs

open Notux.Store Notux.Proc

/-- The files of a file system by inode number. -/
abbrev Files := Nat → Option Node

namespace Ghost

/-- Every inode is on disk and every tree is in place. -/
structure Idle (g : Ghost) : Prop where
  dirty : g.dirty = none
  detached : g.detached = none

/-- The files that are there. -/
def files (g : Ghost) (disk : Disk) : Files := fun i =>
  if i < g.sb.ninodes ∧ (g.view i).type ≠ 0 then some ((g.view i).node disk) else none

/-- The ghost state of another number of references held. -/
def hold (g : Ghost) (held : Slot → Int) : Ghost := { g with held }

variable {g g' : Ghost} {disk disk' : Disk} {i n : Nat}

theorem Idle.only (idle : g.Idle) (n : Nat) : OnlyDirty g n where
  dirty i dirty := by rw [idle.dirty] at dirty; cases dirty
  detached i detached := by rw [idle.detached] at detached; cases detached

theorem Idle.attached (idle : g.Idle) (i : Nat) : g.detached ≠ some i := by
  rw [idle.detached]
  exact nofun

theorem Owns.files (owns : g.Owns i) : g.files disk i = some ((g.view i).node disk) :=
  if_pos ⟨owns.inRange, owns.allocated⟩

theorem Idle.owns_of_files (idle : g.Idle) {node : Node} (found : g.files disk i = some node) :
    g.Owns i ∧ (g.view i).node disk = node := by
  unfold Ghost.files at found
  split at found
  · next allocated =>
    exact ⟨⟨allocated.1, allocated.2, idle.attached i⟩, Option.some.inj found⟩
  · cases found

/-- Files are compared inode by inode. -/
theorem files_congr (sb : g'.sb = g.sb) (type : (g'.view i).type = (g.view i).type)
    (node : i < g.sb.ninodes → (g.view i).type ≠ 0 →
      (g'.view i).node disk' = (g.view i).node disk) :
    g'.files disk' i = g.files disk i := by
  unfold files
  rw [sb, type]
  split
  · next allocated => rw [node allocated.1 allocated.2]
  · rfl

end Ghost

theorem Grows.files {n k : Nat} {world after : FsWorld} {g g' : Ghost}
    (grows : Grows n k world g after g') (attached : g.detached = none) :
    g'.files after.disk = g.files world.disk := by
  funext i
  unfold Ghost.files
  rw [grows.sb]
  have owns : ∀ h : Ghost, h.detached = none →
      (h.Owns i ↔ i < h.sb.ninodes ∧ (h.view i).type ≠ 0) := by
    intro h inPlace
    exact ⟨fun owns => ⟨owns.inRange, owns.allocated⟩,
      fun both => ⟨both.1, both.2, by rw [inPlace]; exact nofun⟩⟩
  have iff := grows.owns i
  rw [owns g attached, owns g' (grows.detached.trans attached), grows.sb] at iff
  by_cases allocated : i < g.sb.ninodes ∧ (g.view i).type ≠ 0
  · rw [if_pos allocated, if_pos (iff.mpr allocated),
      grows.nodes i ((owns g attached).mpr allocated)]
  · rw [if_neg allocated, if_neg (fun both => allocated (iff.mp both))]

/-- Putting an inode into view changes one file. -/
theorem Sound.files_put {base : Set Nat} {world : FsWorld} {g : Ghost}
    (sound : Sound base world g) {n : Nat} {din : Dinode} (inRange : n < g.sb.ninodes)
    (before : BlocksSound world.disk (g.put n din)) :
    (g.put n din).files (Function.update world.disk (iblock g.sb n)
        (setDinode (world.disk (iblock g.sb n)) (n % IPB) din)) =
      Function.update (g.files world.disk) n
        (if din.type = 0 then none else some (din.node world.disk)) := by
  funext i
  by_cases allocated : i < g.sb.ninodes ∧ ((g.put n din).view i).type ≠ 0
  · have owns : (g.put n din).Owns i := ⟨allocated.1, allocated.2, nofun⟩
    rw [owns.files, node_same before owns (sound.sameBlocks_put inRange din i)]
    by_cases same : i = n
    · subst same
      rw [put_view_self] at allocated ⊢
      rw [Function.update_self, if_neg allocated.2]
    · rw [put_view_of_ne g same] at allocated ⊢
      rw [Function.update_of_ne same]
      exact (if_pos allocated).symm
  · have missing : (g.put n din).files (Function.update world.disk (iblock g.sb n)
        (setDinode (world.disk (iblock g.sb n)) (n % IPB) din)) i = none := if_neg allocated
    rw [missing]
    by_cases same : i = n
    · subst same
      rw [put_view_self] at allocated
      rw [Function.update_self, if_pos (not_not.mp fun other => allocated ⟨inRange, other⟩)]
    · rw [put_view_of_ne g same] at allocated
      rw [Function.update_of_ne same]
      exact (if_neg allocated).symm

/-! ## What operations keep -/

/-- Entries of the inode table with a positive floor stay what they are. -/
def Keeps (floor : Slot → Int) (kernel kernel' : Kernel) : Prop :=
  ∀ ip, 0 < floor ip →
    (kernel'.icache ip).inum = (kernel.icache ip).inum ∧
    ((kernel.icache ip).valid = true → (kernel'.icache ip).valid = true) ∧
    (0 < (kernel.icache ip).ref → 0 < (kernel'.icache ip).ref)

theorem Keeps.refl (floor : Slot → Int) (kernel : Kernel) : Keeps floor kernel kernel :=
  fun _ _ => ⟨rfl, id, id⟩

theorem Keeps.trans {floor : Slot → Int} {first second third : Kernel}
    (left : Keeps floor first second) (right : Keeps floor second third) :
    Keeps floor first third := fun ip above =>
  ⟨(right ip above).1.trans (left ip above).1, fun valid => (right ip above).2.1
    ((left ip above).2.1 valid), fun inUse => (right ip above).2.2 ((left ip above).2.2 inUse)⟩

theorem Keeps.mono {floor lower : Slot → Int} {kernel kernel' : Kernel}
    (keeps : Keeps floor kernel kernel') (below : lower ≤ floor) : Keeps lower kernel kernel' :=
  fun ip above => keeps ip (lt_of_lt_of_le above (below ip))

theorem SameSlots.keeps {kernel kernel' : Kernel} (same : SameSlots kernel kernel')
    (floor : Slot → Int) : Keeps floor kernel kernel' := fun ip _ =>
  ⟨(same ip).2.1, fun valid => (same ip).2.2.trans valid, fun inUse => by rwa [(same ip).1]⟩

theorem SameSlots.refs {kernel kernel' : Kernel} (same : SameSlots kernel kernel') :
    kernel'.refs = kernel.refs :=
  funext fun ip => (same ip).1

theorem Caches.keep {world after : FsWorld} {ip : Slot} {n : Nat} {floor : Slot → Int}
    (caches : Caches world ip n) (keeps : Keeps floor world.mem after.mem)
    (above : 0 < floor ip) : Caches after ip n :=
  ⟨(keeps ip above).2.2 caches.inUse, (keeps ip above).2.1 caches.valid,
    (keeps ip above).1.trans caches.inum⟩

/-- A whole operation: the invariant holds again, with the files and the
references held as given, and at most `k` blocks were taken. -/
structure Ends (base : Set Nat) (floor : Slot → Int) (k : Nat) (world : FsWorld) (g : Ghost)
    (files : Files) (held : Slot → Int) (after : FsWorld) (g' : Ghost) : Prop where
  sound : Sound base after g'
  sb : g'.sb = g.sb
  aligned : g'.aligned = g.aligned
  credit : g.credit ≤ g'.credit + k
  taken : k = 0 → ∀ b, g'.tag b = g.tag b ∨ g'.tag b = .free
  settled : ∀ b, g'.tag b = .loose → g.tag b = .loose
  idle : g'.Idle
  keeps : Keeps floor world.mem after.mem
  refs : after.mem.refs - g'.held = world.mem.refs - g.held
  files : g'.files after.disk = files
  held : g'.held = held

/-- An operation that pins no other inodes. -/
structure Moves (base : Set Nat) (floor : Slot → Int) (k : Nat) (world : FsWorld) (g : Ghost)
    (files : Files) (held : Slot → Int) (after : FsWorld) (g' : Ghost) : Prop
    extends Ends base floor k world g files held after g' where
  pinned : g'.pinned = g.pinned

section Combining

variable {base : Set Nat} {floor lower : Slot → Int} {k m : Nat} {world middle after : FsWorld}
  {g g' g'' : Ghost} {files files' : Files} {held held' : Slot → Int}

theorem Ends.trans (first : Ends base floor k world g files held middle g')
    (second : Ends base floor m middle g' files' held' after g'') :
    Ends base floor (k + m) world g files' held' after g'' where
  sound := second.sound
  sb := second.sb.trans first.sb
  aligned := second.aligned.trans first.aligned
  credit := by
    have left := first.credit
    have right := second.credit
    omega
  taken none b := by
    rcases second.taken (by omega) b with same | free
    · rw [same]
      exact first.taken (by omega) b
    · exact Or.inr free
  settled b loose := first.settled b (second.settled b loose)
  idle := second.idle
  keeps := first.keeps.trans second.keeps
  refs := second.refs.trans first.refs
  files := second.files
  held := second.held

theorem Ends.mono (ends : Ends base floor k world g files held after g') (below : lower ≤ floor)
    (more : k ≤ m) : Ends base lower m world g files held after g' :=
  { ends with
    credit := Nat.le_trans ends.credit (Nat.add_le_add_left more _)
    taken := fun none => ends.taken (by omega)
    keeps := ends.keeps.mono below }

theorem Moves.trans (first : Moves base floor k world g files held middle g')
    (second : Moves base floor m middle g' files' held' after g'') :
    Moves base floor (k + m) world g files' held' after g'' :=
  ⟨first.toEnds.trans second.toEnds, second.pinned.trans first.pinned⟩

theorem Moves.mono (moves : Moves base floor k world g files held after g')
    (below : lower ≤ floor) (more : k ≤ m) : Moves base lower m world g files held after g' :=
  ⟨moves.toEnds.mono below more, moves.pinned⟩

theorem Moves.refl (sound : Sound base world g) (idle : g.Idle) (floor : Slot → Int) :
    Moves base floor 0 world g (g.files world.disk) g.held world g where
  sound := sound
  sb := rfl
  aligned := rfl
  credit := Nat.le_refl _
  taken _ _ := Or.inl rfl
  settled _ := id
  idle := idle
  keeps := Keeps.refl _ _
  refs := rfl
  files := rfl
  held := rfl
  pinned := rfl

end Combining

/-! ## Panics -/

/-- The panics that do not show a damaged disk: misuse of locks, exhausted
resources, and a directory that is full. -/
def Stop.Benign : Stop → Prop
  | .freeingFreeBlock | .ilockNoType | .dirlookupRead | .dirlinkRead | .bmapOutOfRange => False
  | _ => True

/-- Which panics may happen on a disk that satisfies the invariant. -/
structure Accepts (F : Stop → FsWorld → Prop) (aligned : Prop) : Prop where
  benign : ∀ reason world, reason.Benign → F reason world
  ragged : ¬ aligned → ∀ world, F .dirlookupRead world ∧ F .dirlinkRead world

/-! ## The inode table -/

section InodeTable

variable {base : Set Nat} {world : FsWorld} {g : Ghost} {P : Disk → Prop}
  {F : Stop → FsWorld → Prop} {n : Nat} {ip : Slot}

/-- The fields of an entry that matter to the invariant. -/
def Inode.SameEntry (inode inode' : Inode) : Prop :=
  inode'.ref = inode.ref ∧ inode'.inum = inode.inum ∧ inode'.valid = inode.valid ∧
    inode'.din = inode.din

/-- A change of the kernel's memory that leaves the inode table alone. -/
theorem Sound.sameEntries (sound : Sound base world g) {kernel : Kernel}
    (same : ∀ ip, (world.mem.icache ip).SameEntry (kernel.icache ip))
    (sb : kernel.sb = world.mem.sb) (mounted : kernel.xv6fsMounted = world.mem.xv6fsMounted) :
    Sound base { world with mem := kernel } g := by
  refine { sound with
    sameSb := sb.trans sound.sameSb
    mounted := mounted.trans sound.mounted
    cache := ⟨fun a b => ?_, fun ip => ?_, fun ip => ?_, fun ip => ?_⟩ }
  · rw [(same a).1, (same b).1, (same a).2.1, (same b).2.1]
    exact sound.cache.unique a b
  · rw [(same ip).1, (same ip).2.1]
    exact sound.cache.inRange ip
  · rw [(same ip).1, (same ip).2.1, (same ip).2.2.1, (same ip).2.2.2]
    exact sound.cache.cached ip
  · rw [(same ip).1]
    exact sound.cache.holds ip

theorem keeps_of_sameEntries {kernel kernel' : Kernel}
    (same : ∀ ip, (kernel.icache ip).SameEntry (kernel'.icache ip)) (floor : Slot → Int) :
    Keeps floor kernel kernel' := fun ip _ =>
  ⟨(same ip).2.1, fun valid => (same ip).2.2.1.trans valid, fun inUse => by rwa [(same ip).1]⟩

theorem refs_of_sameEntries {kernel kernel' : Kernel}
    (same : ∀ ip, (kernel.icache ip).SameEntry (kernel'.icache ip)) :
    kernel'.refs = kernel.refs :=
  funext fun ip => (same ip).1

theorem sameEntries_refl (kernel : Kernel) (ip : Slot) :
    (kernel.icache ip).SameEntry (kernel.icache ip) :=
  ⟨rfl, rfl, rfl, rfl⟩

theorem sameEntries_setInode (kernel : Kernel) (ip : Slot) {change : Inode → Inode}
    (same : (kernel.icache ip).SameEntry (change (kernel.icache ip))) (other : Slot) :
    (kernel.icache other).SameEntry ((kernel.setInode ip change).icache other) := by
  by_cases atIp : other = ip
  · subst atIp
    simpa [Kernel.setInode] using same
  · simpa [Kernel.setInode, atIp] using sameEntries_refl kernel other

/-- What an operation on locks does: nothing that matters. -/
structure Locks (base : Set Nat) (world : FsWorld) (g : Ghost) (after : FsWorld) : Prop where
  sound : Sound base after g
  disk : after.disk = world.disk
  same : ∀ ip, (world.mem.icache ip).SameEntry (after.mem.icache ip)

theorem Locks.of_kernel (sound : Sound base world g) {kernel : Kernel}
    (same : ∀ ip, (world.mem.icache ip).SameEntry (kernel.icache ip))
    (sb : kernel.sb = world.mem.sb) (mounted : kernel.xv6fsMounted = world.mem.xv6fsMounted) :
    Locks base world g { world with mem := kernel } :=
  ⟨sound.sameEntries same sb mounted, rfl, same⟩

theorem Locks.caches {after : FsWorld} (locks : Locks base world g after)
    (caches : Caches world ip n) : Caches after ip n :=
  ⟨by rw [(locks.same ip).1]; exact caches.inUse, (locks.same ip).2.2.1.trans caches.valid,
    (locks.same ip).2.1.trans caches.inum⟩

theorem Locks.moves {after : FsWorld} (locks : Locks base world g after) (idle : g.Idle)
    (floor : Slot → Int) :
    Moves base floor 0 world g (g.files world.disk) g.held after g where
  sound := locks.sound
  sb := rfl
  aligned := rfl
  credit := Nat.le_refl _
  taken _ _ := Or.inl rfl
  settled _ := id
  idle := idle
  keeps := keeps_of_sameEntries locks.same floor
  refs := by rw [refs_of_sameEntries locks.same]
  files := by rw [locks.disk]
  held := rfl
  pinned := rfl

section Locking

variable (benign : ∀ reason world, Stop.Benign reason → F reason world)
  (sound : Sound base world g)

include benign sound

theorem acquire_spec : acquire.wp P F (fun _ after => Locks base world g after) world := by
  unfold acquire
  simp only [Prog.wp_bind, Prog.wp_getMem]
  split
  · exact benign _ _ trivial
  · exact Locks.of_kernel sound (sameEntries_refl _) rfl rfl

theorem release_spec : release.wp P F (fun _ after => Locks base world g after) world := by
  unfold release
  simp only [Prog.wp_bind, Prog.wp_getMem]
  split
  · exact Locks.of_kernel sound (sameEntries_refl _) rfl rfl
  · exact benign _ _ trivial

theorem acquiresleep_spec :
    (acquiresleep ip).wp P F (fun _ after => Locks base world g after) world := by
  unfold acquiresleep getInode modifyInode
  simp only [Prog.wp_bind, Prog.wp_getMem, Prog.wp_pure]
  split
  · exact benign _ _ trivial
  · exact Locks.of_kernel sound (sameEntries_setInode _ _ ⟨rfl, rfl, rfl, rfl⟩) rfl rfl

theorem releasesleep_spec :
    (releasesleep ip).wp P F (fun _ after => Locks base world g after) world := by
  unfold releasesleep getInode modifyInode
  simp only [Prog.wp_bind, Prog.wp_getMem, Prog.wp_pure]
  split
  · exact Locks.of_kernel sound (sameEntries_setInode _ _ ⟨rfl, rfl, rfl, rfl⟩) rfl rfl
  · exact benign _ _ trivial

theorem iunlock_spec : (iunlock ip).wp P F (fun _ after => Locks base world g after) world := by
  unfold iunlock getInode
  simp only [Prog.wp_bind, Prog.wp_getMem, Prog.wp_pure]
  split
  · exact benign _ _ trivial
  · exact releasesleep_spec benign sound

end Locking

end InodeTable

end Notux.Fs
