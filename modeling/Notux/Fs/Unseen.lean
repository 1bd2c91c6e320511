import Notux.Fs.Path
import Notux.Store.Oblivious

/-!
# What looking up and reading files does not see

Nothing on the way from a path to the bytes of a file looks at the buffer that
executables are read into.
-/

namespace Notux.Fs

open Notux.Store Notux.Proc

/-- The kernel with other bytes in `elf_load_buffer`. -/
def Kernel.withBuffer (buffer : Nat → Byte) (kernel : Kernel) : Kernel :=
  { kernel with elfLoadBuffer := buffer }

/-- A program that sees nothing of `elf_load_buffer`. -/
abbrev Unseen {α : Type} (program : FsM α) : Prop :=
  ∀ buffer, program.Oblivious (Kernel.withBuffer buffer)

namespace Unseen

variable {α β : Type}

theorem pure (value : α) : Unseen (Pure.pure value) := fun _ => .pure value

theorem stop (reason : Stop) : Unseen (Store.stop reason : FsM α) := fun _ => .stop reason

theorem bread (blockno : Nat) : Unseen (Store.bread blockno) := fun _ => .bread blockno

theorem data (bp : Buf) : Unseen (Store.data bp) := fun _ => .data bp

theorem logWrite (bp : Buf) (contents : Block) : Unseen (Store.logWrite bp contents) :=
  fun _ => .logWrite bp contents

theorem bind {program : FsM α} {rest : α → FsM β} (first : Unseen program)
    (second : ∀ value, Unseen (rest value)) : Unseen (program >>= rest) :=
  fun buffer => (first buffer).bind fun value => second value buffer

/-- The memory is read, but not the buffer. -/
theorem getMem {rest : Kernel → FsM β}
    (blind : ∀ buffer kernel, rest (kernel.withBuffer buffer) = rest kernel)
    (second : ∀ kernel, Unseen (rest kernel)) : Unseen (Store.getMem >>= rest) :=
  fun buffer => .getMem (blind buffer) fun kernel => second kernel buffer

theorem modifyMem {step : Kernel → Kernel}
    (commutes : ∀ buffer kernel,
      step (kernel.withBuffer buffer) = (step kernel).withBuffer buffer) :
    Unseen (Store.modifyMem step) :=
  fun buffer => .modifyMem (commutes buffer)

theorem when {condition : Prop} [Decidable condition] {body : FsM Unit} (unseen : Unseen body) :
    Unseen (Store.when condition body) := fun buffer => .when (unseen buffer)

theorem forEach {ι : Type} {body : ι → FsM Unit} (items : List ι)
    (each : ∀ item, Unseen (body item)) : Unseen (Store.forEach items body) :=
  fun buffer => .forEach items fun item => each item buffer

end Unseen

/-! ## Inodes -/

theorem getInode_unseen (ip : Slot) : Unseen (getInode ip) := by
  unfold getInode
  exact .getMem (fun _ _ => rfl) fun kernel => .pure _

theorem modifyInode_unseen (ip : Slot) (change : Inode → Inode) :
    Unseen (modifyInode ip change) := by
  unfold modifyInode
  exact .modifyMem fun _ _ => rfl

theorem acquire_unseen : Unseen acquire := by
  intro buffer
  unfold acquire
  apply Prog.Oblivious.update
  intro world
  by_cases locked : world.mem.icacheLocked = true
  · rw [if_pos (show (world.mem.withBuffer buffer).icacheLocked = true from locked), if_pos locked]
    rfl
  · rw [if_neg (show ¬ (world.mem.withBuffer buffer).icacheLocked = true from locked),
      if_neg locked]
    rfl

theorem release_unseen : Unseen release := by
  intro buffer
  unfold release
  apply Prog.Oblivious.update
  intro world
  by_cases locked : world.mem.icacheLocked = true
  · rw [if_pos (show (world.mem.withBuffer buffer).icacheLocked = true from locked), if_pos locked]
    rfl
  · rw [if_neg (show ¬ (world.mem.withBuffer buffer).icacheLocked = true from locked),
      if_neg locked]
    rfl

theorem acquiresleep_unseen (ip : Slot) : Unseen (acquiresleep ip) := by
  unfold acquiresleep
  apply (getInode_unseen ip).bind
  intro inode
  split
  · exact .stop _
  · exact modifyInode_unseen ip _

theorem releasesleep_unseen (ip : Slot) : Unseen (releasesleep ip) := by
  unfold releasesleep
  apply (getInode_unseen ip).bind
  intro inode
  split
  · exact modifyInode_unseen ip _
  · exact .stop _

theorem iget_unseen (inum : Nat) : Unseen (iget inum) := by
  unfold iget
  apply acquire_unseen.bind
  intro _
  apply Unseen.getMem fun _ _ => rfl
  intro kernel
  split
  · exact (modifyInode_unseen _ _).bind fun _ => release_unseen.bind fun _ => .pure _
  · exact (modifyInode_unseen _ _).bind fun _ => release_unseen.bind fun _ => .pure _
  · exact .stop _

theorem idup_unseen (ip : Slot) : Unseen (idup ip) := by
  unfold idup
  exact acquire_unseen.bind fun _ => (modifyInode_unseen ip _).bind fun _ =>
    release_unseen.bind fun _ => .pure _

theorem iupdate_unseen (ip : Slot) : Unseen (iupdate ip) := by
  unfold iupdate
  apply Unseen.getMem fun _ _ => rfl
  intro kernel
  exact (Unseen.bread _).bind fun bp => (Unseen.data bp).bind fun block =>
    (Unseen.logWrite bp _).bind fun _ => .pure _

theorem ilock_unseen (ip : Slot) : Unseen (ilock ip) := by
  unfold ilock
  apply (getInode_unseen ip).bind
  intro inode
  split
  · exact .stop _
  · apply (acquiresleep_unseen ip).bind
    intro _
    apply Unseen.when
    apply Unseen.getMem fun _ _ => rfl
    intro kernel
    apply (Unseen.bread _).bind
    intro bp
    apply (Unseen.data bp).bind
    intro block
    apply (modifyInode_unseen ip _).bind
    intro _
    apply (Unseen.pure _).bind
    intro _
    exact (modifyInode_unseen ip _).bind fun _ => .when (.stop _)

theorem iunlock_unseen (ip : Slot) : Unseen (iunlock ip) := by
  unfold iunlock
  apply (getInode_unseen ip).bind
  intro inode
  split
  · exact .stop _
  · exact releasesleep_unseen ip

/-! ## Blocks -/

theorem bzero_unseen (bno : Nat) : Unseen (bzero bno) := by
  unfold bzero
  exact (Unseen.bread bno).bind fun bp => (Unseen.logWrite bp _).bind fun _ => .pure _

theorem ballocLoop_unseen (sb : Superblock) (fuel b : Nat) : Unseen (ballocLoop sb fuel b) := by
  induction fuel generalizing b with
  | zero => exact .stop _
  | succ fuel ih =>
      unfold ballocLoop
      split
      · apply (Unseen.bread _).bind
        intro bp
        apply (Unseen.data bp).bind
        intro block
        split
        · exact (Unseen.logWrite bp _).bind fun _ => (Unseen.pure _).bind fun _ =>
            (bzero_unseen _).bind fun _ => .pure _
        · exact (Unseen.pure _).bind fun _ => ih _
      · exact .stop _

theorem balloc_unseen : Unseen balloc := by
  unfold balloc
  apply Unseen.getMem fun _ _ => rfl
  intro kernel
  split
  · exact ballocLoop_unseen _ _ _
  · exact .stop _

theorem bfree_unseen (b : Nat) : Unseen (bfree b) := by
  unfold bfree
  apply Unseen.getMem fun _ _ => rfl
  intro kernel
  apply (Unseen.bread _).bind
  intro bp
  apply (Unseen.data bp).bind
  intro block
  split
  · exact (Unseen.logWrite bp _).bind fun _ => .pure _
  · exact .stop _

theorem bmapIndirect_unseen (addr i : Nat) : Unseen (bmapIndirect addr i) := by
  unfold bmapIndirect
  apply (Unseen.bread addr).bind
  intro bp
  apply (Unseen.data bp).bind
  intro a
  split
  · apply balloc_unseen.bind
    intro addr
    apply (Unseen.data bp).bind
    intro a
    exact (Unseen.logWrite bp _).bind fun _ => (Unseen.pure _).bind fun _ => .pure _
  · exact (Unseen.pure _).bind fun _ => .pure _

theorem bmapAddr_unseen (ip : Slot) (i : Nat) : Unseen (bmapAddr ip i) := by
  unfold bmapAddr
  apply (getInode_unseen ip).bind
  intro inode
  split
  · exact balloc_unseen.bind fun addr => (modifyInode_unseen ip _).bind fun _ => .pure _
  · exact .pure _

theorem bmap_unseen (ip : Slot) (bn : Nat) : Unseen (bmap ip bn) := by
  unfold bmap
  split
  · exact bmapAddr_unseen ip bn
  · split
    · exact (bmapAddr_unseen ip _).bind fun addr => bmapIndirect_unseen addr _
    · split
      · exact (bmapAddr_unseen ip _).bind fun addr => (bmapIndirect_unseen addr _).bind fun addr =>
          bmapIndirect_unseen addr _
      · exact .stop _

theorem itruncIndirect_unseen (bp : Buf) : Unseen (itruncIndirect bp) := by
  unfold itruncIndirect
  apply Unseen.forEach
  intro j
  exact (Unseen.data bp).bind fun a => .when (bfree_unseen _)

theorem itruncDouble_unseen (bp : Buf) : Unseen (itruncDouble bp) := by
  unfold itruncDouble
  apply Unseen.forEach
  intro j
  apply (Unseen.data bp).bind
  intro a
  apply Unseen.when
  apply (Unseen.bread _).bind
  intro bp2
  exact (itruncIndirect_unseen bp2).bind fun _ => (Unseen.pure _).bind fun _ =>
    (Unseen.data bp).bind fun a => bfree_unseen _

theorem itrunc_unseen (ip : Slot) : Unseen (itrunc ip) := by
  unfold itrunc
  apply (Unseen.forEach _ fun i => ?_).bind
  · intro _
    apply (getInode_unseen ip).bind
    intro inode
    apply (Unseen.when ?_).bind
    · intro _
      apply (getInode_unseen ip).bind
      intro inode
      apply (Unseen.when ?_).bind
      · intro _
        exact (modifyInode_unseen ip _).bind fun _ => iupdate_unseen ip
      · apply (Unseen.bread _).bind
        intro bp
        exact (itruncDouble_unseen bp).bind fun _ => (Unseen.pure _).bind fun _ =>
          (bfree_unseen _).bind fun _ => modifyInode_unseen ip _
    · apply (Unseen.bread _).bind
      intro bp
      exact (itruncIndirect_unseen bp).bind fun _ => (Unseen.pure _).bind fun _ =>
        (bfree_unseen _).bind fun _ => modifyInode_unseen ip _
  · apply (getInode_unseen ip).bind
    intro inode
    exact .when ((bfree_unseen _).bind fun _ => modifyInode_unseen ip _)

theorem iput_unseen (ip : Slot) : Unseen (iput ip) := by
  unfold iput
  apply (acquiresleep_unseen ip).bind
  intro _
  apply (getInode_unseen ip).bind
  intro inode
  apply (Unseen.when ?_).bind
  · intro _
    exact (releasesleep_unseen ip).bind fun _ => acquire_unseen.bind fun _ =>
      (modifyInode_unseen ip _).bind fun _ => release_unseen
  · apply acquire_unseen.bind
    intro _
    apply (getInode_unseen ip).bind
    intro inode
    apply release_unseen.bind
    intro _
    apply Unseen.when
    exact (itrunc_unseen ip).bind fun _ => (modifyInode_unseen ip _).bind fun _ =>
      (iupdate_unseen ip).bind fun _ => modifyInode_unseen ip _

theorem iunlockput_unseen (ip : Slot) : Unseen (iunlockput ip) := by
  unfold iunlockput
  exact (iunlock_unseen ip).bind fun _ => iput_unseen ip

/-! ## Reading and looking up -/

theorem readiLoop_unseen (ip : Slot) (fuel off rest : Nat) :
    Unseen (readiLoop ip fuel off rest) := by
  induction fuel generalizing off rest with
  | zero => exact .pure _
  | succ fuel ih =>
      unfold readiLoop
      split
      · exact .pure _
      · apply (bmap_unseen ip _).bind
        intro addr
        apply (Unseen.bread addr).bind
        intro bp
        exact (Unseen.data bp).bind fun block => (Unseen.pure _).bind fun _ =>
          (ih _ _).bind fun bytes => .pure _

theorem readi_unseen (ip : Slot) (off n : Nat) : Unseen (readi ip off n) := by
  unfold readi
  apply (getInode_unseen ip).bind
  intro inode
  split
  · split
    · exact .pure _
    · exact .pure _
  · split
    · exact .pure _
    · exact (readiLoop_unseen ip _ _ _).bind fun bytes => .pure _

theorem readDirent_unseen (dp : Slot) (off : Nat) : Unseen (readDirent dp off) := by
  unfold readDirent
  apply (readi_unseen dp off _).bind
  rintro ⟨r, bytes⟩
  dsimp only
  split
  · exact .pure _
  · exact .pure _

theorem dirlookupLoop_unseen (dp : Slot) (name : List Byte) (fuel off : Nat) :
    Unseen (dirlookupLoop dp name fuel off) := by
  induction fuel generalizing off with
  | zero => exact .pure _
  | succ fuel ih =>
      unfold dirlookupLoop
      apply (getInode_unseen dp).bind
      intro inode
      split
      · apply (readDirent_unseen dp off).bind
        intro entry
        cases entry with
        | none => exact .stop _
        | some de =>
            dsimp only
            split
            · exact (iget_unseen _).bind fun ip => .pure _
            · exact ih _
      · exact .pure _

theorem dirlookup_unseen (dp : Slot) (name : List Byte) : Unseen (dirlookup dp name) := by
  unfold dirlookup
  apply (getInode_unseen dp).bind
  intro inode
  split
  · exact dirlookupLoop_unseen dp name _ _
  · exact .stop _

theorem namexLoop_unseen (parent : Bool) (fuel : Nat) (ip : Slot) (path : List Byte) :
    Unseen (namexLoop parent fuel ip path) := by
  induction fuel generalizing ip path with
  | zero => exact .pure _
  | succ fuel ih =>
      unfold namexLoop
      split
      · split
        · exact (iput_unseen ip).bind fun _ => .pure _
        · exact .pure _
      · apply (ilock_unseen ip).bind
        intro _
        apply (getInode_unseen ip).bind
        intro inode
        split
        · exact (iunlockput_unseen ip).bind fun _ => .pure _
        · split
          · exact (iunlock_unseen ip).bind fun _ => .pure _
          · apply (dirlookup_unseen ip _).bind
            intro found
            cases found with
            | none => exact (iunlockput_unseen ip).bind fun _ => .pure _
            | some next => exact (iunlockput_unseen ip).bind fun _ => ih _ _

theorem namexRoot_unseen (path : List Byte) (parent : Bool) : Unseen (namexRoot path parent) := by
  unfold namexRoot
  exact (iget_unseen ROOTINO).bind fun ip => namexLoop_unseen parent _ ip path

theorem myprocCwd_unseen : Unseen myprocCwd := by
  unfold myprocCwd
  apply Unseen.getMem fun _ _ => rfl
  intro kernel
  split
  · exact .pure _
  · apply (namexRoot_unseen _ _).bind
    intro found
    cases found with
    | none => exact .stop _
    | some root => exact (Unseen.modifyMem fun _ _ => rfl).bind fun _ => .pure _

theorem namex_unseen (path : List Byte) (parent : Bool) : Unseen (namex path parent) := by
  unfold namex
  split
  · exact namexRoot_unseen path parent
  · apply myprocCwd_unseen.bind
    intro cwd
    exact (idup_unseen cwd).bind fun ip => namexLoop_unseen parent _ ip path

theorem namei_unseen (path : List Byte) : Unseen (namei path) := by
  unfold namei
  apply (namex_unseen path false).bind
  intro found
  cases found with
  | none => exact .pure _
  | some result => exact .pure _

end Notux.Fs
