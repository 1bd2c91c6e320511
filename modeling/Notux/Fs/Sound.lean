import Notux.Fs.FileMap
import Notux.Fs.References
import Mathlib.Data.Finset.Card
import Mathlib.Data.Finset.Range

/-!
# The invariant of the file system

Every block below `sb.size` has one tag: it is free, metadata, just allocated
and not yet attached, or it is the block of one inode at one position of its
tree.  The invariant ties the tags to the bitmap and to the trees, and the view
of the inodes to the inode table in memory and the inode blocks on disk.  The
view of an inode is its cached copy if it has one.

The tags, the view and the references a running function holds are ghost state:
they belong to the proof, not to the kernel.
-/

namespace Notux.Fs

open Notux.Store Notux.Proc

/-! ## Layout of the disk -/

/-- The first block that is not metadata. -/
def firstData (sb : Superblock) : Nat := sb.size - sb.nblocks

/-- The inode blocks come before the bitmap, and the bitmap before the data. -/
structure WellLaid (sb : Superblock) : Prop where
  inodes : sb.inodestart + sb.ninodes / IPB < sb.bmapstart
  bitmap : sb.bmapstart + sb.size / BPB < firstData sb
  small : sb.size < 2 ^ 32

/-- The inode stored on disk. -/
def onDisk (sb : Superblock) (disk : Disk) (i : Nat) : Dinode :=
  dinodeAt (disk (iblock sb i)) (i % IPB)

/-- Whether the bitmap marks a block as used. -/
def marked (sb : Superblock) (disk : Disk) (b : Nat) : Bool :=
  bitSet (disk (bblock sb b)) (b % BPB)

/-! ## Ghost state -/

/-- What a block is used for. -/
inductive Tag where
  | free
  | metadata
  | loose
  | owned (i : Nat) (p : Pos)
deriving DecidableEq, Repr

structure Ghost where
  sb : Superblock
  /-- The current contents of every inode. -/
  view : Nat → Dinode
  tag : Nat → Tag
  /-- The references held by the functions that are running. -/
  held : Slot → Int
  /-- An inode whose blocks are being freed. -/
  detached : Option Nat
  /-- An inode with block addresses that are not yet on disk. -/
  dirty : Option Nat
  /-- A set of inodes whose directories name only inodes of the set. -/
  pinned : Set Nat
  /-- Whether directories hold whole entries only. -/
  aligned : Prop
  /-- A number of blocks that are known to be free. -/
  credit : Nat

namespace Ghost

/-- An allocated inode whose tree is in place. -/
structure Owns (g : Ghost) (i : Nat) : Prop where
  inRange : i < g.sb.ninodes
  allocated : (g.view i).type ≠ 0
  attached : g.detached ≠ some i

/-- The number of free blocks. -/
def freeBlocks (g : Ghost) : Nat :=
  ((Finset.range g.sb.size).filter fun b => g.tag b = .free).card

end Ghost

/-! ## The invariant -/

/-- The inode on disk is the inode in view, up to addresses not yet written. -/
structure Lags (stored view : Dinode) : Prop where
  type : stored.type = view.type
  major : stored.major = view.major
  minor : stored.minor = view.minor
  nlink : stored.nlink = view.nlink
  size : stored.size = view.size
  addrs : ∀ j, stored.addrs j = 0 ∨ stored.addrs j = view.addrs j

/-- The inode table caches the view. -/
structure CacheSound (kernel : Kernel) (g : Ghost) : Prop where
  unique : ∀ a b, 0 < (kernel.icache a).ref → 0 < (kernel.icache b).ref →
    (kernel.icache a).inum = (kernel.icache b).inum → a = b
  inRange : ∀ ip, 0 < (kernel.icache ip).ref → (kernel.icache ip).inum < g.sb.ninodes
  cached : ∀ ip, 0 < (kernel.icache ip).ref → (kernel.icache ip).valid = true →
    (kernel.icache ip).din = g.view (kernel.icache ip).inum ∧
      (g.view (kernel.icache ip).inum).type ≠ 0
  holds : ∀ ip, g.held ip ≤ (kernel.icache ip).ref

/-- The inode blocks store the view. -/
structure StoreSound (disk : Disk) (g : Ghost) : Prop where
  lags : ∀ i < g.sb.ninodes, g.detached ≠ some i → Lags (onDisk g.sb disk i) (g.view i)
  clean : ∀ i < g.sb.ninodes, g.detached ≠ some i → g.dirty ≠ some i →
    onDisk g.sb disk i = g.view i

/-- The bitmap and the trees agree with the tags. -/
structure BlocksSound (disk : Disk) (g : Ghost) : Prop where
  marks : ∀ b < g.sb.size, marked g.sb disk b = true ↔ g.tag b ≠ .free
  metadata : ∀ b, g.tag b = .metadata ↔ b < firstData g.sb
  inside : ∀ b, g.tag b ≠ .free → b < g.sb.size
  points : ∀ i p, g.Owns i → p.Valid fileShape → (g.view i).blockAt disk p ≠ 0 →
    g.tag ((g.view i).blockAt disk p) = .owned i p
  owned : ∀ b i p, g.tag b = .owned i p → g.detached ≠ some i →
    g.Owns i ∧ p.Valid fileShape ∧ (g.view i).blockAt disk p = b
  credit : g.credit ≤ g.freeBlocks

/-- A directory names inodes that exist, and a pinned one pinned inodes. -/
def EntriesSound (g : Ghost) (i : Nat) (node : Node) : Prop :=
  node.type = T_DIR →
    (g.aligned → DIRENT_SIZE ∣ node.size.toNat) ∧
    ∀ off, DIRENT_SIZE ∣ off → off + DIRENT_SIZE ≤ node.size.toNat →
      (node.dirent off).inum.toNat ≠ 0 →
      (node.dirent off).inum.toNat < g.sb.ninodes ∧
        (i ∈ g.pinned → (node.dirent off).inum.toNat ∈ g.pinned)

/-- The bytes of a file are all there. -/
structure FileSound (disk : Disk) (g : Ghost) (i : Nat) : Prop where
  small : (g.view i).size.toNat ≤ MAXFILE * BSIZE
  full : ∀ bn, bn * BSIZE < (g.view i).size.toNat →
    (g.view i).blockAt disk (posOf bn) ≠ 0
  entries : EntriesSound g i ((g.view i).node disk)

/-- The invariant.  The inodes in `base` are always pinned. -/
structure Sound (base : Set Nat) (world : FsWorld) (g : Ghost) : Prop where
  laid : WellLaid g.sb
  sameSb : world.mem.sb = g.sb
  mounted : world.mem.xv6fsMounted = true
  cache : CacheSound world.mem g
  store : StoreSound world.disk g
  blocks : BlocksSound world.disk g
  files : ∀ i, g.Owns i → FileSound world.disk g i
  pinned : ∀ i ∈ g.pinned, g.Owns i
  base : base ⊆ g.pinned

/-! ## Where metadata lies -/

section Layout

variable {sb : Superblock}

theorem firstData_le : firstData sb ≤ sb.size := Nat.sub_le _ _

variable (laid : WellLaid sb)

include laid

theorem inodeBlock_lt {i : Nat} (inRange : i < sb.ninodes) :
    i / IPB + sb.inodestart < sb.bmapstart := by
  have bounds := laid.inodes
  have quotient : i / IPB ≤ sb.ninodes / IPB := Nat.div_le_div_right (Nat.le_of_lt inRange)
  rw [Nat.add_comm]
  exact Nat.lt_of_le_of_lt (Nat.add_le_add_left quotient _) bounds

theorem bitmapBlock_lt {b : Nat} (inside : b < sb.size) :
    b / BPB + sb.bmapstart < firstData sb := by
  have bounds := laid.bitmap
  have quotient : b / BPB ≤ sb.size / BPB := Nat.div_le_div_right (Nat.le_of_lt inside)
  rw [Nat.add_comm]
  exact Nat.lt_of_le_of_lt (Nat.add_le_add_left quotient _) bounds

theorem bmapstart_le : sb.bmapstart ≤ firstData sb :=
  Nat.le_of_lt (Nat.lt_of_le_of_lt (Nat.le_add_right _ _) laid.bitmap)

theorem lt_word_of_lt_firstData {b : Nat} (inside : b < firstData sb) : b < 2 ^ 32 :=
  Nat.lt_of_lt_of_le inside (Nat.le_trans firstData_le (Nat.le_of_lt laid.small))

theorem iblock_eq {i : Nat} (inRange : i < sb.ninodes) :
    iblock sb i = i / IPB + sb.inodestart :=
  Nat.mod_eq_of_lt (lt_word_of_lt_firstData laid
    (Nat.lt_of_lt_of_le (inodeBlock_lt laid inRange) (bmapstart_le laid)))

theorem bblock_eq {b : Nat} (inside : b < sb.size) : bblock sb b = b / BPB + sb.bmapstart :=
  Nat.mod_eq_of_lt (lt_word_of_lt_firstData laid (bitmapBlock_lt laid inside))

theorem iblock_lt_firstData {i : Nat} (inRange : i < sb.ninodes) :
    iblock sb i < firstData sb := by
  rw [iblock_eq laid inRange]
  exact Nat.lt_of_lt_of_le (inodeBlock_lt laid inRange) (bmapstart_le laid)

theorem bblock_lt_firstData {b : Nat} (inside : b < sb.size) : bblock sb b < firstData sb := by
  rw [bblock_eq laid inside]
  exact bitmapBlock_lt laid inside

/-- A bitmap block is not an inode block. -/
theorem iblock_ne_bblock {i b : Nat} (inRange : i < sb.ninodes) (inside : b < sb.size) :
    iblock sb i ≠ bblock sb b := by
  rw [iblock_eq laid inRange, bblock_eq laid inside]
  have first := inodeBlock_lt laid inRange
  exact Nat.ne_of_lt (Nat.lt_of_lt_of_le first (Nat.le_add_left _ _))

end Layout

end Notux.Fs
