import Notux.Store.Buffer
import Notux.Store.Bits
import Mathlib.Data.List.Basic

/-!
# On-disk layout

The structures of `fs.h`: superblock, inodes packed seven to a block, the block
bitmap, indirect blocks of 128 block numbers, and 16-byte directory entries.
Each is a reading of a 512-byte block; the stores are overwrites of the bytes
the structure occupies.
-/

namespace Notux.Fs

open Notux.Store

abbrev BSIZE : Nat := 512
abbrev NDIRECT : Nat := 12
abbrev NINDIRECT : Nat := 128
abbrev NDINDIRECT : Nat := NINDIRECT * NINDIRECT
abbrev MAXFILE : Nat := NDIRECT + NINDIRECT + NDINDIRECT
abbrev ROOTINO : Nat := 1
abbrev NINODE : Nat := 50
abbrev DIRSIZ : Nat := 14
abbrev XV6_MAGIC : Nat := 0x10203040

instance (priority := 2000) : NeZero (NDIRECT + 2) := ⟨by decide⟩

instance : NeZero NINODE := ⟨by decide⟩

/-- `sizeof(struct dinode)`. -/
abbrev DINODE_SIZE : Nat := 68

/-- `sizeof(struct dirent)`. -/
abbrev DIRENT_SIZE : Nat := 16

/-- Inodes per block. -/
abbrev IPB : Nat := 7

/-- Bitmap bits per block. -/
abbrev BPB : Nat := 4096

/-- One disk sector. -/
abbrev Block := Buffer 512

/-- The disk as an array of sectors. -/
abbrev Disk := Nat → Block

/-! ## Superblock -/

structure Superblock where
  magic : Nat
  size : Nat
  nblocks : Nat
  ninodes : Nat
  nlog : Nat
  logstart : Nat
  inodestart : Nat
  bmapstart : Nat
deriving DecidableEq, Repr

/-- The superblock at the start of a block. -/
def Superblock.ofBlock (block : Block) : Superblock where
  magic := (block.u32 0).toNat
  size := (block.u32 4).toNat
  nblocks := (block.u32 8).toNat
  ninodes := (block.u32 12).toNat
  nlog := (block.u32 16).toNat
  logstart := (block.u32 20).toNat
  inodestart := (block.u32 24).toNat
  bmapstart := (block.u32 28).toNat

/-- `IBLOCK(i, sb)`, passed on as a 32-bit block number. -/
def iblock (sb : Superblock) (inum : Nat) : Nat := (inum / IPB + sb.inodestart) % 2 ^ 32

/-- `BBLOCK(b, sb)`, passed on as a 32-bit block number. -/
def bblock (sb : Superblock) (b : Nat) : Nat := (b / BPB + sb.bmapstart) % 2 ^ 32

/-! ## Inodes -/

/-- `T_DIR`, `T_FILE` and `T_DEV`. -/
def T_DIR : BitVec 16 := 1
def T_FILE : BitVec 16 := 2
def T_DEV : BitVec 16 := 3

/-- The fields an inode has on disk. -/
@[ext]
structure Dinode where
  type : BitVec 16
  major : BitVec 16
  minor : BitVec 16
  nlink : BitVec 16
  size : BitVec 32
  addrs : Fin (NDIRECT + 2) → BitVec 32

/-- An inode with every byte zero. -/
def Dinode.zero : Dinode := ⟨0, 0, 0, 0, 0, fun _ => 0⟩

instance : Inhabited Dinode := ⟨Dinode.zero⟩

/-- The byte image of an inode. -/
def Dinode.bytes (dip : Dinode) (i : Nat) : Byte :=
  if i < 2 then le dip.type i
  else if i < 4 then le dip.major (i - 2)
  else if i < 6 then le dip.minor (i - 4)
  else if i < 8 then le dip.nlink (i - 6)
  else if i < 12 then le dip.size (i - 8)
  else le (dip.addrs (Fin.ofNat (NDIRECT + 2) ((i - 12) / 4))) ((i - 12) % 4)

/-- The inode in place `k` of an inode block. -/
def dinodeAt (block : Block) (k : Nat) : Dinode where
  type := block.u16 (DINODE_SIZE * k)
  major := block.u16 (DINODE_SIZE * k + 2)
  minor := block.u16 (DINODE_SIZE * k + 4)
  nlink := block.u16 (DINODE_SIZE * k + 6)
  size := block.u32 (DINODE_SIZE * k + 8)
  addrs i := block.u32 (DINODE_SIZE * k + 12 + 4 * i)

/-- Store an inode in place `k` of an inode block. -/
def setDinode (block : Block) (k : Nat) (dip : Dinode) : Block :=
  block.splice (DINODE_SIZE * k) DINODE_SIZE dip.bytes

theorem dinodeAt_setDinode {block : Block} {k : Nat} (place : k < IPB) (dip : Dinode) :
    dinodeAt (setDinode block k dip) k = dip := by
  have fits : DINODE_SIZE * k + DINODE_SIZE ≤ 512 := by
    simp only [DINODE_SIZE, IPB] at *; omega
  have u16 : ∀ field, field + 2 ≤ DINODE_SIZE →
      (setDinode block k dip).u16 (DINODE_SIZE * k + field) =
        dip.bytes (field + 1) ++ dip.bytes field :=
    fun field within => Buffer.u16_splice_of_mem within fits
  have u32 : ∀ field, field + 4 ≤ DINODE_SIZE →
      (setDinode block k dip).u32 (DINODE_SIZE * k + field) =
        dip.bytes (field + 3) ++ dip.bytes (field + 2) ++ dip.bytes (field + 1) ++
          dip.bytes field :=
    fun field within => Buffer.u32_splice_of_mem within fits
  ext1
  · exact (u16 0 (by decide)).trans (Buffer.le_append_le_16 _)
  · exact (u16 2 (by decide)).trans (Buffer.le_append_le_16 _)
  · exact (u16 4 (by decide)).trans (Buffer.le_append_le_16 _)
  · exact (u16 6 (by decide)).trans (Buffer.le_append_le_16 _)
  · exact (u32 8 (by decide)).trans (Buffer.le_append_le_32 _)
  · funext i
    have bound : (i : Nat) < 14 := i.isLt
    have index : ∀ r < 4, dip.bytes (12 + 4 * i + r) = le (dip.addrs i) r := by
      intro r small
      have quotient : (12 + 4 * (i : Nat) + r - 12) / 4 = i := by omega
      have remainder : (12 + 4 * (i : Nat) + r - 12) % 4 = r := by omega
      rw [Dinode.bytes, if_neg (by omega), if_neg (by omega), if_neg (by omega),
        if_neg (by omega), if_neg (by omega), quotient, remainder,
        show Fin.ofNat (NDIRECT + 2) i = i from Fin.ext (Nat.mod_eq_of_lt i.isLt)]
    have field := u32 (12 + 4 * i) (by simp only [DINODE_SIZE]; omega)
    rw [index 3 (by omega), index 2 (by omega), index 1 (by omega),
      ← Nat.add_zero (12 + 4 * (i : Nat)), index 0 (by omega), Nat.add_zero,
      ← Nat.add_assoc] at field
    exact field.trans (Buffer.le_append_le_32 _)

theorem dinodeAt_setDinode_of_ne {block : Block} {k j : Nat} (other : j ≠ k) (dip : Dinode) :
    dinodeAt (setDinode block k dip) j = dinodeAt block j := by
  have apart : DINODE_SIZE * j + 68 ≤ DINODE_SIZE * k ∨
      DINODE_SIZE * k + 68 ≤ DINODE_SIZE * j := by
    simp only [DINODE_SIZE]; omega
  ext1
  · exact Buffer.u16_splice_of_disjoint (by simp only [DINODE_SIZE] at *; omega)
  · exact Buffer.u16_splice_of_disjoint (by simp only [DINODE_SIZE] at *; omega)
  · exact Buffer.u16_splice_of_disjoint (by simp only [DINODE_SIZE] at *; omega)
  · exact Buffer.u16_splice_of_disjoint (by simp only [DINODE_SIZE] at *; omega)
  · exact Buffer.u32_splice_of_disjoint (by simp only [DINODE_SIZE] at *; omega)
  · funext i
    have bound : (i : Nat) < 14 := i.isLt
    exact Buffer.u32_splice_of_disjoint (by simp only [DINODE_SIZE] at *; omega)

/-! ## Bitmap -/

/-- `m = 1 << (bi % 8)`. -/
def bitMask (bi : Nat) : Byte := 1#8 <<< (bi % 8)

/-- Whether bit `bi` of a bitmap block is set. -/
def bitSet (block : Block) (bi : Nat) : Bool := (block.get (bi / 8) &&& bitMask bi) ≠ 0

/-- `bp->data[bi/8] |= m`. -/
def setBit (block : Block) (bi : Nat) : Block :=
  block.splice (bi / 8) 1 fun _ => block.get (bi / 8) ||| bitMask bi

/-- `bp->data[bi/8] &= ~m`. -/
def clearBit (block : Block) (bi : Nat) : Block :=
  block.splice (bi / 8) 1 fun _ => block.get (bi / 8) &&& ~~~ bitMask bi

theorem bitSet_eq_getLsbD (block : Block) (bi : Nat) :
    bitSet block bi = (block.get (bi / 8)).getLsbD (bi % 8) := by
  have small : bi % 8 < 8 := Nat.mod_lt _ (by omega)
  have masked := and_one_shiftLeft_eq_zero_iff (block.get (bi / 8)) small
  cases bit : (block.get (bi / 8)).getLsbD (bi % 8) with
  | false => exact decide_eq_false (not_not.mpr (masked.mpr bit))
  | true =>
      have nonzero : ¬ block.get (bi / 8) &&& (1#8 <<< (bi % 8)) = 0 := by
        rw [masked, bit]; decide
      exact decide_eq_true nonzero

@[simp]
theorem bitSet_zero (bi : Nat) : bitSet Buffer.zero bi = false := by
  simp [bitSet]

/-- Setting a bit sets that bit and no other. -/
theorem bitSet_setBit (block : Block) {bi : Nat} (inside : bi < BPB) (bj : Nat) :
    bitSet (setBit block bi) bj = (decide (bj = bi) || bitSet block bj) := by
  have bound : bi / 8 < 512 := by simp only [BPB] at inside; omega
  rw [bitSet_eq_getLsbD, bitSet_eq_getLsbD, setBit, Buffer.get_splice]
  by_cases sameByte : bj / 8 = bi / 8
  · rw [if_pos (by omega), sameByte]
    have small : bj % 8 < 8 := Nat.mod_lt _ (by omega)
    by_cases same : bj = bi
    · subst same
      simp [bitMask, small]
    · have different : bj % 8 ≠ bi % 8 := by omega
      simp only [bitMask, BitVec.getLsbD_or, BitVec.getLsbD_shiftLeft, BitVec.getLsbD_one]
      simp only [same, decide_false, Bool.false_or]
      grind
  · rw [if_neg (by omega)]
    simp [show bj ≠ bi by omega]

/-- Clearing a bit clears that bit and no other. -/
theorem bitSet_clearBit (block : Block) {bi : Nat} (inside : bi < BPB) (bj : Nat) :
    bitSet (clearBit block bi) bj = (decide (bj ≠ bi) && bitSet block bj) := by
  have bound : bi / 8 < 512 := by simp only [BPB] at inside; omega
  rw [bitSet_eq_getLsbD, bitSet_eq_getLsbD, clearBit, Buffer.get_splice]
  by_cases sameByte : bj / 8 = bi / 8
  · rw [if_pos (by omega), sameByte]
    have small : bj % 8 < 8 := Nat.mod_lt _ (by omega)
    by_cases same : bj = bi
    · subst same
      simp [bitMask, small]
    · have different : bj % 8 ≠ bi % 8 := by omega
      simp only [bitMask, BitVec.getLsbD_and, BitVec.getLsbD_not, BitVec.getLsbD_shiftLeft,
        BitVec.getLsbD_one]
      simp only [same, ne_eq, not_false_eq_true, decide_true, Bool.true_and]
      grind
  · rw [if_neg (by omega)]
    simp [show bj ≠ bi by omega]

/-! ## Indirect blocks -/

/-- `((uint*)bp->data)[j]`. -/
def word (block : Block) (j : Nat) : Nat := (block.u32 (4 * j)).toNat

/-- `((uint*)bp->data)[j] = addr`. -/
def setWord (block : Block) (j addr : Nat) : Block :=
  block.setU32 (4 * j) (BitVec.ofNat 32 addr)

@[simp]
theorem word_zero (j : Nat) : word Buffer.zero j = 0 := by
  simp [word]

theorem word_setWord {block : Block} {i : Nat} (inside : i < NINDIRECT) {addr : Nat}
    (bound : addr < 2 ^ 32) (j : Nat) :
    word (setWord block i addr) j = if j = i then addr else word block j := by
  have fits : 4 * i + 4 ≤ 512 := by simp only [NINDIRECT] at inside; omega
  split
  · next same =>
    subst same
    rw [word, setWord, Buffer.u32_setU32 fits, BitVec.toNat_ofNat, Nat.mod_eq_of_lt bound]
  · next other =>
    rw [word, setWord, Buffer.u32_setU32_of_disjoint (by omega), word]

/-! ## Directory entries -/

/-- A directory entry as it stands in memory. -/
@[ext]
structure Dirent where
  inum : BitVec 16
  name : Fin DIRSIZ → Byte

/-- `memset(&de, 0, sizeof(de))`. -/
def Dirent.zero : Dirent := ⟨0, fun _ => 0⟩

/-- The byte image of an entry. -/
def Dirent.bytes (de : Dirent) (i : Nat) : Byte :=
  if i < 2 then le de.inum i
  else if inside : i - 2 < DIRSIZ then de.name ⟨i - 2, inside⟩ else 0

/-- The entry whose byte image is given. -/
def Dirent.ofBytes (bytes : Nat → Byte) : Dirent where
  inum := bytes 1 ++ bytes 0
  name i := bytes (2 + i)

@[simp]
theorem Dirent.ofBytes_bytes (de : Dirent) : Dirent.ofBytes de.bytes = de := by
  ext1
  · exact Buffer.le_append_le_16 _
  · funext i
    change (if 2 + (i : Nat) < 2 then _ else _) = de.name i
    rw [if_neg (by omega)]
    simp

/-- The bytes of a name field up to the first zero. -/
def cstr (name : Fin DIRSIZ → Byte) : List Byte :=
  (List.ofFn name).takeWhile (· ≠ 0)

/-- `namecmp(s, t) == 0`: the strings agree up to `DIRSIZ` bytes. -/
def namecmp (s : List Byte) (t : Fin DIRSIZ → Byte) : Bool := s.take DIRSIZ = cstr t

/-- `strncpy(de.name, name, DIRSIZ)`. -/
def strncpy (name : List Byte) : Fin DIRSIZ → Byte := fun i => name.getD i 0

end Notux.Fs
