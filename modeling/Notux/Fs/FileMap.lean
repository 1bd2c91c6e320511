import Notux.Store.Tree
import Notux.Fs.Kernel

/-!
# The block map of a file

The fourteen addresses of an inode root a tree: twelve data blocks, one block of
128 block numbers, and one block of 128 such blocks.  A file block number is a
position of that tree without entries below it, and the bytes of a file are read
through it.  A missing block reads as zeros.
-/

namespace Notux.Fs

open Notux.Store

/-- The tree of blocks of an inode. -/
def fileShape : Shape where
  roots := NDIRECT + 2
  levels i := i - (NDIRECT - 1)
  width := NINDIRECT

/-- The block of an inode at a position. -/
def Dinode.blockAt (disk : Disk) (din : Dinode) (p : Pos) : Nat := p.blockAt word disk din.addr

theorem blockAt_child {disk : Disk} {din : Dinode} {p : Pos} (present : din.blockAt disk p ≠ 0)
    (j : Nat) : din.blockAt disk (.child p j) = word (disk (din.blockAt disk p)) j :=
  Pos.blockAt_child_of_ne_zero present j

/-- The position of file block `bn`, as `bmap` finds it. -/
def posOf (bn : Nat) : Pos :=
  if bn < NDIRECT then .root bn
  else if bn - NDIRECT < NINDIRECT then .child (.root NDIRECT) (bn - NDIRECT)
  else
    .child (.child (.root (NDIRECT + 1)) ((bn - NDIRECT - NINDIRECT) / NINDIRECT))
      ((bn - NDIRECT - NINDIRECT) % NINDIRECT)

/-- A position that holds file content. -/
def IsData (p : Pos) : Prop := p.Valid fileShape ∧ p.height fileShape = 0

theorem isData_posOf {bn : Nat} (inside : bn < MAXFILE) : IsData (posOf bn) := by
  simp only [MAXFILE, NDINDIRECT, NDIRECT, NINDIRECT] at inside
  unfold posOf IsData
  split
  · next direct =>
    simp only [Pos.Valid, Pos.height, fileShape, NDIRECT] at *
    omega
  · split
    · next beyond entry =>
      simp only [Pos.Valid, Pos.height, fileShape, NDIRECT, NINDIRECT, and_true] at *
      omega
    · next beyond entry =>
      simp only [Pos.Valid, Pos.height, fileShape, NDIRECT, NINDIRECT, and_true] at *
      omega

theorem posOf_injective {bn bm : Nat} (same : posOf bn = posOf bm) : bn = bm := by
  unfold posOf at same
  by_cases first : bn < NDIRECT
  · by_cases second : bm < NDIRECT
    · simpa [first, second] using same
    · by_cases entry : bm - NDIRECT < NINDIRECT <;> simp [first, second, entry] at same
  · by_cases second : bm < NDIRECT
    · by_cases entry : bn - NDIRECT < NINDIRECT <;> simp [first, second, entry] at same
    · simp only [first, second, if_false] at same
      by_cases entry : bn - NDIRECT < NINDIRECT
      · by_cases other : bm - NDIRECT < NINDIRECT
        · simp only [entry, other, if_true, Pos.child.injEq] at same
          omega
        · simp [entry, other] at same
      · by_cases other : bm - NDIRECT < NINDIRECT
        · simp [entry, other] at same
        · simp only [entry, other, if_false, Pos.child.injEq, NINDIRECT] at same first second
          simp only [NINDIRECT] at entry other
          omega

/-- The bytes of a file. -/
def content (disk : Disk) (din : Dinode) (off : Nat) : Byte :=
  if din.blockAt disk (posOf (off / BSIZE)) = 0 then 0
  else (disk (din.blockAt disk (posOf (off / BSIZE)))).get (off % BSIZE)

theorem addr_setAddr {din : Dinode} {i j addr : Nat} (inside : i < NDIRECT + 2)
    (other : j < NDIRECT + 2) (bound : addr < 2 ^ 32) :
    (din.setAddr i addr).addr j = if j = i then addr else din.addr j := by
  unfold Dinode.addr Dinode.setAddr
  dsimp only
  have index : ∀ k < NDIRECT + 2, (Fin.ofNat (NDIRECT + 2) k : Nat) = k :=
    fun k small => Nat.mod_eq_of_lt small
  by_cases same : j = i
  · subst same
    rw [if_pos rfl, Function.update_self, BitVec.toNat_ofNat, Nat.mod_eq_of_lt bound]
  · have differ : Fin.ofNat (NDIRECT + 2) j ≠ Fin.ofNat (NDIRECT + 2) i := by
      intro equal
      apply same
      rw [← index j other, ← index i inside, equal]
    rw [if_neg same, Function.update_of_ne differ]

/-- What an inode stands for: its fields apart from the block addresses, and its
bytes. -/
@[ext]
structure Node where
  type : BitVec 16
  major : BitVec 16
  minor : BitVec 16
  nlink : BitVec 16
  size : BitVec 32
  bytes : Nat → Byte

/-- The file behind an inode. -/
def Dinode.node (disk : Disk) (din : Dinode) : Node where
  type := din.type
  major := din.major
  minor := din.minor
  nlink := din.nlink
  size := din.size
  bytes := content disk din

section Fields

variable (disk : Disk) (din : Dinode)

@[simp] theorem node_type : (din.node disk).type = din.type := rfl
@[simp] theorem node_nlink : (din.node disk).nlink = din.nlink := rfl
@[simp] theorem node_size : (din.node disk).size = din.size := rfl
@[simp] theorem node_bytes : (din.node disk).bytes = content disk din := rfl

end Fields

/-- The directory entry at an offset. -/
def Node.dirent (node : Node) (off : Nat) : Dirent := .ofBytes fun i => node.bytes (off + i)

/-- The bytes with `len` of them from `off` on replaced. -/
def overwrite (bytes : Nat → Byte) (off len : Nat) (src : Nat → Byte) (i : Nat) : Byte :=
  if off ≤ i ∧ i < off + len then src (i - off) else bytes i

end Notux.Fs
