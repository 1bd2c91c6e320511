import Notux.Proc.Table
import Notux.Store.Program

/-!
# Kernel memory of the file system

The globals behind `fs.c` and the bridge: the superblock, the mount flag, the
table of fifty in-memory inodes with its lock, the working directory of the one
`struct proc` the file system knows, the process table, and the buffer into
which executables are read.  `FsM` is code over this memory and the buffer cache.

Every device number that reaches this code is `ROOTDEV`, so none is carried.
-/

namespace Notux.Fs

open Notux.Store Notux.Proc

/-- An entry of the inode table.  `din` is the copy of the on-disk fields. -/
structure Inode where
  inum : Nat
  ref : Int
  din : Dinode
  locked : Bool
  valid : Bool

/-- An entry of the zero-initialised inode table. -/
def Inode.vacant : Inode := ⟨0, 0, Dinode.zero, false, false⟩

structure Kernel where
  sb : Superblock
  xv6fsMounted : Bool
  icacheLocked : Bool
  icache : Slot → Inode
  cwd : Option Slot
  table : ProcTable
  elfLoadBuffer : Nat → Byte

/-- The places where the code panics or halts, named after the message. -/
inductive Stop where
  | ballocUnmounted
  | ballocOutOfBlocks
  | freeingFreeBlock
  | iallocUnmounted
  | iallocNoInodes
  | igetNoInodes
  | ilock
  | ilockNoType
  | iunlock
  | bmapOutOfRange
  | dirlookupNotDir
  | dirlookupRead
  | dirlinkRead
  | dirlink
  | acquire
  | release
  | acquiresleep
  | releasesleep
  | rootInodeNotFound
  | breadReadError
  | bwriteWriteError
deriving DecidableEq, Repr

/-- File system code. -/
abbrev FsM := Prog Kernel Block Stop

/-- Memory and disk with the buffer cache taken as transparent. -/
abbrev FsWorld := World Kernel Block

/-- The inode a pointer points to. -/
def getInode (ip : Slot) : FsM Inode := do
  let kernel ← getMem
  return kernel.icache ip

/-- Change one entry of the inode table. -/
def Kernel.setInode (kernel : Kernel) (ip : Slot) (change : Inode → Inode) : Kernel :=
  { kernel with icache := Function.update kernel.icache ip (change (kernel.icache ip)) }

/-- Assign to fields of the inode a pointer points to. -/
def modifyInode (ip : Slot) (change : Inode → Inode) : FsM Unit :=
  modifyMem fun kernel => kernel.setInode ip change

/-- Change the on-disk fields of an in-memory inode. -/
def Inode.mapDin (change : Dinode → Dinode) (ip : Inode) : Inode := { ip with din := change ip.din }

/-- `ip->addrs[i]`. -/
def Dinode.addr (din : Dinode) (i : Nat) : Nat := (din.addrs (Fin.ofNat _ i)).toNat

/-- `ip->addrs[i] = addr`. -/
def Dinode.setAddr (din : Dinode) (i addr : Nat) : Dinode :=
  { din with addrs := Function.update din.addrs (Fin.ofNat _ i) (BitVec.ofNat 32 addr) }

/-! ## Locks -/

/-- `acquire(&icache.lock)`. -/
def acquire : FsM Unit := do
  let kernel ← getMem
  if kernel.icacheLocked then stop .acquire
  else setMem { kernel with icacheLocked := true }

/-- `release(&icache.lock)`. -/
def release : FsM Unit := do
  let kernel ← getMem
  if kernel.icacheLocked then setMem { kernel with icacheLocked := false }
  else stop .release

/-- `acquiresleep(&ip->lock)`. -/
def acquiresleep (ip : Slot) : FsM Unit := do
  let inode ← getInode ip
  if inode.locked then stop .acquiresleep
  else modifyInode ip fun inode => { inode with locked := true }

/-- `releasesleep(&ip->lock)`. -/
def releasesleep (ip : Slot) : FsM Unit := do
  let inode ← getInode ip
  if inode.locked then modifyInode ip fun inode => { inode with locked := false }
  else stop .releasesleep

/-- `brelse`: the bridge keeps no hold on a buffer. -/
def brelse (_bp : Buf) : FsM Unit := pure ()

end Notux.Fs
