import Notux.Fs.Kernel

/-!
# Blocks and inodes

`fs.c` up to `writei`: the block allocator, the inode table, the map from file
blocks to disk blocks with its double-indirect range, truncation, and reading
and writing file content.

Block numbers, offsets and counts are `uint` in the source.  They are natural
numbers here, with the reduction modulo `2 ^ 32` written where the source can
reach it.
-/

namespace Notux.Fs

open Notux.Store Notux.Proc

/-! ## Superblock and block allocator -/

/-- `readsb`. -/
def readsb : FsM Superblock := do
  let bp ← bread 1
  let block ← data bp
  brelse bp
  return Superblock.ofBlock block

/-- `bzero`. -/
def bzero (bno : Nat) : FsM Unit := do
  let bp ← bread bno
  logWrite bp Buffer.zero
  brelse bp

/-- The inner loop of `balloc`: the first clear bit below `limit`, from `bi`
on, among `fuel` bits. -/
def findClear (block : Block) (limit : Nat) : Nat → Nat → Option Nat
  | 0, _ => none
  | fuel + 1, bi =>
      if bi < limit then
        if bitSet block bi then findClear block limit fuel (bi + 1) else some bi
      else none

/-- The outer loop of `balloc`, from the bitmap block of `b` on. -/
def ballocLoop (sb : Superblock) : Nat → Nat → FsM Nat
  | 0, _ => stop .ballocOutOfBlocks
  | fuel + 1, b =>
      if b < sb.size then do
        let bp ← bread (bblock sb b)
        let block ← data bp
        match findClear block (sb.size - b) BPB 0 with
        | some bi =>
            logWrite bp (setBit block bi)
            brelse bp
            bzero (b + bi)
            return b + bi
        | none =>
            brelse bp
            ballocLoop sb fuel (b + BPB)
      else stop .ballocOutOfBlocks

/-- `balloc`. -/
def balloc : FsM Nat := do
  let kernel ← getMem
  if kernel.xv6fsMounted then ballocLoop kernel.sb (kernel.sb.size / BPB + 1) 0
  else stop .ballocUnmounted

/-- `bfree`. -/
def bfree (b : Nat) : FsM Unit := do
  let kernel ← getMem
  let bp ← bread (bblock kernel.sb b)
  let block ← data bp
  if bitSet block (b % BPB) then
    logWrite bp (clearBit block (b % BPB))
    brelse bp
  else stop .freeingFreeBlock

/-! ## The inode table -/

/-- `xv6fs_iinit`: whether the file system was mounted. -/
def xv6fsIinit : FsM Int := do
  modifyMem fun kernel =>
    { kernel with
      icacheLocked := false
      icache := fun ip => { kernel.icache ip with locked := false } }
  let sb ← readsb
  modifyMem fun kernel => { kernel with sb }
  if sb.magic = XV6_MAGIC then
    modifyMem fun kernel => { kernel with xv6fsMounted := true }
    return 0
  else return -1

/-- The loop of `iget`: the entry that caches the inode, or else the first
entry without references. -/
def igetScan (icache : Slot → Inode) (inum : Nat) : List Slot → Option Slot → Slot ⊕ Option Slot
  | [], empty => .inr empty
  | ip :: rest, empty =>
      if (icache ip).ref > 0 ∧ (icache ip).inum = inum then .inl ip
      else
        igetScan icache inum rest
          (if empty = none ∧ (icache ip).ref = 0 then some ip else empty)

/-- `iget`. -/
def iget (inum : Nat) : FsM Slot := do
  acquire
  let kernel ← getMem
  match igetScan kernel.icache inum (List.finRange NINODE) none with
  | .inl ip =>
      modifyInode ip fun inode => { inode with ref := inode.ref + 1 }
      release
      return ip
  | .inr (some ip) =>
      modifyInode ip fun inode => { inode with inum, ref := 1, valid := false }
      release
      return ip
  | .inr none => stop .igetNoInodes

/-- `idup`. -/
def idup (ip : Slot) : FsM Slot := do
  acquire
  modifyInode ip fun inode => { inode with ref := inode.ref + 1 }
  release
  return ip

/-- The loop of `ialloc`, from inode `inum` on. -/
def iallocLoop (sb : Superblock) (type : BitVec 16) : Nat → Nat → FsM Slot
  | 0, _ => stop .iallocNoInodes
  | fuel + 1, inum =>
      if inum < sb.ninodes then do
        let bp ← bread (iblock sb inum)
        let block ← data bp
        if (dinodeAt block (inum % IPB)).type = 0 then
          logWrite bp (setDinode block (inum % IPB) { Dinode.zero with type })
          brelse bp
          iget inum
        else
          brelse bp
          iallocLoop sb type fuel (inum + 1)
      else stop .iallocNoInodes

/-- `ialloc`.  It never returns null: it stops when there is no inode. -/
def ialloc (type : BitVec 16) : FsM Slot := do
  let kernel ← getMem
  if kernel.xv6fsMounted then iallocLoop kernel.sb type kernel.sb.ninodes 1
  else stop .iallocUnmounted

/-- `iupdate`. -/
def iupdate (ip : Slot) : FsM Unit := do
  let kernel ← getMem
  let inode := kernel.icache ip
  let bp ← bread (iblock kernel.sb inode.inum)
  let block ← data bp
  logWrite bp (setDinode block (inode.inum % IPB) inode.din)
  brelse bp

/-- `ilock`. -/
def ilock (ip : Slot) : FsM Unit := do
  let inode ← getInode ip
  if inode.ref < 1 then stop .ilock
  else
    acquiresleep ip
    when (inode.valid = false) do
      let kernel ← getMem
      let bp ← bread (iblock kernel.sb inode.inum)
      let block ← data bp
      let din := dinodeAt block (inode.inum % IPB)
      modifyInode ip fun inode => { inode with din }
      brelse bp
      modifyInode ip fun inode => { inode with valid := true }
      when (din.type = 0) (stop .ilockNoType)

/-- `iunlock`. -/
def iunlock (ip : Slot) : FsM Unit := do
  let inode ← getInode ip
  if inode.locked = false ∨ inode.ref < 1 then stop .iunlock
  else releasesleep ip

/-! ## The block map -/

/-- Look up entry `i` of an indirect block, allocating a block for it if it has
none. -/
def bmapIndirect (addr i : Nat) : FsM Nat := do
  let bp ← bread addr
  let a ← data bp
  if word a i = 0 then
    let addr ← balloc
    let a ← data bp
    logWrite bp (setWord a i addr)
    brelse bp
    return addr
  else
    brelse bp
    return word a i

/-- Look up `ip->addrs[i]`, allocating a block for it if it has none. -/
def bmapAddr (ip : Slot) (i : Nat) : FsM Nat := do
  let inode ← getInode ip
  if inode.din.addr i = 0 then
    let addr ← balloc
    modifyInode ip (·.mapDin (·.setAddr i addr))
    return addr
  else return inode.din.addr i

/-- `bmap`. -/
def bmap (ip : Slot) (bn : Nat) : FsM Nat :=
  if bn < NDIRECT then bmapAddr ip bn
  else if bn - NDIRECT < NINDIRECT then do
    let addr ← bmapAddr ip NDIRECT
    bmapIndirect addr (bn - NDIRECT)
  else if bn - NDIRECT - NINDIRECT < NDINDIRECT then do
    let idx1 := (bn - NDIRECT - NINDIRECT) / NINDIRECT
    let idx2 := (bn - NDIRECT - NINDIRECT) % NINDIRECT
    let addr ← bmapAddr ip (NDIRECT + 1)
    let addr ← bmapIndirect addr idx1
    bmapIndirect addr idx2
  else stop .bmapOutOfRange

/-- The loop of `itrunc` over the entries of an indirect block. -/
def itruncIndirect (bp : Buf) : FsM Unit :=
  forEach (List.range NINDIRECT) fun j => do
    let a ← data bp
    when (word a j ≠ 0) (bfree (word a j))

/-- The loop of `itrunc` over the entries of the double-indirect block. -/
def itruncDouble (bp : Buf) : FsM Unit :=
  forEach (List.range NINDIRECT) fun j => do
    let a ← data bp
    when (word a j ≠ 0) do
      let bp2 ← bread (word a j)
      itruncIndirect bp2
      brelse bp2
      let a ← data bp
      bfree (word a j)

/-- `itrunc`. -/
def itrunc (ip : Slot) : FsM Unit := do
  forEach (List.range NDIRECT) fun i => do
    let inode ← getInode ip
    when (inode.din.addr i ≠ 0) do
      bfree (inode.din.addr i)
      modifyInode ip (·.mapDin (·.setAddr i 0))
  let inode ← getInode ip
  when (inode.din.addr NDIRECT ≠ 0) do
    let bp ← bread (inode.din.addr NDIRECT)
    itruncIndirect bp
    brelse bp
    bfree (inode.din.addr NDIRECT)
    modifyInode ip (·.mapDin (·.setAddr NDIRECT 0))
  let inode ← getInode ip
  when (inode.din.addr (NDIRECT + 1) ≠ 0) do
    let bp ← bread (inode.din.addr (NDIRECT + 1))
    itruncDouble bp
    brelse bp
    bfree (inode.din.addr (NDIRECT + 1))
    modifyInode ip (·.mapDin (·.setAddr (NDIRECT + 1) 0))
  modifyInode ip (·.mapDin ({ · with size := 0 }))
  iupdate ip

/-- `iput`. -/
def iput (ip : Slot) : FsM Unit := do
  acquiresleep ip
  let inode ← getInode ip
  when (inode.valid = true ∧ inode.din.nlink = 0) do
    acquire
    let inode ← getInode ip
    release
    when (inode.ref = 1) do
      itrunc ip
      modifyInode ip (·.mapDin ({ · with type := 0 }))
      iupdate ip
      modifyInode ip fun inode => { inode with valid := false }
  releasesleep ip
  acquire
  modifyInode ip fun inode => { inode with ref := inode.ref - 1 }
  release

/-- `iunlockput`. -/
def iunlockput (ip : Slot) : FsM Unit := do
  iunlock ip
  iput ip

/-! ## File content -/

/-- Whether `devsw[major]` has handlers: only the console has. -/
def devswSet (major : BitVec 16) : Bool := major = 1

/-- The loop of `readi`: `rest` bytes from `off` on. -/
def readiLoop (ip : Slot) : Nat → Nat → Nat → FsM (List Byte)
  | 0, _, _ => pure []
  | fuel + 1, off, rest =>
      if rest = 0 then pure []
      else do
        let addr ← bmap ip (off / BSIZE)
        let bp ← bread addr
        let m := min rest (BSIZE - off % BSIZE)
        let block ← data bp
        brelse bp
        let bytes ← readiLoop ip fuel (off + m) (rest - m)
        return block.slice (off % BSIZE) m ++ bytes

/-- `readi`: the return value, and the bytes it puts at `dst`. -/
def readi (ip : Slot) (off n : Nat) : FsM (Int × List Byte) := do
  let inode ← getInode ip
  if inode.din.type = T_DEV then
    if devswSet inode.din.major then return (0, []) else return (-1, [])
  else if off > inode.din.size.toNat ∨ (off + n) % 2 ^ 32 < off then return (-1, [])
  else
    let n := if (off + n) % 2 ^ 32 > inode.din.size.toNat then inode.din.size.toNat - off else n
    let bytes ← readiLoop ip n off n
    return (toInt32 n, bytes)

/-- The loop of `writei`: `rest` bytes from `off` on, taken from `src + tot`. -/
def writeiLoop (ip : Slot) (src : Nat → Byte) : Nat → Nat → Nat → Nat → FsM Unit
  | 0, _, _, _ => pure ()
  | fuel + 1, tot, off, rest =>
      if rest = 0 then pure ()
      else do
        let addr ← bmap ip (off / BSIZE)
        let bp ← bread addr
        let m := min rest (BSIZE - off % BSIZE)
        let block ← data bp
        logWrite bp (block.splice (off % BSIZE) m fun i => src (tot + i))
        brelse bp
        writeiLoop ip src fuel (tot + m) (off + m) (rest - m)

/-- `writei`. -/
def writei (ip : Slot) (src : Nat → Byte) (off n : Nat) : FsM Int := do
  let inode ← getInode ip
  if inode.din.type = T_DEV then
    if devswSet inode.din.major then return toInt32 n else return -1
  else if off > inode.din.size.toNat ∨ (off + n) % 2 ^ 32 < off then return -1
  else if (off + n) % 2 ^ 32 > MAXFILE * BSIZE then return -1
  else
    writeiLoop ip src n 0 off n
    let inode ← getInode ip
    when (n > 0 ∧ off + n > inode.din.size.toNat) do
      modifyInode ip (·.mapDin ({ · with size := BitVec.ofNat 32 (off + n) }))
      iupdate ip
    return toInt32 n

end Notux.Fs
