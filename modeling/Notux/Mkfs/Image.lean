import Notux.Fs.Inode

/-!
# The image builder

`mkfs.c` repeats the structures of `fs.h` and builds an image from scratch: the
superblock, three directories under the root, a text file, and optionally one
binary.  Blocks and inodes are handed out by counters, and the bitmap is written
at the very end.  It gives up when a sector cannot be read or an assertion
fails.
-/

namespace Notux.Mkfs

open Notux.Store Notux.Fs

abbrev FSSIZE : Nat := 8192
abbrev NINODES : Nat := 200
abbrev LOGSIZE : Nat := 30

abbrev ninodeblocks : Nat := NINODES / IPB + 1
abbrev nbitmap : Nat := FSSIZE / (BSIZE * 8) + 1
abbrev nmeta : Nat := 2 + LOGSIZE + ninodeblocks + nbitmap

/-- `sb`. -/
def sb : Superblock where
  magic := XV6_MAGIC
  size := FSSIZE
  nblocks := FSSIZE - nmeta
  ninodes := NINODES
  nlog := LOGSIZE
  logstart := 2
  inodestart := 2 + LOGSIZE
  bmapstart := 2 + LOGSIZE + ninodeblocks

/-- The image file and the counters.  `stray` holds the offsets of the stores
that `balloc_mark_used` makes beyond its buffer. -/
structure Image where
  disk : Disk
  sectors : Nat
  freeblock : Nat
  freeinode : Nat
  stray : List Nat

/-- Code that may give up. -/
abbrev MkfsM := StateT Image Option

/-- `wsect`. -/
def wsect (sec : Nat) (buf : Block) : MkfsM Unit :=
  modify fun image =>
    { image with
      disk := Function.update image.disk sec buf
      sectors := max image.sectors (sec + 1) }

/-- `rsect`: a sector beyond the end of the file cannot be read. -/
def rsect (sec : Nat) : MkfsM Block := do
  let image ← get
  if sec < image.sectors then return image.disk sec else failure

/-- `winode`. -/
def winode (inum : Nat) (ip : Dinode) : MkfsM Unit := do
  let buf ← rsect (iblock sb inum)
  wsect (iblock sb inum) (setDinode buf (inum % IPB) ip)

/-- `rinode`. -/
def rinode (inum : Nat) : MkfsM Dinode := do
  let buf ← rsect (iblock sb inum)
  return dinodeAt buf (inum % IPB)

/-- `ialloc`. -/
def ialloc (type : BitVec 16) : MkfsM Nat := do
  let image ← get
  let inum := image.freeinode
  set { image with freeinode := inum + 1 }
  winode inum { Dinode.zero with type, nlink := 1 }
  return inum

/-- `freeblock++`. -/
def takeBlock : MkfsM Nat := do
  let image ← get
  set { image with freeblock := image.freeblock + 1 }
  return image.freeblock

/-- The first loop of `balloc_mark_used`: the buffer, and the offsets stored to
outside of it. -/
def markBuffer (used : Nat) : Block × List Nat :=
  (List.range used).foldl
    (fun (buf, stray) i =>
      if i / 8 < BSIZE then (setBit buf i, stray) else (buf, stray ++ [i / 8]))
    (Buffer.zero, [])

/-- The second loop, for the bitmap block with number `k`. -/
def bitmapBlock (used k : Nat) : Block :=
  (List.range BPB).foldl
    (fun buf bi => if k * BPB + bi < used then setBit buf bi else buf)
    Buffer.zero

/-- `balloc_mark_used`.  What the first loop leaves in the buffer is cleared
before it is used. -/
def ballocMarkUsed (used : Nat) : MkfsM Unit := do
  modify fun image => { image with stray := image.stray ++ (markBuffer used).2 }
  wsect sb.bmapstart (bitmapBlock used 0)
  wsect (sb.bmapstart + 1) (bitmapBlock used 1)

/-- `din.addrs[i]`, taken if it is missing. -/
def takeAddr (din : Dinode) (i : Nat) : MkfsM (Nat × Dinode) := do
  if din.addr i = 0 then
    let block ← takeBlock
    return (block, din.setAddr i block)
  else return (din.addr i, din)

/-- Entry `i` of the block of block numbers `addr`, taken if it is missing. -/
def takeEntry (addr i : Nat) : MkfsM Nat := do
  let entries ← rsect addr
  if word entries i = 0 then
    let block ← takeBlock
    wsect addr (setWord entries i block)
    return block
  else return word entries i

/-- The block of `iappend` for file block `fbn`. -/
def appendBlock (din : Dinode) (fbn : Nat) : MkfsM (Nat × Dinode) := do
  if fbn < NDIRECT then takeAddr din fbn
  else if fbn < NDIRECT + NINDIRECT then
    let (addr, din) ← takeAddr din NDIRECT
    let x ← takeEntry addr (fbn - NDIRECT)
    return (x, din)
  else
    let bn2 := fbn - NDIRECT - NINDIRECT
    let (addr, din) ← takeAddr din (NDIRECT + 1)
    let second ← takeEntry addr (bn2 / NINDIRECT)
    let x ← takeEntry second (bn2 % NINDIRECT)
    return (x, din)

/-- The loop of `iappend`: the inode and the offset it ends with. -/
def appendLoop : Nat → Dinode → Nat → List Byte → MkfsM (Dinode × Nat)
  | 0, din, off, _ => return (din, off)
  | fuel + 1, din, off, p => do
      if p = [] then return (din, off)
      else if off / BSIZE < MAXFILE then
        let (x, din) ← appendBlock din (off / BSIZE)
        let n1 := min p.length (BSIZE - off % BSIZE)
        let buf ← rsect x
        wsect x (buf.splice (off % BSIZE) n1 fun i => p.getD i 0)
        appendLoop fuel din (off + n1) (p.drop n1)
      else failure

/-- `iappend`. -/
def iappend (inum : Nat) (xp : List Byte) : MkfsM Unit := do
  let din ← rinode inum
  let (din, off) ← appendLoop xp.length din din.size.toNat xp
  winode inum { din with size := BitVec.ofNat 32 off }

/-- `dirlink`. -/
def dirlink (dirInum : Nat) (name : List Byte) (targetInum : Nat) : MkfsM Unit :=
  let de : Dirent := ⟨BitVec.ofNat 16 targetInum, strncpy name⟩
  iappend dirInum ((List.range DIRENT_SIZE).map de.bytes)

/-- Set the link count of an inode. -/
def setNlink (inum : Nat) (nlink : BitVec 16) : MkfsM Unit := do
  let din ← rinode inum
  winode inum { din with nlink }

/-- `make_dir_under_root`. -/
def makeDirUnderRoot (rootInum : Nat) (name : List Byte) : MkfsM Nat := do
  let inum ← ialloc T_DIR
  dirlink inum [46] inum
  dirlink inum [46, 46] rootInum
  dirlink rootInum name inum
  setNlink inum 2
  return inum

/-- The bytes of an ASCII string. -/
def ascii (text : String) : List Byte := text.toList.map fun c => BitVec.ofNat 8 c.toNat

def readmeText : List Byte := ascii
  ("Welcome to notux.\n" ++
    "\n" ++
    "This file was written by tools/mkfs.c when this disk image\n" ++
    "was built -- if you can read this, the AHCI driver and\n" ++
    "xv6fs are both working end to end.\n" ++
    "\n" ++
    "Layout:\n" ++
    "  /bin   executables\n" ++
    "  /etc   configuration\n" ++
    "  /root  root's home directory\n")

/-- `memmove(sbuf, &sb, sizeof(sb))`. -/
def superblockBlock : Block :=
  let fields := [sb.magic, sb.size, sb.nblocks, sb.ninodes, sb.nlog, sb.logstart,
    sb.inodestart, sb.bmapstart]
  (List.range 8).foldl (fun buf i => setWord buf i (fields.getD i 0)) Buffer.zero

/-- The image after it has been zeroed and the superblock written. -/
def Image.blank : Image where
  disk := Function.update (fun _ => Buffer.zero) 1 superblockBlock
  sectors := FSSIZE
  freeblock := nmeta
  freeinode := 1
  stray := []

/-- Append the chunks that `fread` returns, one after the other. -/
def appendChunks (inum : Nat) : List (List Byte) → MkfsM Unit
  | [] => return ()
  | chunk :: rest => do
      iappend inum chunk
      appendChunks inum rest

/-- `main`, from the root directory on.  The binary to embed comes in the chunks
in which it is read. -/
def build (binary : Option (List (List Byte))) : MkfsM Unit := do
  let rootInum ← ialloc T_DIR
  if rootInum = ROOTINO then
    dirlink rootInum [46] rootInum
    dirlink rootInum [46, 46] rootInum
    let _ ← makeDirUnderRoot rootInum (ascii "etc")
    let binInum ← makeDirUnderRoot rootInum (ascii "bin")
    let _ ← makeDirUnderRoot rootInum (ascii "root")
    setNlink rootInum (2 + 3)
    let readmeInum ← ialloc T_FILE
    iappend readmeInum readmeText
    dirlink rootInum (ascii "README") readmeInum
    match binary with
    | none => pure ()
    | some chunks =>
        let childInum ← ialloc T_FILE
        appendChunks childInum chunks
        dirlink binInum (ascii "child") childInum
    let image ← get
    ballocMarkUsed image.freeblock
  else failure

/-- The image `mkfs` leaves behind when it exits successfully. -/
def mkfs (binary : Option (List (List Byte))) : Option Image :=
  ((build binary).run .blank).map Prod.snd

end Notux.Mkfs
