import Notux.Fs.Inode

/-!
# Directories and paths

The rest of `fs.c` (`dirlookup`, `dirlink`, `skipelem`, `namex`), the working
directory kept by the bridge, and `xv6fs_create` and `xv6fs_unlink`.
-/

namespace Notux.Fs

open Notux.Store Notux.Proc

/-! ## Directories -/

/-- Read the entry at `off`; nothing if `readi` does not deliver all of it. -/
def readDirent (dp : Slot) (off : Nat) : FsM (Option Dirent) := do
  let (r, bytes) ← readi dp off DIRENT_SIZE
  if r = DIRENT_SIZE then return some (Dirent.ofBytes fun i => bytes.getD i 0) else return none

/-- The loop of `dirlookup`, from `off` on. -/
def dirlookupLoop (dp : Slot) (name : List Byte) : Nat → Nat → FsM (Option (Slot × Nat))
  | 0, _ => pure none
  | fuel + 1, off => do
      let inode ← getInode dp
      if off < inode.din.size.toNat then
        match ← readDirent dp off with
        | none => stop .dirlookupRead
        | some de =>
            if de.inum ≠ 0 ∧ namecmp name de.name then
              let ip ← iget de.inum.toNat
              return some (ip, off)
            else dirlookupLoop dp name fuel (off + DIRENT_SIZE)
      else return none

/-- `dirlookup`: the inode and the offset of its entry (`*poff`). -/
def dirlookup (dp : Slot) (name : List Byte) : FsM (Option (Slot × Nat)) := do
  let inode ← getInode dp
  if inode.din.type = T_DIR then
    dirlookupLoop dp name (inode.din.size.toNat / DIRENT_SIZE + 1) 0
  else stop .dirlookupNotDir

/-- The loop of `dirlink`: the offset of the first free entry from `off` on, or
else the first offset not below the size. -/
def dirlinkLoop (dp : Slot) : Nat → Nat → FsM Nat
  | 0, off => pure off
  | fuel + 1, off => do
      let inode ← getInode dp
      if off < inode.din.size.toNat then
        match ← readDirent dp off with
        | none => stop .dirlinkRead
        | some de =>
            if de.inum = 0 then return off else dirlinkLoop dp fuel (off + DIRENT_SIZE)
      else return off

/-- `dirlink`. -/
def dirlink (dp : Slot) (name : List Byte) (inum : Nat) : FsM Int := do
  match ← dirlookup dp name with
  | some (ip, _) =>
      iput ip
      return -1
  | none =>
      let inode ← getInode dp
      let off ← dirlinkLoop dp (inode.din.size.toNat / DIRENT_SIZE + 1) 0
      let de : Dirent := ⟨BitVec.ofNat 16 inum, strncpy name⟩
      let r ← writei dp de.bytes off DIRENT_SIZE
      if r = DIRENT_SIZE then return 0 else stop .dirlink

/-! ## Paths -/

/-- A zero-terminated string: the bytes before the terminator. -/
structure CString where
  bytes : List Byte
  noNul : 0 ∉ bytes

def slash : Byte := 47
def dot : Byte := 46

/-- `skipelem`: the next path element, cut to `DIRSIZ` bytes, and the rest of
the path without leading slashes. -/
def skipelem (path : List Byte) : Option (List Byte × List Byte) :=
  let path := path.dropWhile (· = slash)
  if path = [] then none
  else
    some ((path.takeWhile (· ≠ slash)).take DIRSIZ,
      (path.dropWhile (· ≠ slash)).dropWhile (· = slash))

/-- Every element shortens the path. -/
theorem skipelem_length {path name rest : List Byte}
    (element : skipelem path = some (name, rest)) : rest.length < path.length := by
  unfold skipelem at element
  dsimp only at element
  cases trimmed : path.dropWhile (· = slash) with
  | nil => simp [trimmed] at element
  | cons head tail =>
      have shorter := (List.dropWhile_suffix (· = slash) (l := path)).length_le
      have notSlash : ¬ (head = slash) := by
        have first := List.head_dropWhile_not (· = slash) (l := path) (by simp [trimmed])
        simpa [trimmed] using first
      rw [trimmed] at element shorter
      simp only [reduceCtorEq, if_false, Option.some.injEq, Prod.mk.injEq] at element
      obtain ⟨-, rfl⟩ := element
      have inner := (List.dropWhile_suffix (· ≠ slash) (l := tail)).length_le
      have outer := (List.dropWhile_suffix (· = slash)
        (l := (head :: tail).dropWhile (· ≠ slash))).length_le
      rw [List.dropWhile_cons_of_pos (by simpa using notSlash)] at outer ⊢
      simp only [List.length_cons] at shorter
      omega

/-- The loop of `namex` at inode `ip`.  With `parent` set it returns the
directory of the last element, locked no more, and that element. -/
def namexLoop (parent : Bool) : Nat → Slot → List Byte → FsM (Option (Slot × List Byte))
  | 0, _, _ => pure none
  | fuel + 1, ip, path =>
      match skipelem path with
      | none =>
          if parent then do
            iput ip
            return none
          else return some (ip, [])
      | some (name, rest) => do
          ilock ip
          let inode ← getInode ip
          if inode.din.type ≠ T_DIR then
            iunlockput ip
            return none
          else if parent ∧ rest = [] then
            iunlock ip
            return some (ip, name)
          else
            match ← dirlookup ip name with
            | none =>
                iunlockput ip
                return none
            | some (next, _) =>
                iunlockput ip
                namexLoop parent fuel next rest

/-- `namex` on an absolute path. -/
def namexRoot (path : List Byte) (parent : Bool) : FsM (Option (Slot × List Byte)) := do
  let ip ← iget ROOTINO
  namexLoop parent (path.length + 1) ip path

/-- `myproc()->cwd`: the bridge sets it to the root when it is first asked
for. -/
def myprocCwd : FsM Slot := do
  let kernel ← getMem
  match kernel.cwd with
  | some ip => return ip
  | none =>
      match ← namexRoot [slash] false with
      | none => stop .rootInodeNotFound
      | some (ip, _) =>
          modifyMem fun kernel => { kernel with cwd := some ip }
          return ip

/-- `namex`. -/
def namex (path : List Byte) (parent : Bool) : FsM (Option (Slot × List Byte)) :=
  if path.head? = some slash then namexRoot path parent
  else do
    let cwd ← myprocCwd
    let ip ← idup cwd
    namexLoop parent (path.length + 1) ip path

/-- `namei`. -/
def namei (path : List Byte) : FsM (Option Slot) := do
  match ← namex path false with
  | none => return none
  | some (ip, _) => return some ip

/-- `nameiparent`. -/
def nameiparent (path : List Byte) : FsM (Option (Slot × List Byte)) := namex path true

/-- `xv6fs_bridge_set_cwd`. -/
def xv6fsBridgeSetCwd (ip : Slot) : FsM Unit := do
  let cwd ← myprocCwd
  iput cwd
  modifyMem fun kernel => { kernel with cwd := some ip }

/-! ## Creating and removing files -/

/-- The failure exit shared by the two functions: unlock and drop both. -/
def unlockputBoth (ip dp : Slot) : FsM Unit := do
  iunlock ip
  iput ip
  iunlock dp
  iput dp

/-- The last part of `xv6fs_create`: enter the new inode into its directory. -/
def createLink (dp ip : Slot) (name : List Byte) : FsM (Option Slot) := do
  let inode ← getInode ip
  if (← dirlink dp name inode.inum) < 0 then
    unlockputBoth ip dp
    return none
  else
    iunlock dp
    iput dp
    return some ip

/-- The middle part of `xv6fs_create` for a directory: count the link of the
new `..` and write both dot entries. -/
def createDots (dp ip : Slot) : FsM Bool := do
  modifyInode dp (·.mapDin fun din => { din with nlink := din.nlink + 1 })
  iupdate dp
  let inode ← getInode ip
  if (← dirlink ip [dot] inode.inum) < 0 then return false
  else
    let parent ← getInode dp
    if (← dirlink ip [dot, dot] parent.inum) < 0 then return false
    else return true

/-- `xv6fs_create`: the inode, locked and with a reference. -/
def xv6fsCreate (path : List Byte) (type major minor : BitVec 16) : FsM (Option Slot) := do
  match ← nameiparent path with
  | none => return none
  | some (dp, name) =>
      ilock dp
      match ← dirlookup dp name with
      | some (ip, _) =>
          iunlock dp
          iput dp
          ilock ip
          let inode ← getInode ip
          if type = T_FILE ∧ inode.din.type = T_FILE then return some ip
          else
            iunlock ip
            iput ip
            return none
      | none =>
          let ip ← ialloc type
          ilock ip
          modifyInode ip (·.mapDin ({ · with major, minor, nlink := 1 }))
          iupdate ip
          if type = T_DIR then
            if ← createDots dp ip then createLink dp ip name
            else
              unlockputBoth ip dp
              return none
          else createLink dp ip name

/-- The loop of `xv6fs_unlink`: whether a directory has no entry in use from
`o` on. -/
def isdirempty (ip : Slot) : Nat → Nat → FsM Bool
  | 0, _ => pure true
  | fuel + 1, o => do
      let inode ← getInode ip
      if o < inode.din.size.toNat then
        match ← readDirent ip o with
        | none => return false
        | some de =>
            if de.inum ≠ 0 then return false else isdirempty ip fuel (o + DIRENT_SIZE)
      else return true

/-- The last part of `xv6fs_unlink`: clear the entry at `off` and drop the
link. -/
def unlinkEntry (dp ip : Slot) (off : Nat) : FsM Int := do
  if (← writei dp Dirent.zero.bytes off DIRENT_SIZE) ≠ DIRENT_SIZE then
    unlockputBoth ip dp
    return -1
  else
    let inode ← getInode ip
    when (inode.din.type = T_DIR) do
      modifyInode dp (·.mapDin fun din => { din with nlink := din.nlink - 1 })
      iupdate dp
    iunlock dp
    iput dp
    modifyInode ip (·.mapDin fun din => { din with nlink := din.nlink - 1 })
    iupdate ip
    iunlock ip
    iput ip
    return 0

/-- `xv6fs_unlink`. -/
def xv6fsUnlink (path : List Byte) : FsM Int := do
  match ← nameiparent path with
  | none => return -1
  | some (dp, name) =>
      ilock dp
      if name = [dot] ∨ name = [dot, dot] then
        iunlock dp
        iput dp
        return -1
      else
        match ← dirlookup dp name with
        | none =>
            iunlock dp
            iput dp
            return -1
        | some (ip, off) =>
            ilock ip
            let inode ← getInode ip
            if inode.din.nlink.toInt < 1 then
              unlockputBoth ip dp
              return -1
            else if inode.din.type = T_DIR then
              if ← isdirempty ip (inode.din.size.toNat / DIRENT_SIZE + 1) (2 * DIRENT_SIZE) then
                unlinkEntry dp ip off
              else
                unlockputBoth ip dp
                return -1
            else unlinkEntry dp ip off

end Notux.Fs
