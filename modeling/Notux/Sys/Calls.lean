import Notux.Fs.Path

/-!
# System calls

`syscall_handler` for the calls that touch files, the working directory or the
process table, made by the current process.  A null pointer argument is `none`.

What the calls learn from the rest of the kernel is an argument: the character
`kgetc` returns, the result of `create_user_pml4` and of
`load_elf_into_process`, the file `ramfs_open` finds, and the argument vector
that was copied for the child.
-/

namespace Notux.Sys

open Notux.Store Notux.Proc Notux.Fs

def O_WRONLY : BitVec 32 := 0x0001
def O_RDWR : BitVec 32 := 0x0002
def O_CREAT : BitVec 32 := 0x0040
def O_TRUNC : BitVec 32 := 0x0200
def O_APPEND : BitVec 32 := 0x0400

abbrev MAX_ELF_SIZE : Nat := 256 * 1024

/-- `flags & bit`. -/
def hasFlag (flags bit : BitVec 32) : Bool := flags &&& bit ≠ 0

/-! ## Descriptors -/

/-- A descriptor of the current process. -/
def getOfile (fd : Fin NOFILE) : FsM OFile := do
  let kernel ← getMem
  return kernel.table.currentProcess.ofiles fd

/-- Set one descriptor of a process. -/
def setOfileOf (idx : ProcIdx) (fd : Fin NOFILE) (file : OFile) (kernel : Kernel) : Kernel :=
  { kernel with
    table := kernel.table.modify idx fun process =>
      { process with ofiles := Function.update process.ofiles fd file } }

/-- Set a descriptor of the current process. -/
def setOfile (fd : Fin NOFILE) (file : OFile) : FsM Unit :=
  modifyMem fun kernel => setOfileOf kernel.table.current fd file kernel

/-- A descriptor number that lies in `low..15`. -/
def toFd (low : Nat) (fd : Int) : Option (Fin NOFILE) :=
  if bound : low ≤ fd ∧ fd < NOFILE then some ⟨fd.toNat, by omega⟩ else none

/-- The open file behind a descriptor number, if it lies in `low..15` and is in
use. -/
def openFile (low : Nat) (fd : Int) : FsM (Option (Fin NOFILE × OFile × Slot)) := do
  match toFd low fd with
  | none => return none
  | some fd =>
      let file ← getOfile fd
      match file.ip with
      | none => return none
      | some ip => return some (fd, file, ip)

/-- The lowest free descriptor in `3..15`. -/
def freeFd : FsM (Option (Fin NOFILE)) := do
  let kernel ← getMem
  return ((List.finRange NOFILE).drop 3).find? fun fd =>
    (kernel.table.currentProcess.ofiles fd).ip = none

/-! ## Files -/

/-- System call 0: the return value and the bytes delivered. -/
def sysRead (fd : Int) (bufNull : Bool) (count : Nat) (key : Byte) : FsM (Int × List Byte) := do
  if bufNull ∨ count = 0 then return (-1, [])
  else
    match ← openFile 0 fd with
    | none =>
        if fd = 0 then
          if key = 0 then return (0, []) else return (1, [key])
        else return (-1, [])
    | some (fd, file, ip) =>
        if (fd : Nat) = 1 ∨ (fd : Nat) = 2 then return (-1, [])
        else
          ilock ip
          let (r, bytes) ← readi ip file.offset (count % 2 ^ 32)
          iunlock ip
          when (r > 0) (setOfile fd { file with offset := (file.offset + r.toNat) % 2 ^ 32 })
          return (r, bytes)

/-- System call 1.  Without a file behind them descriptors 1 and 2 print. -/
def sysWrite (fd : Int) (bufNull : Bool) (buf : Nat → Byte) (count : Nat) : FsM Int := do
  match ← openFile 1 fd with
  | none =>
      if (fd = 1 ∨ fd = 2) ∧ bufNull = false then return count else return -1
  | some (fd, file, ip) =>
      if hasFlag file.flags O_WRONLY = false ∧ hasFlag file.flags O_RDWR = false then return -1
      else
        ilock ip
        let inode ← getInode ip
        let writeOff :=
          if hasFlag file.flags O_APPEND then inode.din.size.toNat else file.offset
        let r ← writei ip buf writeOff (count % 2 ^ 32)
        iupdate ip
        iunlock ip
        when (r > 0) (setOfile fd { file with offset := (writeOff + r.toNat) % 2 ^ 32 })
        return r

/-- The size reset of `O_TRUNC`; the blocks stay with the inode. -/
def truncate (ip : Slot) : FsM Unit := do
  modifyInode ip (·.mapDin ({ · with size := 0 }))
  iupdate ip

/-- How `open` finds its inode: through `xv6fs_create`, which leaves it locked,
or through `namei`. -/
def openInode (path : CString) (flags : BitVec 32) : FsM (Option Slot) := do
  if hasFlag flags O_CREAT then
    match ← xv6fsCreate path.bytes T_FILE 0 0 with
    | none => return none
    | some ip =>
        when (hasFlag flags O_TRUNC = true) (truncate ip)
        return some ip
  else
    match ← namei path.bytes with
    | none => return none
    | some ip =>
        when (hasFlag flags O_TRUNC = true) do
          ilock ip
          truncate ip
          iunlock ip
        return some ip

/-- System call 2. -/
def sysOpen (path : Option CString) (flags : BitVec 32) : FsM Int := do
  match path with
  | none => return -1
  | some path =>
      match ← openInode path flags with
      | none => return -1
      | some ip =>
          match ← freeFd with
          | none =>
              when (hasFlag flags O_CREAT = true) (iunlock ip)
              iput ip
              return -1
          | some fd =>
              setOfile fd ⟨some ip, 0, flags⟩
              when (hasFlag flags O_CREAT = true) (iunlock ip)
              return (fd : Nat)

/-- System call 3. -/
def sysClose (fd : Int) : FsM Int := do
  match ← openFile 0 fd with
  | none => return -1
  | some (fd, _, ip) =>
      iput ip
      setOfile fd .closed
      return 0

/-- A sum of `int64_t` values. -/
def addInt64 (first second : Int) : Int := (BitVec.ofInt 64 (first + second)).toInt

/-- System call 8. -/
def sysLseek (fd offset whence : Int) : FsM Int := do
  match ← openFile 3 fd with
  | none => return -1
  | some (fd, file, ip) =>
      ilock ip
      let inode ← getInode ip
      let newOffset :=
        if whence = 0 then offset
        else if whence = 1 then addInt64 file.offset offset
        else if whence = 2 then addInt64 inode.din.size.toNat offset
        else -1
      iunlock ip
      if newOffset < 0 then return -1
      else
        setOfile fd { file with offset := newOffset.toNat % 2 ^ 32 }
        return newOffset

/-- System call 32. -/
def sysDup (oldfd : Int) : FsM Int := do
  match ← openFile 3 oldfd with
  | none => return -1
  | some (_, file, ip) =>
      match ← freeFd with
      | none => return -1
      | some newfd =>
          setOfile newfd file
          let _ ← idup ip
          return (newfd : Nat)

/-- System call 33. -/
def sysDup2 (oldfd newfd : Int) : FsM Int := do
  match ← openFile 0 oldfd, toFd 0 newfd with
  | some (oldfd, file, ip), some newfd =>
      if oldfd = newfd then return (newfd : Nat)
      else
        let target ← getOfile newfd
        match target.ip with
        | none => pure ()
        | some old => iput old
        setOfile newfd file
        let _ ← idup ip
        return (newfd : Nat)
  | _, _ => return -1

/-! ## Directories -/

/-- System call 80. -/
def sysChdir (path : Option CString) : FsM Int := do
  match path with
  | none => return -1
  | some path =>
      match ← namei path.bytes with
      | none => return -1
      | some ip =>
          ilock ip
          let inode ← getInode ip
          if inode.din.type ≠ T_DIR then
            iunlock ip
            iput ip
            return -1
          else
            iunlock ip
            xv6fsBridgeSetCwd ip
            return 0

/-- System call 83. -/
def sysMkdir (path : Option CString) : FsM Int := do
  match path with
  | none => return -1
  | some path =>
      match ← xv6fsCreate path.bytes T_DIR 0 0 with
      | none => return -1
      | some ip =>
          iunlock ip
          iput ip
          return 0

/-- System call 87. -/
def sysUnlink (path : Option CString) : FsM Int := do
  match path with
  | none => return -1
  | some path => xv6fsUnlink path.bytes

/-! ## Processes -/

/-- What a spawn learns from the memory manager and the ELF loader. -/
structure SpawnEnv where
  layout : StackLayout
  pml4 : Nat
  loads : Bool
  argv : Option (Nat × Nat)

/-- The ELF header checks of `spawn_from_xv6fs` on `elf_load_buffer`. -/
def elfHeaderOk (image : Nat → Byte) : Bool :=
  image 0 = 0x7F ∧ image 1 = 0x45 ∧ image 2 = 0x4C ∧ image 3 = 0x46 ∧ image 4 = 2 ∧
    image 19 ++ image 18 = (62 : BitVec 16)

/-- `e_entry`. -/
def elfEntry (image : Nat → Byte) : Nat :=
  (List.range 8).foldr (fun i value => (image (24 + i)).toNat + 256 * value) 0

/-- `readi` into `elf_load_buffer`. -/
def loadBuffer (bytes : List Byte) : FsM (Nat → Byte) := do
  let kernel ← getMem
  let image i := bytes.getD i (kernel.elfLoadBuffer i)
  setMem { kernel with elfLoadBuffer := image }
  return image

/-- Run a function of `process.c`. -/
def onTable {α : Type} (step : ProcTable → α × ProcTable) : FsM α := do
  let kernel ← getMem
  let (value, table) := step kernel.table
  setMem { kernel with table }
  return value

/-- The new process shares descriptor `fd` of its parent. -/
def inheritFd (child : ProcIdx) (fd : Fin NOFILE) : FsM Unit := do
  let file ← getOfile fd
  match file.ip with
  | none => pure ()
  | some ip =>
      modifyMem (setOfileOf child fd file)
      let _ ← idup ip
      return ()

/-- The part of `spawn_from_xv6fs` after the image has been read and checked. -/
def spawnImage (env : SpawnEnv) (image : Nat → Byte) : FsM Int := do
  let pid ← onTable (·.createProcess env.layout 0 env.pml4)
  if pid < 0 then return -1
  else
    let kernel ← getMem
    match kernel.table.getProcessByPid pid.toNat with
    | none => return -1
    | some child =>
        forEach [0, 1, 2] (inheritFd child)
        if env.loads then
          onTable fun table => ((), table.setProcessEntry child (elfEntry image))
          match env.argv with
          | none => return pid
          | some (argc, argvPtr) =>
              onTable fun table => ((), table.setProcessArgv child argc argvPtr)
              return pid
        else
          onTable fun table => ((), table.terminate child)
          return -1

/-- `spawn_from_xv6fs`. -/
def spawnFromXv6fs (path : List Byte) (env : SpawnEnv) : FsM Int := do
  match ← namei path with
  | none => return -1
  | some ip =>
      ilock ip
      let inode ← getInode ip
      let size := inode.din.size.toNat
      if size = 0 ∨ size > MAX_ELF_SIZE then
        iunlock ip
        iput ip
        return -1
      else
        let (readBytes, bytes) ← readi ip 0 size
        let image ← loadBuffer bytes
        iunlock ip
        iput ip
        if readBytes ≠ size then return -1
        else if elfHeaderOk image then spawnImage env image
        else return -1

/-- `spawn_from_ramfs`, given the entry point of the file it finds. -/
def spawnFromRamfs (file : Option Nat) (env : SpawnEnv) : FsM Int := do
  match file with
  | none => return -1
  | some entryPoint =>
      let pid ← onTable (·.createProcess env.layout 0 env.pml4)
      if pid < 0 then return -1
      else
        let kernel ← getMem
        match kernel.table.getProcessByPid pid.toNat with
        | none => return -1
        | some child =>
            if env.loads then
              onTable fun table => ((), table.setProcessEntry child entryPoint)
              return 0
            else return -1

/-- System call 59. -/
def sysExecve (filename : Option CString) (env : SpawnEnv) (ramfs : Option Nat)
    (ramfsEnv : SpawnEnv) : FsM Int := do
  match filename with
  | none => return -1
  | some filename =>
      let res ← spawnFromXv6fs filename.bytes env
      if res < 0 then spawnFromRamfs ramfs ramfsEnv else return res

/-- System call 60, up to its final halt. -/
def sysExit (exitCode : Int) : FsM Unit :=
  onTable fun table => ((), table.exitCurrentProcess exitCode)

/-- System call 61: the pid and the exit code of the reaped child, if any. -/
def sysWait4 : FsM (Option (Nat × Int)) := onTable (·.wait4)

/-- A system call with its arguments. -/
inductive Call where
  | read (fd : Int) (bufNull : Bool) (count : Nat) (key : Byte)
  | write (fd : Int) (bufNull : Bool) (buf : Nat → Byte) (count : Nat)
  | openFile (path : Option CString) (flags : BitVec 32)
  | close (fd : Int)
  | lseek (fd offset whence : Int)
  | dup (oldfd : Int)
  | dup2 (oldfd newfd : Int)
  | execve (filename : Option CString) (env : SpawnEnv) (ramfs : Option Nat)
      (ramfsEnv : SpawnEnv)
  | exit (exitCode : Int)
  | wait4
  | chdir (path : Option CString)
  | mkdir (path : Option CString)
  | unlink (path : Option CString)

/-- `syscall_handler`: the value it leaves in `regs[14]`. -/
def syscallHandler : Call → FsM Int
  | .read fd bufNull count key => do
      let (r, _) ← sysRead fd bufNull count key
      return r
  | .write fd bufNull buf count => sysWrite fd bufNull buf count
  | .openFile path flags => sysOpen path flags
  | .close fd => sysClose fd
  | .lseek fd offset whence => sysLseek fd offset whence
  | .dup oldfd => sysDup oldfd
  | .dup2 oldfd newfd => sysDup2 oldfd newfd
  | .execve filename env ramfs ramfsEnv => sysExecve filename env ramfs ramfsEnv
  | .exit exitCode => do
      sysExit exitCode
      return 0
  | .wait4 => do
      match ← sysWait4 with
      | none => return -1
      | some (pid, _) => return pid
  | .chdir path => sysChdir path
  | .mkdir path => sysMkdir path
  | .unlink path => sysUnlink path

end Notux.Sys
