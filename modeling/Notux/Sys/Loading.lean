import Notux.Fs.Content
import Notux.Fs.Unseen
import Notux.Store.Carry
import Notux.Sys.Positions
import Notux.Sys.Spawn
import Notux.Vmm.Copy
import Notux.Vmm.Ownership
import Notux.Vmm.Taken

/-!
# Reading an image and loading it

`spawn_from_xv6fs` once more, now on the files, the processes and the page tables
together, so that the image it loads is the one it has read.  The image goes
through `elf_load_buffer`, which keeps what earlier images left behind the last
byte of a shorter one.  The first header check looks at 20 bytes, however long the
file is; the loader's own check knows the length, but comes after a process has been
created.

On files and processes a spawn comes to the same as in `Calls`, and on processes and page
tables to the same as in `Vmm.Machine`.
-/

namespace Notux.Sys.Loading

open Notux.Store Notux.Proc Notux.Fs
open Notux.Vmm (Vm ElfFile SameFile)

/-! ## Files, processes and page tables -/

/-- What `execve` works on. -/
structure Whole where
  world : FsWorld
  vm : Vm

/-- Code that works on everything; it ends where the kernel panics or halts. -/
abbrev WholeM := StateT Whole Option

def Whole.table (whole : Whole) : ProcTable := whole.world.mem.table

/-- Run file system code. -/
def onFs {α : Type} (program : FsM α) : WholeM α := fun whole =>
  match (program.run whole.world).outcome with
  | .ret value => some (value, { whole with world := (program.run whole.world).world })
  | .stop _ => none

/-- Run code on the processes and the page tables. -/
def onMachine {α : Type} (program : Vmm.MachineM α) : WholeM α := fun whole =>
  let result := program.run ⟨whole.vm, whole.table⟩
  some (result.1,
    { world := { whole.world with mem := { whole.world.mem with table := result.2.table } }
      vm := result.2.vm })

/-- The part of `spawn_from_xv6fs` that reads the file into `elf_load_buffer`. -/
def readImage (path : List Byte) : FsM (Option ElfFile) := do
  match ← namei path with
  | none => return none
  | some ip =>
      ilock ip
      let inode ← getInode ip
      let size := inode.din.size.toNat
      if size = 0 ∨ size > MAX_ELF_SIZE then
        iunlock ip
        iput ip
        return none
      else
        let (readBytes, bytes) ← readi ip 0 size
        let image ← loadBuffer bytes
        iunlock ip
        iput ip
        if readBytes ≠ size then return none
        else return some ⟨image, size, inode.din.size.isLt⟩

/-- The part of `spawn_from_xv6fs` after the header check.  The argument vector that
was copied for the child is given. -/
def spawnImage (layout : StackLayout) (argv : Option (Nat × Nat)) (file : ElfFile) : WholeM Int := do
  let pid ← onMachine (Vmm.createProcess layout)
  if pid < 0 then return -1
  else
    let whole ← get
    match whole.table.getProcessByPid pid.toNat with
    | none => return -1
    | some child =>
        onFs (forEach [0, 1, 2] (inheritFd child))
        let root := Vmm.rootOf (whole.table.processes child)
        if ← onMachine (Vmm.onVm (Vmm.loadElfIntoProcess root file)) then
          onMachine (Vmm.onTable fun table =>
            ((), table.setProcessEntry child (elfEntry file.bytes)))
          match argv with
          | none => return pid
          | some (argc, argvPtr) =>
              onMachine (Vmm.onTable fun table => ((), table.setProcessArgv child argc argvPtr))
              return pid
        else
          onMachine (Vmm.onTable fun table => ((), table.terminate child))
          return -1

/-- `spawn_from_xv6fs`. -/
def spawnFromXv6fs (layout : StackLayout) (argv : Option (Nat × Nat)) (path : List Byte) :
    WholeM Int := do
  match ← onFs (readImage path) with
  | none => return -1
  | some file => if elfHeaderOk file.bytes then spawnImage layout argv file else return -1

/-! ## What is left in the buffer -/

/-- The kernel with other bytes left in `elf_load_buffer`. -/
def Whole.withBuffer (buffer : Nat → Byte) (whole : Whole) : Whole :=
  { whole with world := whole.world.map (Kernel.withBuffer buffer) }

/-- The buffer after bytes were read into it. -/
def overlay (bytes : List Byte) (buffer : Nat → Byte) : Nat → Byte := fun i => bytes.getD i (buffer i)

/-- A result, and what it leaves with other bytes in the buffer. -/
def refill {α : Type} (buffer : Nat → Byte) (result : Option (α × Whole)) : Option (α × Whole) :=
  result.map fun (value, after) => (value, after.withBuffer buffer)

/-- A program that does not see what is in the buffer. -/
def Sightless {α : Type} (program : WholeM α) : Prop :=
  ∀ buffer whole, program.run (whole.withBuffer buffer) = refill buffer (program.run whole)

namespace Sightless

variable {α β : Type}

theorem pure (value : α) : Sightless (Pure.pure value : WholeM α) := fun _ _ => rfl

theorem bind {program : WholeM α} {rest : α → WholeM β} (first : Sightless program)
    (second : ∀ value, Sightless (rest value)) : Sightless (program >>= rest) := by
  intro buffer whole
  rw [StateT.run_bind, StateT.run_bind, first buffer whole]
  cases program.run whole with
  | none => rfl
  | some result => exact second result.1 buffer result.2

theorem get {rest : Whole → WholeM β}
    (blind : ∀ buffer whole, rest (whole.withBuffer buffer) = rest whole)
    (second : ∀ whole, Sightless (rest whole)) : Sightless (MonadState.get >>= rest) := by
  intro buffer whole
  change (rest (whole.withBuffer buffer)).run (whole.withBuffer buffer) =
    refill buffer ((rest whole).run whole)
  rw [blind, second whole]

theorem onFs {program : FsM α} (unseen : Unseen program) : Sightless (Loading.onFs program) := by
  intro buffer whole
  change Loading.onFs program (whole.withBuffer buffer) = refill buffer (Loading.onFs program whole)
  unfold Loading.onFs
  have runs : program.run (whole.withBuffer buffer).world =
      (program.run whole.world).map (Kernel.withBuffer buffer) := unseen buffer whole.world
  rw [runs]
  change (match (program.run whole.world).outcome with | .ret value => _ | .stop _ => _) = _
  cases (program.run whole.world).outcome with
  | ret value => rfl
  | stop reason => rfl

theorem onMachine (program : Vmm.MachineM α) : Sightless (Loading.onMachine program) :=
  fun _ _ => rfl

theorem ite {condition : Prop} [Decidable condition] {first second : WholeM α}
    (left : Sightless first) (right : Sightless second) :
    Sightless (if condition then first else second) := by
  split
  · exact left
  · exact right

end Sightless

theorem getOfile_unseen (fd : Fin NOFILE) : Unseen (getOfile fd) := by
  unfold getOfile
  exact .getMem (fun _ _ => rfl) fun kernel => .pure _

theorem inheritFd_unseen (child : ProcIdx) (fd : Fin NOFILE) : Unseen (inheritFd child fd) := by
  unfold inheritFd
  apply (getOfile_unseen fd).bind
  intro file
  split
  · exact .pure ()
  · exact (Unseen.modifyMem fun _ _ => rfl).bind fun _ => (idup_unseen _).bind fun _ => .pure ()

/-- A process is spawned from an image whatever else is in the buffer. -/
theorem spawnImage_sightless (layout : StackLayout) (argv : Option (Nat × Nat)) (file : ElfFile) :
    Sightless (spawnImage layout argv file) := by
  unfold spawnImage
  apply (Sightless.onMachine _).bind
  intro pid
  apply (Sightless.pure _).ite
  apply Sightless.get fun _ _ => rfl
  intro whole
  split
  · exact .pure _
  · apply (Sightless.onFs (.forEach _ fun fd => inheritFd_unseen _ fd)).bind
    intro _
    apply (Sightless.onMachine _).bind
    intro loads
    apply Sightless.ite
    · apply (Sightless.onMachine _).bind
      intro _
      split
      · exact .pure _
      · exact (Sightless.onMachine _).bind fun _ => .pure _
    · exact (Sightless.onMachine _).bind fun _ => .pure _

/-- A load that is given up at once does nothing. -/
theorem onMachine_refused :
    onMachine (Vmm.onVm (pure false : Vmm.VmM Bool)) = (pure false : WholeM Bool) := by
  funext whole
  rfl

/-- Spawning from two images is the same if they agree below their size. -/
theorem spawnImage_congr {file other : ElfFile} (same : SameFile file other)
    (layout : StackLayout) (argv : Option (Nat × Nat)) :
    spawnImage layout argv other = spawnImage layout argv file := by
  unfold spawnImage
  by_cases short : file.size < Vmm.EHDR_SIZE
  · have otherShort : other.size < Vmm.EHDR_SIZE := same.size ▸ short
    simp only [Vmm.loadElfIntoProcess_short short, Vmm.loadElfIntoProcess_short otherShort,
      onMachine_refused, pure_bind, Bool.false_eq_true, if_false]
  · have long : 64 ≤ file.size := Nat.le_of_not_lt short
    have entry : elfEntry other.bytes = elfEntry file.bytes :=
      same.word (show 24 + 8 ≤ file.size by omega)
    simp only [same.loads, entry]

/-! ## The file behind a path -/

/-- What `spawn_from_xv6fs` reads, taken for itself: the bytes of the file, if there is one of
a size it accepts. -/
def readFile (path : List Byte) : FsM (Option (List Byte)) := do
  match ← namei path with
  | none => return none
  | some ip =>
      ilock ip
      let inode ← getInode ip
      let size := inode.din.size.toNat
      if size = 0 ∨ size > MAX_ELF_SIZE then
        iunlock ip
        iput ip
        return none
      else
        let (readBytes, bytes) ← readi ip 0 size
        iunlock ip
        iput ip
        if readBytes ≠ size then return none
        else return some bytes

theorem readFile_unseen (path : List Byte) : Unseen (readFile path) := by
  unfold readFile
  apply (namei_unseen path).bind
  intro found
  cases found with
  | none => exact .pure _
  | some ip =>
      apply (ilock_unseen ip).bind
      intro _
      apply (getInode_unseen ip).bind
      intro inode
      dsimp only
      split
      · exact (iunlock_unseen ip).bind fun _ => (iput_unseen ip).bind fun _ => .pure _
      · apply (readi_unseen ip 0 _).bind
        rintro ⟨readBytes, bytes⟩
        apply (iunlock_unseen ip).bind
        intro _
        apply (iput_unseen ip).bind
        intro _
        dsimp only
        split
        · exact .pure _
        · exact .pure _

theorem readiLoop_length (ip : Slot) (fuel off rest : Nat) (enough : rest ≤ fuel)
    (world : FsWorld) :
    (readiLoop ip fuel off rest).wp (fun _ => True) (fun _ _ => True)
      (fun bytes _ => bytes.length = rest) world := by
  induction fuel generalizing off rest world with
  | zero => exact (Nat.le_zero.mp enough).symm
  | succ fuel ih =>
      unfold readiLoop
      by_cases done : rest = 0
      · rw [if_pos done]
        exact done.symm
      · rw [if_neg done, Prog.wp_bind]
        apply (Prog.wp_trivial (bmap ip (off / BSIZE)) world).mono
        intro addr between _
        rw [Prog.wp_bind, Prog.wp_bread]
        intro slot
        rw [Prog.wp_bind, Prog.wp_data]
        have inBlock : off % BSIZE < BSIZE := Nat.mod_lt _ (by decide)
        have fewer : rest - min rest (BSIZE - off % BSIZE) ≤ fuel := by omega
        dsimp only [brelse]
        rw [pure_bind, Prog.wp_bind]
        apply (ih (off + min rest (BSIZE - off % BSIZE)) _ fewer between).mono
        intro bytes after length
        rw [Prog.wp_pure, List.length_append, length, Buffer.length_slice]
        omega

/-- A read that delivers all it was asked for delivers so many bytes. -/
theorem readi_length (ip : Slot) (n : Nat) (positive : n ≠ 0) (small : n < 2 ^ 31)
    (world : FsWorld) :
    (readi ip 0 n).wp (fun _ => True) (fun _ _ => True)
      (fun result _ => result.1 = n → result.2.length = n) world := by
  unfold readi
  rw [Prog.wp_bind]
  change Prog.wp _ _ (if (world.mem.icache ip).din.type = T_DEV then _ else _) _ world
  generalize world.mem.icache ip = inode
  by_cases device : inode.din.type = T_DEV
  · rw [if_pos device]
    split
    · intro none
      exact absurd (Int.ofNat_eq_zero.mp none.symm) positive
    · intro failed
      change (-1 : Int) = n at failed
      omega
  · rw [if_neg device]
    split
    · intro failed
      change (-1 : Int) = n at failed
      omega
    · rw [Prog.wp_bind]
      generalize count : (if (0 + n) % 2 ^ 32 > inode.din.size.toNat then inode.din.size.toNat - 0
        else n) = m
      apply (readiLoop_length ip m 0 m (Nat.le_refl m) world).mono
      intro bytes after length
      change toInt32 m = n → bytes.length = n
      intro exact'
      rw [length]
      have atMost : m ≤ n := by
        rw [← count]
        split <;> omega
      rw [toInt32_eq (by omega)] at exact'
      exact Int.ofNat_inj.mp exact'

/-! ## From the file to the image -/

section

variable {α : Type} {buffer : Nat → Byte}

/-- What `spawn_from_xv6fs` does around the buffer shows in nothing but the buffer: it reads the
file, and the image is the file over what was there before. -/
def Follows (buffer : Nat → Byte) (file : Run Kernel Block Stop (Option (List Byte)))
    (image : Run Kernel Block Stop (Option ElfFile)) : Prop :=
  match file.outcome with
  | .stop reason => image.outcome = .stop reason
  | .ret none => image.outcome = .ret none ∧
      ∃ filled, image.world = file.world.map (Kernel.withBuffer filled)
  | .ret (some bytes) => bytes ≠ [] ∧ bytes.length ≤ MAX_ELF_SIZE ∧
      image.world = file.world.map (Kernel.withBuffer (overlay bytes buffer)) ∧
      ∃ found, image.outcome = .ret (some found) ∧ found.size = bytes.length ∧
        found.bytes = overlay bytes buffer

/-- A program that does not see the buffer leaves it as it is. -/
theorem unseen_buffer {program : FsM α} (unseen : Unseen program) (world : FsWorld) :
    (program.run world).world.mem.elfLoadBuffer = world.mem.elfLoadBuffer := by
  have same := unseen world.mem.elfLoadBuffer world
  change program.run world = _ at same
  exact congrArg (fun result => result.world.mem.elfLoadBuffer) same

theorem Follows.bind {program : FsM α} (unseen : Unseen program)
    {file : α → FsM (Option (List Byte))} {image : α → FsM (Option ElfFile)} {world : FsWorld}
    (before : world.mem.elfLoadBuffer = buffer)
    (rest : ∀ value after writes, program.run world = ⟨.ret value, after, writes⟩ →
      after.mem.elfLoadBuffer = buffer → Follows buffer ((file value).run after) ((image value).run after)) :
    Follows buffer ((program >>= file).run world) ((program >>= image).run world) := by
  have kept := (unseen_buffer unseen world).trans before
  rw [Prog.run_bind, Prog.run_bind]
  cases result : program.run world with
  | mk outcome after writes =>
      rw [result] at kept
      cases outcome with
      | stop reason => exact rfl
      | ret value => exact rest value after writes result kept

/-- The same once the buffer has been filled. -/
theorem Follows.mapped {program : FsM α} (unseen : Unseen program) {filled : Nat → Byte}
    {file : α → FsM (Option (List Byte))} {image : α → FsM (Option ElfFile)} {world : FsWorld}
    (rest : ∀ value after, Follows buffer ((file value).run after)
      ((image value).run (after.map (Kernel.withBuffer filled)))) :
    Follows buffer ((program >>= file).run world)
      ((program >>= image).run (world.map (Kernel.withBuffer filled))) := by
  rw [Prog.run_bind, Prog.run_bind, unseen filled world]
  cases program.run world with
  | mk outcome after writes =>
      cases outcome with
      | stop reason => exact rfl
      | ret value => exact rest value after

theorem readImage_follows (path : List Byte) (world : FsWorld) :
    Follows world.mem.elfLoadBuffer ((readFile path).run world) ((readImage path).run world) := by
  unfold readFile readImage
  apply Follows.bind (namei_unseen path) rfl
  intro found opened _ _ kept
  cases found with
  | none => exact ⟨rfl, opened.mem.elfLoadBuffer, rfl⟩
  | some ip =>
      apply Follows.bind (ilock_unseen ip) kept
      intro _ locked _ _ kept
      apply Follows.bind (getInode_unseen ip) kept
      intro inode read _ _ kept
      dsimp only
      by_cases wrongSize : inode.din.size.toNat = 0 ∨ inode.din.size.toNat > MAX_ELF_SIZE
      · rw [if_pos wrongSize, if_pos wrongSize]
        apply Follows.bind (iunlock_unseen ip) kept
        intro _ unlocked _ _ kept
        apply Follows.bind (iput_unseen ip) kept
        intro _ put _ _ _
        exact ⟨rfl, put.mem.elfLoadBuffer, rfl⟩
      · rw [if_neg wrongSize, if_neg wrongSize]
        have positive : inode.din.size.toNat ≠ 0 := fun zero => wrongSize (Or.inl zero)
        have fits : inode.din.size.toNat ≤ MAX_ELF_SIZE :=
          Nat.le_of_not_lt fun large => wrongSize (Or.inr large)
        apply Follows.bind (readi_unseen ip 0 _) kept
        rintro ⟨readBytes, bytes⟩ delivered _ result kept
        have length := (readi_length ip inode.din.size.toNat positive
          (Nat.lt_of_le_of_lt fits (by decide)) read).run
        rw [result] at length
        change Follows world.mem.elfLoadBuffer _ (Prog.run _
          (delivered.map (Kernel.withBuffer (overlay bytes delivered.mem.elfLoadBuffer))))
        rw [kept]
        apply Follows.mapped (iunlock_unseen ip)
        intro _ unlocked
        apply Follows.mapped (iput_unseen ip)
        intro _ put
        by_cases failed : readBytes ≠ inode.din.size.toNat
        · rw [if_pos failed, if_pos failed]
          exact ⟨rfl, _, rfl⟩
        · rw [if_neg failed, if_neg failed]
          have whole : bytes.length = inode.din.size.toNat := length (not_not.mp failed)
          refine ⟨?_, whole.trans_le fits, rfl, _, rfl, whole.symm, rfl⟩
          intro empty
          have none : bytes = [] := empty
          rw [none] at whole
          exact positive whole.symm

end

/-- Reading a file leaves the process table alone. -/
theorem readFile_table (path : List Byte) (world : FsWorld) :
    (readFile path).wp (fun _ => True) (fun _ _ => True)
      (fun _ after => after.mem.table = world.mem.table) world := by
  have frame : ∀ {α : Type} {program : FsM α} {delta : α → Slot → Int} {middle : FsWorld},
      Owes program delta → middle.mem.table = world.mem.table →
      program.wp (fun _ => True) (fun _ _ => True)
        (fun _ after => after.mem.table = world.mem.table) middle :=
    fun owes same => (owes _).mono fun _ _ moved => moved.1.trans same
  unfold readFile
  rw [Prog.wp_bind]
  apply (frame namei_owes rfl).mono
  intro found middle same
  cases found with
  | none => exact same
  | some ip =>
      simp only [Prog.wp_bind]
      apply (frame ilock_takes.owes same).mono
      intro _ _ same
      apply (frame getInode_takes.owes same).mono
      intro inode _ same
      split
      · simp only [Prog.wp_bind]
        apply (frame iunlock_takes.owes same).mono
        intro _ _ same
        exact (frame iput_takes.owes same).mono fun _ _ same => same
      · simp only [Prog.wp_bind]
        apply (frame readi_takes.owes same).mono
        rintro ⟨readBytes, bytes⟩ _ same
        apply (frame iunlock_takes.owes same).mono
        intro _ _ same
        apply (frame iput_takes.owes same).mono
        intro _ _ same
        split <;> exact same

/-! ## A file that decides -/

/-- The bytes the first header check looks at, and what they have to be. -/
def headerBytes : List (Nat × Byte) :=
  [(0, 0x7F), (1, 0x45), (2, 0x4C), (3, 0x46), (4, 2), (18, 62), (19, 0)]

theorem elfHeaderOk_iff (image : Nat → Byte) :
    elfHeaderOk image = true ↔ ∀ check ∈ headerBytes, image check.1 = check.2 := by
  have machine : image 19 ++ image 18 = (62 : BitVec 16) ↔ image 18 = 62 ∧ image 19 = 0 := by
    constructor
    · intro same
      have low := congrArg (BitVec.extractLsb' 0 8) same
      have high := congrArg (BitVec.extractLsb' 8 8) same
      rw [BitVec.extractLsb'_append_eq_right] at low
      rw [BitVec.extractLsb'_append_eq_left] at high
      exact ⟨low.trans (by decide), high.trans (by decide)⟩
    · rintro ⟨low, high⟩
      rw [low, high]
      decide
  unfold elfHeaderOk headerBytes
  rw [decide_eq_true_iff, machine]
  simp only [List.forall_mem_cons, List.not_mem_nil, false_implies, implies_true, and_true]

/-- The first header check looks at nothing behind the file, or finds a byte of the file that
fails it. -/
def HeaderDecided (bytes : List Byte) : Prop :=
  20 ≤ bytes.length ∨
    ∃ check ∈ headerBytes, check.1 < bytes.length ∧ bytes.getD check.1 0 ≠ check.2

/-- `create_process` finds no slot or no frame. -/
def NothingToTake (whole : Whole) : Prop :=
  (∀ i, (whole.table.processes i).state ≠ .terminated) ∨ Vmm.nextFrame whole.vm.bitmap = none

/-- The file behind a path decides what becomes of it. -/
def FileDecides (path : List Byte) (whole : Whole) : Prop :=
  ∀ bytes after writes, (readFile path).run whole.world = ⟨.ret (some bytes), after, writes⟩ →
    HeaderDecided bytes ∨ NothingToTake whole

/-- Two results are alike: both runs stop, or they return the same and leave the same process
table with its pid counter, the same bitmap of frames and the same reference counts. -/
inductive Alike : Option (Int × Whole) → Option (Int × Whole) → Prop where
  | stops : Alike none none
  | returns {pid : Int} {after other : Whole} (table : after.table = other.table)
      (bitmap : after.vm.bitmap = other.vm.bitmap)
      (refs : ∀ ip, (after.world.mem.icache ip).ref = (other.world.mem.icache ip).ref) :
      Alike (some (pid, after)) (some (pid, other))

theorem Alike.bitmaps {left right : Option (Int × Whole)} (alike : Alike left right)
    {pid other : Int} {after final : Whole} (first : left = some (pid, after))
    (second : right = some (other, final)) : after.vm.bitmap = final.vm.bitmap := by
  cases alike with
  | stops => cases first
  | returns _ bitmap _ =>
      cases first
      cases second
      exact bitmap

theorem alike_refill (first second : Nat → Byte) (result : Option (Int × Whole)) :
    Alike (refill first result) (refill second result) := by
  cases result with
  | none => exact .stops
  | some final => exact .returns rfl rfl fun _ => rfl

section

variable {layout : StackLayout} {argv : Option (Nat × Nat)} {path : List Byte} {whole : Whole}

theorem onFs_ret {α : Type} {program : FsM α} {value : α} {after : FsWorld}
    {writes : List (Nat × Block)} (run : program.run whole.world = ⟨.ret value, after, writes⟩) :
    (onFs program).run whole = some (value, ⟨after, whole.vm⟩) := by
  change onFs program whole = _
  unfold onFs
  rw [run]

theorem onFs_stop {α : Type} {program : FsM α} {reason : Stop} {after : FsWorld}
    {writes : List (Nat × Block)} (run : program.run whole.world = ⟨.stop reason, after, writes⟩) :
    (onFs program).run whole = none := by
  change onFs program whole = _
  unfold onFs
  rw [run]

/-- How the image is read with any bytes in the buffer. -/
theorem readImage_buffer {file : Run Kernel Block Stop (Option (List Byte))}
    (run : (readFile path).run whole.world = file) (buffer : Nat → Byte) :
    Follows buffer (file.map (Kernel.withBuffer buffer))
      ((readImage path).run (whole.withBuffer buffer).world) := by
  have follows := readImage_follows path (whole.withBuffer buffer).world
  have blind := readFile_unseen path buffer whole.world
  rw [run] at blind
  rw [← blind]
  exact follows

theorem spawnFromXv6fs_stops {reason : Stop} {after : FsWorld} {writes : List (Nat × Block)}
    (run : (readFile path).run whole.world = ⟨.stop reason, after, writes⟩) (buffer : Nat → Byte) :
    (spawnFromXv6fs layout argv path).run (whole.withBuffer buffer) = none := by
  have follows := readImage_buffer run buffer
  cases result : (readImage path).run (whole.withBuffer buffer).world with
  | mk outcome final tail =>
      rw [result] at follows
      have stops : outcome = .stop reason := follows
      subst stops
      unfold spawnFromXv6fs
      rw [StateT.run_bind, onFs_stop result]
      rfl

theorem spawnFromXv6fs_missing {after : FsWorld} {writes : List (Nat × Block)}
    (run : (readFile path).run whole.world = ⟨.ret none, after, writes⟩) (buffer : Nat → Byte) :
    ∃ filled, (spawnFromXv6fs layout argv path).run (whole.withBuffer buffer) =
      refill filled (some (-1, ⟨after, whole.vm⟩)) := by
  have follows := readImage_buffer run buffer
  cases result : (readImage path).run (whole.withBuffer buffer).world with
  | mk outcome final tail =>
      rw [result] at follows
      obtain ⟨returns, filled, world⟩ := follows
      have isNone : outcome = .ret none := returns
      have isAfter : final = after.map (Kernel.withBuffer filled) := world
      subst isNone isAfter
      refine ⟨filled, ?_⟩
      unfold spawnFromXv6fs
      rw [StateT.run_bind, onFs_ret result]
      rfl

theorem spawnFromXv6fs_found {bytes : List Byte} {after : FsWorld} {writes : List (Nat × Block)}
    (run : (readFile path).run whole.world = ⟨.ret (some bytes), after, writes⟩)
    (buffer : Nat → Byte) :
    ∃ file : ElfFile, file.size = bytes.length ∧ file.bytes = overlay bytes buffer ∧
      (spawnFromXv6fs layout argv path).run (whole.withBuffer buffer) =
        refill file.bytes (if elfHeaderOk file.bytes then
          (spawnImage layout argv file).run ⟨after, whole.vm⟩ else some (-1, ⟨after, whole.vm⟩)) := by
  have follows := readImage_buffer run buffer
  cases result : (readImage path).run (whole.withBuffer buffer).world with
  | mk outcome final tail =>
      rw [result] at follows
      obtain ⟨-, -, world, file, returns, size, content⟩ := follows
      have isFile : outcome = .ret (some file) := returns
      have isAfter : final = after.map (Kernel.withBuffer (overlay bytes buffer)) := world
      rw [← content] at isAfter
      subst isFile isAfter
      refine ⟨file, size, content, ?_⟩
      unfold spawnFromXv6fs
      rw [StateT.run_bind, onFs_ret result]
      by_cases header : elfHeaderOk file.bytes = true
      · rw [if_pos header, ← spawnImage_sightless layout argv file file.bytes ⟨after, whole.vm⟩]
        change StateT.run (if elfHeaderOk file.bytes = true then _ else _) _ = _
        rw [if_pos header]
        rfl
      · rw [if_neg header]
        change StateT.run (if elfHeaderOk file.bytes = true then _ else _) _ = _
        rw [if_neg header]
        rfl

theorem createProcess_run (machine : Vmm.Machine) :
    (Vmm.createProcess layout).run machine =
      match ProcTable.firstSlot fun i => (machine.table.processes i).state = .terminated with
      | none => (-1, machine)
      | some _ =>
          let made := Vmm.createUserPml4.run machine.vm
          let created := machine.table.createProcess layout 0 made.1.toNat
          (created.1, ⟨made.2, created.2⟩) := by
  unfold Vmm.createProcess
  rw [StateT.run_bind]
  change StateT.run (match ProcTable.firstSlot fun i =>
    decide ((machine.table.processes i).state = ProcessState.terminated) with
    | Option.none => _ | some _ => _) machine = _
  cases ProcTable.firstSlot fun i => decide ((machine.table.processes i).state = .terminated) with
  | none => rfl
  | some idx => rfl

/-- `create_process` without a slot or a frame leaves everything as it is. -/
theorem createProcess_nothing {machine : Vmm.Machine}
    (nothing : (∀ i, (machine.table.processes i).state ≠ .terminated) ∨
      Vmm.nextFrame machine.vm.bitmap = none) :
    (Vmm.createProcess layout).run machine = (-1, machine) := by
  rw [createProcess_run]
  cases slot : ProcTable.firstSlot fun i => (machine.table.processes i).state = .terminated with
  | none => rfl
  | some idx =>
      have free := of_decide_eq_true (ProcTable.firstSlot_eq_some slot)
      rcases nothing with taken | full
      · exact absurd free (taken idx)
      · have refused : machine.table.createProcess layout 0 0 = (-1, machine.table) := by
          unfold ProcTable.createProcess
          rw [slot]
          rfl
        dsimp only
        rw [Vmm.createUserPml4_full (Vmm.nextFrame_eq_none_iff.mp full)]
        change ((machine.table.createProcess layout 0 0).1,
          (⟨machine.vm, (machine.table.createProcess layout 0 0).2⟩ : Vmm.Machine)) = _
        rw [refused]

theorem spawnImage_nothing (nothing : NothingToTake whole) (file : ElfFile) :
    (spawnImage layout argv file).run whole = some (-1, whole) := by
  unfold spawnImage
  rw [StateT.run_bind]
  have refused : (Vmm.createProcess layout).run ⟨whole.vm, whole.table⟩ =
      (-1, ⟨whole.vm, whole.table⟩) := createProcess_nothing nothing
  have same : (onMachine (Vmm.createProcess layout)).run whole = some (-1, whole) := by
    change some (((Vmm.createProcess layout).run ⟨whole.vm, whole.table⟩).1, _) = _
    rw [refused]
    rfl
  rw [same]
  rfl

/-- `spawn_from_xv6fs` on the files and the processes alone reads the same image. -/
theorem sysSpawnFromXv6fs_eq (env : SpawnEnv) :
    Sys.spawnFromXv6fs path env =
      readImage path >>= fun found =>
        match found with
        | none => pure (-1)
        | some file => if elfHeaderOk file.bytes then Sys.spawnImage env file.bytes else pure (-1) := by
  unfold Sys.spawnFromXv6fs readImage
  simp only [bind_assoc]
  congr 1
  funext found
  cases found with
  | none => rfl
  | some ip =>
      simp only [bind_assoc]
      congr 1
      funext _
      congr 1
      funext inode
      by_cases wrongSize : inode.din.size.toNat = 0 ∨ inode.din.size.toNat > MAX_ELF_SIZE
      · simp only [if_pos wrongSize, bind_assoc, pure_bind]
      · simp only [if_neg wrongSize, bind_assoc]
        congr 1
        funext result
        obtain ⟨readBytes, bytes⟩ := result
        dsimp only
        congr 1
        funext image
        congr 1
        funext _
        congr 1
        funext _
        by_cases short : readBytes ≠ inode.din.size.toNat
        · simp only [if_pos short, pure_bind]
        · simp only [if_neg short, pure_bind]

theorem run_sequence {α β : Type} {program : FsM α} {rest : α → FsM β} {world middle after : FsWorld}
    {value : α} {result : β} {first second : List (Nat × Block)}
    (start : program.run world = ⟨.ret value, middle, first⟩)
    (finish : (rest value).run middle = ⟨.ret result, after, second⟩) :
    (program >>= rest).run world = ⟨.ret result, after, first ++ second⟩ := by
  rw [Prog.run_bind, start]
  dsimp only
  rw [finish]

theorem onFs_mirrors {α : Type} {program : FsM α} {value : α} {after : Whole}
    (run : (onFs program).run whole = some (value, after)) :
    ∃ writes, program.run whole.world = ⟨.ret value, after.world, writes⟩ := by
  cases result : program.run whole.world with
  | mk outcome final writes =>
      cases outcome with
      | stop reason =>
          rw [onFs_stop result] at run
          cases run
      | ret found =>
          rw [onFs_ret result] at run
          cases run
          exact ⟨writes, rfl⟩

theorem onTable_mirrors {α : Type} {step : ProcTable → α × ProcTable} {value : α} {after : Whole}
    (run : (onMachine (Vmm.onTable step)).run whole = some (value, after)) :
    (Sys.onTable step).run whole.world = ⟨.ret value, after.world, []⟩ := by
  cases run
  rfl

theorem createProcess_mirrors {pid : Int} {after : Whole}
    (run : (onMachine (Vmm.createProcess layout)).run whole = some (pid, after)) :
    ∃ pml4, (Sys.onTable (·.createProcess layout 0 pml4)).run whole.world =
      ⟨.ret pid, after.world, []⟩ := by
  have created : some (((Vmm.createProcess layout).run ⟨whole.vm, whole.table⟩).1,
      (⟨{ whole.world with mem := { whole.world.mem with
          table := ((Vmm.createProcess layout).run ⟨whole.vm, whole.table⟩).2.table } },
        ((Vmm.createProcess layout).run ⟨whole.vm, whole.table⟩).2.vm⟩ : Whole)) =
      some (pid, after) := run
  rw [createProcess_run] at created
  cases slot : ProcTable.firstSlot fun i => (whole.table.processes i).state = .terminated with
  | none =>
      have refused : whole.table.createProcess layout 0 0 = (-1, whole.table) := by
        unfold ProcTable.createProcess
        rw [slot]
      rw [slot] at created
      cases created
      refine ⟨0, ?_⟩
      change (⟨.ret (whole.table.createProcess layout 0 0).1, { whole.world with mem :=
        { whole.world.mem with table := (whole.table.createProcess layout 0 0).2 } }, []⟩ :
          Run Kernel Block Stop Int) = _
      rw [refused]
  | some idx =>
      rw [slot] at created
      cases created
      exact ⟨(Vmm.createUserPml4.run whole.vm).1.toNat, rfl⟩

/-- A spawn leaves files and processes as it does where the results of `create_user_pml4` and of
the loader are given. -/
theorem spawnImage_refines {file : ElfFile} {result : Int} {after : Whole}
    (run : (spawnImage layout argv file).run whole = some (result, after)) :
    ∃ pml4 loads writes, (Sys.spawnImage ⟨layout, pml4, loads, argv⟩ file.bytes).run whole.world =
      ⟨.ret result, after.world, writes⟩ := by
  unfold spawnImage at run
  rw [StateT.run_bind] at run
  obtain ⟨⟨pid, created⟩, creates, run⟩ := Option.bind_eq_some_iff.mp run
  obtain ⟨pml4, creates⟩ := createProcess_mirrors creates
  dsimp only at run
  unfold Sys.spawnImage
  by_cases failed : pid < 0
  · rw [if_pos failed] at run
    cases run
    refine ⟨pml4, false, [] ++ [], run_sequence creates ?_⟩
    rw [if_pos failed]
    rfl
  · rw [if_neg failed, StateT.run_bind] at run
    obtain ⟨⟨whole', _⟩, gets, run⟩ := Option.bind_eq_some_iff.mp run
    cases gets
    dsimp only at run
    cases child : created.table.getProcessByPid pid.toNat with
    | none =>
        rw [child] at run
        cases run
        refine ⟨pml4, false, [] ++ [], run_sequence creates ?_⟩
        rw [if_neg failed]
        change Prog.run (match after.table.getProcessByPid pid.toNat with
          | none => _ | some _ => _) after.world = _
        rw [child]
        rfl
    | some child' =>
        rw [child] at run
        dsimp only at run
        rw [StateT.run_bind] at run
        obtain ⟨⟨_, inherited⟩, inherits, run⟩ := Option.bind_eq_some_iff.mp run
        obtain ⟨inheritWrites, inherits⟩ := onFs_mirrors inherits
        dsimp only at run
        rw [StateT.run_bind] at run
        obtain ⟨⟨loads, loaded⟩, load, run⟩ := Option.bind_eq_some_iff.mp run
        have sameWorld : loaded.world = inherited.world := by
          cases load
          rfl
        rw [← sameWorld] at inherits
        suffices finish : ∃ writes, Prog.run (if loads = true then do
            Sys.onTable fun table => ((), table.setProcessEntry child' (elfEntry file.bytes))
            match argv with
              | none => pure pid
              | some (argc, argvPtr) => do
                  Sys.onTable fun table => ((), table.setProcessArgv child' argc argvPtr)
                  pure pid
            else do
              Sys.onTable fun table => ((), table.terminate child')
              pure (-1)) loaded.world = ⟨.ret result, after.world, writes⟩ by
          obtain ⟨writes, finish⟩ := finish
          refine ⟨pml4, loads, [] ++ (inheritWrites ++ writes), run_sequence creates ?_⟩
          rw [if_neg failed]
          change Prog.run (match created.table.getProcessByPid pid.toNat with
            | none => _ | some _ => _) created.world = _
          rw [child]
          exact run_sequence inherits finish
        dsimp only at run
        cases loads with
        | false =>
            rw [if_neg Bool.false_ne_true, StateT.run_bind] at run
            obtain ⟨⟨_, ended⟩, ends, run⟩ := Option.bind_eq_some_iff.mp run
            cases run
            rw [if_neg Bool.false_ne_true]
            exact ⟨_, run_sequence (onTable_mirrors ends) rfl⟩
        | true =>
            rw [if_pos rfl, StateT.run_bind] at run
            obtain ⟨⟨_, entered⟩, enters, run⟩ := Option.bind_eq_some_iff.mp run
            rw [if_pos rfl]
            cases argv with
            | none =>
                cases run
                exact ⟨_, run_sequence (onTable_mirrors enters) rfl⟩
            | some vector =>
                dsimp only at run
                rw [StateT.run_bind] at run
                obtain ⟨⟨_, set⟩, sets, run⟩ := Option.bind_eq_some_iff.mp run
                cases run
                exact ⟨_, run_sequence (onTable_mirrors enters)
                  (run_sequence (onTable_mirrors sets) rfl)⟩

/-- `spawn_from_xv6fs` leaves files and processes as it does where the results of
`create_user_pml4` and of the loader are given. -/
theorem spawnFromXv6fs_refines {result : Int} {after : Whole}
    (run : (spawnFromXv6fs layout argv path).run whole = some (result, after)) :
    ∃ pml4 loads writes, (Sys.spawnFromXv6fs path ⟨layout, pml4, loads, argv⟩).run whole.world =
      ⟨.ret result, after.world, writes⟩ := by
  unfold spawnFromXv6fs at run
  rw [StateT.run_bind] at run
  obtain ⟨⟨found, read⟩, reads, run⟩ := Option.bind_eq_some_iff.mp run
  obtain ⟨readWrites, reads⟩ := onFs_mirrors reads
  cases found with
  | none =>
      cases run
      refine ⟨0, false, readWrites ++ [], ?_⟩
      rw [sysSpawnFromXv6fs_eq]
      exact run_sequence reads rfl
  | some file =>
      dsimp only at run
      by_cases header : elfHeaderOk file.bytes = true
      · rw [if_pos header] at run
        obtain ⟨pml4, loads, writes, spawns⟩ := spawnImage_refines run
        refine ⟨pml4, loads, readWrites ++ writes, ?_⟩
        rw [sysSpawnFromXv6fs_eq]
        apply run_sequence reads
        dsimp only
        rw [if_pos header]
        exact spawns
      · rw [if_neg header] at run
        cases run
        refine ⟨0, false, readWrites ++ [], ?_⟩
        rw [sysSpawnFromXv6fs_eq]
        apply run_sequence reads
        dsimp only
        rw [if_neg header]
        rfl

/-- A process that finds a slot and a frame takes the frame, whatever becomes of it. -/
theorem spawnImage_takes (takes : ¬ NothingToTake whole) {i : Nat}
    (search : Vmm.nextFrame whole.vm.bitmap = some i) (file : ElfFile) :
    Arrives (spawnImage layout argv file) True (fun _ after => after.vm.bitmap i = true) whole := by
  have fs : ∀ {α : Type} (program : FsM α) {before : Whole}, before.vm.bitmap i = true →
      Arrives (onFs program) True (fun _ after => after.vm.bitmap i = true) before := by
    intro α program before taken
    unfold Arrives
    cases run : program.run before.world with
    | mk outcome after writes =>
        cases outcome with
        | ret value =>
            rw [onFs_ret run]
            exact taken
        | stop reason =>
            rw [onFs_stop run]
            trivial
  have table : ∀ (step : ProcTable → Unit × ProcTable) {before : Whole},
      before.vm.bitmap i = true → Arrives (onMachine (Vmm.onTable step)) True
        (fun _ after => after.vm.bitmap i = true) before := fun _ _ taken => taken
  unfold spawnImage
  rw [arrives_bind]
  have creates : ((Vmm.createProcess layout).run ⟨whole.vm, whole.table⟩).2.vm.bitmap i = true := by
    rw [createProcess_run]
    cases slot : ProcTable.firstSlot fun i => (whole.table.processes i).state = .terminated with
    | none =>
        refine absurd (Or.inl fun idx => ?_) takes
        have none := List.find?_eq_none.mp slot idx (List.mem_finRange idx)
        simpa using none
    | some idx => exact Vmm.createUserPml4_takes search
  have created : Arrives (onMachine (Vmm.createProcess layout)) True
      (fun _ after => after.vm.bitmap i = true) whole := creates
  apply created.mono
  intro pid middle taken
  by_cases failed : pid < 0
  · rw [if_pos failed]
    exact taken
  · rw [if_neg failed, arrives_bind, arrives_get]
    cases middle.table.getProcessByPid pid.toNat with
    | none => exact taken
    | some child =>
        dsimp only
        rw [arrives_bind]
        apply (fs _ taken).mono
        intro _ inherited taken
        rw [arrives_bind]
        have loads : Arrives (onMachine (Vmm.onVm (Vmm.loadElfIntoProcess
            (Vmm.rootOf (middle.table.processes child)) file))) True
            (fun _ after => after.vm.bitmap i = true) inherited :=
          Vmm.loadElfIntoProcess_taken _ file inherited.vm i taken
        apply loads.mono
        intro loaded after taken
        cases loaded with
        | false =>
            rw [if_neg Bool.false_ne_true, arrives_bind]
            exact (table _ taken).mono fun _ _ taken => taken
        | true =>
            rw [if_pos rfl, arrives_bind]
            apply (table _ taken).mono
            intro _ entered taken
            cases argv with
            | none => exact taken
            | some vector =>
                dsimp only
                rw [arrives_bind]
                exact (table _ taken).mono fun _ _ taken => taken

/-! ## The page tables of an image that was read

`Vmm.spawnFromXv6fs` starts where the image has been read and passes no arguments, so it comes to
the same processes and page tables, but for the descriptors and what is on the stacks. -/

/-- The same processes, but for their descriptors and what is on the stacks. -/
structure SameProcesses (mine theirs : ProcTable) : Prop where
  processes : mine.processes = (withoutFiles theirs).processes
  current : mine.current = theirs.current
  nextPid : mine.nextPid = theirs.nextPid

namespace SameProcesses

variable {mine theirs : ProcTable}

theorem of_withoutFiles {after : ProcTable} (same : SameProcesses mine theirs)
    (alike : withoutFiles after = withoutFiles theirs) : SameProcesses mine after := by
  constructor
  · rw [alike, same.processes]
  · exact same.current.trans (congrArg ProcTable.current alike).symm
  · exact same.nextPid.trans (congrArg ProcTable.nextPid alike).symm

theorem firstSlot (same : SameProcesses mine theirs) :
    (ProcTable.firstSlot fun i => (mine.processes i).state = .terminated) =
      ProcTable.firstSlot fun i => (theirs.processes i).state = .terminated := by
  rw [same.processes]
  rfl

theorem created (same : SameProcesses mine theirs) (entryPoint pml4 : Nat) :
    (mine.createProcess layout entryPoint pml4).1 = (theirs.createProcess layout entryPoint pml4).1 ∧
      SameProcesses (mine.createProcess layout entryPoint pml4).2
        (theirs.createProcess layout entryPoint pml4).2 := by
  have esp : ∀ idx,
      ((ProcTable.initialFrame (layout.userTop idx) entryPoint).foldl ProcTable.push
        (mine.stack, layout.kernelTop idx)).2 =
      ((ProcTable.initialFrame (layout.userTop idx) entryPoint).foldl ProcTable.push
        (theirs.stack, layout.kernelTop idx)).2 := fun idx =>
    (delivers_initialFrame layout idx entryPoint mine.stack).1.1.trans
      (delivers_initialFrame layout idx entryPoint theirs.stack).1.1.symm
  have caller : mine.callerPid = theirs.callerPid := by
    unfold ProcTable.callerPid ProcTable.currentProcess
    rw [same.processes, same.current]
    rfl
  unfold ProcTable.createProcess
  rw [same.firstSlot, same.nextPid, caller]
  cases ProcTable.firstSlot fun i => (theirs.processes i).state = .terminated with
  | none => exact ⟨rfl, same⟩
  | some idx =>
      by_cases null : pml4 = 0
      · simp only [if_pos null, true_and]
        exact same
      · simp only [if_neg null, true_and]
        refine ⟨?_, same.current, rfl⟩
        funext other
        by_cases here : other = idx
        · subst here
          simp only [withoutFiles, Function.update_self, esp]
        · simp only [withoutFiles, Function.update_of_ne here, same.processes]

theorem getProcessByPid (same : SameProcesses mine theirs) (pid : Nat) :
    mine.getProcessByPid pid = theirs.getProcessByPid pid := by
  unfold ProcTable.getProcessByPid
  rw [same.processes]
  rfl

/-- Entry points and arguments lie on the stacks. -/
theorem setProcessEntry (same : SameProcesses mine theirs) (child : ProcIdx)
    (entryPoint entryPoint' : Nat) :
    SameProcesses (mine.setProcessEntry child entryPoint)
      (theirs.setProcessEntry child entryPoint') := by
  unfold ProcTable.setProcessEntry
  dsimp only
  split <;> split <;> exact ⟨same.processes, same.current, same.nextPid⟩

theorem setProcessArgv (same : SameProcesses mine theirs) (child : ProcIdx) (argc argvPtr : Nat) :
    SameProcesses mine (theirs.setProcessArgv child argc argvPtr) := by
  unfold ProcTable.setProcessArgv
  dsimp only
  split
  · exact same
  · exact ⟨same.processes, same.current, same.nextPid⟩

theorem terminate (same : SameProcesses mine theirs) (child : ProcIdx) :
    SameProcesses (mine.terminate child) (theirs.terminate child) := by
  constructor
  · rw [← withoutFiles_terminate]
    unfold ProcTable.terminate ProcTable.modify
    rw [same.processes]
  · exact same.current
  · exact same.nextPid

end SameProcesses

/-- The same page tables and processes. -/
structure SameMachine (whole : Whole) (machine : Vmm.Machine) : Prop where
  vm : machine.vm = whole.vm
  table : SameProcesses machine.table whole.table

/-- Code on the machine that follows code on everything, up to where that returns. -/
def Loads {α : Type} (program : WholeM α) (machineProgram : Vmm.MachineM α) : Prop :=
  ∀ whole machine, SameMachine whole machine →
    Arrives program True (fun value after =>
      Store.Leads machineProgram (fun value' after' => value' = value ∧ SameMachine after after') machine)
      whole

/-- Code on everything that shows neither in the page tables nor in the processes. -/
def Hidden (program : WholeM Unit) : Prop :=
  ∀ whole machine, SameMachine whole machine →
    Arrives program True (fun _ after => SameMachine after machine) whole

namespace Loads

variable {α β : Type}

theorem pure (value : α) : Loads (Pure.pure value) (Pure.pure value) :=
  fun _ _ same => ⟨rfl, same⟩

theorem bind {program : WholeM α} {machineProgram : Vmm.MachineM α} {rest : α → WholeM β}
    {machineRest : α → Vmm.MachineM β} (first : Loads program machineProgram)
    (second : ∀ value, Loads (rest value) (machineRest value)) :
    Loads (program >>= rest) (machineProgram >>= machineRest) := by
  intro whole machine same
  rw [arrives_bind]
  apply (first whole machine same).mono
  rintro value after ⟨value', same'⟩
  apply (second value after _ same').mono
  intro result final leads
  rw [leads_bind]
  change Store.Leads (machineRest (machineProgram.run machine).1)
    (fun value' after' => value' = result ∧ SameMachine final after') (machineProgram.run machine).2
  rw [value']
  exact leads

theorem get {rest : Whole → WholeM β} {machineRest : Vmm.Machine → Vmm.MachineM β}
    (second : ∀ whole machine, SameMachine whole machine →
      Loads (rest whole) (machineRest machine)) :
    Loads (MonadState.get >>= rest) (MonadState.get >>= machineRest) :=
  fun whole machine same => second whole machine same whole machine same

theorem hidden {program : WholeM Unit} {rest : Unit → WholeM β} {machineProgram : Vmm.MachineM β}
    (first : Hidden program) (second : Loads (rest ()) machineProgram) :
    Loads (program >>= rest) machineProgram := by
  intro whole machine same
  rw [arrives_bind]
  apply (first whole machine same).mono
  intro _ after same'
  exact second after machine same'

theorem onVm (program : Vmm.VmM α) : Loads (onMachine (Vmm.onVm program)) (Vmm.onVm program) := by
  rintro whole ⟨vm, table⟩ ⟨rfl, same⟩
  exact ⟨rfl, rfl, same⟩

theorem onTable {step machineStep : ProcTable → ProcTable}
    (steps : ∀ mine theirs, SameProcesses mine theirs →
      SameProcesses (machineStep mine) (step theirs)) :
    Loads (onMachine (Vmm.onTable fun table => ((), step table)))
      (Vmm.onTable fun table => ((), machineStep table)) :=
  fun _ _ same => ⟨rfl, same.vm, steps _ _ same.table⟩

theorem createProcess (layout : StackLayout) :
    Loads (onMachine (Vmm.createProcess layout)) (Vmm.createProcess layout) := by
  rintro whole ⟨vm, table⟩ ⟨rfl, same⟩
  change ((Vmm.createProcess layout).run ⟨whole.vm, table⟩).1 =
      ((Vmm.createProcess layout).run ⟨whole.vm, whole.table⟩).1 ∧
    SameMachine _ ((Vmm.createProcess layout).run ⟨whole.vm, table⟩).2
  rw [createProcess_run, createProcess_run]
  dsimp only
  rw [same.firstSlot]
  cases ProcTable.firstSlot fun i => (whole.table.processes i).state = .terminated with
  | none => exact ⟨rfl, rfl, same⟩
  | some idx =>
      obtain ⟨value, same'⟩ := @SameProcesses.created layout _ _ same 0
        (Vmm.createUserPml4.run whole.vm).1.toNat
      exact ⟨value, rfl, same'⟩

end Loads

theorem inherit_hidden (child : ProcIdx) :
    Hidden (onFs (forEach [0, 1, 2] (inheritFd child))) := by
  intro whole machine same
  have keeps := inheritAll_withoutFiles child [0, 1, 2] whole.world
  unfold Arrives
  cases result : (forEach [0, 1, 2] (inheritFd child)).run whole.world with
  | mk outcome after writes =>
      cases outcome with
      | stop reason =>
          rw [onFs_stop result]
          exact trivial
      | ret value =>
          rw [onFs_ret result]
          exact ⟨same.vm, same.table.of_withoutFiles (keeps.of_run result)⟩

theorem setProcessArgv_hidden (child : ProcIdx) (argc argvPtr : Nat) :
    Hidden (onMachine (Vmm.onTable fun table => ((), table.setProcessArgv child argc argvPtr))) :=
  fun _ _ same => ⟨same.vm, same.table.setProcessArgv child argc argvPtr⟩

/-- A spawn that returns leaves the page tables and the processes as `Vmm.spawnFromXv6fs` does with
the image it has read. -/
theorem spawnImage_loads (layout : StackLayout) (argv : Option (Nat × Nat)) (file : ElfFile) :
    Loads (spawnImage layout argv file) (Vmm.spawnFromXv6fs layout (some file)) := by
  unfold spawnImage Vmm.spawnFromXv6fs
  apply (Loads.createProcess layout).bind
  intro pid
  by_cases failed : pid < 0
  · rw [if_pos failed, if_pos failed]
    exact .pure _
  · rw [if_neg failed, if_neg failed]
    apply Loads.get
    intro whole machine same
    have lookup : machine.table.getProcessByPid pid.toNat =
      whole.table.getProcessByPid pid.toNat := same.table.getProcessByPid pid.toNat
    rw [lookup]
    cases whole.table.getProcessByPid pid.toNat with
    | none => exact .pure _
    | some child =>
        have root : Vmm.rootOf (machine.table.processes child) =
            Vmm.rootOf (whole.table.processes child) := by
          rw [same.table.processes]
          rfl
        dsimp only
        rw [root]
        apply Loads.hidden (inherit_hidden child)
        apply (Loads.onVm _).bind
        intro loaded
        cases loaded with
        | false =>
            rw [if_neg Bool.false_ne_true, if_neg Bool.false_ne_true]
            exact (Loads.onTable fun _ _ same => same.terminate child).bind fun _ => .pure _
        | true =>
            rw [if_pos rfl, if_pos rfl]
            apply (Loads.onTable fun _ _ same => same.setProcessEntry child _ _).bind
            intro _
            cases argv with
            | none => exact .pure _
            | some vector => exact .hidden (setProcessArgv_hidden child _ _) (.pure _)

/-! ## Agreement -/

theorem overlay_below {bytes : List Byte} {i : Nat} (below : i < bytes.length)
    (buffer : Nat → Byte) : overlay bytes buffer i = bytes.getD i 0 := by
  unfold overlay
  rw [List.getD_eq_getElem?_getD, List.getD_eq_getElem?_getD, List.getElem?_eq_getElem below]
  rfl

theorem overlay_above {bytes : List Byte} {i : Nat} (above : bytes.length ≤ i)
    (buffer : Nat → Byte) : overlay bytes buffer i = buffer i := by
  unfold overlay
  rw [List.getD_eq_getElem?_getD, List.getElem?_eq_none above]
  rfl

theorem HeaderDecided.same {bytes : List Byte} (decided : HeaderDecided bytes)
    (first second : Nat → Byte) :
    elfHeaderOk (overlay bytes first) = elfHeaderOk (overlay bytes second) := by
  rcases decided with long | ⟨check, member, below, wrong⟩
  · have inHeader : ∀ check ∈ headerBytes, check.1 < 20 := by decide
    rw [Bool.eq_iff_iff, elfHeaderOk_iff, elfHeaderOk_iff]
    apply forall₂_congr
    intro check member
    have below := Nat.lt_of_lt_of_le (inHeader check member) long
    rw [overlay_below below, overlay_below below]
  · have fails : ∀ buffer, elfHeaderOk (overlay bytes buffer) = false := by
      intro buffer
      rw [Bool.eq_false_iff, Ne, elfHeaderOk_iff]
      intro ok
      apply wrong
      rw [← overlay_below below buffer]
      exact ok check member
    rw [fails, fails]

/-- Whatever is left in the buffer, a file that decides comes to the same. -/
theorem spawnFromXv6fs_alike (decides : FileDecides path whole) (first second : Nat → Byte) :
    Alike ((spawnFromXv6fs layout argv path).run (whole.withBuffer first))
      ((spawnFromXv6fs layout argv path).run (whole.withBuffer second)) := by
  cases run : (readFile path).run whole.world with
  | mk outcome after writes =>
      cases outcome with
      | stop reason =>
          rw [spawnFromXv6fs_stops run, spawnFromXv6fs_stops run]
          exact .stops
      | ret found =>
          cases found with
          | none =>
              obtain ⟨filled, left⟩ := @spawnFromXv6fs_missing layout argv _ _ _ _ run first
              obtain ⟨filled', right⟩ := @spawnFromXv6fs_missing layout argv _ _ _ _ run second
              rw [left, right]
              exact alike_refill _ _ _
          | some bytes =>
              obtain ⟨file, size, content, left⟩ :=
                @spawnFromXv6fs_found layout argv _ _ _ _ _ run first
              obtain ⟨other, size', content', right⟩ :=
                @spawnFromXv6fs_found layout argv _ _ _ _ _ run second
              have table := (readFile_table path whole.world).run
              rw [run] at table
              have same : SameFile file other := by
                constructor
                · rw [size', size]
                · intro i below
                  rw [size] at below
                  rw [content, content', overlay_below below, overlay_below below]
              rw [left, right]
              rcases decides bytes after writes run with decided | nothing
              · have header : elfHeaderOk other.bytes = elfHeaderOk file.bytes := by
                  rw [content, content']
                  exact decided.same second first
                rw [header, spawnImage_congr same]
                exact alike_refill _ _ _
              · have nothing' : NothingToTake ⟨after, whole.vm⟩ := by
                  have sameTable : (⟨after, whole.vm⟩ : Whole).table = whole.table := table
                  unfold NothingToTake
                  rw [sameTable]
                  exact nothing
                rw [spawnImage_nothing nothing', spawnImage_nothing nothing', ite_self, ite_self]
                exact alike_refill _ _ _

/-- Bytes that pass the first header check. -/
def passingBytes (i : Nat) : Byte := (headerBytes.lookup i).getD 0

/-- A shorter file none of whose bytes fails the check goes as far as the bytes behind it let
it. -/
theorem spawnFromXv6fs_differs {bytes : List Byte} {after : FsWorld} {writes : List (Nat × Block)}
    (run : (readFile path).run whole.world = ⟨.ret (some bytes), after, writes⟩)
    (undecided : ¬ HeaderDecided bytes) (takes : ¬ NothingToTake whole) :
    ¬ Alike ((spawnFromXv6fs layout argv path).run (whole.withBuffer passingBytes))
      ((spawnFromXv6fs layout argv path).run (whole.withBuffer fun _ => 0xFF)) := by
  obtain ⟨file, size, content, left⟩ :=
    @spawnFromXv6fs_found layout argv _ _ _ _ _ run passingBytes
  obtain ⟨other, -, content', right⟩ :=
    @spawnFromXv6fs_found layout argv _ _ _ _ _ run fun _ => 0xFF
  have short : bytes.length < 20 := Nat.not_le.mp fun long => undecided (Or.inl long)
  have passes : elfHeaderOk file.bytes = true := by
    have required : ∀ check ∈ headerBytes, passingBytes check.1 = check.2 := by decide
    rw [content, elfHeaderOk_iff]
    intro check member
    by_cases below : check.1 < bytes.length
    · rw [overlay_below below]
      by_contra wrong
      exact undecided (Or.inr ⟨check, member, below, wrong⟩)
    · rw [overlay_above (Nat.le_of_not_lt below)]
      exact required check member
  have fails : ¬ elfHeaderOk other.bytes = true := by
    rw [content', elfHeaderOk_iff]
    intro ok
    have last := ok (19, 0) (by decide)
    rw [overlay_above (Nat.le_of_lt_succ short)] at last
    exact absurd last (by decide)
  have table := (readFile_table path whole.world).run
  rw [run] at table
  have sameTable : (⟨after, whole.vm⟩ : Whole).table = whole.table := table
  have takes' : ¬ NothingToTake ⟨after, whole.vm⟩ := by
    unfold NothingToTake
    rw [sameTable]
    exact takes
  cases search : Vmm.nextFrame whole.vm.bitmap with
  | none => exact absurd (Or.inr search) takes
  | some i =>
      have free := (Vmm.nextFrame_bound search).2
      have spawns := @spawnImage_takes layout argv _ takes' i search file
      rw [left, right, if_pos passes, if_neg fails]
      unfold Arrives at spawns
      cases final : (spawnImage layout argv file).run ⟨after, whole.vm⟩ with
      | none => nofun
      | some result =>
          rw [final] at spawns
          intro alike
          have bitmaps := alike.bitmaps rfl rfl
          have taken : whole.vm.bitmap i = true := (congrFun bitmaps i).symm.trans spawns
          rw [free] at taken
          cases taken

end

/-- What is left in the buffer never shows exactly if the file decides. -/
theorem spawnFromXv6fs_depends_on_file (layout : StackLayout) (argv : Option (Nat × Nat))
    (path : List Byte) (whole : Whole) :
    (∀ first second, Alike ((spawnFromXv6fs layout argv path).run (whole.withBuffer first))
      ((spawnFromXv6fs layout argv path).run (whole.withBuffer second))) ↔
      FileDecides path whole := by
  constructor
  · intro alike bytes after writes run
    by_contra neither
    rcases not_or.mp neither with ⟨undecided, takes⟩
    exact spawnFromXv6fs_differs run undecided takes (alike _ _)
  · exact fun decides first second => spawnFromXv6fs_alike decides first second

/-! ## A short file -/

/-- The file `f` of the small disk holds the first five bytes of an ELF file. -/
def shortFileWorld : FsWorld :=
  { smallWorld .closed with
    disk := Function.update smallDisk 65 fun i => [0x7F, 0x45, 0x4C, 0x46, 2].getD i 0 }

def shortFile : Whole where
  world := shortFileWorld
  vm := Vmm.bootVm Vmm.smallImage [] fun _ _ => 0

/-- `/f`. -/
def shortPath : List Byte := [47, 102]

/-- A file of five bytes becomes a process or not by what an earlier program has left. -/
theorem shortFile_differs :
    ¬ ∀ (layout : StackLayout) (argv : Option (Nat × Nat)) (path : List Byte) (whole : Whole)
      (first second : Nat → Byte),
      Alike ((spawnFromXv6fs layout argv path).run (whole.withBuffer first))
        ((spawnFromXv6fs layout argv path).run (whole.withBuffer second)) := by
  intro alike
  have read : ((readFile shortPath).run shortFileWorld).outcome =
      .ret (some [0x7F, 0x45, 0x4C, 0x46, 2]) := by
    decide +kernel
  cases run : (readFile shortPath).run shortFileWorld with
  | mk outcome after writes =>
      rw [run] at read
      have found : outcome = .ret (some [0x7F, 0x45, 0x4C, 0x46, 2]) := read
      subst found
      have undecided : ¬ HeaderDecided [0x7F, 0x45, 0x4C, 0x46, 2] := by
        unfold HeaderDecided
        decide
      have takes : ¬ NothingToTake shortFile := by
        rintro (taken | full)
        · have free : (shortFile.table.processes 5).state = .terminated := by decide +kernel
          exact absurd free (taken 5)
        · have some : (Vmm.nextFrame shortFile.vm.bitmap).isSome = true := by decide +kernel
          rw [full] at some
          cases some
      have differs := @spawnFromXv6fs_differs ⟨0x100000, 0x200000⟩ none shortPath shortFile _ _ _ run
        undecided takes
      exact differs (alike ⟨0x100000, 0x200000⟩ none shortPath shortFile passingBytes fun _ => 0xFF)

end Notux.Sys.Loading
