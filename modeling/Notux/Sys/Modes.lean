import Notux.Sys.Effects

/-!
# Access modes

A descriptor keeps the flags of the `open` it descends from, through every copy.  `write`
looks at them, `read` does not.
-/

namespace Notux.Sys

open Notux.Store Notux.Proc Notux.Fs

/-! ## Modes -/

/-- `O_ACCMODE`. -/
def accessMode (flags : BitVec 32) : BitVec 32 := flags &&& 3

/-- `O_RDONLY` or `O_RDWR`. -/
def Readable (flags : BitVec 32) : Prop := accessMode flags = 0 ∨ accessMode flags = O_RDWR

/-- `O_WRONLY` or `O_RDWR`. -/
def Writable (flags : BitVec 32) : Prop := accessMode flags = O_WRONLY ∨ accessMode flags = O_RDWR

/-- `O_RDONLY`, without `O_TRUNC` and `O_CREAT`. -/
structure ReadOnly (flags : BitVec 32) : Prop where
  mode : accessMode flags = 0
  trunc : hasFlag flags O_TRUNC = false
  creat : hasFlag flags O_CREAT = false

theorem accessMode_cases (flags : BitVec 32) :
    accessMode flags = 0 ∨ accessMode flags = 1 ∨ accessMode flags = 2 ∨ accessMode flags = 3 := by
  have small : (accessMode flags).toNat ≤ 3 := by
    unfold accessMode
    rw [BitVec.toNat_and]
    exact Nat.and_le_right
  generalize accessMode flags = mode at small ⊢
  bv_omega

/-- The bits of the access mode are all that decides whether a write is allowed. -/
theorem mayWrite_iff (flags : BitVec 32) : MayWrite flags ↔ MayWrite (accessMode flags) := by
  have one : flags &&& O_WRONLY = accessMode flags &&& O_WRONLY := by
    unfold accessMode
    rw [BitVec.and_assoc]
    rfl
  have two : flags &&& O_RDWR = accessMode flags &&& O_RDWR := by
    unfold accessMode
    rw [BitVec.and_assoc]
    rfl
  unfold MayWrite hasFlag
  rw [one, two]

theorem mayWrite_zero : ¬ MayWrite 0 := by
  unfold MayWrite
  decide

theorem writable_of_mayWrite {flags : BitVec 32} (may : MayWrite flags)
    (single : accessMode flags ≠ 3) : Writable flags := by
  rw [mayWrite_iff] at may
  unfold Writable
  rcases accessMode_cases flags with none | one | two | both
  · rw [none] at may
    exact absurd may mayWrite_zero
  · exact Or.inl one
  · exact Or.inr two
  · exact absurd both single

theorem not_mayWrite {flags : BitVec 32} (mode : accessMode flags = 0) : ¬ MayWrite flags := by
  rw [mayWrite_iff, mode]
  exact mayWrite_zero

/-! ## Where a descriptor comes from -/

/-- The flags of the `open` that each descriptor descends from. -/
abbrev Origin := ProcIdx → Fin NOFILE → BitVec 32

/-- A descriptor of a process gets an origin. -/
def Origin.set (origin : Origin) (idx : ProcIdx) (fd : Fin NOFILE) (flags : BitVec 32) : Origin :=
  fun other fd' => if other = idx ∧ fd' = fd then flags else origin other fd'

/-- What a call makes of the origins.  `open` starts one, `dup` and `dup2` copy one, and the
standard descriptors that `execve` changes come from the caller. -/
def trace (before after : ProcTable) (call : Call) (r : Int) (origin : Origin) : Origin :=
  match call with
  | .openFile _ flags =>
      match toFd 0 r with
      | none => origin
      | some fd => origin.set before.current fd flags
  | .dup oldfd | .dup2 oldfd _ =>
      match toFd 0 oldfd, toFd 0 r with
      | some old, some new => origin.set before.current new (origin before.current old)
      | _, _ => origin
  | .execve .. => fun idx fd =>
      if (after.processes idx).ofiles fd ≠ (before.processes idx).ofiles fd
      then origin before.current fd else origin idx fd
  | _ => origin

/-- Runs with the origin of every descriptor.  At the start no descriptor is open. -/
inductive Traced (meets : FsWorld → Event → Prop) (start : FsWorld) :
    Origin → FsWorld → Prop where
  | start (origin : Origin) : Traced meets start origin start
  | timer {origin : Origin} {world next : FsWorld} {currentEsp : Nat}
      (traced : Traced meets start origin world)
      (performed : perform (.timer currentEsp) world = some next) : Traced meets start origin next
  | call {origin : Origin} {world next : FsWorld} {call : Call} {r : Int}
      {writes : List (Nat × Block)} (traced : Traced meets start origin world)
      (running : world.mem.table.currentProcess.state = .running)
      (condition : meets world (.call call))
      (returned : (syscallHandler call).run world = ⟨.ret r, next, writes⟩) :
      Traced meets start (trace world.mem.table next.mem.table call r origin) next

/-- Every open descriptor has the flags of its origin. -/
def Labeled (table : ProcTable) (origin : Origin) : Prop :=
  ∀ idx fd, ((table.processes idx).ofiles fd).ip ≠ none →
    ((table.processes idx).ofiles fd).flags = origin idx fd

/-! ## Every call keeps the origins -/

section Labels

variable {before after : ProcTable} {origin : Origin}

theorem Origin.set_self (origin : Origin) (idx : ProcIdx) (fd : Fin NOFILE) (flags : BitVec 32) :
    origin.set idx fd flags idx fd = flags := if_pos ⟨rfl, rfl⟩

theorem Labeled.same (labeled : Labeled before origin) (same : SameOfiles before after) :
    Labeled after origin := by
  intro idx fd isOpen
  rw [same idx] at isOpen ⊢
  exact labeled idx fd isOpen

/-- A descriptor that is set together with its origin. -/
theorem Labeled.set (labeled : Labeled before origin) {fd : Fin NOFILE} {file : OFile}
    {flags : BitVec 32} (label : file.ip ≠ none → file.flags = flags) :
    Labeled (withOfile before fd file) (origin.set before.current fd flags) := by
  intro idx fd' isOpen
  rw [ofiles_withOfile] at isOpen ⊢
  unfold Origin.set
  by_cases isSet : idx = before.current ∧ fd' = fd
  · rw [if_pos isSet] at isOpen
    rw [if_pos isSet, if_pos isSet]
    exact label isOpen
  · rw [if_neg isSet] at isOpen
    rw [if_neg isSet, if_neg isSet]
    exact labeled idx fd' isOpen

/-- A descriptor that keeps its origin. -/
theorem Labeled.keep (labeled : Labeled before origin) {fd : Fin NOFILE} {file : OFile}
    (label : file.ip ≠ none → file.flags = origin before.current fd) :
    Labeled (withOfile before fd file) origin := by
  have kept : origin.set before.current fd (origin before.current fd) = origin := by
    funext idx fd'
    unfold Origin.set
    split
    · next both => rw [both.1, both.2]
    · rfl
  have labeled' : Labeled (withOfile before fd file)
      (origin.set before.current fd (origin before.current fd)) := labeled.set label
  rwa [kept] at labeled'

theorem Labeled.repositions {low : Nat} {fd : Int} (labeled : Labeled before origin)
    (moves : Repositions low fd before after) : Labeled after origin := by
  rcases moves with rfl | ⟨fd', ip, offset, -, isOpen, rfl⟩
  · exact labeled
  · apply labeled.keep
    intro _
    apply labeled before.current fd'
    change (before.currentProcess.ofiles fd').ip ≠ none
    rw [isOpen]
    exact Option.some_ne_none ip

theorem toFd_zero {low : Nat} {fd : Int} {fd' : Fin NOFILE} (isFd : toFd low fd = some fd') :
    toFd 0 fd = some fd' := by
  unfold toFd at isFd ⊢
  split at isFd
  · next bounds =>
    rw [dif_pos ⟨by omega, bounds.2⟩]
    exact isFd
  · cases isFd

/-- What a call does to the descriptors agrees with what it does to the origins. -/
theorem Labeled.changes {call : Call} {r : Int} (labeled : Labeled before origin)
    (changes : Changes before call r after) : Labeled after (trace before after call r origin) := by
  have copied : ∀ {low : Nat} {oldfd : Int}, Copies low oldfd before r after →
      Labeled after (match toFd 0 oldfd, toFd 0 r with
        | some old, some new => origin.set before.current new (origin before.current old)
        | _, _ => origin) := by
    intro low oldfd copies
    rcases copies with ⟨rfl, rfl⟩ | ⟨old, new, ip, isFd, rfl, isOpen, rfl⟩
    · cases toFd 0 oldfd <;> exact labeled
    · rw [toFd_zero isFd, toFd_of_le (Nat.zero_le _)]
      exact labeled.set fun isOpen => labeled before.current old isOpen
  cases call with
  | read fd bufNull count key => exact labeled.repositions changes
  | write fd bufNull buf count => exact labeled.repositions changes
  | lseek fd offset whence => exact labeled.repositions changes
  | openFile path flags =>
      unfold trace
      rcases changes with ⟨rfl, rfl⟩ | ⟨fd, ip, rfl, free, rfl⟩
      · exact labeled
      · dsimp only
        rw [toFd_of_le (Nat.zero_le _)]
        exact labeled.set fun _ => rfl
  | close fd =>
      rcases changes with rfl | ⟨fd', isFd, rfl⟩
      · exact labeled
      · exact labeled.keep fun isOpen => absurd rfl isOpen
  | dup oldfd => exact copied changes
  | dup2 oldfd newfd => exact copied changes
  | execve filename env ramfs ramfsEnv =>
      intro idx fd isOpen
      unfold trace
      dsimp only
      rcases changes idx fd with same | closed | ⟨standard, handed⟩
      · rw [if_neg (not_not.mpr same)]
        rw [same] at isOpen ⊢
        exact labeled idx fd isOpen
      · exact absurd closed isOpen
      · have fromCaller : ((after.processes idx).ofiles fd).flags = origin before.current fd := by
          rw [handed] at isOpen ⊢
          exact labeled before.current fd isOpen
        split
        · exact fromCaller
        · next same =>
          have same := not_not.mp same
          rw [same] at isOpen ⊢
          exact labeled idx fd isOpen
  | exit exitCode => exact labeled.same changes
  | wait4 => exact labeled.same changes
  | chdir path => exact labeled.same changes
  | mkdir path => exact labeled.same changes
  | unlink path => exact labeled.same changes

end Labels

/-! ## What the modes are for -/

/-- The files on the disk. -/
def filesOn (world : FsWorld) : Files := fun i =>
  if i < world.mem.sb.ninodes ∧ (onDisk world.mem.sb world.disk i).type ≠ 0
  then some ((onDisk world.mem.sb world.disk i).node world.disk) else none

/-- Between two operations the files are those on the disk. -/
theorem files_eq_filesOn {world : FsWorld} {g : Ghost} (sound : Sound ∅ world g) (idle : g.Idle) :
    g.files world.disk = filesOn world := by
  funext i
  unfold Ghost.files filesOn
  rw [sound.sameSb]
  by_cases inRange : i < g.sb.ninodes
  · have clean := sound.store.clean i inRange (idle.attached i) (by
      rw [idle.dirty]
      exact nofun)
    rw [clean]
  · rw [if_neg fun both => inRange both.1, if_neg fun both => inRange both.1]

theorem Intact.files_eq {world : FsWorld} {g : Ghost} (intact : Intact world g) :
    g.files world.disk = filesOn world :=
  files_eq_filesOn intact.sound intact.idle

/-- The descriptor that a call goes through. -/
def Through (call : Call) (fd : Fin NOFILE) : Prop :=
  match call with
  | .read fd' .. | .write fd' .. | .lseek fd' .. | .close fd' | .dup fd' | .dup2 fd' _ =>
      toFd 0 fd' = some fd
  | _ => False

/-- A call does what the origin of its descriptor allows. -/
structure Obeys (origin : Origin) (world : FsWorld) (call : Call) (r : Int) (after : FsWorld) :
    Prop where
  reads : ∀ fd bufNull count key fd', call = .read fd bufNull count key → toFd 0 fd = some fd' →
    (ofileOf world fd').ip ≠ none → 0 ≤ r → Readable (origin world.mem.table.current fd')
  writes : ∀ fd bufNull buf count fd', call = .write fd bufNull buf count → toFd 0 fd = some fd' →
    (ofileOf world fd').ip ≠ none → 0 ≤ r → Writable (origin world.mem.table.current fd')
  spares : ∀ fd, Through call fd → (ofileOf world fd).ip ≠ none →
    ReadOnly (origin world.mem.table.current fd) → (filesOn world).Sheds (filesOn after)

/-- A read goes through a descriptor with a mode to read, a write through one whose mode is not
both `O_WRONLY` and `O_RDWR`, and not into a directory. -/
def Heeds (world : FsWorld) : Event → Prop
  | .call (.read fd _ _ _) => ∀ fd', toFd 0 fd = some fd' → (ofileOf world fd').ip ≠ none →
      Readable (ofileOf world fd').flags
  | .call (.write fd _ _ _) => SparesDirectories world fd ∧
      ∀ fd', toFd 0 fd = some fd' → (ofileOf world fd').ip ≠ none →
        accessMode (ofileOf world fd').flags ≠ 3
  | _ => True

theorem Heeds.noRaw {world : FsWorld} {event : Event} (heeds : Heeds world event) :
    NoRawDirectory world event := by
  unfold NoRawDirectory
  split
  · exact heeds.1
  · trivial

/-- After boot no descriptor is open. -/
theorem Booted.closed {kernel : Kernel} (booted : Booted kernel) (idx : ProcIdx) :
    AllClosed (kernel.table.processes idx) := by
  obtain ⟨layout, stack, entryPoint, pml4, -, table⟩ := booted.table
  intro fd
  rw [table, bootTable, ProcTable.setProcessEntry_processes]
  rcases handsDown_createProcess layout 0 pml4 idx fd with same | closed | ⟨-, handed⟩
  · rw [same]
    rfl
  · exact closed
  · rw [handed]
    rfl

section Runs

variable {start world next : FsWorld} {origin : Origin} {g : Ghost}

/-- In every run the descriptors have the flags of their origins. -/
theorem Traced.labeled {meets : FsWorld → Event → Prop}
    (closed : ∀ idx, AllClosed (start.mem.table.processes idx))
    (traced : Traced meets start origin world) : Labeled world.mem.table origin := by
  induction traced with
  | start origin => exact fun idx fd isOpen => absurd (closed idx fd) isOpen
  | timer traced performed ih => exact ih.same (perform_timer_ofiles performed)
  | call traced running condition returned ih =>
      exact ih.changes ((syscallHandler_makes running _).of_run returned)

/-- In every run that spares directories the file system stays sound. -/
theorem Traced.intact {meets : FsWorld → Event → Prop}
    (spares : ∀ {world event}, meets world event → NoRawDirectory world event)
    (intact : Intact start g) (traced : Traced meets start origin world) :
    ∃ g', Intact world g' := by
  induction traced with
  | start origin => exact ⟨g, intact⟩
  | timer traced performed ih =>
      obtain ⟨g', intact'⟩ := ih
      obtain ⟨g'', intact'', -⟩ := intact'.perform (by trivial) performed
      exact ⟨g'', intact''⟩
  | call traced running condition returned ih =>
      obtain ⟨g', intact'⟩ := ih
      have ends := (intact'.call running (spares condition)).run
      rw [returned] at ends
      obtain ⟨g'', intact'', -⟩ := ends
      exact ⟨g'', intact''⟩

/-- A write succeeds only through a descriptor with a mode to write. -/
theorem sysWrite_refuses (fd : Int) (bufNull : Bool) (buf : Nat → Byte) (count : Nat)
    {fd' : Fin NOFILE} (isFd : toFd 0 fd = some fd') (isOpen : (ofileOf world fd').ip ≠ none) :
    Leads (sysWrite fd bufNull buf count)
      (fun r _ => 0 ≤ r → MayWrite (ofileOf world fd').flags) world := by
  unfold sysWrite Leads
  rw [Prog.wp_bind]
  apply leads_found_or
  · intro missing
    -- only descriptor 0 is open and not found
    have input : fd = 0 := by
      by_contra nonzero
      apply isOpen
      apply missing
      unfold toFd at isFd ⊢
      split at isFd
      · next bounds =>
        rw [dif_pos ⟨by omega, bounds.2⟩]
        exact isFd
      · cases isFd
    subst input
    intro success
    cases success
  · intro fd'' ip isFd'' isOpen''
    have same : fd'' = fd' := Option.some.inj ((toFd_zero isFd'').symm.trans isFd)
    subst same
    dsimp only
    split
    · intro success
      cases success
    · next allowed =>
      have may : MayWrite (ofileOf world fd'').flags := by
        unfold MayWrite
        by_contra neither
        simp only [not_or, Bool.not_eq_true] at neither
        exact allowed neither
      exact (Prog.wp_trivial _ _).conseq (fun _ _ => trivial) (fun _ _ _ => trivial)
        fun _ _ _ _ => may

end Runs

/-! ## A read through a descriptor for writing -/

/-- The first process has opened the file. -/
theorem traced_opening {meets : FsWorld → Event → Prop} {flags : BitVec 32}
    (condition : meets firstWorld (.call (openingCall flags)))
    (outcome : ((syscallHandler (openingCall flags)).run firstWorld).outcome = .ret 3) :
    Traced meets bootedWorld (Origin.set (fun _ _ => 0) 0 3 flags)
      (afterCall (openingCall flags) firstWorld) :=
  .call (.timer (.start fun _ _ => 0) perform_first) rfl condition (run_of_outcome outcome)

end Notux.Sys
