import Notux.Sys.Run
import Notux.Fs.References
import Mathlib.Algebra.BigOperators.Pi
import Mathlib.Algebra.BigOperators.Fin
import Mathlib.Data.Fintype.BigOperators

/-!
# Who holds an inode

Between two system calls every reference to an inode should belong to an open
descriptor of a process that is not terminated, or to the working directory.
`exit`, `wait4` and a spawn whose load fails leave descriptors behind without
giving their references back, so this holds exactly as long as what they leave
behind is closed.
-/

namespace Notux.Sys

open Notux.Store Notux.Proc Notux.Fs

/-- The number of descriptors that point to an inode, in slots that are not
terminated. -/
def holders (table : ProcTable) (ip : Slot) : Nat :=
  (Finset.univ.filter fun entry : ProcIdx × Fin NOFILE =>
    (table.processes entry.1).state ≠ .terminated ∧
      ((table.processes entry.1).ofiles entry.2).ip = some ip).card

/-- The reference count of every inode is the number of its holders. -/
def RefsMatchHolders (kernel : Kernel) : Prop :=
  ∀ ip, (kernel.icache ip).ref =
    holders kernel.table ip + if kernel.cwd = some ip then 1 else 0

/-! ## Counting holders -/

/-- The references one process holds. -/
def held (process : Process) : Slot → Int :=
  if process.state = .terminated then 0 else ∑ fd, oneOf (process.ofiles fd).ip

/-- The references all processes hold. -/
def allHeld (table : ProcTable) : Slot → Int := ∑ idx, held (table.processes idx)

theorem oneOf_apply (holder : Option Slot) (ip : Slot) :
    oneOf holder ip = if holder = some ip then 1 else 0 := by
  cases holder with
  | none => simp
  | some other =>
      simp only [oneOf_some, one, Pi.single_apply, Option.some.injEq, eq_comm]

theorem allHeld_apply (table : ProcTable) (ip : Slot) : allHeld table ip = holders table ip := by
  simp only [allHeld, holders, Finset.card_filter, Fintype.sum_prod_type, Finset.sum_apply,
    Nat.cast_sum]
  refine Finset.sum_congr rfl fun idx _ => ?_
  unfold held
  split
  · next isTerminated => simp [isTerminated]
  · next alive => simp [alive, oneOf_apply, Finset.sum_apply]

theorem refsMatchHolders_iff (kernel : Kernel) :
    RefsMatchHolders kernel ↔ kernel.outstanding = allHeld kernel.table := by
  rw [Kernel.outstanding, sub_eq_iff_eq_add, funext_iff]
  simp only [RefsMatchHolders, Kernel.refs, Pi.add_apply, allHeld_apply, oneOf_apply]

/-- A sum after one of its terms has been replaced. -/
theorem sum_update {ι X : Type} [Fintype ι] [DecidableEq ι] (value : X → Slot → Int)
    (terms : ι → X) (i : ι) (term : X) :
    ∑ j, value (Function.update terms i term j) =
      ∑ j, value (terms j) - value (terms i) + value term := by
  have apart : ∀ j ∈ Finset.univ.erase i, value (Function.update terms i term j) =
      value (terms j) := fun j other => by
    rw [Function.update_of_ne (Finset.ne_of_mem_erase other)]
  rw [← Finset.add_sum_erase _ _ (Finset.mem_univ i), Function.update_self,
    Finset.sum_congr rfl apart,
    ← Finset.add_sum_erase _ (fun j => value (terms j)) (Finset.mem_univ i)]
  abel

/-- Changing one slot changes what that slot holds. -/
theorem allHeld_modify (table : ProcTable) (idx : ProcIdx) (change : Process → Process) :
    allHeld (table.modify idx change) =
      allHeld table - held (table.processes idx) + held (change (table.processes idx)) :=
  sum_update held table.processes idx _

theorem held_of_terminated {process : Process} (isTerminated : process.state = .terminated) :
    held process = 0 :=
  if_pos isTerminated

theorem held_of_alive {process : Process} (alive : process.state ≠ .terminated) :
    held process = ∑ fd, oneOf (process.ofiles fd).ip :=
  if_neg alive

/-- A process without open descriptors holds nothing. -/
theorem held_of_closed {process : Process} (closed : ∀ fd, (process.ofiles fd).ip = none) :
    held process = 0 := by
  unfold held
  simp [closed]

/-- Setting a descriptor of a live process. -/
theorem held_setOfile {process : Process} (alive : process.state ≠ .terminated)
    (fd : Fin NOFILE) (file : OFile) :
    held { process with ofiles := Function.update process.ofiles fd file } =
      held process - oneOf (process.ofiles fd).ip + oneOf file.ip := by
  rw [held_of_alive alive]
  exact (if_neg alive).trans (sum_update (fun file => oneOf file.ip) process.ofiles fd file)

/-- The references without a holder. -/
def spare (kernel : Kernel) : Slot → Int := kernel.outstanding - allHeld kernel.table

theorem refsMatchHolders_iff_spare (kernel : Kernel) :
    RefsMatchHolders kernel ↔ spare kernel = 0 := by
  rw [refsMatchHolders_iff, spare, sub_eq_zero]

theorem spare_setOfileOf {kernel : Kernel} {idx : ProcIdx}
    (alive : (kernel.table.processes idx).state ≠ .terminated) (fd : Fin NOFILE) (file : OFile) :
    spare (setOfileOf idx fd file kernel) =
      spare kernel + oneOf ((kernel.table.processes idx).ofiles fd).ip - oneOf file.ip := by
  have outstanding : (setOfileOf idx fd file kernel).outstanding = kernel.outstanding := rfl
  rw [spare, spare, outstanding]
  simp only [setOfileOf, allHeld_modify, held_setOfile alive]
  abel

/-! ## System calls -/

/-- The process table of a world, and its references without a holder. -/
structure Holding (table : ProcTable) (extra : Slot → Int) (world : FsWorld) : Prop where
  table : world.mem.table = table
  extra : spare world.mem = extra

/-- A program that leads from one ledger to a world that satisfies `Q`. -/
abbrev Leads {α : Type} (program : FsM α) (Q : α → FsWorld → Prop) (world : FsWorld) : Prop :=
  program.wp (fun _ => True) (fun _ _ => True) Q world

/-- The end of a system call: as many references without a holder as before. -/
def Balanced {α : Type} (extra : Slot → Int) (_ : α) (world : FsWorld) : Prop :=
  spare world.mem = extra

/-- The end of a system call: every reference has a holder. -/
def Settled {α : Type} (_ : α) (world : FsWorld) : Prop := spare world.mem = 0

section Parts

variable {α : Type} {table : ProcTable} {extra : Slot → Int} {world : FsWorld}

/-- A part of a system call that keeps the process table. -/
theorem leads_of_owes {program : FsM α} {delta : α → Slot → Int} (owes : Owes program delta)
    (holding : Holding table extra world) {Q : α → FsWorld → Prop}
    (rest : ∀ value after, Holding table (extra + delta value) after → Q value after) :
    Leads program Q world := by
  refine (owes world).mono fun value after ⟨same, moved⟩ => rest value after ⟨?_, ?_⟩
  · exact same.trans holding.table
  · rw [spare, moved, same, ← holding.extra, spare]
    abel

/-- A part of a system call that takes no reference. -/
theorem leads_of_takes {program : FsM α} (takes : Takes program fun _ => 0)
    (holding : Holding table extra world) {Q : α → FsWorld → Prop}
    (rest : ∀ value after, Holding table extra after → Q value after) :
    Leads program Q world :=
  leads_of_owes takes.owes holding fun value after holding =>
    rest value after (by rwa [add_zero] at holding)

@[simp]
theorem wp_getOfile {P : Disk → Prop} {F : Stop → FsWorld → Prop}
    {Q : OFile → FsWorld → Prop} (fd : Fin NOFILE) :
    (getOfile fd).wp P F Q world ↔ Q (world.mem.table.currentProcess.ofiles fd) world :=
  Iff.rfl

theorem leads_openFile {low : Nat} {fd : Int} (holding : Holding table extra world)
    {Q : Option (Fin NOFILE × OFile × Slot) → FsWorld → Prop} (closed : Q none world)
    (isOpen : ∀ fd ip, (table.currentProcess.ofiles fd).ip = some ip →
      Q (some (fd, table.currentProcess.ofiles fd, ip)) world) :
    Leads (openFile low fd) Q world := by
  obtain ⟨rfl, -⟩ := holding
  unfold openFile
  cases toFd low fd with
  | none => exact closed
  | some fd =>
      unfold Leads
      rw [Prog.wp_bind, wp_getOfile]
      cases file : (world.mem.table.currentProcess.ofiles fd).ip with
      | none => exact closed
      | some ip => exact isOpen fd ip file

theorem leads_freeFd (holding : Holding table extra world)
    {Q : Option (Fin NOFILE) → FsWorld → Prop} (full : Q none world)
    (free : ∀ fd, (table.currentProcess.ofiles fd).ip = none → Q (some fd) world) :
    Leads freeFd Q world := by
  obtain ⟨rfl, -⟩ := holding
  change Q (((List.finRange NOFILE).drop 3).find? fun fd =>
    (world.mem.table.currentProcess.ofiles fd).ip = none) world
  cases found : ((List.finRange NOFILE).drop 3).find? fun fd =>
      (world.mem.table.currentProcess.ofiles fd).ip = none with
  | none => exact full
  | some fd => exact free fd (by simpa using List.find?_some found)

/-- Setting a descriptor of a live process exchanges the reference it holds. -/
theorem holding_setOfileOf (holding : Holding table extra world) {idx : ProcIdx}
    (alive : (table.processes idx).state ≠ .terminated) (fd : Fin NOFILE) (file : OFile) :
    Holding
      (table.modify idx fun process =>
        { process with ofiles := Function.update process.ofiles fd file })
      (extra + oneOf ((table.processes idx).ofiles fd).ip - oneOf file.ip)
      { world with mem := setOfileOf idx fd file world.mem } := by
  obtain ⟨rfl, rfl⟩ := holding
  exact ⟨rfl, spare_setOfileOf alive fd file⟩

/-- Setting a descriptor of the current process. -/
theorem leads_setOfile (holding : Holding table extra world)
    (alive : table.currentProcess.state ≠ .terminated) {fd : Fin NOFILE} {file : OFile}
    {Q : Unit → FsWorld → Prop}
    (rest : ∀ after, spare after.mem =
      extra + oneOf (table.currentProcess.ofiles fd).ip - oneOf file.ip → Q () after) :
    Leads (setOfile fd file) Q world := by
  have exchanged := holding_setOfileOf holding alive fd file
  rw [← holding.table] at exchanged
  refine rest _ ?_
  rw [← holding.table]
  exact exchanged.extra

end Parts

section Calls

variable {table : ProcTable} {extra : Slot → Int} {world : FsWorld}

theorem sysRead_balances (holding : Holding table extra world)
    (alive : table.currentProcess.state ≠ .terminated) (fd : Int) (bufNull : Bool) (count : Nat)
    (key : Byte) : Leads (sysRead fd bufNull count key) (Balanced extra) world := by
  unfold sysRead Leads
  split
  · exact holding.extra
  · rw [Prog.wp_bind]
    refine leads_openFile holding ?_ fun fd ip isOpen => ?_
    · dsimp only
      split
      · split <;> exact holding.extra
      · exact holding.extra
    · dsimp only
      split
      · exact holding.extra
      · simp only [Prog.wp_bind]
        refine leads_of_takes ilock_takes holding fun _ first holding => ?_
        refine leads_of_takes readi_takes holding fun ⟨r, bytes⟩ second holding => ?_
        dsimp only
        refine leads_of_takes iunlock_takes holding fun _ third holding => ?_
        unfold when
        split
        · refine leads_setOfile holding alive fun after exchanged => ?_
          refine exchanged.trans ?_
          simp
        · exact holding.extra

theorem sysWrite_balances (holding : Holding table extra world)
    (alive : table.currentProcess.state ≠ .terminated) (fd : Int) (bufNull : Bool)
    (buf : Nat → Byte) (count : Nat) :
    Leads (sysWrite fd bufNull buf count) (Balanced extra) world := by
  unfold sysWrite Leads
  rw [Prog.wp_bind]
  refine leads_openFile holding ?_ fun fd ip isOpen => ?_
  · dsimp only
    split <;> exact holding.extra
  · dsimp only
    split
    · exact holding.extra
    · simp only [Prog.wp_bind]
      refine leads_of_takes ilock_takes holding fun _ _ holding => ?_
      refine leads_of_takes getInode_takes holding fun inode _ holding => ?_
      refine leads_of_takes writei_takes holding fun r _ holding => ?_
      refine leads_of_takes iupdate_takes holding fun _ _ holding => ?_
      refine leads_of_takes iunlock_takes holding fun _ _ holding => ?_
      unfold when
      split
      · exact leads_setOfile holding alive fun after exchanged => exchanged.trans (by simp)
      · exact holding.extra

theorem truncate_takes {ip : Slot} : Takes (truncate ip) fun _ => 0 :=
  .bind_zero (modifyInode_takes fun _ => rfl) fun _ => iupdate_takes

theorem openInode_owes {path : CString} {flags : BitVec 32} :
    Owes (openInode path flags) oneOf := by
  unfold openInode
  split
  · refine .bind xv6fsCreate_owes fun found => ?_
    cases found with
    | none => exact .pure (by simp)
    | some ip =>
        exact .bind_zero (.when fun _ => truncate_takes.owes) fun _ => .pure (by simp)
  · refine .bind namei_owes fun found => ?_
    cases found with
    | none => exact .pure (by simp)
    | some ip =>
        refine .bind_zero (.when fun _ => Takes.owes ?_) fun _ => .pure (by simp)
        exact .bind_zero ilock_takes fun _ => .bind_zero truncate_takes fun _ => iunlock_takes

theorem sysOpen_balances (holding : Holding table extra world)
    (alive : table.currentProcess.state ≠ .terminated) (path : Option CString)
    (flags : BitVec 32) : Leads (sysOpen path flags) (Balanced extra) world := by
  unfold sysOpen Leads
  cases path with
  | none => exact holding.extra
  | some path =>
      dsimp only
      rw [Prog.wp_bind]
      refine leads_of_owes openInode_owes holding fun found _ holding => ?_
      cases found with
      | none => exact holding.extra.trans (by simp)
      | some ip =>
          dsimp only
          have unlock : Takes (when (hasFlag flags O_CREAT = true) (iunlock ip)) fun _ => 0 :=
            .when fun _ => iunlock_takes
          rw [Prog.wp_bind]
          refine leads_freeFd holding ?_ fun fd free => ?_
          · simp only [Prog.wp_bind]
            refine leads_of_takes unlock holding fun _ _ holding => ?_
            refine leads_of_owes iput_takes.owes holding fun _ _ holding => ?_
            exact holding.extra.trans (by simp)
          · simp only [Prog.wp_bind]
            refine leads_setOfile holding alive fun after exchanged => ?_
            refine leads_of_takes unlock ⟨rfl, exchanged⟩ fun _ _ holding => ?_
            exact holding.extra.trans (by simp [free])

theorem sysClose_balances (holding : Holding table extra world)
    (alive : table.currentProcess.state ≠ .terminated) (fd : Int) :
    Leads (sysClose fd) (Balanced extra) world := by
  unfold sysClose Leads
  rw [Prog.wp_bind]
  refine leads_openFile holding holding.extra fun fd ip isOpen => ?_
  simp only [Prog.wp_bind]
  refine leads_of_owes iput_takes.owes holding fun _ _ holding => ?_
  refine leads_setOfile holding alive fun after exchanged => exchanged.trans ?_
  simp [isOpen, OFile.closed]

theorem sysLseek_balances (holding : Holding table extra world)
    (alive : table.currentProcess.state ≠ .terminated) (fd offset whence : Int) :
    Leads (sysLseek fd offset whence) (Balanced extra) world := by
  unfold sysLseek Leads
  rw [Prog.wp_bind]
  refine leads_openFile holding holding.extra fun fd ip isOpen => ?_
  simp only [Prog.wp_bind]
  refine leads_of_takes ilock_takes holding fun _ _ holding => ?_
  refine leads_of_takes getInode_takes holding fun inode _ holding => ?_
  refine leads_of_takes iunlock_takes holding fun _ _ holding => ?_
  generalize (if whence = 0 then offset else _) = newOffset
  split
  · exact holding.extra
  · rw [Prog.wp_bind]
    exact leads_setOfile holding alive fun after exchanged => exchanged.trans (by simp)

theorem sysDup_balances (holding : Holding table extra world)
    (alive : table.currentProcess.state ≠ .terminated) (oldfd : Int) :
    Leads (sysDup oldfd) (Balanced extra) world := by
  unfold sysDup Leads
  rw [Prog.wp_bind]
  refine leads_openFile holding holding.extra fun fd ip isOpen => ?_
  dsimp only
  rw [Prog.wp_bind]
  refine leads_freeFd holding holding.extra fun newfd free => ?_
  simp only [Prog.wp_bind]
  refine leads_setOfile holding alive fun after exchanged => ?_
  refine leads_of_owes idup_takes.owes ⟨rfl, exchanged⟩ fun _ _ holding => ?_
  exact holding.extra.trans (by simp [free, isOpen])

theorem sysDup2_balances (holding : Holding table extra world)
    (alive : table.currentProcess.state ≠ .terminated) (oldfd newfd : Int) :
    Leads (sysDup2 oldfd newfd) (Balanced extra) world := by
  unfold sysDup2 Leads
  rw [Prog.wp_bind]
  refine leads_openFile holding ?_ fun fd ip isOpen => ?_
  · exact holding.extra
  · cases target : toFd 0 newfd with
    | none => exact holding.extra
    | some newfd =>
        dsimp only
        split
        · exact holding.extra
        · simp only [Prog.wp_bind]
          have target : (getOfile newfd).wp (fun _ => True) (fun _ _ => True)
              (fun file after => file = table.currentProcess.ofiles newfd ∧
                Holding table extra after) world := ⟨by rw [← holding.table], holding⟩
          apply target.mono
          rintro _ _ ⟨rfl, holding⟩
          -- the reference of the file that `newfd` held is given back first
          suffices finish : ∀ middle,
              Holding table (extra - oneOf (table.currentProcess.ofiles newfd).ip) middle →
              Leads
                (do
                  setOfile newfd (table.currentProcess.ofiles fd)
                  let _ ← idup ip
                  return ((newfd : Nat) : Int))
                (Balanced extra) middle by
            cases held : (table.currentProcess.ofiles newfd).ip with
            | none =>
                exact finish _ (by simpa [held] using holding)
            | some old =>
                refine (Prog.wp_bind (iput old) _).mpr ?_
                refine leads_of_owes iput_takes.owes holding fun _ after holding => ?_
                exact finish _ (by simpa [held, sub_eq_add_neg] using holding)
          intro middle holding
          unfold Leads
          simp only [Prog.wp_bind]
          refine leads_setOfile holding alive fun after exchanged => ?_
          refine leads_of_owes idup_takes.owes ⟨rfl, exchanged⟩ fun _ _ holding => ?_
          exact holding.extra.trans (by simp [isOpen])

theorem sysChdir_balances (holding : Holding table extra world) (path : Option CString) :
    Leads (sysChdir path) (Balanced extra) world := by
  unfold sysChdir Leads
  cases path with
  | none => exact holding.extra
  | some path =>
      dsimp only
      rw [Prog.wp_bind]
      refine leads_of_owes namei_owes holding fun found _ holding => ?_
      cases found with
      | none => exact holding.extra.trans (by simp)
      | some ip =>
          simp only [Prog.wp_bind]
          refine leads_of_takes ilock_takes holding fun _ _ holding => ?_
          refine leads_of_takes getInode_takes holding fun inode _ holding => ?_
          split
          · simp only [Prog.wp_bind]
            refine leads_of_takes iunlock_takes holding fun _ _ holding => ?_
            refine leads_of_owes iput_takes.owes holding fun _ _ holding => ?_
            exact holding.extra.trans (by simp)
          · simp only [Prog.wp_bind]
            refine leads_of_takes iunlock_takes holding fun _ _ holding => ?_
            refine leads_of_owes xv6fsBridgeSetCwd_owes holding fun _ _ holding => ?_
            exact holding.extra.trans (by simp)

theorem sysMkdir_balances (holding : Holding table extra world) (path : Option CString) :
    Leads (sysMkdir path) (Balanced extra) world := by
  unfold sysMkdir Leads
  cases path with
  | none => exact holding.extra
  | some path =>
      dsimp only
      rw [Prog.wp_bind]
      refine leads_of_owes xv6fsCreate_owes holding fun found _ holding => ?_
      cases found with
      | none => exact holding.extra.trans (by simp)
      | some ip =>
          simp only [Prog.wp_bind]
          refine leads_of_takes iunlock_takes holding fun _ _ holding => ?_
          refine leads_of_owes iput_takes.owes holding fun _ _ holding => ?_
          exact holding.extra.trans (by simp)

theorem sysUnlink_balances (holding : Holding table extra world) (path : Option CString) :
    Leads (sysUnlink path) (Balanced extra) world := by
  unfold sysUnlink Leads
  cases path with
  | none => exact holding.extra
  | some path =>
      exact leads_of_owes xv6fsUnlink_owes holding fun _ _ holding =>
        holding.extra.trans (by simp)

end Calls

end Notux.Sys
