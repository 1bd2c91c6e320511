import Mathlib.Algebra.Order.BigOperators.Group.Finset
import Mathlib.Algebra.Order.Group.Int
import Mathlib.Algebra.Order.Pi
import Notux.Fs.Removal
import Notux.Sys.Holders

/-!
# References that belong to somebody

Calls may leave references that nobody holds, but they never take away one that a
descriptor of a live process or the working directory holds.
-/

namespace Notux.Sys

open Notux.Store Notux.Proc Notux.Fs

/-! ## References that have no holder -/

/-- At least as many references have no holder as before. -/
def Covers {α : Type} (extra : Slot → Int) (_ : α) (world : FsWorld) : Prop :=
  extra ≤ spare world.mem

section Covering

variable {table : ProcTable} {extra : Slot → Int} {world : FsWorld}

theorem Leads.covers {α : Type} {program : FsM α} (balances : Leads program (Balanced extra) world) :
    Leads program (Covers extra) world :=
  balances.mono fun _ _ same => Eq.ge same

theorem held_nonneg (process : Process) : 0 ≤ held process := by
  unfold held
  split
  · exact le_rfl
  · exact Finset.sum_nonneg fun _ _ => nonneg_oneOf _

theorem allHeld_nonneg (table : ProcTable) : 0 ≤ allHeld table :=
  Finset.sum_nonneg fun _ _ => held_nonneg _

/-- Dropping a slot takes holders away. -/
theorem allHeld_drop_le {idx : ProcIdx} {change : Process → Process}
    (drops : (change (table.processes idx)).state = .terminated) :
    allHeld (table.modify idx change) ≤ allHeld table := by
  rw [allHeld_modify, held_of_terminated drops, add_zero]
  exact sub_le_self _ (held_nonneg _)

theorem allHeld_wait4_le : allHeld table.wait4.2 ≤ allHeld table := by
  unfold ProcTable.wait4
  cases table.zombieChild with
  | none => exact le_rfl
  | some child =>
      change allHeld (table.modify child fun process =>
        { process with state := .terminated, pid := 0, ppid := 0, exitCode := 0 }) ≤ _
      exact allHeld_drop_le rfl

/-- Dropping a process takes its holders away. -/
theorem allHeld_terminate_le (idx : ProcIdx) : allHeld (table.terminate idx) ≤ allHeld table :=
  allHeld_drop_le rfl

theorem leads_onTable_le {α : Type} {step : ProcTable → α × ProcTable}
    (holding : Holding table extra world) (fewer : allHeld (step table).2 ≤ allHeld table)
    {Q : α → FsWorld → Prop}
    (rest : ∀ more after, extra ≤ more → Holding (step table).2 more after →
      Q (step table).1 after) :
    Leads (onTable step) Q world := by
  obtain ⟨rfl, rfl⟩ := holding
  refine rest _ _ ?_ ⟨rfl, rfl⟩
  exact sub_le_sub_left fewer _

/-- Handing down a descriptor leaves the reference of one that it replaces. -/
theorem inheritFd_covers {child : ProcIdx} (holding : Holding table extra world)
    (alive : (table.processes child).state ≠ .terminated) (fd : Fin NOFILE) :
    Leads (inheritFd child fd)
      (fun _ after => ∃ table' more, Holding table' more after ∧ extra ≤ more ∧
        (table'.processes child).state ≠ .terminated)
      world := by
  unfold inheritFd Leads
  rw [Prog.wp_bind, wp_getOfile]
  rw [holding.table]
  cases isOpen : (table.currentProcess.ofiles fd).ip with
  | none => exact ⟨table, extra, holding, le_rfl, alive⟩
  | some ip =>
      simp only [Prog.wp_bind, Prog.wp_modifyMem]
      have shared := holding_setOfileOf holding alive fd (table.currentProcess.ofiles fd)
      apply leads_of_owes idup_takes.owes shared
      rintro _ after holding
      rw [isOpen, oneOf_some, sub_add_cancel] at holding
      refine ⟨_, _, holding, ?_, ?_⟩
      · exact le_add_of_nonneg_right (nonneg_oneOf _)
      · rw [ProcTable.modify_same]
        exact alive

theorem inheritAll_covers {child : ProcIdx} {fds : List (Fin NOFILE)}
    (holding : Holding table extra world)
    (alive : (table.processes child).state ≠ .terminated) :
    Leads (forEach fds (inheritFd child))
      (fun _ after => ∃ table' more, Holding table' more after ∧ extra ≤ more) world := by
  induction fds generalizing table extra world with
  | nil => exact ⟨table, extra, holding, le_rfl⟩
  | cons fd rest ih =>
      unfold forEach Leads
      rw [Prog.wp_bind]
      apply (inheritFd_covers holding alive fd).mono
      rintro _ middle ⟨table', more, holding, first, alive⟩
      apply (ih holding alive).mono
      rintro _ after ⟨table'', most, holding, second⟩
      exact ⟨table'', most, holding, first.trans second⟩

theorem spawnImage_covers (holding : Holding table extra world) (env : SpawnEnv)
    (image : Nat → Byte) : Leads (spawnImage env image) (Covers extra) world := by
  unfold spawnImage Leads
  rw [Prog.wp_bind]
  apply leads_onTable holding (allHeld_createProcess _ _ _ _)
  intro created holding
  split
  · exact holding.extra.ge
  · simp only [Prog.wp_bind, Prog.wp_getMem, holding.table]
    cases found : (table.createProcess env.layout 0 env.pml4).2.getProcessByPid
        (table.createProcess env.layout 0 env.pml4).1.toNat with
    | none => exact holding.extra.ge
    | some child =>
        simp only [Prog.wp_bind]
        apply (inheritAll_covers holding (getProcessByPid_spec found).2).mono
        rintro _ inherited ⟨table', more, holding, below⟩
        split
        · simp only [Prog.wp_bind]
          have entrySet : allHeld (table'.setProcessEntry child (elfEntry image)) =
              allHeld table' := by
            unfold allHeld
            rw [ProcTable.setProcessEntry_processes]
          apply leads_onTable holding entrySet
          intro after holding
          cases env.argv with
          | none => exact below.trans holding.extra.ge
          | some argv =>
              simp only [Prog.wp_bind]
              refine leads_onTable holding ?_ fun final holding => below.trans holding.extra.ge
              unfold allHeld
              rw [ProcTable.setProcessArgv_processes]
        · simp only [Prog.wp_bind]
          refine leads_onTable_le holding ?_ fun most after above holding =>
            (below.trans above).trans holding.extra.ge
          exact allHeld_terminate_le child

theorem spawnFromXv6fs_covers (holding : Holding table extra world) (path : List Byte)
    (env : SpawnEnv) : Leads (spawnFromXv6fs path env) (Covers extra) world := by
  unfold spawnFromXv6fs Leads
  rw [Prog.wp_bind]
  refine leads_of_owes namei_owes holding fun found _ holding => ?_
  cases found with
  | none => exact holding.extra.ge.trans' (by simp)
  | some ip =>
      simp only [Prog.wp_bind]
      refine leads_of_takes ilock_takes holding fun _ _ holding => ?_
      refine leads_of_takes getInode_takes holding fun inode _ holding => ?_
      split
      · simp only [Prog.wp_bind]
        refine leads_of_takes iunlock_takes holding fun _ _ holding => ?_
        refine leads_of_owes iput_takes.owes holding fun _ _ holding => ?_
        exact holding.extra.ge.trans' (by simp)
      · simp only [Prog.wp_bind]
        refine leads_of_takes readi_takes holding fun result _ holding => ?_
        obtain ⟨readBytes, bytes⟩ := result
        have loads : Takes (loadBuffer bytes) fun _ => 0 := by
          intro world
          exact ⟨rfl, (add_zero _).symm⟩
        dsimp only
        refine leads_of_takes loads holding fun image _ holding => ?_
        refine leads_of_takes iunlock_takes holding fun _ _ holding => ?_
        refine leads_of_owes iput_takes.owes holding fun _ _ holding => ?_
        rw [oneOf_some, add_neg_cancel_right] at holding
        split
        · exact holding.extra.ge
        · split
          · exact spawnImage_covers holding env image
          · exact holding.extra.ge

theorem spawnFromRamfs_covers (covered : extra ≤ spare world.mem) (file : Option Nat)
    (env : SpawnEnv) : Leads (spawnFromRamfs file env) (Covers extra) world := by
  unfold spawnFromRamfs Leads
  cases file with
  | none => exact covered
  | some entryPoint =>
      dsimp only
      rw [Prog.wp_bind]
      refine leads_onTable ⟨rfl, rfl⟩ (allHeld_createProcess _ _ _ _) fun after holding => ?_
      split
      · exact covered.trans holding.extra.ge
      · simp only [Prog.wp_bind, Prog.wp_getMem]
        split
        · exact covered.trans holding.extra.ge
        · split
          · simp only [Prog.wp_bind]
            refine leads_onTable holding ?_ fun after holding => covered.trans holding.extra.ge
            unfold allHeld
            rw [ProcTable.setProcessEntry_processes]
          · exact covered.trans holding.extra.ge

theorem sysExecve_covers (holding : Holding table extra world) (filename : Option CString)
    (env : SpawnEnv) (ramfs : Option Nat) (ramfsEnv : SpawnEnv) :
    Leads (sysExecve filename env ramfs ramfsEnv) (Covers extra) world := by
  unfold sysExecve Leads
  cases filename with
  | none => exact holding.extra.ge
  | some filename =>
      dsimp only
      rw [Prog.wp_bind]
      apply (spawnFromXv6fs_covers holding filename.bytes env).mono
      intro res after covered
      split
      · exact spawnFromRamfs_covers covered ramfs ramfsEnv
      · exact covered

theorem sysWait4_covers (holding : Holding table extra world) :
    Leads sysWait4 (Covers extra) world :=
  leads_onTable_le holding allHeld_wait4_le fun _ _ below holding => below.trans holding.extra.ge

theorem sysExit_covers (holding : Holding table extra world)
    (running : table.currentProcess.state = .running) (exitCode : Int) :
    Leads (sysExit exitCode) (Covers extra) world :=
  leads_onTable holding (allHeld_exitCurrentProcess exitCode running) fun _ holding =>
    holding.extra.ge

end Covering

/-- No system call takes a reference away from its holder. -/
theorem syscallHandler_covers {world : FsWorld} {call : Call}
    (running : world.mem.table.currentProcess.state = .running) :
    Leads (syscallHandler call) (Covers (spare world.mem)) world := by
  have holding : Holding world.mem.table (spare world.mem) world := ⟨rfl, rfl⟩
  have alive : world.mem.table.currentProcess.state ≠ .terminated := by
    rw [running]
    decide
  cases call with
  | read fd bufNull count key =>
      exact (Prog.wp_bind _ _).mpr (sysRead_balances holding alive fd bufNull count key).covers
  | write fd bufNull buf count =>
      exact (sysWrite_balances holding alive fd bufNull buf count).covers
  | openFile path flags => exact (sysOpen_balances holding alive path flags).covers
  | close fd => exact (sysClose_balances holding alive fd).covers
  | lseek fd offset whence => exact (sysLseek_balances holding alive fd offset whence).covers
  | dup oldfd => exact (sysDup_balances holding alive oldfd).covers
  | dup2 oldfd newfd => exact (sysDup2_balances holding alive oldfd newfd).covers
  | execve filename env ramfs ramfsEnv =>
      exact sysExecve_covers holding filename env ramfs ramfsEnv
  | exit exitCode => exact (Prog.wp_bind _ _).mpr (sysExit_covers holding running exitCode)
  | wait4 =>
      refine (Prog.wp_bind _ _).mpr ((sysWait4_covers holding).mono ?_)
      intro reaped after covered
      cases reaped <;> exact covered
  | chdir path => exact (sysChdir_balances holding path).covers
  | mkdir path => exact (sysMkdir_balances holding path).covers
  | unlink path => exact (sysUnlink_balances holding path).covers

end Notux.Sys
