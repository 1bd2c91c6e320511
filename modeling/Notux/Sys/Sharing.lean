import Notux.Sys.Effects

/-!
# Duplicated descriptors

`dup`, `dup2` and `execve` copy a descriptor with its position.  From then on each copy has a
position of its own, so a use of one starts where the last use of either left off only if both
positions agree.
-/

namespace Notux.Sys

open Notux.Store Notux.Proc Notux.Fs

/-- A descriptor of a process. -/
abbrev Desc := ProcIdx × Fin NOFILE

/-- What the process table has for a descriptor. -/
def entryOf (table : ProcTable) (desc : Desc) : OFile := (table.processes desc.1).ofiles desc.2

theorem entryOf_withOfile (table : ProcTable) (fd : Fin NOFILE) (file : OFile) (desc : Desc) :
    entryOf (withOfile table fd file) desc =
      if desc = (table.current, fd) then file else entryOf table desc := by
  unfold entryOf
  rw [ofiles_withOfile]
  exact if_congr ⟨fun both => Prod.ext both.1 both.2,
    fun same => ⟨congrArg Prod.fst same, congrArg Prod.snd same⟩⟩ rfl rfl

/-! ## What one use does to a position -/

/-- Where a transfer of `r` bytes leaves off. -/
def leavesOff (start : Nat) (r : Int) : Nat :=
  if r > 0 then (start + r.toNat) % 2 ^ 32 else start

/-- A read or write that started at `start` has moved the descriptor to where it left off. -/
structure Moved (world : FsWorld) (fd : Fin NOFILE) (ip : Slot) (start : Nat) (r : Int)
    (after : FsWorld) : Prop where
  table : after.mem.table = if r > 0 then
      withOfile world.mem.table fd
        { ofileOf world fd with offset := (start + r.toNat) % 2 ^ 32 }
    else world.mem.table
  fits : (lockedDin world ip).type ≠ T_DEV → r > 0 → start + r.toNat < 2 ^ 32

theorem toInt32_pos {n : Nat} (few : n < 2 ^ 32) (positive : 0 < toInt32 n) :
    (toInt32 n).toNat = n := by
  by_cases small : n < 2 ^ 31
  · rw [toInt32_of_small small, Int.toNat_natCast]
  · exact absurd positive (not_lt.mpr (le_of_lt (toInt32_of_large (not_lt.mp small) few)))

/-- A place and a count whose sum does not wrap. -/
theorem no_wrap {off n size : Nat} (few : n < 2 ^ 32) (sizeSmall : size < 2 ^ 32)
    (checked : ¬ (off > size ∨ (off + n) % 2 ^ 32 < off)) : off + n < 2 ^ 32 := by
  by_contra wraps
  omega

/-- What holds whatever a part of a call does. -/
theorem leads_any {α : Type} (program : FsM α) {world : FsWorld} {Q : α → FsWorld → Prop}
    (always : ∀ value after, Q value after) : Leads program Q world :=
  (Prog.wp_trivial program world).conseq (fun _ _ => trivial) (fun _ _ _ => trivial)
    fun value after _ => always value after

theorem readi_fits {world : FsWorld} {ip : Slot} {off n : Nat} (few : n < 2 ^ 32) :
    Leads (readi ip off n) (fun result _ => (world.mem.icache ip).din.type ≠ T_DEV →
      result.1 > 0 → off + result.1.toNat < 2 ^ 32) world := by
  unfold readi Leads getInode
  simp only [Prog.wp_bind, Prog.wp_getMem, Prog.wp_pure]
  split
  · next device => split <;> exact fun notDevice => absurd device notDevice
  · split
    · intro _ positive
      cases positive
    · next checked =>
      have sizeSmall := (world.mem.icache ip).din.size.isLt
      have whole := no_wrap few sizeSmall checked
      rw [Prog.wp_bind]
      apply leads_any
      intro bytes after _ positive
      change 0 < toInt32 (if _ then _ else n) at positive
      change off + (toInt32 (if _ then _ else n)).toNat < 2 ^ 32
      split at positive
      · next cut =>
        have within : off ≤ (world.mem.icache ip).din.size.toNat := not_lt.mp fun beyond =>
          checked (Or.inl beyond)
        have fewer := Nat.lt_of_le_of_lt (Nat.sub_le _ off) sizeSmall
        rw [if_pos cut, toInt32_pos fewer positive, Nat.add_sub_cancel' within]
        exact sizeSmall
      · next fits =>
        rw [if_neg fits, toInt32_pos few positive]
        exact whole

theorem writei_fits {world : FsWorld} {ip : Slot} {src : Nat → Byte} {off n : Nat}
    (few : n < 2 ^ 32) :
    Leads (writei ip src off n) (fun r _ => (world.mem.icache ip).din.type ≠ T_DEV →
      r > 0 → off + r.toNat < 2 ^ 32) world := by
  unfold writei Leads getInode
  simp only [Prog.wp_bind, Prog.wp_getMem, Prog.wp_pure]
  split
  · next device => split <;> exact fun notDevice => absurd device notDevice
  · split
    · intro _ positive
      cases positive
    · next checked =>
      split
      · intro _ positive
        cases positive
      · have whole := no_wrap few (world.mem.icache ip).din.size.isLt checked
        simp only [Prog.wp_bind]
        apply leads_any
        intro _ written
        apply leads_any
        intro _ _
        apply leads_any
        intro _ _
        apply leads_any
        intro _ after _ positive
        rw [toInt32_pos few positive]
        exact whole

section Moving

variable {world : FsWorld} {fd : Fin NOFILE} {ip : Slot}

/-- A read moves the descriptor from its position. -/
theorem sysRead_moved (isOpen : (ofileOf world fd).ip = some ip) {number : Int}
    (isFd : toFd 0 number = some fd) (bufNull : Bool) (count : Nat) (key : Byte) :
    Leads (sysRead number bufNull count key)
      (fun result after => Moved world fd ip (ofileOf world fd).offset result.1 after) world := by
  have refused : ∀ bytes : List Byte, Moved world fd ip (ofileOf world fd).offset
      ((-1 : Int), bytes).1 world := fun _ => ⟨rfl, fun _ positive => by cases positive⟩
  unfold sysRead Leads
  split
  · exact refused _
  · rw [Prog.wp_bind]
    apply leads_found_or
    · intro closed
      rw [closed fd isFd] at isOpen
      cases isOpen
    · intro fd' ip' isFd' isOpen'
      obtain rfl : fd' = fd := Option.some.inj (isFd'.symm.trans isFd)
      obtain rfl : ip' = ip := Option.some.inj (isOpen'.symm.trans isOpen)
      dsimp only
      split
      · exact refused _
      · simp only [Prog.wp_bind]
        apply ilock_locks.mono
        intro _ locked holds
        apply (readi_takes.frame (readi_fits (Nat.mod_lt _ (by decide)))).mono
        rintro ⟨r, bytes⟩ readWorld ⟨fits, -, second⟩
        apply makes_of_takes iunlock_takes
        intro _ unlocked third
        have same := third.trans (second.trans holds.table)
        rw [holds.din] at fits
        unfold when
        split
        · next positive =>
          apply makes_setOfile
          intro after moved
          rw [same] at moved
          exact ⟨by rw [if_pos positive]; exact moved, fits⟩
        · next nothing => exact ⟨by rw [if_neg nothing]; exact same, fits⟩

/-- Where a write through a descriptor starts. -/
def writeStart (world : FsWorld) (fd : Fin NOFILE) (ip : Slot) : Nat :=
  if hasFlag (ofileOf world fd).flags O_APPEND then (lockedDin world ip).size.toNat
  else (ofileOf world fd).offset

theorem sysWrite_moved (isOpen : (ofileOf world fd).ip = some ip) {number : Int}
    (isFd : toFd 1 number = some fd) (bufNull : Bool) (buf : Nat → Byte) (count : Nat) :
    Leads (sysWrite number bufNull buf count)
      (fun r after => Moved world fd ip (writeStart world fd ip) r after) world := by
  have refused : Moved world fd ip (writeStart world fd ip) (-1) world :=
    ⟨rfl, fun _ positive => by cases positive⟩
  unfold sysWrite Leads
  rw [Prog.wp_bind]
  apply leads_found_or
  · intro closed
    rw [closed fd isFd] at isOpen
    cases isOpen
  · intro fd' ip' isFd' isOpen'
    obtain rfl : fd' = fd := Option.some.inj (isFd'.symm.trans isFd)
    obtain rfl : ip' = ip := Option.some.inj (isOpen'.symm.trans isOpen)
    dsimp only
    split
    · exact refused
    · simp only [Prog.wp_bind]
      apply ilock_locks.mono
      intro _ locked holds
      simp only [getInode, Prog.wp_bind, Prog.wp_getMem, Prog.wp_pure]
      have start : (if hasFlag (ofileOf world fd').flags O_APPEND = true then
          (locked.mem.icache ip').din.size.toNat else (ofileOf world fd').offset) =
          writeStart world fd' ip' := by
        rw [holds.din]
        rfl
      rw [start]
      apply (writei_takes.frame (writei_fits (Nat.mod_lt _ (by decide)))).mono
      rintro r written ⟨fits, -, second⟩
      apply makes_of_takes iupdate_takes
      intro _ stored third
      apply makes_of_takes iunlock_takes
      intro _ unlocked fourth
      have same := fourth.trans (third.trans (second.trans holds.table))
      rw [holds.din] at fits
      unfold when
      split
      · next positive =>
        apply makes_setOfile
        intro after moved
        rw [same] at moved
        exact ⟨by rw [if_pos positive]; exact moved, fits⟩
      · next nothing => exact ⟨by rw [if_neg nothing]; exact same, fits⟩

/-- `lseek` moves the descriptor to the position that it returns. -/
theorem sysLseek_moved (isOpen : (ofileOf world fd).ip = some ip) {number : Int}
    (isFd : toFd 3 number = some fd) (offset whence : Int) :
    Leads (sysLseek number offset whence) (fun r after => 0 ≤ r → after.mem.table =
      withOfile world.mem.table fd { ofileOf world fd with offset := r.toNat % 2 ^ 32 }) world := by
  unfold sysLseek Leads
  rw [Prog.wp_bind]
  apply leads_found_or
  · intro closed
    rw [closed fd isFd] at isOpen
    cases isOpen
  · intro fd' ip' isFd' isOpen'
    obtain rfl : fd' = fd := Option.some.inj (isFd'.symm.trans isFd)
    simp only [Prog.wp_bind]
    apply makes_of_takes ilock_takes
    intro _ locked first
    apply makes_of_takes getInode_takes
    intro inode _ second
    apply makes_of_takes iunlock_takes
    intro _ unlocked third
    have same := third.trans (second.trans first)
    generalize (if whence = 0 then offset else _) = newOffset
    split
    · intro success
      cases success
    · rw [Prog.wp_bind]
      apply makes_setOfile
      intro after moved
      rw [same] at moved
      exact fun _ => moved

end Moving

/-! ## Uses -/

inductive Kind where
  | read
  | write
  | append
  | seek
  deriving DecidableEq

/-- A successful read, write or `lseek`: the descriptor it went through, where it started and
where it left off. -/
structure Use where
  through : Desc
  kind : Kind
  start : Nat
  left : Nat
  device : Bool
  deriving DecidableEq

/-- A call of the current process uses a descriptor. -/
inductive Uses (world : FsWorld) : Call → Int → Use → Prop where
  | read {number : Int} {fd : Fin NOFILE} {ip : Slot} {bufNull : Bool} {count : Nat} {key : Byte}
      {r : Int} (isFd : toFd 0 number = some fd) (isOpen : (ofileOf world fd).ip = some ip)
      (success : 0 ≤ r) :
      Uses world (.read number bufNull count key) r
        ⟨(world.mem.table.current, fd), .read, (ofileOf world fd).offset,
          leavesOff (ofileOf world fd).offset r, (lockedDin world ip).type = T_DEV⟩
  | write {number : Int} {fd : Fin NOFILE} {ip : Slot} {bufNull : Bool} {buf : Nat → Byte}
      {count : Nat} {r : Int} (isFd : toFd 1 number = some fd)
      (isOpen : (ofileOf world fd).ip = some ip)
      (notAppend : hasFlag (ofileOf world fd).flags O_APPEND = false) (success : 0 ≤ r) :
      Uses world (.write number bufNull buf count) r
        ⟨(world.mem.table.current, fd), .write, (ofileOf world fd).offset,
          leavesOff (ofileOf world fd).offset r, (lockedDin world ip).type = T_DEV⟩
  | append {number : Int} {fd : Fin NOFILE} {ip : Slot} {bufNull : Bool} {buf : Nat → Byte}
      {count : Nat} {r : Int} (isFd : toFd 1 number = some fd)
      (isOpen : (ofileOf world fd).ip = some ip)
      (append : hasFlag (ofileOf world fd).flags O_APPEND = true) (success : 0 < r) :
      Uses world (.write number bufNull buf count) r
        ⟨(world.mem.table.current, fd), .append, (lockedDin world ip).size.toNat,
          leavesOff (lockedDin world ip).size.toNat r, (lockedDin world ip).type = T_DEV⟩
  | seek {number offset whence : Int} {fd : Fin NOFILE} {ip : Slot} {r : Int}
      (isFd : toFd 3 number = some fd) (isOpen : (ofileOf world fd).ip = some ip)
      (success : 0 ≤ r) :
      Uses world (.lseek number offset whence) r
        ⟨(world.mem.table.current, fd), .seek, 0, r.toNat % 2 ^ 32,
          (lockedDin world ip).type = T_DEV⟩

/-- A call has made the second descriptor from the first. -/
inductive Duplicates (before : ProcTable) : Call → Int → Desc → Desc → ProcTable → Prop where
  | dup {oldfd r : Int} {old new : Fin NOFILE} {after : ProcTable}
      (isFd : toFd 3 oldfd = some old) (result : r = (new : Nat)) :
      Duplicates before (.dup oldfd) r (before.current, old) (before.current, new) after
  | dup2 {oldfd newfd r : Int} {old new : Fin NOFILE} {after : ProcTable}
      (isFd : toFd 0 oldfd = some old) (result : r = (new : Nat)) :
      Duplicates before (.dup2 oldfd newfd) r (before.current, old) (before.current, new) after
  | execve {filename : Option CString} {env : SpawnEnv} {ramfs : Option Nat}
      {ramfsEnv : SpawnEnv} {r : Int} {child : ProcIdx} {fd : Fin NOFILE} {after : ProcTable}
      (changed : entryOf after (child, fd) ≠ entryOf before (child, fd)) :
      Duplicates before (.execve filename env ramfs ramfsEnv) r (before.current, fd) (child, fd)
        after

/-- Runs after a descriptor has been duplicated, with the position at that time and the uses of
the two descriptors since.  Other calls leave the two as they are. -/
inductive Shares (first second : Desc) : Nat → List Use → FsWorld → Prop where
  | made {before after : FsWorld} {call : Call} {r : Int} {writes : List (Nat × Block)}
      (running : before.mem.table.currentProcess.state = .running)
      (returned : (syscallHandler call).run before = ⟨.ret r, after, writes⟩)
      (duplicates : Duplicates before.mem.table call r first second after.mem.table)
      (firstOpen : (entryOf after.mem.table first).ip ≠ none)
      (secondOpen : (entryOf after.mem.table second).ip ≠ none) :
      Shares first second (entryOf after.mem.table first).offset [] after
  | timer {init : Nat} {log : List Use} {world next : FsWorld} {currentEsp : Nat}
      (shares : Shares first second init log world)
      (performed : perform (.timer currentEsp) world = some next) :
      Shares first second init log next
  | other {init : Nat} {log : List Use} {world next : FsWorld} {call : Call} {r : Int}
      {writes : List (Nat × Block)} (shares : Shares first second init log world)
      (running : world.mem.table.currentProcess.state = .running)
      (returned : (syscallHandler call).run world = ⟨.ret r, next, writes⟩)
      (notUse : ∀ use, Uses world call r use → use.through ≠ first ∧ use.through ≠ second)
      (firstSame : entryOf next.mem.table first = entryOf world.mem.table first)
      (secondSame : entryOf next.mem.table second = entryOf world.mem.table second) :
      Shares first second init log next
  | use {init : Nat} {log : List Use} {world next : FsWorld} {call : Call} {r : Int} {use : Use}
      {writes : List (Nat × Block)} (shares : Shares first second init log world)
      (running : world.mem.table.currentProcess.state = .running)
      (returned : (syscallHandler call).run world = ⟨.ret r, next, writes⟩)
      (uses : Uses world call r use) (isShared : use.through = first ∨ use.through = second) :
      Shares first second init (log ++ [use]) next

/-- Where the last use left off. -/
def leftOff (init : Nat) (log : List Use) : Nat := (log.getLast?.map Use.left).getD init

/-- Where the last use through one descriptor left off. -/
def ownLeftOff (init : Nat) (log : List Use) (desc : Desc) : Nat :=
  leftOff init (log.filter fun use => use.through = desc)

/-- Every read and write starts where the last use of either descriptor left off. -/
def OnePosition (init : Nat) (log : List Use) : Prop :=
  ∀ before use later, log = before ++ use :: later → use.kind ≠ .seek →
    use.start = leftOff init before

/-- Every read and write goes through the descriptor that was used last, unless both have left
off at one place; a write that appends comes when the file ends where the last use left off. -/
def Alternates (first second : Desc) (init : Nat) (log : List Use) : Prop :=
  ∀ before use later, log = before ++ use :: later →
    (use.kind = .read ∨ use.kind = .write →
      (∀ last ∈ before.getLast?, last.through = use.through) ∨
      ownLeftOff init before first = ownLeftOff init before second) ∧
    (use.kind = .append → use.start = leftOff init before)

/-- No byte is written twice. -/
def NoOverlap (log : List Use) : Prop :=
  log.Pairwise fun earlier later => earlier.left ≤ later.start

theorem leftOff_append (init : Nat) (log : List Use) (use : Use) :
    leftOff init (log ++ [use]) = use.left := by
  unfold leftOff
  rw [List.getLast?_concat]
  rfl

theorem ownLeftOff_append (init : Nat) (log : List Use) (use : Use) (desc : Desc) :
    ownLeftOff init (log ++ [use]) desc =
      if use.through = desc then use.left else ownLeftOff init log desc := by
  unfold ownLeftOff
  rw [List.filter_append]
  split
  · next same =>
    rw [List.filter_cons_of_pos (by simpa using same), List.filter_nil, leftOff_append]
  · next other =>
    rw [List.filter_cons_of_neg (by simpa using other), List.filter_nil, List.append_nil]

/-- The use that left off last was the last one through its descriptor. -/
theorem leftOff_eq_own {init : Nat} {log : List Use} {last : Use} (isLast : log.getLast? = some last) :
    leftOff init log = ownLeftOff init log last.through := by
  obtain ⟨earlier, rfl⟩ := List.getLast?_eq_some_iff.mp isLast
  rw [leftOff_append, ownLeftOff_append, if_pos rfl]

theorem leftOff_of_unused {init : Nat} {log : List Use} (unused : log.getLast? = none) (desc : Desc) :
    leftOff init log = ownLeftOff init log desc := by
  rw [List.getLast?_eq_none_iff.mp unused]
  rfl

section OneUse

variable {world next : FsWorld} {call : Call} {r : Int} {use : Use} {writes : List (Nat × Block)}

/-- A run of a part of a call that returns has led to what the part leads to. -/
theorem Leads.of_run {α : Type} {program : FsM α} {Q : α → FsWorld → Prop} {value : α}
    (leads : Leads program Q world) (returned : program.run world = ⟨.ret value, next, writes⟩) :
    Q value next := by
  have ends := leads.run
  rw [returned] at ends
  exact ends

theorem Moved.offset {fd : Fin NOFILE} {ip : Slot} {start : Nat}
    (moved : Moved world fd ip start r next) (stays : r > 0 ∨ start = (ofileOf world fd).offset)
    (desc : Desc) :
    (entryOf next.mem.table desc).offset =
      if (world.mem.table.current, fd) = desc then leavesOff start r
      else (entryOf world.mem.table desc).offset := by
  rw [moved.table]
  unfold leavesOff
  by_cases positive : r > 0
  · rw [if_pos positive, if_pos positive, entryOf_withOfile]
    by_cases same : desc = (world.mem.table.current, fd)
    · rw [if_pos same, if_pos same.symm]
    · rw [if_neg same, if_neg (Ne.symm same)]
  · rw [if_neg positive, if_neg positive, stays.resolve_left positive]
    split
    · next same =>
      rw [← same]
      rfl
    · rfl

theorem Moved.ordered {fd : Fin NOFILE} {ip : Slot} {start : Nat}
    (moved : Moved world fd ip start r next) (notDevice : (lockedDin world ip).type ≠ T_DEV) :
    start ≤ leavesOff start r := by
  unfold leavesOff
  split
  · next positive =>
    rw [Nat.mod_eq_of_lt (moved.fits notDevice positive)]
    exact Nat.le_add_right _ _
  · exact le_rfl

/-- What a use does to the descriptors. -/
structure Effective (world : FsWorld) (use : Use) (next : FsWorld) : Prop where
  offset : ∀ desc, (entryOf next.mem.table desc).offset =
    if use.through = desc then use.left else (entryOf world.mem.table desc).offset
  start : use.kind = .read ∨ use.kind = .write →
    use.start = (entryOf world.mem.table use.through).offset
  ordered : use.kind ≠ .seek → use.device = false → use.start ≤ use.left

theorem Uses.effective (uses : Uses world call r use)
    (returned : (syscallHandler call).run world = ⟨.ret r, next, writes⟩) :
    Effective world use next := by
  cases uses with
  | @read number fd ip bufNull count key _ isFd isOpen success =>
      have leads : Leads (syscallHandler (.read number bufNull count key))
          (fun r after => Moved world fd ip (ofileOf world fd).offset r after) world :=
        (Prog.wp_bind _ _).mpr ((sysRead_moved isOpen isFd bufNull count key).mono
          fun _ _ moved => moved)
      have moved := leads.of_run returned
      exact ⟨moved.offset (Or.inr rfl), fun _ => rfl, fun _ notDevice =>
        moved.ordered (of_decide_eq_false notDevice)⟩
  | @write number fd ip bufNull buf count _ isFd isOpen notAppend success =>
      have moved := (sysWrite_moved isOpen isFd bufNull buf count).of_run returned
      have start : writeStart world fd ip = (ofileOf world fd).offset := by
        unfold writeStart
        rw [notAppend]
        rfl
      rw [start] at moved
      exact ⟨moved.offset (Or.inr rfl), fun _ => rfl, fun _ notDevice =>
        moved.ordered (of_decide_eq_false notDevice)⟩
  | @append number fd ip bufNull buf count _ isFd isOpen append success =>
      have moved := (sysWrite_moved isOpen isFd bufNull buf count).of_run returned
      have start : writeStart world fd ip = (lockedDin world ip).size.toNat := if_pos append
      rw [start] at moved
      exact ⟨moved.offset (Or.inl success), nofun, fun _ notDevice =>
        moved.ordered (of_decide_eq_false notDevice)⟩
  | @seek number offset whence fd ip _ isFd isOpen success =>
      have table := (sysLseek_moved isOpen isFd offset whence).of_run returned success
      refine ⟨fun desc => ?_, nofun, fun notSeek => absurd rfl notSeek⟩
      rw [table, entryOf_withOfile]
      by_cases same : desc = (world.mem.table.current, fd)
      · rw [if_pos same, if_pos same.symm]
      · rw [if_neg same, if_neg (Ne.symm same)]

end OneUse

/-! ## Runs -/

section Runs

variable {first second : Desc} {init : Nat} {log : List Use} {world : FsWorld}

/-- Both copies start with the position of the first. -/
theorem Duplicates.same {before after : ProcTable} {call : Call} {r : Int}
    (duplicates : Duplicates before call r first second after)
    (changes : Changes before call r after) (firstOpen : (entryOf after first).ip ≠ none)
    (secondOpen : (entryOf after second).ip ≠ none) :
    entryOf after second = entryOf after first := by
  have copied : ∀ {low : Nat} {oldfd : Int} {old new : Fin NOFILE}, toFd low oldfd = some old →
      r = (new : Nat) → Copies low oldfd before r after →
      entryOf after (before.current, new) = entryOf after (before.current, old) := by
    rintro low oldfd old new isFd rfl (⟨failed, -⟩ | ⟨old', new', ip, isFd', result, -, rfl⟩)
    · omega
    · obtain rfl : old' = old := Option.some.inj (isFd'.symm.trans isFd)
      obtain rfl : new = new' := Fin.ext (by omega)
      rw [entryOf_withOfile, if_pos rfl, entryOf_withOfile]
      split <;> rfl
  cases duplicates with
  | dup isFd result => exact copied isFd result changes
  | dup2 isFd result => exact copied isFd result changes
  | @execve _ _ _ _ _ child fd _ changed =>
      have caller : entryOf after (before.current, fd) = before.currentProcess.ofiles fd := by
        rcases changes before.current fd with same | closed | ⟨-, handed⟩
        · exact same
        · exact absurd closed firstOpen
        · exact handed
      rw [caller]
      rcases changes child fd with same | closed | ⟨-, handed⟩
      · exact absurd same changed
      · exact absurd closed secondOpen
      · exact handed

/-- The log and the state of a run agree. -/
structure Keeps (first second : Desc) (init : Nat) (log : List Use) (world : FsWorld) : Prop where
  firstAt : (entryOf world.mem.table first).offset = ownLeftOff init log first
  secondAt : (entryOf world.mem.table second).offset = ownLeftOff init log second
  shared : ∀ before use later, log = before ++ use :: later →
    use.through = first ∨ use.through = second
  starts : ∀ before use later, log = before ++ use :: later →
    use.kind = .read ∨ use.kind = .write → use.start = ownLeftOff init before use.through
  ordered : ∀ use ∈ log, use.kind ≠ .seek → use.device = false → use.start ≤ use.left

/-- A place in a log that has grown by one entry. -/
theorem split_concat {α : Type} {log before later : List α} {last entry : α}
    (split : log ++ [last] = before ++ entry :: later) :
    before = log ∧ entry = last ∨ ∃ later', log = before ++ entry :: later' := by
  rcases List.eq_nil_or_concat later with rfl | ⟨later', other, rfl⟩
  · obtain ⟨same, isLast⟩ := List.append_inj' split rfl
    exact Or.inl ⟨same.symm, (List.cons.inj isLast).1.symm⟩
  · rw [List.concat_eq_append, ← List.cons_append, ← List.append_assoc] at split
    exact Or.inr ⟨later', (List.append_inj' split rfl).1⟩

theorem Keeps.same {next : FsWorld} (keeps : Keeps first second init log world)
    (firstSame : entryOf next.mem.table first = entryOf world.mem.table first)
    (secondSame : entryOf next.mem.table second = entryOf world.mem.table second) :
    Keeps first second init log next :=
  { keeps with
    firstAt := firstSame ▸ keeps.firstAt
    secondAt := secondSame ▸ keeps.secondAt }

/-- One more use. -/
theorem Keeps.use {next : FsWorld} {use : Use} (keeps : Keeps first second init log world)
    (effective : Effective world use next)
    (isShared : use.through = first ∨ use.through = second) :
    Keeps first second init (log ++ [use]) next where
  firstAt := by rw [effective.offset, ownLeftOff_append, keeps.firstAt]
  secondAt := by rw [effective.offset, ownLeftOff_append, keeps.secondAt]
  shared := by
    intro before entry later split
    rcases split_concat split with ⟨rfl, rfl⟩ | ⟨later', split'⟩
    · exact isShared
    · exact keeps.shared before entry later' split'
  starts := by
    intro before entry later split transfers
    rcases split_concat split with ⟨rfl, rfl⟩ | ⟨later', split'⟩
    · rw [effective.start transfers]
      rcases isShared with same | same <;> rw [same]
      · exact keeps.firstAt
      · exact keeps.secondAt
    · exact keeps.starts before entry later' split' transfers
  ordered := by
    intro entry member
    rcases List.mem_append.mp member with old | new
    · exact keeps.ordered entry old
    · rw [List.mem_singleton.mp new]
      exact effective.ordered

theorem Shares.keeps (shares : Shares first second init log world) :
    Keeps first second init log world := by
  induction shares with
  | @made before after call r writes running returned duplicates firstOpen secondOpen =>
      have changes := (syscallHandler_makes running call).of_run returned
      have same := duplicates.same changes firstOpen secondOpen
      have none : ∀ {before later : List Use} {use : Use}, [] ≠ before ++ use :: later :=
        fun same => List.cons_ne_nil _ _ (List.append_eq_nil_iff.mp same.symm).2
      exact ⟨rfl, congrArg OFile.offset same, fun _ _ _ split => absurd split none,
        fun _ _ _ split => absurd split none, fun _ member => absurd member List.not_mem_nil⟩
  | @timer init log world next currentEsp shares performed ih =>
      have same := perform_timer_ofiles performed
      exact ih.same (congrFun (same first.1) first.2) (congrFun (same second.1) second.2)
  | other shares running returned notUse firstSame secondSame ih => exact ih.same firstSame secondSame
  | use shares running returned uses isShared ih => exact ih.use (uses.effective returned) isShared

/-- A descriptor stands where the last use left off, if it was the one used or both have left off
at one place. -/
theorem Keeps.place_iff (keeps : Keeps first second init log world) {before later : List Use}
    {use : Use} (split : log = before ++ use :: later) :
    ownLeftOff init before use.through = leftOff init before ↔
      (∀ last ∈ before.getLast?, last.through = use.through) ∨
        ownLeftOff init before first = ownLeftOff init before second := by
  cases isLast : before.getLast? with
  | none =>
      rw [leftOff_of_unused isLast use.through]
      exact ⟨fun _ => Or.inl nofun, fun _ => rfl⟩
  | some last =>
      obtain ⟨earlier, rfl⟩ := List.getLast?_eq_some_iff.mp isLast
      have lastShared := keeps.shared earlier last (use :: later) (by
        rw [split, List.append_assoc]
        rfl)
      have useShared := keeps.shared _ use later split
      rw [leftOff_eq_own isLast]
      constructor
      · intro agrees
        by_cases same : last.through = use.through
        · exact Or.inl fun other isOther => Option.some.inj isOther ▸ same
        · right
          rcases lastShared with isLast | isLast <;> rcases useShared with isUse | isUse <;>
            rw [isLast, isUse] at agrees same
          · exact absurd rfl same
          · exact agrees.symm
          · exact agrees
          · exact absurd rfl same
      · rintro (same | agrees)
        · rw [same last rfl]
        · rcases lastShared with isLast | isLast <;> rcases useShared with isUse | isUse <;>
            rw [isLast, isUse]
          · exact agrees.symm
          · exact agrees

/-- Transfers that start where the last one left off do not meet. -/
theorem noOverlap_of_onePosition {init : Nat} {log : List Use} (position : OnePosition init log)
    (ordered : ∀ use ∈ log, use.kind ≠ .seek ∧ use.start ≤ use.left) : NoOverlap log := by
  suffices both : NoOverlap log ∧ ∀ use ∈ log, use.left ≤ leftOff init log from both.1
  induction log using List.reverseRecOn with
  | nil => exact ⟨List.Pairwise.nil, fun _ member => absurd member List.not_mem_nil⟩
  | append_singleton log last ih =>
      have lastOrdered := ordered last (List.mem_append_right _ (List.mem_singleton_self _))
      have starts := position log last [] rfl lastOrdered.1
      obtain ⟨apart, below⟩ := ih
        (fun before use later split => position before use (later ++ [last]) (by
          rw [split, List.append_assoc]
          rfl))
        fun use member => ordered use (List.mem_append_left _ member)
      constructor
      · apply List.pairwise_append.mpr
        refine ⟨apart, List.pairwise_singleton _ _, fun use member other isLast => ?_⟩
        rw [List.mem_singleton.mp isLast, starts]
        exact below use member
      · intro use member
        rw [leftOff_append]
        rcases List.mem_append.mp member with old | new
        · exact (below use old).trans (starts ▸ lastOrdered.2)
        · rw [List.mem_singleton.mp new]

/-- Duplicated descriptors share their position exactly in the runs that alternate; in those
without `lseek` no byte is transferred twice. -/
theorem duplicates_share_position_iff (shares : Shares first second init log world) :
    (OnePosition init log ↔ Alternates first second init log) ∧
      (Alternates first second init log →
        (∀ use ∈ log, use.kind ≠ .seek ∧ use.device = false) → NoOverlap log) := by
  have keeps := shares.keeps
  have iff : OnePosition init log ↔ Alternates first second init log := by
    constructor
    · intro position before use later split
      constructor
      · intro transfers
        apply (keeps.place_iff split).mp
        rw [← keeps.starts before use later split transfers]
        exact position before use later split (by rcases transfers with is | is <;> rw [is] <;> decide)
      · intro appends
        exact position before use later split (by rw [appends]; decide)
    · intro alternates before use later split notSeek
      obtain ⟨transfers, appends⟩ := alternates before use later split
      cases kind : use.kind with
      | seek => exact absurd kind notSeek
      | append => exact appends kind
      | read =>
          rw [keeps.starts before use later split (Or.inl kind)]
          exact (keeps.place_iff split).mpr (transfers (Or.inl kind))
      | write =>
          rw [keeps.starts before use later split (Or.inr kind)]
          exact (keeps.place_iff split).mpr (transfers (Or.inr kind))
  refine ⟨iff, fun alternates plain => ?_⟩
  apply noOverlap_of_onePosition (iff.mpr alternates)
  intro use member
  obtain ⟨notSeek, notDevice⟩ := plain use member
  exact ⟨notSeek, keeps.ordered use member notSeek notDevice⟩

end Runs

/-! ## Two writers -/

/-- The first process has opened a file and duplicated the descriptor. -/
def duplicatedWorld : FsWorld :=
  afterCall (.dup 3) (afterCall (openingCall O_RDWR) firstWorld)

/-- One byte is written through a descriptor. -/
def writeCall (fd : Int) : Call := .write fd false (fun _ => 120) 1

/-- Its use from the start of the file. -/
def firstByte (fd : Fin NOFILE) : Use := ⟨(0, fd), .write, 0, 1, false⟩

theorem shares_duplicated : Shares (0, 3) (0, 4) 0 [] duplicatedWorld :=
  @Shares.made (0, 3) (0, 4) (afterCall (openingCall O_RDWR) firstWorld) _ (.dup 3) 4 _
    (by decide +kernel) (run_of_outcome (by decide +kernel)) (.dup rfl rfl) (by decide +kernel)
    (by decide +kernel)

/-- A write through a descriptor whose position is 0. -/
theorem uses_firstByte {world : FsWorld} {fd : Fin NOFILE} (above : 1 ≤ (fd : Nat))
    (isOpen : (ofileOf world fd).ip = some 1)
    (notAppend : hasFlag (ofileOf world fd).flags O_APPEND = false)
    (current : world.mem.table.current = 0) (offset : (ofileOf world fd).offset = 0)
    (regular : (lockedDin world 1).type ≠ T_DEV) :
    Uses world (writeCall (fd : Nat)) 1 (firstByte fd) := by
  have uses : Uses world (writeCall (fd : Nat)) 1 _ :=
    .write (toFd_of_le above) isOpen notAppend (by decide)
  rw [current, offset, decide_eq_false regular] at uses
  exact uses

theorem shares_one : Shares (0, 3) (0, 4) 0 [firstByte 3]
    (afterCall (writeCall 3) duplicatedWorld) :=
  @Shares.use (0, 3) (0, 4) 0 [] duplicatedWorld _ (writeCall 3) 1 (firstByte 3) _
    shares_duplicated (by decide +kernel) (run_of_outcome (by decide +kernel))
    (@uses_firstByte _ 3 (by decide) (by decide +kernel) (by decide +kernel) (by decide +kernel)
      (by decide +kernel) (by decide +kernel)) (Or.inl rfl)

theorem duplicates_share_position_one :
    (OnePosition 0 [firstByte 3] ↔ Alternates (0, 3) (0, 4) 0 [firstByte 3]) ∧
      (Alternates (0, 3) (0, 4) 0 [firstByte 3] →
        (∀ use ∈ [firstByte 3], use.kind ≠ .seek ∧ use.device = false) →
        NoOverlap [firstByte 3]) :=
  duplicates_share_position_iff shares_one

/-- A byte written through each descriptor: the second one overwrites the first. -/
theorem duplicates_overwrite :
    ¬ ∀ (first second : Desc) (init : Nat) (log : List Use) (world : FsWorld),
      Shares first second init log world → OnePosition init log := by
  intro always
  have shares : Shares (0, 3) (0, 4) 0 ([firstByte 3] ++ [firstByte 4])
      (afterCall (writeCall 4) (afterCall (writeCall 3) duplicatedWorld)) :=
    @Shares.use (0, 3) (0, 4) 0 [firstByte 3] _ _ (writeCall 4) 1 (firstByte 4) _ shares_one
      (by decide +kernel) (run_of_outcome (by decide +kernel))
      (@uses_firstByte _ 4 (by decide) (by decide +kernel) (by decide +kernel) (by decide +kernel)
        (by decide +kernel) (by decide +kernel)) (Or.inr rfl)
  have starts := always _ _ _ _ _ shares [firstByte 3] (firstByte 4) [] rfl (by decide)
  exact absurd starts (by decide)

end Notux.Sys
