import Notux.Fs.Path
import Mathlib.Data.Set.Insert
import Notux.Store.Carry

/-!
# Locks

The spin lock of the inode table and the sleep locks of its entries.  No function takes
a lock that is held or releases one that is free, as long as an entry is not locked
twice; `iput` locks the entry that it is given.
-/

namespace Notux.Fs

open Notux.Store Notux.Proc

/-- The panics that show a misuse of locks. -/
def Stop.Locking : Stop → Prop
  | .acquire | .release | .acquiresleep | .releasesleep | .iunlock => True
  | _ => False

instance : DecidablePred Stop.Locking := fun reason => by
  cases reason <;> unfold Stop.Locking <;> infer_instance

/-- Which locks are held, and which entries are known to be referenced. -/
structure Locked (table : Bool) (held used : Set Slot) (kernel : Kernel) : Prop where
  table : kernel.icacheLocked = table
  held : ∀ ip, (kernel.icache ip).locked = true ↔ ip ∈ held
  used : ∀ ip ∈ used, 0 < (kernel.icache ip).ref

/-- Exactly these entries are locked, and all of them are referenced. -/
def Holding (held : Set Slot) : Kernel → Prop := Locked false held held

/-- A program that does not misuse locks leads from one condition to another. -/
abbrev Safely {α : Type} (before : Kernel → Prop) (program : FsM α)
    (after : α → Kernel → Prop) : Prop :=
  Prog.Carries (fun reason => ¬ reason.Locking) before program after

variable {table : Bool} {held used : Set Slot} {ip dp : Slot}

theorem Locked.mono {used' : Set Slot} {kernel : Kernel} (locked : Locked table held used kernel)
    (fewer : used' ⊆ used) : Locked table held used' kernel :=
  { locked with used := fun ip member => locked.used ip (fewer member) }

/-- Assignments to an entry other than to its lock. -/
theorem Locked.setInode {kernel : Kernel} (locked : Locked table held used kernel)
    {change : Inode → Inode}
    (same : (change (kernel.icache ip)).locked = (kernel.icache ip).locked)
    (inUse : ip ∈ used → 0 < (change (kernel.icache ip)).ref) :
    Locked table held used (kernel.setInode ip change) where
  table := locked.table
  held other := by
    by_cases atIp : other = ip
    · subst atIp
      simpa [Kernel.setInode, same] using locked.held other
    · simpa [Kernel.setInode, atIp] using locked.held other
  used other member := by
    by_cases atIp : other = ip
    · subst atIp
      simpa [Kernel.setInode] using inUse member
    · simpa [Kernel.setInode, atIp] using locked.used other member

/-! ## Taking and releasing -/

theorem modifyInode_safely {change : Inode → Inode}
    (lock : ∀ inode, (change inode).locked = inode.locked)
    (ref : ∀ inode, (change inode).ref = inode.ref) :
    Safely (Locked table held used) (modifyInode ip change) fun _ => Locked table held used := by
  apply Prog.Carries.modifyMem
  intro kernel locked
  apply locked.setInode (lock _)
  rw [ref]
  exact locked.used ip

theorem getInode_safely : Safely (Locked table held used) (getInode ip) fun inode kernel =>
    Locked table held used kernel ∧ kernel.icache ip = inode :=
  Prog.Carries.fetch fun kernel locked => .pure fun now same => by
    subst same
    exact ⟨locked, rfl⟩

/-- Reading an entry without looking at its lock. -/
theorem getInode_steady :
    Safely (Locked table held used) (getInode ip) fun _ => Locked table held used :=
  getInode_safely.mono fun _ _ both => both.1

theorem brelse_safely {bp : Buf} :
    Safely (Locked table held used) (brelse bp) fun _ => Locked table held used :=
  .pure fun _ => id

theorem acquire_safely :
    Safely (Locked false held used) acquire fun _ => Locked true held used := by
  apply Prog.Carries.fetch
  intro kernel locked
  rw [locked.table]
  exact .setMem ⟨rfl, locked.held, locked.used⟩

theorem release_safely :
    Safely (Locked true held used) release fun _ => Locked false held used := by
  apply Prog.Carries.fetch
  intro kernel locked
  rw [locked.table]
  exact .setMem ⟨rfl, locked.held, locked.used⟩

theorem acquiresleep_safely (free : ip ∉ held) :
    Safely (Locked table held used) (acquiresleep ip) fun _ =>
      Locked table (insert ip held) used := by
  refine getInode_safely.bind fun inode => ?_
  split
  · next taken =>
    rintro world ⟨locked, same⟩
    subst same
    exact absurd ((locked.held ip).mp taken) free
  · refine .modifyMem fun kernel both => ⟨both.1.table, fun other => ?_, fun other member => ?_⟩
    · by_cases atIp : other = ip
      · simp [Kernel.setInode, atIp]
      · simpa [Kernel.setInode, atIp] using both.1.held other
    · by_cases atIp : other = ip
      · subst atIp
        simpa [Kernel.setInode] using both.1.used other member
      · simpa [Kernel.setInode, atIp] using both.1.used other member

theorem releasesleep_safely (free : ip ∉ held) :
    Safely (Locked table (insert ip held) used) (releasesleep ip) fun _ =>
      Locked table held used := by
  refine getInode_safely.bind fun inode => ?_
  split
  · refine .modifyMem fun kernel both => ⟨both.1.table, fun other => ?_, fun other member => ?_⟩
    · by_cases atIp : other = ip
      · simpa [Kernel.setInode, atIp] using free
      · simpa [Kernel.setInode, atIp] using both.1.held other
    · by_cases atIp : other = ip
      · subst atIp
        simpa [Kernel.setInode] using both.1.used other member
      · simpa [Kernel.setInode, atIp] using both.1.used other member
  · next unlocked =>
    rintro world ⟨locked, same⟩
    subst same
    exact absurd ((locked.held ip).mpr (Set.mem_insert ip held)) unlocked

/-! ## Blocks -/

section Blocks

/-- A program that leaves the locks as they are, whatever they are. -/
abbrev Steady {α : Type} (program : FsM α) : Prop :=
  ∀ {table : Bool} {held used : Set Slot},
    Safely (Locked table held used) program fun _ => Locked table held used

theorem bzero_steady {bno : Nat} : Steady (bzero bno) :=
  .seq .bread fun _ => .seq .logWrite fun _ => brelse_safely

theorem ballocLoop_steady (sb : Superblock) (fuel b : Nat) : Steady (ballocLoop sb fuel b) := by
  intro table held used
  induction fuel generalizing b with
  | zero => exact .stop nofun
  | succ fuel ih =>
      unfold ballocLoop
      split
      · refine .seq .bread fun bp => .seq .data fun block => ?_
        split
        · refine .seq .logWrite fun _ => .seq brelse_safely fun _ => ?_
          exact .seq bzero_steady fun _ => .pure fun _ => id
        · exact .seq brelse_safely fun _ => ih (b + BPB)
      · exact .stop nofun

theorem balloc_steady : Steady balloc := by
  refine .seq .getMem fun kernel => ?_
  split
  · exact ballocLoop_steady _ _ _
  · exact .stop nofun

theorem bfree_steady {b : Nat} : Steady (bfree b) := by
  refine .seq .getMem fun kernel => .seq .bread fun bp => .seq .data fun block => ?_
  split
  · exact .seq .logWrite fun _ => brelse_safely
  · exact .stop nofun

theorem iupdate_steady : Steady (iupdate ip) :=
  .seq .getMem fun _ => .seq .bread fun _ => .seq .data fun _ => .seq .logWrite fun _ =>
    brelse_safely

/-- Assigning to the on-disk fields. -/
theorem mapDin_steady {change : Dinode → Dinode} : Steady (modifyInode ip (·.mapDin change)) :=
  modifyInode_safely (fun _ => rfl) fun _ => rfl

theorem bmapIndirect_steady {addr i : Nat} : Steady (bmapIndirect addr i) := by
  refine .seq .bread fun bp => .seq .data fun a => ?_
  split
  · refine .seq balloc_steady fun addr => .seq .data fun a => ?_
    exact .seq .logWrite fun _ => .seq brelse_safely fun _ => .pure fun _ => id
  · exact .seq brelse_safely fun _ => .pure fun _ => id

theorem bmapAddr_steady {i : Nat} : Steady (bmapAddr ip i) := by
  refine .seq getInode_steady fun inode => ?_
  split
  · exact .seq balloc_steady fun addr => .seq mapDin_steady fun _ => .pure fun _ => id
  · exact .pure fun _ => id

theorem bmap_steady {bn : Nat} : Steady (bmap ip bn) := by
  intro table held used
  unfold bmap
  split
  · exact bmapAddr_steady
  · split
    · exact .seq bmapAddr_steady fun _ => bmapIndirect_steady
    · split
      · exact .seq bmapAddr_steady fun _ => .seq bmapIndirect_steady fun _ => bmapIndirect_steady
      · exact .stop nofun

theorem itruncIndirect_steady {bp : Buf} : Steady (itruncIndirect bp) :=
  .forEach fun _ _ => .seq .data fun _ => .when fun _ => bfree_steady

theorem itruncDouble_steady {bp : Buf} : Steady (itruncDouble bp) :=
  .forEach fun _ _ => .seq .data fun _ => .when fun _ => .seq .bread fun _ =>
    .seq itruncIndirect_steady fun _ => .seq brelse_safely fun _ => .seq .data fun _ => bfree_steady

theorem itrunc_steady : Steady (itrunc ip) := by
  refine .seq (.forEach fun i _ => ?_) fun _ => ?_
  · exact .seq getInode_steady fun _ => .when fun _ => .seq bfree_steady fun _ => mapDin_steady
  refine .seq getInode_steady fun inode => .seq (.when fun _ => ?_) fun _ => ?_
  · exact .seq .bread fun _ => .seq itruncIndirect_steady fun _ => .seq brelse_safely fun _ =>
      .seq bfree_steady fun _ => mapDin_steady
  refine .seq getInode_steady fun inode => .seq (.when fun _ => ?_) fun _ => ?_
  · exact .seq .bread fun _ => .seq itruncDouble_steady fun _ => .seq brelse_safely fun _ =>
      .seq bfree_steady fun _ => mapDin_steady
  exact .seq mapDin_steady fun _ => iupdate_steady

end Blocks

/-! ## References -/

/-- `iget` never gives an entry that is known to be referenced to another inode. -/
theorem iget_safely {inum : Nat} :
    Safely (Locked false held used) (iget inum) fun _ => Locked false held used := by
  refine acquire_safely.bind fun _ => .fetch fun kernel locked => ?_
  have finish : ∀ change : Inode → Inode, ∀ ip,
      ((change (kernel.icache ip)).locked = (kernel.icache ip).locked) →
      (ip ∈ used → 0 < (change (kernel.icache ip)).ref) →
      Safely (fun now => now = kernel) (do
        modifyInode ip change
        release
        return ip) fun _ => Locked false held used := by
    intro change ip same inUse
    have assigned : Safely (fun now => now = kernel) (modifyInode ip change) fun _ =>
        Locked true held used := by
      apply Prog.Carries.modifyMem
      rintro now rfl
      exact locked.setInode same inUse
    exact assigned.bind fun _ => release_safely.bind fun _ => .pure fun _ => id
  cases igetScan kernel.icache inum (List.finRange NINODE) none with
  | inl ip => exact finish _ ip rfl fun member => Int.lt_add_one_of_le (locked.used ip member).le
  | inr chosen =>
      cases chosen with
      | none => exact .stop nofun
      | some ip => exact finish _ ip rfl fun _ => Int.one_pos

theorem idup_safely :
    Safely (Locked false held used) (idup ip) fun _ => Locked false held used := by
  refine acquire_safely.bind fun _ => .seq ?_ fun _ => release_safely.bind fun _ => ?_
  · refine .modifyMem fun kernel locked => locked.setInode rfl fun member => ?_
    exact Int.lt_add_one_of_le (locked.used ip member).le
  · exact .pure fun _ => id

theorem ilock_safely (free : ip ∉ held) :
    Safely (Locked false held used) (ilock ip) fun _ =>
      Locked false (insert ip held) (insert ip used) := by
  refine getInode_safely.bind fun inode => ?_
  split
  · exact .stop nofun
  · next referenced =>
    have start : Safely (fun kernel => Locked false held used kernel ∧ kernel.icache ip = inode)
        (acquiresleep ip) fun _ => Locked false (insert ip held) (insert ip used) := by
      refine (acquiresleep_safely free).conseq ?_ fun _ _ => id
      rintro kernel ⟨locked, same⟩
      refine { locked with used := fun other member => ?_ }
      rcases member with atIp | member
      · rw [atIp, same]
        omega
      · exact locked.used other member
    refine start.bind fun _ => .when fun _ => .seq .getMem fun kernel => ?_
    refine .seq .bread fun bp => .seq .data fun block => ?_
    refine .seq (modifyInode_safely (fun _ => rfl) fun _ => rfl) fun _ => ?_
    refine .seq brelse_safely fun _ => ?_
    exact .seq (modifyInode_safely (fun _ => rfl) fun _ => rfl) fun _ => .when fun _ => .stop nofun

theorem iunlock_safely (free : ip ∉ held) (inUse : ip ∈ used) :
    Safely (Locked false (insert ip held) used) (iunlock ip) fun _ => Locked false held used := by
  refine getInode_safely.bind fun inode => ?_
  split
  · next wrong =>
    rintro world ⟨locked, same⟩
    have taken := (locked.held ip).mpr (Set.mem_insert ip held)
    have referenced := locked.used ip inUse
    rw [same] at taken referenced
    rcases wrong with unlocked | unreferenced
    · rw [taken] at unlocked
      cases unlocked
    · omega
  · exact (releasesleep_safely free).conseq (fun _ both => both.1) fun _ _ => id

theorem iput_safely (free : ip ∉ held) (other : ip ∉ used) :
    Safely (Locked false held used) (iput ip) fun _ => Locked false held used := by
  refine (acquiresleep_safely free).bind fun _ => .seq getInode_steady fun inode => ?_
  refine .seq (.when fun _ => ?_) fun _ => ?_
  · refine acquire_safely.bind fun _ => .seq getInode_steady fun inode => ?_
    refine release_safely.bind fun _ => .when fun _ => .seq itrunc_steady fun _ => ?_
    refine .seq mapDin_steady fun _ => .seq iupdate_steady fun _ => ?_
    exact modifyInode_safely (fun _ => rfl) fun _ => rfl
  · refine (releasesleep_safely free).bind fun _ => acquire_safely.bind fun _ => ?_
    refine .seq (.modifyMem fun kernel locked => ?_) fun _ => release_safely
    exact locked.setInode rfl fun member => absurd member other

theorem iallocLoop_safely (sb : Superblock) (type : BitVec 16) (fuel inum : Nat) :
    Safely (Locked false held used) (iallocLoop sb type fuel inum) fun _ =>
      Locked false held used := by
  induction fuel generalizing inum with
  | zero => exact .stop nofun
  | succ fuel ih =>
      unfold iallocLoop
      split
      · refine .seq .bread fun bp => .seq .data fun block => ?_
        split
        · exact .seq .logWrite fun _ => .seq brelse_safely fun _ => iget_safely
        · exact .seq brelse_safely fun _ => ih (inum + 1)
      · exact .stop nofun

theorem ialloc_safely {type : BitVec 16} :
    Safely (Locked false held used) (ialloc type) fun _ => Locked false held used := by
  refine .seq .getMem fun kernel => ?_
  split
  · exact iallocLoop_safely _ _ _ _
  · exact .stop nofun

/-! ## File content and directories -/

section Content

theorem readiLoop_steady (ip : Slot) (fuel off rest : Nat) :
    Steady (readiLoop ip fuel off rest) := by
  intro table held used
  induction fuel generalizing off rest with
  | zero => exact .pure fun _ => id
  | succ fuel ih =>
      unfold readiLoop
      split
      · exact .pure fun _ => id
      · refine .seq bmap_steady fun addr => .seq .bread fun bp => .seq .data fun block => ?_
        exact .seq brelse_safely fun _ => .seq (ih _ _) fun bytes => .pure fun _ => id

theorem readi_steady {off n : Nat} : Steady (readi ip off n) := by
  refine .seq getInode_steady fun inode => ?_
  split
  · split <;> exact .pure fun _ => id
  · split
    · exact .pure fun _ => id
    · exact .seq (readiLoop_steady _ _ _ _) fun _ => .pure fun _ => id

theorem writeiLoop_steady (ip : Slot) (src : Nat → Byte) (fuel tot off rest : Nat) :
    Steady (writeiLoop ip src fuel tot off rest) := by
  intro table held used
  induction fuel generalizing tot off rest with
  | zero => exact .pure fun _ => id
  | succ fuel ih =>
      unfold writeiLoop
      split
      · exact .pure fun _ => id
      · refine .seq bmap_steady fun addr => .seq .bread fun bp => .seq .data fun block => ?_
        exact .seq .logWrite fun _ => .seq brelse_safely fun _ => ih _ _ _

theorem writei_steady {src : Nat → Byte} {off n : Nat} : Steady (writei ip src off n) := by
  refine .seq getInode_steady fun inode => ?_
  split
  · split <;> exact .pure fun _ => id
  · split
    · exact .pure fun _ => id
    · split
      · exact .pure fun _ => id
      · refine .seq (writeiLoop_steady _ _ _ _ _ _) fun _ => .seq getInode_steady fun inode => ?_
        refine .seq (.when fun _ => ?_) fun _ => .pure fun _ => id
        exact .seq mapDin_steady fun _ => iupdate_steady

theorem readDirent_steady {off : Nat} : Steady (readDirent dp off) := by
  refine .seq readi_steady fun both => ?_
  dsimp only
  split <;> exact .pure fun _ => id

theorem dirlinkLoop_steady (dp : Slot) (fuel off : Nat) : Steady (dirlinkLoop dp fuel off) := by
  intro table held used
  induction fuel generalizing off with
  | zero => exact .pure fun _ => id
  | succ fuel ih =>
      unfold dirlinkLoop
      refine .seq getInode_steady fun inode => ?_
      split
      · refine .seq readDirent_steady fun de => ?_
        cases de with
        | none => exact .stop nofun
        | some de =>
            dsimp only
            split
            · exact .pure fun _ => id
            · exact ih (off + DIRENT_SIZE)
      · exact .pure fun _ => id

theorem isdirempty_steady (ip : Slot) (fuel o : Nat) : Steady (isdirempty ip fuel o) := by
  intro table held used
  induction fuel generalizing o with
  | zero => exact .pure fun _ => id
  | succ fuel ih =>
      refine .seq getInode_steady fun inode => ?_
      split
      · refine .seq readDirent_steady fun de => ?_
        cases de with
        | none => exact .pure fun _ => id
        | some de =>
            dsimp only
            split
            · exact .pure fun _ => id
            · exact ih (o + DIRENT_SIZE)
      · exact .pure fun _ => id

end Content

theorem dirlookupLoop_safely (dp : Slot) (name : List Byte) (fuel off : Nat) :
    Safely (Locked false held used) (dirlookupLoop dp name fuel off) fun _ =>
      Locked false held used := by
  induction fuel generalizing off with
  | zero => exact .pure fun _ => id
  | succ fuel ih =>
      unfold dirlookupLoop
      refine .seq getInode_steady fun inode => ?_
      split
      · refine .seq readDirent_steady fun de => ?_
        cases de with
        | none => exact .stop nofun
        | some de =>
            dsimp only
            split
            · exact .seq iget_safely fun ip => .pure fun _ => id
            · exact ih (off + DIRENT_SIZE)
      · exact .pure fun _ => id

theorem dirlookup_safely {name : List Byte} :
    Safely (Locked false held used) (dirlookup dp name) fun _ => Locked false held used := by
  refine .seq getInode_steady fun inode => ?_
  split
  · exact dirlookupLoop_safely _ _ _ _
  · exact .stop nofun

/-! ## Whole functions -/

/-- `ilock` adds the entry to those that are held. -/
theorem ilock_holding (free : ip ∉ held) :
    Safely (Holding held) (ilock ip) fun _ => Holding (insert ip held) := ilock_safely free

/-- `iunlock` takes the entry away from those that are held. -/
theorem iunlock_holding (free : ip ∉ held) :
    Safely (Holding (insert ip held)) (iunlock ip) fun _ => Holding held :=
  (iunlock_safely free (Set.mem_insert ip held)).mono fun _ _ locked =>
    locked.mono (Set.subset_insert ip held)

/-- `iput` takes no entry that is held. -/
theorem iput_holding (free : ip ∉ held) :
    Safely (Holding held) (iput ip) fun _ => Holding held := iput_safely free free

theorem iunlockput_holding (free : ip ∉ held) :
    Safely (Holding (insert ip held)) (iunlockput ip) fun _ => Holding held :=
  (iunlock_holding free).bind fun _ => iput_holding free

/-- A path walk locks one entry at a time. -/
theorem namexLoop_holding (parent : Bool) (fuel : Nat) (ip : Slot) (path : List Byte) :
    Safely (Holding ∅) (namexLoop parent fuel ip path) fun _ => Holding ∅ := by
  induction fuel generalizing ip path with
  | zero => exact .pure fun _ => id
  | succ fuel ih =>
      have free : ip ∉ (∅ : Set Slot) := Set.notMem_empty ip
      unfold namexLoop
      cases skipelem path with
      | none =>
          dsimp only
          split
          · exact .seq (iput_holding free) fun _ => .pure fun _ => id
          · exact .pure fun _ => id
      | some both =>
          obtain ⟨name, rest⟩ := both
          refine (ilock_holding free).bind fun _ => .seq getInode_steady fun inode => ?_
          split
          · exact (iunlockput_holding free).bind fun _ => .pure fun _ => id
          · split
            · exact (iunlock_holding free).bind fun _ => .pure fun _ => id
            · refine .seq dirlookup_safely fun found => ?_
              cases found with
              | none => exact (iunlockput_holding free).bind fun _ => .pure fun _ => id
              | some found => exact (iunlockput_holding free).bind fun _ => ih found.1 rest

theorem namexRoot_holding {path : List Byte} {parent : Bool} :
    Safely (Holding ∅) (namexRoot path parent) fun _ => Holding ∅ :=
  .seq iget_safely fun _ => namexLoop_holding _ _ _ _

/-- A change of the working directory alone. -/
theorem setCwd_holding {cwd : Option Slot} :
    Safely (Holding held) (modifyMem fun kernel => { kernel with cwd }) fun _ => Holding held :=
  .modifyMem fun _ locked => ⟨locked.table, locked.held, locked.used⟩

theorem myprocCwd_holding : Safely (Holding ∅) myprocCwd fun _ => Holding ∅ := by
  refine .seq .getMem fun kernel => ?_
  cases kernel.cwd with
  | some ip => exact .pure fun _ => id
  | none =>
      refine .seq namexRoot_holding fun found => ?_
      cases found with
      | none => exact .stop nofun
      | some found => exact .seq setCwd_holding fun _ => .pure fun _ => id

theorem namex_holding {path : List Byte} {parent : Bool} :
    Safely (Holding ∅) (namex path parent) fun _ => Holding ∅ := by
  unfold namex
  split
  · exact namexRoot_holding
  · exact .seq myprocCwd_holding fun _ => .seq idup_safely fun _ => namexLoop_holding _ _ _ _

theorem namei_holding {path : List Byte} : Safely (Holding ∅) (namei path) fun _ => Holding ∅ := by
  refine .seq namex_holding fun found => ?_
  cases found with
  | none => exact .pure fun _ => id
  | some found => exact .pure fun _ => id

theorem xv6fsBridgeSetCwd_holding :
    Safely (Holding ∅) (xv6fsBridgeSetCwd ip) fun _ => Holding ∅ :=
  .seq myprocCwd_holding fun cwd => .seq (iput_holding (Set.notMem_empty cwd)) fun _ =>
    setCwd_holding

end Notux.Fs
