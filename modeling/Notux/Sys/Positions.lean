import Notux.Fs.Direct
import Notux.Fs.Steps
import Notux.Sys.Holders

/-!
# The position of an open file

A descriptor keeps its position in 32 bits, while `lseek` computes with 64 bits and
returns all of them.  So what `lseek` returns is the position exactly as long as it
fits into the descriptor.
-/

namespace Notux.Sys

open Notux.Store Notux.Proc Notux.Fs

abbrev SEEK_SET : Int := 0
abbrev SEEK_CUR : Int := 1
abbrev SEEK_END : Int := 2

/-! ## Where calls start -/

/-- A descriptor of the current process of a world. -/
def ofileOf (world : FsWorld) (fd : Fin NOFILE) : OFile :=
  world.mem.table.currentProcess.ofiles fd

/-- The on-disk fields that `ilock` makes available. -/
def lockedDin (world : FsWorld) (ip : Slot) : Dinode :=
  let inode := world.mem.icache ip
  if inode.valid then inode.din
  else dinodeAt (world.disk (iblock world.mem.sb inode.inum)) (inode.inum % IPB)

/-- A read of a descriptor that starts at a given place. -/
def readFrom (fd : Fin NOFILE) (start count : Nat) : FsM (Int × List Byte) := do
  let file ← getOfile fd
  match file.ip with
  | none => return (-1, [])
  | some ip =>
      ilock ip
      let (r, bytes) ← readi ip start (count % 2 ^ 32)
      iunlock ip
      when (r > 0) (setOfile fd { file with offset := (start + r.toNat) % 2 ^ 32 })
      return (r, bytes)

/-- A write to a descriptor that starts at a place chosen from the locked inode. -/
def writeFrom (fd : Fin NOFILE) (start : Inode → Nat) (buf : Nat → Byte) (count : Nat) :
    FsM Int := do
  let file ← getOfile fd
  match file.ip with
  | none => return -1
  | some ip =>
      ilock ip
      let inode ← getInode ip
      let r ← writei ip buf (start inode) (count % 2 ^ 32)
      iupdate ip
      iunlock ip
      when (r > 0) (setOfile fd { file with offset := (start inode + r.toNat) % 2 ^ 32 })
      return r

/-- The mode of a descriptor lets it write. -/
def MayWrite (flags : BitVec 32) : Prop :=
  hasFlag flags O_WRONLY = true ∨ hasFlag flags O_RDWR = true

/-- The next read or write of a descriptor starts at `start`.  With `O_APPEND` a write
starts at the end of the file whatever the position is. -/
structure StartsAt (fd : Fin NOFILE) (start : Nat) (world : FsWorld) : Prop where
  stored : (ofileOf world fd).offset = start
  reads : ∀ count key, 0 < count →
    (sysRead fd false count key).run world = (readFrom fd start count).run world
  writes : MayWrite (ofileOf world fd).flags →
    hasFlag (ofileOf world fd).flags O_APPEND = false → ∀ bufNull buf count,
      (sysWrite fd bufNull buf count).run world = (writeFrom fd (fun _ => start) buf count).run world

theorem toFd_of_le {low : Nat} {fd : Fin NOFILE} (above : low ≤ (fd : Nat)) :
    toFd low (fd : Nat) = some fd := by
  unfold toFd
  rw [dif_pos ⟨by omega, by exact_mod_cast fd.isLt⟩]
  rfl

theorem toFd_of_lt {low : Nat} {fd : Fin NOFILE} (below : (fd : Nat) < low) :
    toFd low (fd : Nat) = none := by
  unfold toFd
  rw [dif_neg (by omega)]

section Start

variable {world : FsWorld} {fd : Fin NOFILE} {ip : Slot}
  (isOpen : (ofileOf world fd).ip = some ip)

include isOpen

theorem openFile_eq {low : Nat} (above : low ≤ (fd : Nat)) {α : Type}
    (rest : Option (Fin NOFILE × OFile × Slot) → FsM α) :
    (openFile low (fd : Nat) >>= rest).run world =
      (rest (some (fd, ofileOf world fd, ip))).run world := by
  unfold openFile
  rw [toFd_of_le above]
  change Prog.run (Prog.bind (match (ofileOf world fd).ip with
    | none => pure none
    | some ip => pure (some (fd, ofileOf world fd, ip))) rest) world = _
  rw [isOpen]
  rfl

/-- A call of a descriptor above the standard ones starts at the stored position. -/
theorem startsAt (above : 3 ≤ (fd : Nat)) : StartsAt fd (ofileOf world fd).offset world where
  stored := rfl
  reads := by
    intro count key positive
    unfold sysRead
    rw [if_neg (by simp; omega), openFile_eq isOpen (Nat.zero_le _)]
    dsimp only
    rw [if_neg (by omega)]
    change _ = Prog.run (match (ofileOf world fd).ip with
      | none => _
      | some ip => Prog.bind (ilock ip) fun _ => Prog.bind (readi ip _ _) fun x =>
          Prog.bind (iunlock ip) fun _ => Prog.bind (when (x.1 > 0) (setOfile fd
            { ofileOf world fd with offset := ((ofileOf world fd).offset + x.1.toNat) % 2 ^ 32 }))
            fun _ => pure x) world
    generalize ofileOf world fd = file at isOpen ⊢
    obtain ⟨found, offset, flags⟩ := file
    subst isOpen
    rfl
  writes := by
    intro mayWrite notAppend bufNull buf count
    unfold sysWrite
    rw [openFile_eq isOpen (by omega)]
    dsimp only
    rw [if_neg (by rintro ⟨notWrite, notBoth⟩; rcases mayWrite with may | may <;> simp_all)]
    simp only [notAppend, Bool.false_eq_true, if_false]
    change _ = Prog.run (match (ofileOf world fd).ip with
      | none => _
      | some ip => Prog.bind (ilock ip) fun _ => Prog.bind (getInode ip) fun _ =>
          Prog.bind (writei ip buf _ _) fun r =>
          Prog.bind (iupdate ip) fun _ => Prog.bind (iunlock ip) fun _ =>
            Prog.bind (when (r > 0) (setOfile fd
              { ofileOf world fd with offset := ((ofileOf world fd).offset + r.toNat) % 2 ^ 32 }))
            fun _ => pure r) world
    generalize ofileOf world fd = file at isOpen ⊢
    obtain ⟨found, offset, flags⟩ := file
    subst isOpen
    rfl

end Start

/-! ## Locking and unlocking an inode -/

/-- An inode that `ilock` can take. -/
structure Lockable (ip : Slot) (world : FsWorld) : Prop where
  used : ¬ (world.mem.icache ip).ref < 1
  free : (world.mem.icache ip).locked = false
  typed : (world.mem.icache ip).valid = false → (lockedDin world ip).type ≠ 0

/-- What `ilock` leaves, if it returns. -/
structure LockedAt (world : FsWorld) (ip : Slot) (after : FsWorld) : Prop where
  table : after.mem.table = world.mem.table
  din : (after.mem.icache ip).din = lockedDin world ip
  used : ¬ (after.mem.icache ip).ref < 1
  loaded : (after.mem.icache ip).valid = true

section Locking

variable {world : FsWorld} {ip : Slot}

theorem ilock_locks :
    (ilock ip).wp (fun _ => True) (fun _ _ => True) (fun _ => LockedAt world ip) world := by
  unfold ilock acquiresleep modifyInode getInode
  simp only [Prog.wp_bind, Prog.wp_getMem, Prog.wp_pure]
  split
  · trivial
  · next used =>
    simp only [Prog.wp_bind, Prog.wp_getMem, Prog.wp_pure]
    split
    · trivial
    · unfold when
      simp only [Prog.wp_modifyMem]
      split
      · next notLoaded =>
        simp only [Prog.wp_bind, Prog.wp_getMem, Prog.wp_bread, Prog.wp_data, Prog.wp_modifyMem]
        intro slot
        split
        · trivial
        · refine ⟨rfl, ?_, ?_, ?_⟩ <;> simp [Kernel.setInode, lockedDin, notLoaded, used]
      · next loaded =>
        rw [Bool.not_eq_false] at loaded
        refine ⟨rfl, ?_, ?_, ?_⟩ <;>
          simp [Kernel.setInode, lockedDin, loaded, used]

/-- `ilock` returns on an inode that it can take. -/
theorem Lockable.ilock (lockable : Lockable ip world) :
    (Fs.ilock ip).wp (fun _ => True) (fun _ _ => False)
      (fun _ after => LockedAt world ip after ∧ (after.mem.icache ip).locked = true) world := by
  have typed := lockable.typed
  unfold lockedDin at typed
  unfold Fs.ilock acquiresleep modifyInode getInode when
  simp only [Prog.wp_bind, Prog.wp_getMem, Prog.wp_pure]
  rw [if_neg lockable.used]
  simp only [Prog.wp_bind, Prog.wp_getMem, Prog.wp_pure]
  rw [if_neg (by rw [lockable.free]; decide)]
  simp only [Prog.wp_modifyMem]
  split
  · next notLoaded =>
    simp only [notLoaded, Bool.false_eq_true, if_false, forall_const] at typed
    simp only [Prog.wp_bind, Prog.wp_getMem, Prog.wp_bread, Prog.wp_data, Prog.wp_modifyMem,
      brelse, Prog.wp_pure]
    intro slot
    split
    · next free => exact typed free
    · refine ⟨⟨rfl, ?_, ?_, ?_⟩, ?_⟩ <;>
        simp [Kernel.setInode, lockedDin, notLoaded, lockable.used]
  · next loaded =>
    rw [Bool.not_eq_false] at loaded
    refine ⟨⟨rfl, ?_, ?_, ?_⟩, ?_⟩ <;>
      simp [Kernel.setInode, lockedDin, loaded, lockable.used]

/-- A lock that was taken can be released. -/
theorem iunlock_releases {F : Stop → FsWorld → Prop} (used : ¬ (world.mem.icache ip).ref < 1)
    (stopped : (world.mem.icache ip).locked = false → F .iunlock world) :
    (iunlock ip).wp (fun _ => True) F (fun _ after => after.mem.table = world.mem.table ∧
      ¬ (after.mem.icache ip).ref < 1 ∧ (after.mem.icache ip).locked = false ∧
      (after.mem.icache ip).valid = (world.mem.icache ip).valid) world := by
  unfold iunlock releasesleep modifyInode getInode
  simp only [Prog.wp_bind, Prog.wp_getMem, Prog.wp_pure]
  split
  · next refused => exact stopped (refused.resolve_right used)
  · next held =>
    simp only [Prog.wp_bind, Prog.wp_getMem, Prog.wp_pure]
    rw [if_pos (by simpa using (not_or.mp held).1)]
    refine ⟨rfl, ?_, ?_, ?_⟩
    · simpa [Kernel.setInode] using used
    · simp [Kernel.setInode]
    · simp [Kernel.setInode]

end Locking

/-! ## What lseek returns -/

section Seeking

variable {world : FsWorld} {fd : Fin NOFILE} {ip : Slot}

/-- The place that an offset is relative to. -/
def seekBase (world : FsWorld) (fd : Fin NOFILE) (whence : Int) : Int :=
  if whence = SEEK_CUR then (ofileOf world fd).offset
  else if whence = SEEK_END then
    match (ofileOf world fd).ip with
    | none => 0
    | some ip => (lockedDin world ip).size.toNat
  else 0

theorem addInt64_eq {base offset : Int} (lower : -2 ^ 63 ≤ base + offset)
    (upper : base + offset < 2 ^ 63) : addInt64 base offset = base + offset := by
  unfold addInt64
  rw [BitVec.toInt_ofInt, Int.bmod_eq_of_le] <;> omega

/-- Past the largest value a sum continues at the smallest one. -/
theorem addInt64_neg {base offset : Int} (lower : 2 ^ 63 ≤ base + offset)
    (upper : base + offset < 2 ^ 64) : addInt64 base offset < 0 := by
  unfold addInt64
  rw [BitVec.toInt_ofInt, Int.bmod]
  split <;> omega

/-- What `lseek` does to an open descriptor. -/
inductive Seeks (world : FsWorld) (fd : Fin NOFILE) (ip : Slot) (place : Int) :
    Int → FsWorld → Prop where
  | refuses {after : FsWorld} (negative : place < 0)
      (table : after.mem.table = world.mem.table) : Seeks world fd ip place (-1) after
  | moves {after : FsWorld} (positive : 0 ≤ place)
      (file : ofileOf after fd = { ofileOf world fd with offset := place.toNat % 2 ^ 32 })
      (lockable : Lockable ip after) : Seeks world fd ip place place after

theorem ofileOf_setOfileOf (kernel : Kernel) (disk : Disk) (fd : Fin NOFILE) (file : OFile) :
    ofileOf ⟨setOfileOf kernel.table.current fd file kernel, disk⟩ fd = file := by
  simp [ofileOf, setOfileOf, ProcTable.currentProcess, ProcTable.modify]

theorem sysLseek_seeks (above : 3 ≤ (fd : Nat)) (isOpen : (ofileOf world fd).ip = some ip)
    {offset whence : Int} (lower : -2 ^ 63 ≤ offset) (upper : offset < 2 ^ 63)
    (known : whence = SEEK_SET ∨ whence = SEEK_CUR ∨ whence = SEEK_END) :
    Prog.Run.Ends (fun _ _ => True)
      (Seeks world fd ip (addInt64 (seekBase world fd whence) offset))
      ((sysLseek fd offset whence).run world) := by
  unfold sysLseek
  rw [openFile_eq isOpen above]
  apply Prog.wp.run (P := fun _ => True)
  simp only [Prog.wp_bind]
  apply ilock_locks.mono
  intro _ locked holds
  unfold getInode
  simp only [Prog.wp_bind, Prog.wp_getMem, Prog.wp_pure, holds.din]
  apply (iunlock_releases holds.used fun _ => trivial).mono
  rintro _ after ⟨table, used, free, loaded⟩
  have place : (if whence = 0 then offset
      else if whence = 1 then addInt64 (ofileOf world fd).offset offset
      else if whence = 2 then addInt64 (lockedDin world ip).size.toNat offset else -1) =
      addInt64 (seekBase world fd whence) offset := by
    rcases known with rfl | rfl | rfl
    · rw [if_pos rfl]
      unfold seekBase
      rw [if_neg (by decide), if_neg (by decide), addInt64_eq (by omega) (by omega), Int.zero_add]
    · rw [if_neg (by decide), if_pos rfl]
      rfl
    · rw [if_neg (by decide), if_neg (by decide), if_pos rfl]
      unfold seekBase
      rw [if_neg (by decide), if_pos rfl, isOpen]
  rw [place]
  split
  · next negative => exact .refuses negative (table.trans holds.table)
  · next positive =>
    refine .moves (Int.not_lt.mp positive) ?_ ?_
    · exact ofileOf_setOfileOf _ _ _ _
    · exact ⟨used, free, fun notLoaded =>
        absurd (notLoaded.symm.trans (loaded.trans holds.loaded)) (by decide)⟩

/-- A second `lseek` that moves nowhere tells the stored position. -/
theorem sysLseek_tells (above : 3 ≤ (fd : Nat)) (isOpen : (ofileOf world fd).ip = some ip)
    (lockable : Lockable ip world) (stored : (ofileOf world fd).offset < 2 ^ 32) :
    ((sysLseek fd 0 SEEK_CUR).run world).outcome = .ret ((ofileOf world fd).offset : Int) := by
  have told : Prog.Run.Ends (fun _ _ => False) (fun r _ => r = ((ofileOf world fd).offset : Int))
      ((sysLseek fd 0 SEEK_CUR).run world) := by
    unfold sysLseek
    rw [openFile_eq isOpen above]
    apply Prog.wp.run (P := fun _ => True)
    simp only [Prog.wp_bind]
    apply lockable.ilock.mono
    rintro _ locked ⟨holds, held⟩
    unfold getInode
    simp only [Prog.wp_bind, Prog.wp_getMem, Prog.wp_pure]
    apply (iunlock_releases holds.used fun free => by rw [held] at free; cases free).mono
    intro _ after _
    rw [if_neg (show ¬ SEEK_CUR = 0 by decide), if_pos trivial,
      addInt64_eq (by omega) (by omega), Int.add_zero, if_neg (by omega)]
    exact rfl
  unfold Prog.Run.Ends at told
  split at told
  · next r result => rw [result, told]
  · exact told.elim

/-! ## The position that lseek reports -/

/-- The sum that `lseek` should move to. -/
def seekSum (world : FsWorld) (fd : Fin NOFILE) (offset whence : Int) : Int :=
  seekBase world fd whence + offset

/-- The result of `lseek` tells the position of the descriptor: a result that is not negative
is the exact sum, is where the descriptor goes on and is what a second `lseek` returns;
after a failure the descriptor is where it was. -/
structure TellsPosition (world : FsWorld) (fd : Fin NOFILE) (offset whence : Int) (r : Int)
    (after : FsWorld) : Prop where
  moved : 0 ≤ r → r = seekSum world fd offset whence ∧ StartsAt fd r.toNat after ∧
    ((sysLseek fd 0 SEEK_CUR).run after).outcome = .ret r
  kept : r = -1 → (ofileOf after fd).offset = (ofileOf world fd).offset

theorem seekBase_bounds (whence : Int) (isOpen : (ofileOf world fd).ip = some ip)
    (stored : (ofileOf world fd).offset < 2 ^ 32) :
    0 ≤ seekBase world fd whence ∧ seekBase world fd whence < 2 ^ 32 := by
  unfold seekBase
  rw [isOpen]
  split
  · omega
  · split
    · have bound := (lockedDin world ip).size.isLt
      dsimp only
      omega
    · omega

/-- What `lseek` returns is the position, unless the sum is a 64-bit value that does not fit
into the 32 bits of the descriptor. -/
theorem lseek_tells_position (isOpen : (ofileOf world fd).ip = some ip)
    (stored : (ofileOf world fd).offset < 2 ^ 32) {offset whence : Int}
    (lower : -2 ^ 63 ≤ offset) (upper : offset < 2 ^ 63)
    (known : whence = SEEK_SET ∨ whence = SEEK_CUR ∨ whence = SEEK_END)
    {r : Int} {after : FsWorld} {writes : List (Nat × Block)}
    (returned : (sysLseek fd offset whence).run world = ⟨.ret r, after, writes⟩) :
    TellsPosition world fd offset whence r after ↔
      ((fd : Nat) < 3 ∨ seekSum world fd offset whence < 2 ^ 32 ∨
        2 ^ 63 ≤ seekSum world fd offset whence) := by
  by_cases below : (fd : Nat) < 3
  · have refused : (sysLseek fd offset whence).run world = ⟨.ret (-1), world, []⟩ := by
      unfold sysLseek openFile
      rw [toFd_of_lt below]
      rfl
    rw [refused] at returned
    cases returned
    exact ⟨fun _ => Or.inl below, fun _ => ⟨fun positive => absurd positive (by decide),
      fun _ => rfl⟩⟩
  · have seeks := sysLseek_seeks (Nat.not_lt.mp below) isOpen lower upper known
    rw [returned] at seeks
    have base := seekBase_bounds whence isOpen stored
    unfold seekSum
    cases seeks with
    | refuses negative table =>
        constructor
        · intro _
          by_cases fits : seekBase world fd whence + offset < 2 ^ 63
          · rw [addInt64_eq (by omega) fits] at negative
            exact Or.inr (Or.inl (by omega))
          · exact Or.inr (Or.inr (Int.not_lt.mp fits))
        · intro _
          refine ⟨fun positive => absurd positive (by decide), fun _ => ?_⟩
          unfold ofileOf
          rw [table]
    | moves positive file lockable =>
        have fits : seekBase world fd whence + offset < 2 ^ 63 := by
          by_contra wraps
          have negative := addInt64_neg (Int.not_lt.mp wraps) (by omega)
          omega
        rw [addInt64_eq (by omega) fits] at positive file ⊢
        have openAfter : (ofileOf after fd).ip = some ip := by rw [file, isOpen]
        have stored' : (ofileOf after fd).offset =
            (seekBase world fd whence + offset).toNat % 2 ^ 32 := by rw [file]
        have told := sysLseek_tells (Nat.not_lt.mp below) openAfter lockable (by omega)
        constructor
        · intro tells
          have same := told.symm.trans (tells.moved positive).2.2
          injection same with same
          omega
        · intro within
          have exact : (ofileOf after fd).offset =
              (seekBase world fd whence + offset).toNat := by omega
          refine ⟨fun _ => ⟨rfl, ?_, ?_⟩, fun failed => by omega⟩
          · rw [← exact]
            exact startsAt openAfter (Nat.not_lt.mp below)
          · rw [told, exact, Int.toNat_of_nonneg positive]

end Seeking

/-! ### A small file -/

/-- The first process runs and has a descriptor for the file of the small disk. -/
def smallTable (file : OFile) : ProcTable :=
  (bootTable ⟨0x100000, 0x200000⟩ (fun _ => 0) 0x400000 1).modify 0 fun process =>
    { process with state := .running, ofiles := Function.update process.ofiles 3 file }

def smallWorld (file : OFile) : FsWorld where
  disk := smallDisk
  mem :=
    { sb := smallSb
      xv6fsMounted := true
      icacheLocked := false
      icache := fun ip =>
        if ip = 0 then { Inode.vacant with inum := 2, ref := 1 } else Inode.vacant
      cwd := none
      table := smallTable file
      elfLoadBuffer := fun _ => 0 }

theorem ofileOf_smallWorld (file : OFile) : ofileOf (smallWorld file) 3 = file := rfl

theorem lseek_tells_small_position : ∃ after writes,
    (sysLseek 3 3 SEEK_SET).run (smallWorld ⟨some 0, 0, O_RDWR⟩) = ⟨.ret 3, after, writes⟩ ∧
      TellsPosition (smallWorld ⟨some 0, 0, O_RDWR⟩) 3 3 SEEK_SET 3 after := by
  have file := ofileOf_smallWorld ⟨some 0, 0, O_RDWR⟩
  have outcome : ((sysLseek 3 3 SEEK_SET).run (smallWorld ⟨some 0, 0, O_RDWR⟩)).outcome =
      .ret 3 := by
    decide +kernel
  cases result : (sysLseek 3 3 SEEK_SET).run (smallWorld ⟨some 0, 0, O_RDWR⟩) with
  | mk ended after writes =>
      rw [result] at outcome
      have ends : ended = .ret 3 := outcome
      subst ends
      have sum : seekSum (smallWorld ⟨some 0, 0, O_RDWR⟩) 3 3 SEEK_SET < 2 ^ 32 := by
        decide +kernel
      exact ⟨after, writes, rfl, (lseek_tells_position (by rw [file]) (by rw [file]; decide)
        (by decide) (by decide) (Or.inl rfl) result).mpr (Or.inr (Or.inl sum))⟩

/-- At 4 GiB `lseek` succeeds, and the descriptor starts over. -/
theorem lseek_misses_position :
    ¬ ∀ (world : FsWorld) (fd : Fin NOFILE) (ip : Slot) (offset whence r : Int) (after : FsWorld)
      (writes : List (Nat × Block)), (ofileOf world fd).ip = some ip →
      (ofileOf world fd).offset < 2 ^ 32 → -2 ^ 63 ≤ offset → offset < 2 ^ 63 →
      (whence = SEEK_SET ∨ whence = SEEK_CUR ∨ whence = SEEK_END) →
      (sysLseek fd offset whence).run world = ⟨.ret r, after, writes⟩ →
      TellsPosition world fd offset whence r after := by
  intro always
  have file := ofileOf_smallWorld ⟨some 0, 0, O_RDWR⟩
  have outcome : ((sysLseek 3 (2 ^ 32) SEEK_SET).run
      (smallWorld ⟨some 0, 0, O_RDWR⟩)).outcome = .ret (2 ^ 32) := by
    decide +kernel
  have place : (ofileOf ((sysLseek 3 (2 ^ 32) SEEK_SET).run
      (smallWorld ⟨some 0, 0, O_RDWR⟩)).world 3).offset = 0 := by
    decide +kernel
  cases result : (sysLseek 3 (2 ^ 32) SEEK_SET).run (smallWorld ⟨some 0, 0, O_RDWR⟩) with
  | mk ended after writes =>
      rw [result] at outcome place
      have ends : ended = .ret (2 ^ 32) := outcome
      subst ends
      have tells := always _ 3 0 (2 ^ 32) SEEK_SET (2 ^ 32) after writes (by rw [file])
        (by rw [file]; decide) (by decide) (by decide) (Or.inl rfl) result
      have stored := (tells.moved (by decide)).2.1.stored
      exact absurd (place.symm.trans stored) (by decide)

/-! ## What read delivers -/

section Reading

variable {world : FsWorld} {g : Ghost} {fd : Fin NOFILE} {ip : Slot} {n : Nat} {node : Node}

/-- An inode in use is loaded with its fields in view. -/
theorem lockedDin_view {world : FsWorld} {g : Ghost} {ip : Slot} (sound : Sound ∅ world g)
    (idle : g.Idle) (used : 0 < (world.mem.icache ip).ref) :
    lockedDin world ip = g.view (world.mem.icache ip).inum := by
  have inRange := sound.cache.inRange ip used
  unfold lockedDin
  dsimp only
  split
  · next loaded => exact (sound.cache.cached ip used loaded).1
  · rw [sound.sameSb]
    exact sound.store.clean _ inRange (idle.attached _) (by rw [idle.dirty]; exact nofun)

/-- A descriptor of the current process is open on a regular file of an intact disk, and the
file is not in use by another call. -/
structure OpenOn (world : FsWorld) (g : Ghost) (fd : Fin NOFILE) (ip : Slot) (n : Nat)
    (node : Node) : Prop where
  sound : Sound ∅ world g
  idle : g.Idle
  isOpen : (ofileOf world fd).ip = some ip
  stored : (ofileOf world fd).offset < 2 ^ 32
  used : 0 < (world.mem.icache ip).ref
  free : (world.mem.icache ip).locked = false
  inum : (world.mem.icache ip).inum = n
  found : g.files world.disk n = some node
  regular : node.type = T_FILE

/-- What a read should return: the bytes that are there. -/
def available (node : Node) (place count : Nat) : Nat :=
  if place ≤ node.size.toNat then min count (node.size.toNat - place) else 0

/-- A read returns the bytes of the file at the position and moves the position behind
them. -/
def Delivers (world : FsWorld) (fd : Fin NOFILE) (node : Node) (count : Nat) (key : Byte) :
    Prop :=
  let place := (ofileOf world fd).offset
  let r := available node place count
  ∃ after writes, (sysRead fd false count key).run world =
      ⟨.ret ((r : Int), node.slice place r), after, writes⟩ ∧
    (ofileOf after fd).offset = place + r

variable (opened : OpenOn world g fd ip n node)

include opened

theorem OpenOn.lockedDin_eq : lockedDin world ip = g.view n := by
  rw [lockedDin_view opened.sound opened.idle opened.used, opened.inum]

theorem OpenOn.owns : g.Owns n := (opened.idle.owns_of_files opened.found).1

theorem OpenOn.node_eq : (g.view n).node world.disk = node :=
  (opened.idle.owns_of_files opened.found).2

theorem OpenOn.lockable : Lockable ip world where
  used := by
    have used := opened.used
    omega
  free := opened.free
  typed _ := by
    rw [opened.lockedDin_eq]
    exact opened.owns.allocated

/-- A read returns what `readi` returns at the position. -/
theorem OpenOn.sysRead (notOut : (fd : Nat) ≠ 1 ∧ (fd : Nat) ≠ 2) {count : Nat}
    (positive : 0 < count) (key : Byte) :
    Prog.Run.Ends (fun _ _ => False)
      (fun result after => result = node.read (ofileOf world fd).offset (count % 2 ^ 32) ∧
        (ofileOf after fd).offset =
          if result.1 > 0 then ((ofileOf world fd).offset + result.1.toNat) % 2 ^ 32
          else (ofileOf world fd).offset)
      ((Sys.sysRead fd false count key).run world) := by
  unfold Sys.sysRead
  rw [if_neg (by simp; omega), openFile_eq opened.isOpen (Nat.zero_le _)]
  dsimp only
  rw [if_neg (by omega)]
  apply Prog.wp.run (P := fun _ => True)
  simp only [Prog.wp_bind]
  have loads := ilock_spec (P := fun _ => True) (F := fun _ _ => True) (fun _ _ _ => trivial)
    opened.sound opened.idle opened.inum fun _ _ => trivial
  apply (opened.lockable.ilock.and loads).conseq (fun _ _ => trivial) fun _ _ stopped => stopped.1
  rintro _ locked ⟨⟨holds, held⟩, loads⟩
  apply readi_spec loads.sound loads.caches opened.owns (Nat.mod_lt _ (by decide))
  rw [loads.disk, opened.node_eq]
  apply (iunlock_releases holds.used fun free => by rw [held] at free; cases free).mono
  rintro _ after ⟨table, -⟩
  unfold when
  split
  · next moved =>
    refine ⟨rfl, ?_⟩
    rw [if_pos moved]
    exact congrArg OFile.offset (ofileOf_setOfileOf _ _ _ _)
  · next still =>
    refine ⟨rfl, ?_⟩
    rw [if_neg still]
    unfold ofileOf
    rw [table, holds.table]

theorem OpenOn.small : node.size.toNat < 2 ^ 31 := by
  have small := (opened.sound.files n opened.owns).small
  rw [← opened.node_eq]
  exact Nat.lt_of_le_of_lt small (by decide)

/-- `readi` on a regular file. -/
theorem OpenOn.read_eq {place m : Nat} (inRange : place < 2 ^ 32) (few : m < 2 ^ 32) :
    node.read place m =
      if place ≤ node.size.toNat ∧ place + m < 2 ^ 32 then
        (((min m (node.size.toNat - place) : Nat) : Int),
          node.slice place (min m (node.size.toNat - place)))
      else (-1, []) := by
  have small := opened.small
  unfold Node.read
  rw [if_neg (by rw [opened.regular]; decide)]
  by_cases served : place ≤ node.size.toNat ∧ place + m < 2 ^ 32
  · rw [if_pos served]
    obtain ⟨inside, noWrap⟩ := served
    rw [Nat.mod_eq_of_lt noWrap, if_neg (by omega)]
    by_cases long : place + m > node.size.toNat
    · rw [if_pos long, Nat.min_eq_right (by omega), toInt32_eq (by omega)]
    · rw [if_neg long, Nat.min_eq_left (by omega), toInt32_eq (by omega)]
  · rw [if_neg served, if_pos]
    by_cases inside : place ≤ node.size.toNat
    · right
      have wraps : 2 ^ 32 ≤ place + m := Nat.not_lt.mp fun fits => served ⟨inside, fits⟩
      rw [Nat.mod_eq_sub_mod wraps, Nat.mod_eq_of_lt (by omega)]
      omega
    · exact Or.inl (Nat.not_le.mp inside)

/-- The requests that a read serves.  The descriptor is not 1 or 2, the position does not lie
behind the end of the file, and the count keeps enough of its lower 32 bits and does not wrap
around when it is added to the position. -/
def Serves (world : FsWorld) (fd : Fin NOFILE) (node : Node) (count : Nat) : Prop :=
  let place := (ofileOf world fd).offset
  ((fd : Nat) ≠ 1 ∧ (fd : Nat) ≠ 2) ∧ place ≤ node.size.toNat ∧
    place + count % 2 ^ 32 < 2 ^ 32 ∧
      (count < 2 ^ 32 ∨ node.size.toNat - place ≤ count % 2 ^ 32)

omit opened in
theorem sysRead_out {count : Nat} (key : Byte) (isOut : (fd : Nat) = 1 ∨ (fd : Nat) = 2)
    (isOpen : (ofileOf world fd).ip = some ip) (positive : 0 < count) :
    (Sys.sysRead fd false count key).run world = ⟨.ret (-1, []), world, []⟩ := by
  unfold Sys.sysRead
  rw [if_neg (by simp; omega), openFile_eq isOpen (Nat.zero_le _)]
  dsimp only
  rw [if_pos isOut]
  rfl

/-- A read delivers what is there exactly on the requests that it serves. -/
theorem read_delivers {count : Nat} (positive : 0 < count) (key : Byte) :
    Delivers world fd node count key ↔ Serves world fd node count := by
  have stored := opened.stored
  have few : count % 2 ^ 32 < 2 ^ 32 := Nat.mod_lt _ (by decide)
  have less : count % 2 ^ 32 ≤ count := Nat.mod_le _ _
  unfold Delivers Serves available
  dsimp only
  by_cases isOut : (fd : Nat) = 1 ∨ (fd : Nat) = 2
  · rw [sysRead_out key isOut opened.isOpen positive]
    constructor
    · rintro ⟨after, writes, same, -⟩
      injection same with same
      injection same with same
      have negative := congrArg Prod.fst same
      dsimp only at negative
      omega
    · rintro ⟨notOut, -⟩
      omega
  · have notOut := not_or.mp isOut
    have reads := opened.sysRead notOut positive key
    rw [opened.read_eq stored few] at reads
    unfold Prog.Run.Ends at reads
    generalize (Sys.sysRead fd false count key).run world = result at reads ⊢
    obtain ⟨outcome, after, writes⟩ := result
    cases outcome with
    | stop reason => exact reads.elim
    | ret value =>
        obtain ⟨rfl, moved⟩ := reads
        dsimp only at moved
        constructor
        · rintro ⟨final, others, same, -⟩
          injection same with same
          injection same with same
          by_cases served : (ofileOf world fd).offset ≤ node.size.toNat ∧
              (ofileOf world fd).offset + count % 2 ^ 32 < 2 ^ 32
          · rw [if_pos served, if_pos served.1] at same
            have amount := congrArg Prod.fst same
            dsimp only at amount
            exact ⟨notOut, served.1, served.2, by omega⟩
          · rw [if_neg served] at same
            have negative := congrArg Prod.fst same
            dsimp only at negative
            omega
        · rintro ⟨-, inside, noWrap, enough⟩
          have amount : min (count % 2 ^ 32) (node.size.toNat - (ofileOf world fd).offset) =
              min count (node.size.toNat - (ofileOf world fd).offset) := by omega
          have served : (ofileOf world fd).offset ≤ node.size.toNat ∧
              (ofileOf world fd).offset + count % 2 ^ 32 < 2 ^ 32 := ⟨inside, noWrap⟩
          rw [if_pos served, amount] at moved ⊢
          rw [if_pos inside]
          refine ⟨after, writes, rfl, moved.trans ?_⟩
          split <;> omega

end Reading

theorem smallWorld_openOn {place : Nat} (small : place < 2 ^ 32) (flags : BitVec 32) :
    OpenOn (smallWorld ⟨some 0, place, flags⟩) (directGhost smallSb smallDisk smallOwner) 3 0 2
      ((onDisk smallSb smallDisk 2).node smallDisk) where
  sound := smallDisk_direct.sound rfl rfl (cacheSound_of_single 0
    (show 2 < smallSb.ninodes by decide) (fun valid => absurd valid Bool.false_ne_true)
    Int.one_nonneg fun _ differ => congrArg Inode.ref (if_neg differ))
  idle := directGhost_idle
  isOpen := rfl
  stored := small
  used := Int.one_pos
  free := rfl
  inum := rfl
  found := if_pos (by decide +kernel)
  regular := by decide +kernel

/-- Four bytes from the second one on. -/
theorem read_delivers_small :
    Delivers (smallWorld ⟨some 0, 1, O_RDWR⟩) 3 ((onDisk smallSb smallDisk 2).node smallDisk)
      100 0 :=
  (read_delivers (smallWorld_openOn (by decide) O_RDWR) (by decide) 0).mpr
    ⟨by decide, by decide +kernel, by decide +kernel, Or.inl (by decide)⟩

/-- A read behind the end of the file fails, and a count of 4 GiB reads nothing. -/
theorem read_misses_content :
    ¬ ∀ (world : FsWorld) (g : Ghost) (fd : Fin NOFILE) (ip : Slot) (n : Nat) (node : Node)
      (count : Nat) (key : Byte), OpenOn world g fd ip n node → 0 < count → count < 2 ^ 64 →
      Delivers world fd node count key := by
  intro always
  obtain ⟨after, writes, delivered, -⟩ := always (smallWorld ⟨some 0, 1, O_RDWR⟩) _ 3 0 2 _
    (2 ^ 32) 0 (smallWorld_openOn (by decide) O_RDWR) (by decide) (by decide)
  have nothing : ((sysRead 3 false (2 ^ 32) 0).run (smallWorld ⟨some 0, 1, O_RDWR⟩)).outcome =
      .ret (0, []) := by
    decide +kernel
  have outcome := (congrArg Run.outcome delivered).symm.trans nothing
  injection outcome with outcome
  have amount := congrArg Prod.fst outcome
  exact absurd amount (by decide +kernel)

end Notux.Sys
