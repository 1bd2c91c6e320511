import Notux.Fs.Path
import Notux.Store.Ledger
import Mathlib.Algebra.Group.Pi.Lemmas
import Mathlib.Algebra.Group.Int.Defs
import Mathlib.Tactic.Abel

/-!
# Reference counts

What each function of the file system does to the reference counts of the inode
table.  `iget` and `idup` take a reference, `iput` gives one back, and every
other function gives back what it takes, apart from the inode it returns.  The
working directory holds one reference of its own, which `myproc` takes and
`chdir` replaces.
-/

namespace Notux.Fs

open Notux.Store Notux.Proc

/-- The reference counts. -/
def Kernel.refs (kernel : Kernel) (ip : Slot) : Int := (kernel.icache ip).ref

/-- One reference to an inode. -/
def one (ip : Slot) : Slot → Int := Pi.single ip 1

/-- The reference of an optional holder. -/
def oneOf (holder : Option Slot) : Slot → Int := holder.elim 0 one

@[simp]
theorem oneOf_none : oneOf none = 0 := rfl

@[simp]
theorem oneOf_some (ip : Slot) : oneOf (some ip) = one ip := rfl

/-- The references that are not the working directory's. -/
def Kernel.outstanding (kernel : Kernel) : Slot → Int := kernel.refs - oneOf kernel.cwd

/-- A program that touches neither the working directory nor the process table
and changes the reference counts by `delta`. -/
def Takes {α : Type} (program : FsM α) (delta : α → Slot → Int) : Prop :=
  program.Shifts (fun kernel => (kernel.cwd, kernel.table)) Kernel.refs delta

/-- A program that keeps the process table and changes the references other than
the working directory's by `delta`. -/
def Owes {α : Type} (program : FsM α) (delta : α → Slot → Int) : Prop :=
  program.Shifts Kernel.table Kernel.outstanding delta

theorem Takes.owes {α : Type} {program : FsM α} {delta : α → Slot → Int}
    (takes : Takes program delta) : Owes program delta := by
  refine takes.recount (fun before after same => congrArg Prod.snd same) ?_
  intro before after moved same refs
  have cwd : after.cwd = before.cwd := congrArg Prod.fst same
  rw [Kernel.outstanding, Kernel.outstanding, refs, cwd, add_sub_right_comm]

/-! ## Assignments -/

theorem refs_setInode (kernel : Kernel) (ip : Slot) (change : Inode → Inode) (moved : Int)
    (moves : (change (kernel.icache ip)).ref = (kernel.icache ip).ref + moved) :
    (kernel.setInode ip change).refs = kernel.refs + Pi.single ip moved := by
  funext other
  by_cases same : other = ip
  · subst same
    simp [Kernel.refs, Kernel.setInode, moves]
  · simp [Kernel.refs, Kernel.setInode, same]

/-- Assigning to fields of an inode other than its reference count. -/
theorem modifyInode_takes {ip : Slot} {change : Inode → Inode}
    (keeps : ∀ inode, (change inode).ref = inode.ref) :
    Takes (modifyInode ip change) fun _ => 0 := by
  refine Prog.Shifts.modifyMem (fun _ => rfl) fun kernel => ?_
  rw [refs_setInode kernel ip change 0 (by simp [keeps]), Pi.single_zero]

theorem getInode_takes {ip : Slot} : Takes (getInode ip) fun _ => 0 :=
  .bind_zero .getMem fun _ => .pure rfl

theorem brelse_takes {bp : Buf} : Takes (brelse bp) fun _ => 0 := .pure rfl

theorem acquire_takes : Takes acquire fun _ => 0 := by
  intro world
  unfold acquire
  simp only [Prog.wp_bind, Prog.wp_getMem]
  split
  · trivial
  · simp [Kernel.refs, funext_iff]

theorem release_takes : Takes release fun _ => 0 := by
  intro world
  unfold release
  simp only [Prog.wp_bind, Prog.wp_getMem]
  split
  · simp [Kernel.refs, funext_iff]
  · trivial

theorem acquiresleep_takes {ip : Slot} : Takes (acquiresleep ip) fun _ => 0 := by
  refine .bind_zero getInode_takes fun inode => ?_
  split
  · exact .stop
  · exact modifyInode_takes fun _ => rfl

theorem releasesleep_takes {ip : Slot} : Takes (releasesleep ip) fun _ => 0 := by
  refine .bind_zero getInode_takes fun inode => ?_
  split
  · exact modifyInode_takes fun _ => rfl
  · exact .stop

/-! ## Blocks -/

theorem bzero_takes {bno : Nat} : Takes (bzero bno) fun _ => 0 :=
  .bind_zero .bread fun _ => .bind_zero .logWrite fun _ => brelse_takes

theorem ballocLoop_takes (sb : Superblock) (fuel b : Nat) :
    Takes (ballocLoop sb fuel b) fun _ => 0 := by
  induction fuel generalizing b with
  | zero => exact .stop
  | succ fuel ih =>
      unfold ballocLoop
      split
      · refine .bind_zero .bread fun bp => .bind_zero .data fun block => ?_
        split
        · refine .bind_zero .logWrite fun _ => .bind_zero brelse_takes fun _ => ?_
          exact .bind_zero bzero_takes fun _ => .pure rfl
        · exact .bind_zero brelse_takes fun _ => ih (b + BPB)
      · exact .stop

theorem balloc_takes : Takes balloc fun _ => 0 := by
  refine .bind_zero .getMem fun kernel => ?_
  split
  · exact ballocLoop_takes _ _ _
  · exact .stop

theorem bfree_takes {b : Nat} : Takes (bfree b) fun _ => 0 := by
  refine .bind_zero .getMem fun kernel => .bind_zero .bread fun bp => ?_
  refine .bind_zero .data fun block => ?_
  split
  · exact .bind_zero .logWrite fun _ => brelse_takes
  · exact .stop

theorem iupdate_takes {ip : Slot} : Takes (iupdate ip) fun _ => 0 :=
  .bind_zero .getMem fun _ => .bind_zero .bread fun _ => .bind_zero .data fun _ =>
    .bind_zero .logWrite fun _ => brelse_takes

theorem ilock_takes {ip : Slot} : Takes (ilock ip) fun _ => 0 := by
  refine .bind_zero getInode_takes fun inode => ?_
  split
  · exact .stop
  · refine .bind_zero acquiresleep_takes fun _ => .when fun _ => ?_
    refine .bind_zero .getMem fun kernel => .bind_zero .bread fun bp => ?_
    refine .bind_zero .data fun block => ?_
    refine .bind_zero (modifyInode_takes fun _ => rfl) fun _ => ?_
    refine .bind_zero brelse_takes fun _ => ?_
    exact .bind_zero (modifyInode_takes fun _ => rfl) fun _ => .when fun _ => .stop

theorem iunlock_takes {ip : Slot} : Takes (iunlock ip) fun _ => 0 := by
  refine .bind_zero getInode_takes fun inode => ?_
  split
  · exact .stop
  · exact releasesleep_takes

theorem bmapIndirect_takes {addr i : Nat} : Takes (bmapIndirect addr i) fun _ => 0 := by
  refine .bind_zero .bread fun bp => .bind_zero .data fun a => ?_
  split
  · refine .bind_zero balloc_takes fun addr => .bind_zero .data fun a => ?_
    exact .bind_zero .logWrite fun _ => .bind_zero brelse_takes fun _ => .pure rfl
  · exact .bind_zero brelse_takes fun _ => .pure rfl

theorem bmapAddr_takes {ip : Slot} {i : Nat} : Takes (bmapAddr ip i) fun _ => 0 := by
  refine .bind_zero getInode_takes fun inode => ?_
  split
  · refine .bind_zero balloc_takes fun addr => ?_
    exact .bind_zero (modifyInode_takes fun _ => rfl) fun _ => .pure rfl
  · exact .pure rfl

theorem bmap_takes {ip : Slot} {bn : Nat} : Takes (bmap ip bn) fun _ => 0 := by
  unfold bmap
  split
  · exact bmapAddr_takes
  · split
    · exact .bind_zero bmapAddr_takes fun _ => bmapIndirect_takes
    · split
      · exact .bind_zero bmapAddr_takes fun _ =>
          .bind_zero bmapIndirect_takes fun _ => bmapIndirect_takes
      · exact .stop

theorem itruncIndirect_takes {bp : Buf} : Takes (itruncIndirect bp) fun _ => 0 :=
  .forEach fun _ _ => .bind_zero .data fun _ => .when fun _ => bfree_takes

theorem itruncDouble_takes {bp : Buf} : Takes (itruncDouble bp) fun _ => 0 :=
  .forEach fun _ _ => .bind_zero .data fun _ => .when fun _ =>
    .bind_zero .bread fun _ => .bind_zero itruncIndirect_takes fun _ =>
      .bind_zero brelse_takes fun _ => .bind_zero .data fun _ => bfree_takes

theorem itrunc_takes {ip : Slot} : Takes (itrunc ip) fun _ => 0 := by
  have clear : ∀ i, Takes (modifyInode ip (·.mapDin (·.setAddr i 0))) fun _ => 0 :=
    fun i => modifyInode_takes fun _ => rfl
  refine .bind_zero (.forEach fun i _ => ?_) fun _ => ?_
  · exact .bind_zero getInode_takes fun _ => .when fun _ =>
      .bind_zero bfree_takes fun _ => clear i
  refine .bind_zero getInode_takes fun inode => .bind_zero (.when fun _ => ?_) fun _ => ?_
  · exact .bind_zero .bread fun _ => .bind_zero itruncIndirect_takes fun _ =>
      .bind_zero brelse_takes fun _ => .bind_zero bfree_takes fun _ => clear _
  refine .bind_zero getInode_takes fun inode => .bind_zero (.when fun _ => ?_) fun _ => ?_
  · exact .bind_zero .bread fun _ => .bind_zero itruncDouble_takes fun _ =>
      .bind_zero brelse_takes fun _ => .bind_zero bfree_takes fun _ => clear _
  exact .bind_zero (modifyInode_takes fun _ => rfl) fun _ => iupdate_takes

/-! ## References -/

theorem igetScan_inr {icache : Slot → Inode} {inum : Nat} {slots : List Slot}
    {empty : Option Slot} {ip : Slot}
    (found : igetScan icache inum slots empty = .inr (some ip))
    (free : ∀ slot, empty = some slot → (icache slot).ref = 0) : (icache ip).ref = 0 := by
  induction slots generalizing empty with
  | nil => exact free ip (Sum.inr.inj found)
  | cons slot rest ih =>
      unfold igetScan at found
      split at found
      · cases found
      · refine ih found fun other chosen => ?_
        split at chosen
        · next isFree => exact (Option.some.inj chosen) ▸ isFree.2
        · exact free other chosen

/-- `iget` takes a reference to the inode it returns. -/
theorem iget_takes {inum : Nat} : Takes (iget inum) one := by
  unfold iget
  refine .bind_zero acquire_takes fun _ => ?_
  intro world
  simp only [Prog.wp_bind, Prog.wp_getMem]
  cases found : igetScan world.mem.icache inum (List.finRange NINODE) none with
  | inl ip =>
      simp only [Prog.wp_bind, modifyInode, Prog.wp_modifyMem]
      refine (release_takes _).mono fun _ after released => ?_
      obtain ⟨same, moved⟩ := released
      refine ⟨same, moved.trans ?_⟩
      simp only [add_zero, one]
      exact refs_setInode _ _ _ _ rfl
  | inr empty =>
      cases empty with
      | none => trivial
      | some ip =>
          have free := igetScan_inr found (by simp)
          simp only [Prog.wp_bind, modifyInode, Prog.wp_modifyMem]
          refine (release_takes _).mono fun _ after released => ?_
          obtain ⟨same, moved⟩ := released
          refine ⟨same, moved.trans ?_⟩
          simp only [add_zero, one]
          exact refs_setInode _ _ _ _ (by simp [free])

/-- `idup` takes a reference. -/
theorem idup_takes {ip : Slot} : Takes (idup ip) fun _ => one ip := by
  refine .bind_zero acquire_takes fun _ => ?_
  refine .bind (d := fun _ => one ip) ?_ fun _ => ?_
  · exact .modifyMem (fun _ => rfl) fun kernel => refs_setInode _ _ _ _ rfl
  · simp only [sub_self]
    exact .bind_zero release_takes fun _ => .pure rfl

/-- `idup` returns its argument. -/
theorem idup_takes_result {ip : Slot} : Takes (idup ip) one := by
  refine .bind_zero acquire_takes fun _ => ?_
  refine .bind (d := fun _ => one ip) ?_ fun _ => .bind_zero release_takes fun _ => .pure ?_
  · exact .modifyMem (fun _ => rfl) fun kernel => refs_setInode _ _ _ _ rfl
  · exact sub_self _

/-- `iput` gives a reference back. -/
theorem iput_takes {ip : Slot} : Takes (iput ip) fun _ => -one ip := by
  refine .bind_zero acquiresleep_takes fun _ => .bind_zero getInode_takes fun inode => ?_
  refine .bind_zero (.when fun _ => ?_) fun _ => ?_
  · refine .bind_zero acquire_takes fun _ => .bind_zero getInode_takes fun inode => ?_
    refine .bind_zero release_takes fun _ => .when fun _ => ?_
    refine .bind_zero itrunc_takes fun _ => ?_
    refine .bind_zero (modifyInode_takes fun _ => rfl) fun _ => ?_
    exact .bind_zero iupdate_takes fun _ => modifyInode_takes fun _ => rfl
  · refine .bind_zero releasesleep_takes fun _ => .bind_zero acquire_takes fun _ => ?_
    refine .bind (d := fun _ => -one ip) ?_ fun _ => ?_
    · refine .modifyMem (fun _ => rfl) fun kernel => ?_
      rw [one, ← Pi.single_neg]
      exact refs_setInode _ _ _ _ rfl
    · simp only [sub_self]
      exact release_takes

theorem iunlockput_takes {ip : Slot} : Takes (iunlockput ip) fun _ => -one ip :=
  .bind_zero iunlock_takes fun _ => iput_takes

theorem iallocLoop_takes (sb : Superblock) (type : BitVec 16) (fuel inum : Nat) :
    Takes (iallocLoop sb type fuel inum) one := by
  induction fuel generalizing inum with
  | zero => exact .stop
  | succ fuel ih =>
      unfold iallocLoop
      split
      · refine .bind_zero .bread fun bp => .bind_zero .data fun block => ?_
        split
        · exact .bind_zero .logWrite fun _ => .bind_zero brelse_takes fun _ => iget_takes
        · exact .bind_zero brelse_takes fun _ => ih (inum + 1)
      · exact .stop

theorem ialloc_takes {type : BitVec 16} : Takes (ialloc type) one := by
  refine .bind_zero .getMem fun kernel => ?_
  split
  · exact iallocLoop_takes _ _ _ _
  · exact .stop

/-! ## File content and directories -/

theorem readiLoop_takes (ip : Slot) (fuel off rest : Nat) :
    Takes (readiLoop ip fuel off rest) fun _ => 0 := by
  induction fuel generalizing off rest with
  | zero => exact .pure rfl
  | succ fuel ih =>
      unfold readiLoop
      split
      · exact .pure rfl
      · refine .bind_zero bmap_takes fun addr => .bind_zero .bread fun bp => ?_
        refine .bind_zero .data fun block => .bind_zero brelse_takes fun _ => ?_
        exact .bind_zero (ih _ _) fun bytes => .pure rfl

theorem readi_takes {ip : Slot} {off n : Nat} : Takes (readi ip off n) fun _ => 0 := by
  refine .bind_zero getInode_takes fun inode => ?_
  split
  · split <;> exact .pure rfl
  · split
    · exact .pure rfl
    · exact .bind_zero (readiLoop_takes _ _ _ _) fun _ => .pure rfl

theorem writeiLoop_takes (ip : Slot) (src : Nat → Byte) (fuel tot off rest : Nat) :
    Takes (writeiLoop ip src fuel tot off rest) fun _ => 0 := by
  induction fuel generalizing tot off rest with
  | zero => exact .pure rfl
  | succ fuel ih =>
      unfold writeiLoop
      split
      · exact .pure rfl
      · refine .bind_zero bmap_takes fun addr => .bind_zero .bread fun bp => ?_
        refine .bind_zero .data fun block => .bind_zero .logWrite fun _ => ?_
        exact .bind_zero brelse_takes fun _ => ih _ _ _

theorem writei_takes {ip : Slot} {src : Nat → Byte} {off n : Nat} :
    Takes (writei ip src off n) fun _ => 0 := by
  refine .bind_zero getInode_takes fun inode => ?_
  split
  · split <;> exact .pure rfl
  · split
    · exact .pure rfl
    · split
      · exact .pure rfl
      · refine .bind_zero (writeiLoop_takes _ _ _ _ _ _) fun _ => ?_
        refine .bind_zero getInode_takes fun inode => .bind_zero (.when fun _ => ?_) fun _ =>
          .pure rfl
        exact .bind_zero (modifyInode_takes fun _ => rfl) fun _ => iupdate_takes

theorem readDirent_takes {dp : Slot} {off : Nat} : Takes (readDirent dp off) fun _ => 0 := by
  refine .bind_zero readi_takes fun ⟨r, bytes⟩ => ?_
  dsimp only
  split <;> exact .pure rfl

theorem dirlookupLoop_takes (dp : Slot) (name : List Byte) (fuel off : Nat) :
    Takes (dirlookupLoop dp name fuel off) fun found => oneOf (found.map Prod.fst) := by
  induction fuel generalizing off with
  | zero => exact .pure rfl
  | succ fuel ih =>
      unfold dirlookupLoop
      refine .bind_zero getInode_takes fun inode => ?_
      split
      · refine .bind_zero readDirent_takes fun de => ?_
        cases de with
        | none => exact .stop
        | some de =>
            dsimp only
            split
            · exact .bind iget_takes fun ip => .pure (sub_self _)
            · exact ih (off + DIRENT_SIZE)
      · exact .pure rfl

/-- `dirlookup` takes a reference to the inode it finds. -/
theorem dirlookup_takes {dp : Slot} {name : List Byte} :
    Takes (dirlookup dp name) fun found => oneOf (found.map Prod.fst) := by
  refine .bind_zero getInode_takes fun inode => ?_
  split
  · exact dirlookupLoop_takes _ _ _ _
  · exact .stop

theorem dirlinkLoop_takes (dp : Slot) (fuel off : Nat) :
    Takes (dirlinkLoop dp fuel off) fun _ => 0 := by
  induction fuel generalizing off with
  | zero => exact .pure rfl
  | succ fuel ih =>
      unfold dirlinkLoop
      refine .bind_zero getInode_takes fun inode => ?_
      split
      · refine .bind_zero readDirent_takes fun de => ?_
        cases de with
        | none => exact .stop
        | some de =>
            dsimp only
            split
            · exact .pure rfl
            · exact ih (off + DIRENT_SIZE)
      · exact .pure rfl

theorem dirlink_takes {dp : Slot} {name : List Byte} {inum : Nat} :
    Takes (dirlink dp name inum) fun _ => 0 := by
  refine .bind dirlookup_takes fun found => ?_
  cases found with
  | some found => exact .bind iput_takes fun _ => .pure (by simp)
  | none =>
      simp only [Option.map_none, oneOf_none, sub_self]
      refine .bind_zero getInode_takes fun inode => .bind_zero (dirlinkLoop_takes _ _ _) fun off => ?_
      refine .bind_zero writei_takes fun r => ?_
      split
      · exact .pure rfl
      · exact .stop

/-! ## Paths -/

/-- The references a path walk returns. -/
def walked (found : Option (Slot × List Byte)) : Slot → Int := oneOf (found.map Prod.fst)

/-- A path walk gives back the reference it starts with and takes one to the
inode it returns. -/
theorem namexLoop_takes (parent : Bool) (fuel : Nat) (ip : Slot) (path : List Byte)
    (enough : path.length < fuel) :
    Takes (namexLoop parent fuel ip path) fun found => walked found - one ip := by
  induction fuel generalizing ip path with
  | zero => exact absurd enough (Nat.not_lt_zero _)
  | succ fuel ih =>
      unfold namexLoop
      cases element : skipelem path with
      | none =>
          dsimp only
          split
          · exact .bind iput_takes fun _ => .pure (by simp [walked])
          · exact .pure (by simp [walked])
      | some split =>
          obtain ⟨name, rest⟩ := split
          have shorter := skipelem_length element
          refine .bind_zero ilock_takes fun _ => .bind_zero getInode_takes fun inode => ?_
          split
          · exact .bind iunlockput_takes fun _ => .pure (by simp [walked])
          · split
            · exact .bind_zero iunlock_takes fun _ => .pure (by simp [walked])
            · refine .bind dirlookup_takes fun found => ?_
              cases found with
              | none => exact .bind iunlockput_takes fun _ => .pure (by simp [walked])
              | some found =>
                  obtain ⟨next, off⟩ := found
                  refine .bind iunlockput_takes fun _ => ?_
                  exact .congr (ih next rest (by omega)) fun result => by
                    simp only [Option.map_some, oneOf_some]; abel

theorem namexRoot_takes {path : List Byte} {parent : Bool} :
    Takes (namexRoot path parent) walked :=
  .bind iget_takes fun _ => namexLoop_takes _ _ _ _ (Nat.lt_succ_self _)

/-- `myproc` keeps its own reference to the working directory it returns. -/
theorem myprocCwd_spec (world : FsWorld) :
    myprocCwd.wp (fun _ => True) (fun _ _ => True)
      (fun ip after => after.mem.cwd = some ip ∧ after.mem.table = world.mem.table ∧
        after.mem.outstanding = world.mem.outstanding) world := by
  unfold myprocCwd
  simp only [Prog.wp_bind, Prog.wp_getMem]
  cases cwd : world.mem.cwd with
  | some ip => exact ⟨cwd, rfl, rfl⟩
  | none =>
      simp only [Prog.wp_bind]
      refine (namexRoot_takes world).mono fun found after walked => ?_
      obtain ⟨same, moved⟩ := walked
      cases found with
      | none => trivial
      | some found =>
          have table : after.mem.table = world.mem.table := congrArg Prod.snd same
          simp only [Prog.wp_bind, Prog.wp_modifyMem, Prog.wp_pure]
          refine ⟨trivial, table, ?_⟩
          have refs : after.mem.refs = world.mem.refs + one found.1 := moved
          change after.mem.refs - one found.1 = world.mem.refs - oneOf world.mem.cwd
          rw [refs, cwd]
          simp

theorem myprocCwd_owes : Owes myprocCwd fun _ => 0 := fun world =>
  (myprocCwd_spec world).mono fun _ _ ⟨_, table, same⟩ => ⟨table, by rw [same, add_zero]⟩

/-- A path walk takes a reference to the inode it returns. -/
theorem namex_owes {path : List Byte} {parent : Bool} : Owes (namex path parent) walked := by
  unfold namex
  split
  · exact namexRoot_takes.owes
  · refine .bind_zero myprocCwd_owes fun cwd => .bind idup_takes_result.owes fun ip => ?_
    exact (namexLoop_takes _ _ _ _ (Nat.lt_succ_self _)).owes

theorem namei_owes {path : List Byte} : Owes (namei path) oneOf := by
  refine .bind namex_owes fun found => ?_
  cases found with
  | none => exact .pure (by simp [walked])
  | some found => exact .pure (by simp [walked])

theorem nameiparent_owes {path : List Byte} : Owes (nameiparent path) walked := namex_owes

/-- `chdir` hands its reference to the working directory. -/
theorem xv6fsBridgeSetCwd_owes {ip : Slot} : Owes (xv6fsBridgeSetCwd ip) fun _ => -one ip := by
  intro world
  unfold xv6fsBridgeSetCwd
  simp only [Prog.wp_bind, Prog.wp_modifyMem]
  refine (myprocCwd_spec world).mono fun cwd first spec => ?_
  obtain ⟨isCwd, sameTable, sameRefs⟩ := spec
  refine (iput_takes first).mono fun _ second put => ?_
  obtain ⟨same, moved⟩ := put
  have table : second.mem.table = first.mem.table := congrArg Prod.snd same
  refine ⟨table.trans sameTable, ?_⟩
  change second.mem.refs - one ip = world.mem.outstanding + -one ip
  rw [show second.mem.refs = first.mem.refs + -one cwd from moved, ← sameRefs,
    Kernel.outstanding, isCwd, oneOf_some]
  abel

/-! ## Creating and removing files -/

theorem unlockputBoth_takes {ip dp : Slot} :
    Takes (unlockputBoth ip dp) fun _ => -one ip - one dp := by
  refine .bind_zero iunlock_takes fun _ => .bind iput_takes fun _ => ?_
  refine .bind_zero iunlock_takes fun _ => .congr iput_takes fun _ => ?_
  abel

theorem createLink_takes {dp ip : Slot} {name : List Byte} :
    Takes (createLink dp ip name) fun created => oneOf created - one ip - one dp := by
  refine .bind_zero getInode_takes fun inode => .bind_zero dirlink_takes fun r => ?_
  split
  · exact .bind unlockputBoth_takes fun _ => .pure (by simp)
  · exact .bind_zero iunlock_takes fun _ => .bind iput_takes fun _ => .pure (by simp)

theorem createDots_takes {dp ip : Slot} : Takes (createDots dp ip) fun _ => 0 := by
  refine .bind_zero (modifyInode_takes fun _ => rfl) fun _ => ?_
  refine .bind_zero iupdate_takes fun _ => .bind_zero getInode_takes fun inode => ?_
  refine .bind_zero dirlink_takes fun r => ?_
  split
  · exact .pure rfl
  · refine .bind_zero getInode_takes fun parent => .bind_zero dirlink_takes fun r => ?_
    split <;> exact .pure rfl

/-- The part of `xv6fs_create` after `nameiparent`. -/
def createIn (dp : Slot) (name : List Byte) (type major minor : BitVec 16) : FsM (Option Slot) := do
  ilock dp
  match ← dirlookup dp name with
  | some (ip, _) =>
      iunlock dp
      iput dp
      ilock ip
      let inode ← getInode ip
      if type = T_FILE ∧ inode.din.type = T_FILE then return some ip
      else
        iunlock ip
        iput ip
        return none
  | none =>
      let ip ← ialloc type
      ilock ip
      modifyInode ip (·.mapDin ({ · with major, minor, nlink := 1 }))
      iupdate ip
      if type = T_DIR then
        if ← createDots dp ip then createLink dp ip name
        else
          unlockputBoth ip dp
          return none
      else createLink dp ip name

theorem xv6fsCreate_eq (path : List Byte) (type major minor : BitVec 16) :
    xv6fsCreate path type major minor = (do
      match ← nameiparent path with
      | none => return none
      | some (dp, name) => createIn dp name type major minor) := rfl

theorem createIn_takes {dp : Slot} {name : List Byte} {type major minor : BitVec 16} :
    Takes (createIn dp name type major minor) fun created => oneOf created - one dp := by
  refine .bind_zero ilock_takes fun _ => .bind dirlookup_takes fun known => ?_
  cases known with
  | some known =>
      obtain ⟨ip, off⟩ := known
      refine .bind_zero iunlock_takes fun _ => .bind iput_takes fun _ => ?_
      refine .bind_zero ilock_takes fun _ => .bind_zero getInode_takes fun inode => ?_
      split
      · exact .pure (by simp)
      · exact .bind_zero iunlock_takes fun _ => .bind iput_takes fun _ => .pure (by simp; abel)
  | none =>
      refine .bind ialloc_takes fun ip => .bind_zero ilock_takes fun _ => ?_
      refine .bind_zero (modifyInode_takes fun _ => rfl) fun _ => ?_
      refine .bind_zero iupdate_takes fun _ => ?_
      split
      · refine .bind_zero createDots_takes fun dots => ?_
        split
        · exact .congr createLink_takes fun created => by simp; abel
        · exact .bind unlockputBoth_takes fun _ => .pure (by simp; abel)
      · exact .congr createLink_takes fun created => by simp; abel

/-- `xv6fs_create` takes a reference to the inode it returns. -/
theorem xv6fsCreate_owes {path : List Byte} {type major minor : BitVec 16} :
    Owes (xv6fsCreate path type major minor) oneOf := by
  rw [xv6fsCreate_eq]
  refine .bind nameiparent_owes fun found => ?_
  cases found with
  | none => exact .pure (by simp [walked])
  | some found => exact createIn_takes.owes

theorem isdirempty_takes (ip : Slot) (fuel o : Nat) : Takes (isdirempty ip fuel o) fun _ => 0 := by
  induction fuel generalizing o with
  | zero => exact .pure rfl
  | succ fuel ih =>
      refine .bind_zero getInode_takes fun inode => ?_
      split
      · refine .bind_zero readDirent_takes fun de => ?_
        cases de with
        | none => exact .pure rfl
        | some de =>
            dsimp only
            split
            · exact .pure rfl
            · exact ih (o + DIRENT_SIZE)
      · exact .pure rfl

theorem unlinkEntry_takes {dp ip : Slot} {off : Nat} :
    Takes (unlinkEntry dp ip off) fun _ => -one ip - one dp := by
  refine .bind_zero writei_takes fun r => ?_
  split
  · exact .bind unlockputBoth_takes fun _ => .pure (sub_self _)
  · refine .bind_zero getInode_takes fun inode => .bind_zero (.when fun _ => ?_) fun _ => ?_
    · exact .bind_zero (modifyInode_takes fun _ => rfl) fun _ => iupdate_takes
    · refine .bind_zero iunlock_takes fun _ => .bind iput_takes fun _ => ?_
      refine .bind_zero (modifyInode_takes fun _ => rfl) fun _ => ?_
      refine .bind_zero iupdate_takes fun _ => .bind_zero iunlock_takes fun _ => ?_
      exact .bind iput_takes fun _ => .pure (by abel)

/-- The part of `xv6fs_unlink` after `nameiparent`. -/
def unlinkIn (dp : Slot) (name : List Byte) : FsM Int := do
  ilock dp
  if name = [dot] ∨ name = [dot, dot] then
    iunlock dp
    iput dp
    return -1
  else
    match ← dirlookup dp name with
    | none =>
        iunlock dp
        iput dp
        return -1
    | some (ip, off) =>
        ilock ip
        let inode ← getInode ip
        if inode.din.nlink.toInt < 1 then
          unlockputBoth ip dp
          return -1
        else if inode.din.type = T_DIR then
          if ← isdirempty ip (inode.din.size.toNat / DIRENT_SIZE + 1) (2 * DIRENT_SIZE) then
            unlinkEntry dp ip off
          else
            unlockputBoth ip dp
            return -1
        else unlinkEntry dp ip off

theorem xv6fsUnlink_eq (path : List Byte) :
    xv6fsUnlink path = (do
      match ← nameiparent path with
      | none => return -1
      | some (dp, name) => unlinkIn dp name) := rfl

theorem unlinkIn_takes {dp : Slot} {name : List Byte} :
    Takes (unlinkIn dp name) fun _ => -one dp := by
  refine .bind_zero ilock_takes fun _ => ?_
  split
  · exact .bind_zero iunlock_takes fun _ => .bind iput_takes fun _ => .pure (sub_self _)
  · refine .bind dirlookup_takes fun known => ?_
    cases known with
    | none =>
        exact .bind_zero iunlock_takes fun _ => .bind iput_takes fun _ => .pure (by simp)
    | some known =>
        obtain ⟨ip, off⟩ := known
        have debt : -one dp - oneOf (Option.map Prod.fst (some (ip, off))) = -one ip - one dp := by
          simp
          abel
        refine .bind_zero ilock_takes fun _ => .bind_zero getInode_takes fun inode => ?_
        simp only [debt]
        split
        · exact .bind unlockputBoth_takes fun _ => .pure (sub_self _)
        · split
          · refine .bind_zero (isdirempty_takes _ _ _) fun empty => ?_
            split
            · exact unlinkEntry_takes
            · exact .bind unlockputBoth_takes fun _ => .pure (sub_self _)
          · exact unlinkEntry_takes

/-- `xv6fs_unlink` gives back every reference it takes. -/
theorem xv6fsUnlink_owes {path : List Byte} : Owes (xv6fsUnlink path) fun _ => 0 := by
  rw [xv6fsUnlink_eq]
  refine .bind nameiparent_owes fun found => ?_
  cases found with
  | none => exact .pure (by simp [walked])
  | some found => exact .congr unlinkIn_takes.owes fun _ => by simp [walked]

end Notux.Fs
