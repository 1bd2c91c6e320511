import Notux.Fs.Layout
import Mathlib.Data.Fintype.Basic
import Mathlib.Data.List.FinRange

/-!
# The buffer pool

The bridge keeps 64 buffers.  A block that is not in the pool takes the next
buffer in turn, whoever may still hold a pointer to it.  Sectors are read and
written one at a time, and the transfers succeed.

Used as the file system uses it, one block after another with every change
written through at once, the pool cannot be told from the disk.
-/

namespace Notux.Fs

open Notux.Store

abbrev XV6FS_NBUF : Nat := 64

/-- An index into `bcache_pool`. -/
abbrev PoolIdx := Fin XV6FS_NBUF

/-- `struct buf`, with the bits `B_VALID` and `B_DIRTY` of its flags. -/
structure PoolBuf where
  valid : Bool
  dirty : Bool
  dev : BitVec 32
  blockno : Nat
  data : Block

/-- The globals of the bridge, and the disk behind the AHCI device if there is
one. -/
structure Bridge where
  pool : PoolIdx → PoolBuf
  inited : Bool
  nextVictim : PoolIdx
  ahci : Option Disk

namespace Bridge

/-- `ahci_write_sectors` of one sector. -/
def writeSector (bridge : Bridge) (blockno : Nat) (contents : Block) : Bridge :=
  { bridge with ahci := bridge.ahci.map fun disk => Function.update disk blockno contents }

/-- Change one buffer. -/
def changeBuf (bridge : Bridge) (idx : PoolIdx) (change : PoolBuf → PoolBuf) : Bridge :=
  { bridge with pool := Function.update bridge.pool idx (change (bridge.pool idx)) }

/-- `bcache_init`. -/
def bcacheInit (bridge : Bridge) : Bridge where
  pool idx := { bridge.pool idx with valid := false, dirty := false, dev := -1, blockno := 0 }
  inited := true
  nextVictim := bridge.nextVictim
  ahci := bridge.ahci

/-- The buffer that holds a block. -/
def cached (bridge : Bridge) (dev : BitVec 32) (blockno : Nat) : Option PoolIdx :=
  (List.finRange XV6FS_NBUF).find? fun i =>
    (bridge.pool i).valid ∧ (bridge.pool i).dev = dev ∧ (bridge.pool i).blockno = blockno

/-- Write a dirty victim back. -/
def writeBack (bridge : Bridge) (victim : PoolIdx) : Bridge :=
  if (bridge.pool victim).valid ∧ (bridge.pool victim).dirty then
    bridge.writeSector (bridge.pool victim).blockno (bridge.pool victim).data
  else bridge

/-- The pool as `bcache_get` finds it. -/
def ready (bridge : Bridge) : Bridge := if bridge.inited then bridge else bridge.bcacheInit

/-- Take the next buffer in turn for a block. -/
def evict (dev : BitVec 32) (blockno : Nat) (bridge : Bridge) : PoolIdx × Bridge :=
  let victim := bridge.nextVictim
  let bridge := { bridge with nextVictim := victim + 1 }
  let bridge := bridge.writeBack victim
  (victim,
    bridge.changeBuf victim fun buf => { buf with dev, blockno, valid := false, dirty := false })

/-- `bcache_get`. -/
def bcacheGet (dev : BitVec 32) (blockno : Nat) (bridge : Bridge) : PoolIdx × Bridge :=
  let bridge := bridge.ready
  match bridge.cached dev blockno with
  | some idx => (idx, bridge)
  | none => bridge.evict dev blockno

/-- `bread`: nothing if it halts for want of a device. -/
def bread (dev : BitVec 32) (blockno : Nat) (bridge : Bridge) : Option (PoolIdx × Bridge) :=
  let (idx, bridge) := bridge.bcacheGet dev blockno
  if (bridge.pool idx).valid then some (idx, bridge)
  else
    bridge.ahci.map fun disk =>
      (idx, bridge.changeBuf idx fun buf =>
        { buf with data := disk blockno, valid := true, dirty := false })

/-- `bwrite`. -/
def bwrite (idx : PoolIdx) (bridge : Bridge) : Bridge :=
  if bridge.ahci.isNone then bridge
  else
    (bridge.writeSector (bridge.pool idx).blockno (bridge.pool idx).data).changeBuf idx fun buf =>
      { buf with dirty := false }

/-- `log_write`. -/
def logWrite (idx : PoolIdx) (bridge : Bridge) : Bridge :=
  (bridge.changeBuf idx fun buf => { buf with dirty := true }).bwrite idx

/-- Store through `bp->data`. -/
def setData (idx : PoolIdx) (contents : Block) (bridge : Bridge) : Bridge :=
  bridge.changeBuf idx fun buf => { buf with data := contents }

end Bridge

/-- One use of the pool: a `bread` whose data is only read, or one whose data is
changed and passed to `log_write` before any other `bread`. -/
inductive BufOp where
  | read (blockno : Nat)
  | update (blockno : Nat) (change : Block → Block)

namespace BufOp

/-- The block an operation asks for. -/
def blockno : BufOp → Nat
  | .read blockno => blockno
  | .update blockno _ => blockno

/-- The data its `bread` returns, and the pool after the operation. -/
def perform (op : BufOp) (bridge : Bridge) : Option (Block × Bridge) :=
  match bridge.bread 0 op.blockno with
  | none => none
  | some (idx, bridge) =>
      let contents := (bridge.pool idx).data
      match op with
      | .read _ => some (contents, bridge)
      | .update _ change => some (contents, (bridge.setData idx (change contents)).logWrite idx)

/-- Perform operations in order; the log holds each with the data it was given,
newest first. -/
def performAll : List BufOp → List (BufOp × Block) → Bridge →
    Option (List (BufOp × Block) × Bridge)
  | [], log, bridge => some (log, bridge)
  | op :: rest, log, bridge =>
      match op.perform bridge with
      | none => none
      | some (contents, bridge) => performAll rest ((op, contents) :: log) bridge

end BufOp

/-- What the last `log_write` to a block stored or, if there was none, the
original sector. -/
def lastStored (disk : Disk) (blockno : Nat) : List (BufOp × Block) → Block
  | [] => disk blockno
  | (.read _, _) :: earlier => lastStored disk blockno earlier
  | (.update written change, contents) :: earlier =>
      if written = blockno then change contents else lastStored disk blockno earlier

/-- Each block is valid in at most one buffer, every valid buffer equals its
sector, and none is dirty. -/
structure Transparent (bridge : Bridge) : Prop where
  once : ∀ i j, (bridge.pool i).valid → (bridge.pool j).valid →
    (bridge.pool i).blockno = (bridge.pool j).blockno → i = j
  equal : ∀ disk, bridge.ahci = some disk → ∀ i, (bridge.pool i).valid →
    (bridge.pool i).data = disk (bridge.pool i).blockno
  clean : ∀ i, (bridge.pool i).valid → (bridge.pool i).dirty = false

namespace Bridge

/-- All buffers belong to device 0. -/
def OneDevice (bridge : Bridge) : Prop := ∀ i, (bridge.pool i).valid → (bridge.pool i).dev = 0

@[simp]
theorem ready_ahci (bridge : Bridge) : bridge.ready.ahci = bridge.ahci := by
  unfold ready; split <;> rfl

theorem ready_valid {bridge : Bridge} {i : PoolIdx} (valid : (bridge.ready.pool i).valid) :
    bridge.ready = bridge := by
  unfold ready at valid ⊢
  by_cases inited : bridge.inited
  · rw [if_pos inited]
  · rw [if_neg inited] at valid
    cases valid

/-- A block that is found is valid in the buffer found. -/
theorem cached_eq_some {bridge : Bridge} {dev : BitVec 32} {blockno : Nat} {idx : PoolIdx}
    (found : bridge.cached dev blockno = some idx) :
    (bridge.pool idx).valid ∧ (bridge.pool idx).dev = dev ∧
      (bridge.pool idx).blockno = blockno := by
  simpa using List.find?_some found

/-- A block that is not found is valid nowhere. -/
theorem cached_eq_none {bridge : Bridge} {dev : BitVec 32} {blockno : Nat}
    (absent : bridge.cached dev blockno = none) (idx : PoolIdx)
    (valid : (bridge.pool idx).valid) (sameDev : (bridge.pool idx).dev = dev) :
    (bridge.pool idx).blockno ≠ blockno := by
  intro same
  have missed := List.find?_eq_none.mp absent idx (List.mem_finRange idx)
  exact missed (by simpa using ⟨valid, sameDev, same⟩)

/-- The victim of a clean pool is dropped, not written back. -/
theorem evict_clean {bridge : Bridge} (dev : BitVec 32) (blockno : Nat)
    (clean : ∀ i, (bridge.pool i).valid → (bridge.pool i).dirty = false) :
    bridge.evict dev blockno =
      (bridge.nextVictim,
        { bridge with
          nextVictim := bridge.nextVictim + 1
          pool := Function.update bridge.pool bridge.nextVictim
            { bridge.pool bridge.nextVictim with
              dev, blockno, valid := false, dirty := false } }) := by
  have kept : ¬ ((bridge.pool bridge.nextVictim).valid ∧
      (bridge.pool bridge.nextVictim).dirty) := fun both => by
    rw [clean _ both.1] at both
    cases both.2
  unfold evict writeBack
  simp only [if_neg kept, changeBuf]

end Bridge

namespace Transparent

variable {bridge : Bridge}

open Bridge

theorem ready (transparent : Transparent bridge) : Transparent bridge.ready where
  once i j validI validJ same := by
    rw [ready_valid validI] at *
    exact transparent.once i j validI validJ same
  equal disk present i valid := by
    rw [ready_ahci] at present
    rw [ready_valid valid] at *
    exact transparent.equal disk present i valid
  clean i valid := by
    rw [ready_valid valid] at *
    exact transparent.clean i valid

/-- The write-back of `bcache_get` never has anything to write. -/
theorem bcacheGet_ahci (transparent : Transparent bridge) (dev : BitVec 32) (blockno : Nat) :
    (bridge.bcacheGet dev blockno).2.ahci = bridge.ahci := by
  unfold bcacheGet
  cases found : bridge.ready.cached dev blockno with
  | some idx => simp only [found, ready_ahci]
  | none =>
      simp only [found, evict_clean dev blockno transparent.ready.clean, ready_ahci]

/-- A buffer may be filled with a sector that no other buffer holds, and its
sector may change with it. -/
theorem fill (transparent : Transparent bridge) {after : Bridge} {disk disk' : Disk}
    (idx : PoolIdx) (buf : PoolBuf) (present : bridge.ahci = some disk)
    (pool : after.pool = Function.update bridge.pool idx buf) (ahci : after.ahci = some disk')
    (clean : buf.dirty = false) (equal : buf.data = disk' buf.blockno)
    (apart : ∀ i, i ≠ idx → (bridge.pool i).valid → (bridge.pool i).blockno ≠ buf.blockno)
    (others : ∀ blockno, blockno ≠ buf.blockno → disk' blockno = disk blockno) :
    Transparent after := by
  have atIdx : after.pool idx = buf := by rw [pool, Function.update_self]
  have atOther : ∀ i, i ≠ idx → after.pool i = bridge.pool i := fun i differ => by
    rw [pool, Function.update_of_ne differ]
  constructor
  · intro i j validI validJ same
    by_cases first : i = idx
    · by_cases second : j = idx
      · rw [first, second]
      · rw [first, atIdx, atOther j second] at same
        rw [atOther j second] at validJ
        exact absurd same.symm (apart j second validJ)
    · by_cases second : j = idx
      · rw [second, atIdx, atOther i first] at same
        rw [atOther i first] at validI
        exact absurd same (apart i first validI)
      · rw [atOther i first] at validI same
        rw [atOther j second] at validJ same
        exact transparent.once i j validI validJ same
  · intro current presentAfter i valid
    obtain rfl : disk' = current := Option.some.inj (ahci.symm.trans presentAfter)
    by_cases first : i = idx
    · rw [first, atIdx]
      exact equal
    · rw [atOther i first] at valid ⊢
      rw [others _ (apart i first valid)]
      exact transparent.equal disk present i valid
  · intro i valid
    by_cases first : i = idx
    · rw [first, atIdx]
      exact clean
    · rw [atOther i first] at valid ⊢
      exact transparent.clean i valid

/-- `bread` returns a buffer that holds the sector asked for. -/
theorem bread (transparent : Transparent bridge) (oneDevice : bridge.OneDevice) {disk : Disk}
    (present : bridge.ahci = some disk) (blockno : Nat) :
    ∃ idx after, bridge.bread 0 blockno = some (idx, after) ∧ Transparent after ∧
      after.OneDevice ∧ after.ahci = some disk ∧ (after.pool idx).valid ∧
      (after.pool idx).blockno = blockno := by
  have readyPresent : bridge.ready.ahci = some disk := bridge.ready_ahci.trans present
  have readyDevice : bridge.ready.OneDevice := fun i valid => by
    rw [ready_valid valid] at *
    exact oneDevice i valid
  unfold Bridge.bread bcacheGet
  cases found : bridge.ready.cached 0 blockno with
  | some idx =>
      obtain ⟨valid, -, held⟩ := cached_eq_some found
      refine ⟨idx, bridge.ready, ?_, transparent.ready, readyDevice, readyPresent, valid, held⟩
      simp only [found, if_pos valid]
  | none =>
      -- The victim is invalid when the sector is read into it.
      have apart : ∀ i, (bridge.ready.pool i).valid →
          (bridge.ready.pool i).blockno ≠ blockno := fun i valid =>
        cached_eq_none found i valid (readyDevice i valid)
      let buf : PoolBuf := ⟨true, false, 0, blockno, disk blockno⟩
      refine ⟨bridge.ready.nextVictim,
        { bridge.ready with
          nextVictim := bridge.ready.nextVictim + 1
          pool := Function.update bridge.ready.pool bridge.ready.nextVictim buf }, ?_⟩
      refine ⟨?_, ?_, ?_, readyPresent, ?_, ?_⟩
      · simp only [found, evict_clean 0 blockno transparent.ready.clean, readyPresent]
        simp [Bridge.changeBuf, buf]
      · exact transparent.ready.fill bridge.ready.nextVictim buf readyPresent rfl readyPresent
          rfl rfl (fun i _ valid => apart i valid) fun _ _ => rfl
      · intro i valid
        by_cases first : i = bridge.ready.nextVictim
        · simp [first, buf]
        · simp only [Function.update_of_ne first] at valid ⊢
          exact readyDevice i valid
      · simp [buf]
      · simp [buf]

/-- Changing a buffer and writing it through changes its sector with it. -/
theorem logWrite (transparent : Transparent bridge) (oneDevice : bridge.OneDevice) {disk : Disk}
    (present : bridge.ahci = some disk) {idx : PoolIdx} (valid : (bridge.pool idx).valid)
    (contents : Block) :
    Transparent ((bridge.setData idx contents).logWrite idx) ∧
      ((bridge.setData idx contents).logWrite idx).OneDevice ∧
      ((bridge.setData idx contents).logWrite idx).ahci =
        some (Function.update disk (bridge.pool idx).blockno contents) := by
  have written : (bridge.setData idx contents).logWrite idx =
      { bridge with
        pool := Function.update bridge.pool idx
          { bridge.pool idx with data := contents, dirty := false }
        ahci := some (Function.update disk (bridge.pool idx).blockno contents) } := by
    simp [Bridge.logWrite, bwrite, setData, writeSector, Bridge.changeBuf, present]
  rw [written]
  refine ⟨?_, ?_, rfl⟩
  · refine transparent.fill idx _ present rfl rfl rfl ?_ ?_ ?_
    · simp
    · exact fun i differ validI same => differ (transparent.once i idx validI valid same)
    · exact fun blockno differ => Function.update_of_ne differ _ _
  · intro i validI
    by_cases first : i = idx
    · subst first
      simp only [Function.update_self]
      exact oneDevice i valid
    · simp only [Function.update_of_ne first] at validI ⊢
      exact oneDevice i validI

end Transparent

/-- One operation is served from the disk: it gets the sector, and leaves behind
what it wrote. -/
theorem BufOp.perform_spec {bridge : Bridge} (op : BufOp) (transparent : Transparent bridge)
    (oneDevice : bridge.OneDevice) {disk : Disk} (present : bridge.ahci = some disk) :
    ∃ after, op.perform bridge = some (disk op.blockno, after) ∧ Transparent after ∧
      after.OneDevice ∧
      after.ahci = some fun blockno => lastStored disk blockno [(op, disk op.blockno)] := by
  obtain ⟨idx, fetched, result, fetchedTransparent, fetchedDevice, fetchedPresent, valid, held⟩ :=
    transparent.bread oneDevice present op.blockno
  have contents : (fetched.pool idx).data = disk op.blockno := by
    rw [fetchedTransparent.equal disk fetchedPresent idx valid, held]
  unfold perform
  rw [result]
  cases op with
  | read blockno =>
      simp only [contents]
      exact ⟨fetched, rfl, fetchedTransparent, fetchedDevice, fetchedPresent⟩
  | update blockno change =>
      simp only [contents]
      obtain ⟨after, afterDevice, afterPresent⟩ :=
        fetchedTransparent.logWrite fetchedDevice fetchedPresent valid (change (disk blockno))
      refine ⟨_, rfl, after, afterDevice, afterPresent.trans (congrArg some ?_)⟩
      funext other
      rw [held]
      by_cases same : blockno = other
      · subst same
        simp [lastStored, BufOp.blockno]
      · simp [lastStored, BufOp.blockno, same, Ne.symm same]

/-- The disk after a log is the disk it started from with the stores of the
log. -/
theorem lastStored_cons (disk : Disk) (blockno : Nat) (entry : BufOp × Block)
    (earlier : List (BufOp × Block)) :
    lastStored disk blockno (entry :: earlier) =
      lastStored (fun blockno => lastStored disk blockno earlier) blockno [entry] := by
  obtain ⟨op, contents⟩ := entry
  cases op <;> rfl

/-- Every entry of a log was given what the last store before it left. -/
def ServedFrom (disk : Disk) (log : List (BufOp × Block)) : Prop :=
  ∀ op contents earlier, ((op, contents) :: earlier) <:+ log →
    contents = lastStored disk op.blockno earlier

theorem ServedFrom.cons {disk : Disk} {log : List (BufOp × Block)} (served : ServedFrom disk log)
    (op : BufOp) : ServedFrom disk ((op, lastStored disk op.blockno log) :: log) := by
  intro this contents earlier suffix
  rcases List.suffix_cons_iff.mp suffix with same | older
  · cases same
    rfl
  · exact served this contents earlier older

/-- Operations in a row, from any point of a run on. -/
theorem BufOp.performAll_spec (ops : List BufOp) {disk : Disk} {log : List (BufOp × Block)}
    {bridge : Bridge} (transparent : Transparent bridge) (oneDevice : bridge.OneDevice)
    (present : bridge.ahci = some fun blockno => lastStored disk blockno log)
    (served : ServedFrom disk log) :
    ∃ after log', BufOp.performAll ops log bridge = some (log', after) ∧
      log'.map Prod.fst = ops.reverse ++ log.map Prod.fst ∧ ServedFrom disk log' ∧
      Transparent after ∧ after.ahci = some fun blockno => lastStored disk blockno log' := by
  induction ops generalizing log bridge with
  | nil => exact ⟨bridge, log, rfl, by simp, served, transparent, present⟩
  | cons op rest ih =>
      obtain ⟨next, result, nextTransparent, nextDevice, nextPresent⟩ :=
        op.perform_spec transparent oneDevice present
      have nextLog : next.ahci = some fun blockno =>
          lastStored disk blockno ((op, lastStored disk op.blockno log) :: log) := by
        rw [nextPresent]
        exact congrArg some (funext fun blockno => (lastStored_cons disk blockno _ log).symm)
      obtain ⟨after, log', rest', order, servedAfter, transparentAfter, presentAfter⟩ :=
        ih nextTransparent nextDevice nextLog (served.cons op)
      refine ⟨after, log', ?_, ?_, servedAfter, transparentAfter, presentAfter⟩
      · unfold performAll
        rw [result]
        exact rest'
      · rw [order]
        simp

/-- No buffer holds a block. -/
def Bridge.Empty (bridge : Bridge) : Prop := ∀ i, (bridge.pool i).valid = false

/-- From an empty pool on, every operation gets what the last store to its block
left, the pool stays transparent, and no victim is ever written back. -/
theorem cache_transparent {bridge : Bridge} {disk : Disk} (empty : bridge.Empty)
    (present : bridge.ahci = some disk) (ops : List BufOp) :
    ∃ log after, BufOp.performAll ops [] bridge = some (log, after) ∧
      log.map Prod.fst = ops.reverse ∧
      (∀ op contents earlier, ((op, contents) :: earlier) <:+ log →
        contents = lastStored disk op.blockno earlier) ∧
      Transparent after ∧ (after.ahci = some fun blockno => lastStored disk blockno log) ∧
      ∀ dev blockno, (after.bcacheGet dev blockno).2.ahci = after.ahci := by
  have invalid : ∀ {i}, ¬ (bridge.pool i).valid := fun {i} valid => by
    rw [empty i] at valid
    cases valid
  have transparent : Transparent bridge :=
    ⟨fun _ _ valid => absurd valid invalid, fun _ _ _ valid => absurd valid invalid,
      fun _ valid => absurd valid invalid⟩
  obtain ⟨after, log, result, order, served, transparentAfter, presentAfter⟩ :=
    BufOp.performAll_spec ops transparent (fun _ valid => absurd valid invalid)
      (show bridge.ahci = some fun blockno => lastStored disk blockno [] from present)
      fun op contents earlier suffix => by simp at suffix
  exact ⟨log, after, result, by simpa using order, served, transparentAfter, presentAfter,
    transparentAfter.bcacheGet_ahci⟩

/-- The pool as the linker leaves it: all zeros. -/
def Bridge.boot (ahci : Option Disk) : Bridge where
  pool _ := ⟨false, false, 0, 0, Buffer.zero⟩
  inited := false
  nextVictim := 0
  ahci := ahci

/-- A byte stored in sector 5 is read back. -/
theorem cache_transparent_reads_back :
    let store : Block → Block := fun block => block.splice 0 1 fun _ => 9
    let ops : List BufOp := [.update 5 store, .read 5]
    ∃ log after, BufOp.performAll ops [] (.boot (some fun _ => Buffer.zero)) = some (log, after) ∧
      log.map Prod.fst = ops.reverse ∧ Transparent after ∧
      ∀ contents earlier, ((.read 5, contents) :: earlier) <:+ log →
        contents = lastStored (fun _ => Buffer.zero) 5 earlier := by
  intro store ops
  obtain ⟨log, after, result, order, served, transparent, -⟩ :=
    cache_transparent (fun _ => rfl : (Bridge.boot (some fun _ => Buffer.zero)).Empty) rfl ops
  exact ⟨log, after, result, order, transparent, fun contents earlier => served _ contents earlier⟩

end Notux.Fs
