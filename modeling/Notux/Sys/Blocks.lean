import Notux.Sys.ByteArrays
import Notux.Sys.Locks

/-!
# Who refers to a block

A block behind the metadata is marked in the bitmap exactly when one allocated inode refers to
it, at one position of its tree.  Creating and removing files, reading, writing and truncating
regular files, resolving paths and counting references keep it so; no block is freed twice, and
none is lost.  This takes files that are no longer than they can be and have all their blocks.
-/

namespace Notux.Sys

open Notux.Store Notux.Proc Notux.Fs

/-! ## References to blocks -/

/-- The inode as the kernel has it: its copy in memory if that is valid, else the one on
disk. -/
def currentDin (world : FsWorld) (i : Nat) : Dinode :=
  match (List.finRange NINODE).find? fun ip =>
      0 < (world.mem.icache ip).ref ∧ (world.mem.icache ip).valid = true ∧
        (world.mem.icache ip).inum = i with
  | some ip => (world.mem.icache ip).din
  | none => onDisk world.mem.sb world.disk i

/-- An allocated inode refers to a block at a position: as a data block, as the single- or the
double-indirect block, or as a block of the second level. -/
structure Refers (world : FsWorld) (place : Nat × Pos) (b : Nat) : Prop where
  inRange : place.1 < world.mem.sb.ninodes
  allocated : (currentDin world place.1).type ≠ 0
  valid : place.2.Valid fileShape
  block : (currentDin world place.1).blockAt world.disk place.2 = b

/-- The bitmap marks the metadata and the blocks with one reference; there are no others. -/
structure BlocksOwned (world : FsWorld) : Prop where
  marks : ∀ b < world.mem.sb.size, marked world.mem.sb world.disk b = true ↔
    b < firstData world.mem.sb ∨ ∃! place, Refers world place b
  inData : ∀ place b, Refers world place b → b ≠ 0 →
    firstData world.mem.sb ≤ b ∧ b < world.mem.sb.size
  once : ∀ place place' b, b ≠ 0 → Refers world place b → Refers world place' b → place = place'

/-- The bitmap, the trees and the inodes agree, and no block is allocated without an owner. -/
structure Accounted (world : FsWorld) (g : Ghost) : Prop where
  laid : WellLaid g.sb
  sameSb : world.mem.sb = g.sb
  cache : CacheSound world.mem g
  store : StoreSound world.disk g
  blocks : BlocksSound world.disk g
  idle : g.Idle
  settled : ∀ b, g.tag b ≠ .loose

/-- The invariant between two operations: no block is allocated without an owner, and every
reference is accounted for. -/
structure Whole (world : FsWorld) (g : Ghost) : Prop extends Ready world g where
  counted : g.held = world.mem.refs
  settled : ∀ b, g.tag b ≠ .loose

section Owners

variable {world : FsWorld} {g : Ghost}

theorem Accounted.currentDin_eq (accounted : Accounted world g) {i : Nat}
    (inRange : i < g.sb.ninodes) : currentDin world i = g.view i := by
  unfold currentDin
  split
  · next ip found =>
    have cached := List.find?_some found
    obtain ⟨inUse, valid, rfl⟩ := of_decide_eq_true cached
    exact (accounted.cache.cached ip inUse valid).1
  · rw [accounted.sameSb]
    apply accounted.store.clean i inRange (accounted.idle.attached i)
    rw [accounted.idle.dirty]
    exact nofun

theorem Accounted.refers_iff (accounted : Accounted world g) {place : Nat × Pos} {b : Nat} :
    Refers world place b ↔
      g.Owns place.1 ∧ place.2.Valid fileShape ∧ (g.view place.1).blockAt world.disk place.2 = b := by
  constructor
  · rintro ⟨inRange, allocated, valid, block⟩
    rw [accounted.sameSb] at inRange
    rw [accounted.currentDin_eq inRange] at allocated block
    exact ⟨⟨inRange, allocated, accounted.idle.attached _⟩, valid, block⟩
  · rintro ⟨owns, valid, block⟩
    have same := accounted.currentDin_eq owns.inRange
    refine ⟨?_, ?_, valid, ?_⟩
    · rw [accounted.sameSb]
      exact owns.inRange
    · rw [same]
      exact owns.allocated
    · rw [same]
      exact block

/-- A block with a reference has the tag of the place that refers to it. -/
theorem Accounted.refers_tag (accounted : Accounted world g) {place : Nat × Pos} {b : Nat}
    (refers : Refers world place b) (present : b ≠ 0) : g.tag b = .owned place.1 place.2 := by
  obtain ⟨owns, valid, rfl⟩ := accounted.refers_iff.mp refers
  exact accounted.blocks.points _ _ owns valid present

/-- Who refers to a block is then told by its tag. -/
theorem Accounted.blocksOwned (accounted : Accounted world g) : BlocksOwned world := by
  have positive : 0 < firstData g.sb :=
    Nat.lt_of_le_of_lt (Nat.zero_le _) accounted.laid.bitmap
  constructor
  · intro b inside
    rw [accounted.sameSb] at inside ⊢
    rw [accounted.blocks.marks b inside]
    constructor
    · intro used
      cases tag : g.tag b with
      | free => exact absurd tag used
      | metadata => exact Or.inl ((accounted.blocks.metadata b).mp tag)
      | loose => exact absurd tag (accounted.settled b)
      | owned i p =>
          right
          obtain ⟨owns, valid, block⟩ := accounted.blocks.owned b i p tag (accounted.idle.attached i)
          refine ⟨(i, p), accounted.refers_iff.mpr ⟨owns, valid, block⟩, ?_⟩
          intro place refers
          have present : b ≠ 0 := by
            rintro rfl
            rw [(accounted.blocks.metadata 0).mpr positive] at tag
            cases tag
          have same := (accounted.refers_tag refers present).symm.trans tag
          cases same
          rfl
    · rintro (low | ⟨place, refers, -⟩)
      · rw [(accounted.blocks.metadata b).mpr low]
        exact nofun
      · by_cases present : b = 0
        · rw [present, (accounted.blocks.metadata 0).mpr positive]
          exact nofun
        · rw [accounted.refers_tag refers present]
          exact nofun
  · intro place b refers present
    have tag := accounted.refers_tag refers present
    rw [accounted.sameSb]
    constructor
    · by_contra low
      rw [(accounted.blocks.metadata b).mpr (Nat.not_le.mp low)] at tag
      cases tag
    · apply accounted.blocks.inside b
      rw [tag]
      exact nofun
  · intro place place' b present refers refers'
    have same := (accounted.refers_tag refers present).symm.trans
      (accounted.refers_tag refers' present)
    injection same with inode position
    exact Prod.ext inode position

theorem Whole.accounted (whole : Whole world g) : Accounted world g where
  laid := whole.sound.laid
  sameSb := whole.sound.sameSb
  cache := whole.sound.cache
  store := whole.sound.store
  blocks := whole.sound.blocks
  idle := whole.idle
  settled := whole.settled

/-! ## Every operation keeps the invariant -/

/-- What an operation leaves. -/
theorem Whole.next {after : FsWorld} {g' : Ghost} {floor held : Slot → Int} {k : Nat}
    {files : Files} (whole : Whole world g) (step : Step ∅ floor k world g files held after g')
    (cwd : oneOf after.mem.cwd ≤ held) : Whole after g' where
  toStands := step.stands whole.unpinned
  root := by
    rw [step.sb]
    exact whole.root
  cwd := by
    rw [step.held]
    exact cwd
  counted := by
    have same := step.refs
    rw [whole.counted, sub_self] at same
    exact (sub_eq_zero.mp same).symm
  settled b loose := whole.settled b (step.settled b loose)

theorem Whole.credited (whole : Whole world g) : Whole world (credited g) where
  sound := sound_credited whole.sound
  idle := credited_idle whole.idle
  unpinned := whole.unpinned
  holding := whole.holding
  root := whole.root
  cwd := whole.cwd
  counted := whole.counted
  settled := whole.settled

end Owners

/-- An operation of the file system.  The inode that creating a file returns is unlocked, as all
callers do, and loading an inode locks and unlocks it. -/
inductive FileOp where
  | serve (request : Request)
  | create (path : CString) (type major minor : BitVec 16)
  | unlink (path : CString)
  | namei (path : CString)
  | idup (ip : Slot)
  | iput (ip : Slot)
  | load (ip : Slot)

/-- The program of an operation, with the inode to which it returns a reference. -/
def FileOp.program : FileOp → FsM (Option Slot)
  | .serve request => do
      let _ ← request.program
      return none
  | .create path type major minor => do
      match ← xv6fsCreate path.bytes type major minor with
      | none => return none
      | some ip =>
          iunlock ip
          return some ip
  | .unlink path => do
      let _ ← xv6fsUnlink path.bytes
      return none
  | .namei path => Fs.namei path.bytes
  | .idup ip => do
      let ip ← Fs.idup ip
      return some ip
  | .iput ip => do
      Fs.iput ip
      return none
  | .load ip => do
      ilock ip
      iunlock ip
      return none

/-- Contents are requested of regular files.  Who duplicates a reference has one, and who gives
one back gives back one of his own, not the working directory's. -/
def FileOp.Allowed (world : FsWorld) : FileOp → Prop
  | .serve request => OnFile world request.ip
  | .idup ip => 0 < (world.mem.icache ip).ref
  | .iput ip => oneOf world.mem.cwd ip < (world.mem.icache ip).ref
  | _ => True

/-- All panics but one. -/
def NotDoubleFree (reason : Stop) (_world : FsWorld) : Prop := reason ≠ .freeingFreeBlock

theorem permits_notDoubleFree {aligned : Prop} : Permits NotDoubleFree aligned where
  benign reason world benign _ := by
    rintro rfl
    exact benign
  ragged _ _ := ⟨nofun, nofun⟩
  noType _ := nofun

/-- The invariant holds after an operation, and no block is freed twice. -/
abbrev KeepsWhole (op : FileOp) (world : FsWorld) : Prop :=
  op.program.wp (fun _ => True) NotDoubleFree (fun _ after => ∃ g', Whole after g') world

theorem request_holding (request : Request) :
    Safely (Fs.Holding ∅) request.program fun _ => Fs.Holding ∅ := by
  cases request with
  | write ip src off n => exact .seq writei_steady fun _ => .pure fun _ => id
  | read ip off n => exact readi_steady
  | truncate ip => exact .seq truncate_holding fun _ => .pure fun _ => id

theorem request_takes (request : Request) : Takes request.program fun _ => 0 := by
  cases request with
  | write ip src off n => exact .bind_zero writei_takes fun _ => .pure rfl
  | read ip off n => exact readi_takes
  | truncate ip => exact .bind_zero truncate_takes fun _ => .pure rfl

section Operations

variable {world : FsWorld} {g : Ghost} (whole : Whole world g)

include whole

theorem request_keeps {request : Request} (onFile : OnFile world request.ip) :
    KeepsWhole (.serve request) world := by
  have answers := Request.answers whole.sound whole.idle onFile
  have held := (request_holding request).along answers whole.holding
  apply (Prog.wp_bind _ _).mpr
  apply ((request_takes request).frame held).conseq (fun _ => id)
  · rintro reason after ⟨⟨rfl, -⟩, -⟩
    exact nofun
  · rintro reply after ⟨⟨⟨node, g', answered⟩, holding⟩, sameCwd, -⟩
    obtain ⟨k, moves⟩ := answered.moves
    refine ⟨g', whole.credited.next ⟨moves 0, holding⟩ ?_⟩
    rw [sameCwd]
    exact whole.cwd

theorem create_keeps (path : CString) (type major minor : BitVec 16) :
    KeepsWhole (.create path type major minor) world := by
  apply (Prog.wp_bind _ _).mpr
  apply (xv6fsCreate_spec (fun _ _ _ => trivial) permits_notDoubleFree whole.toReady).mono
  rintro created middle ⟨g', files', -, -, step, -, -⟩
  have cwd : oneOf middle.mem.cwd ≤
      g.held + oneOf middle.mem.cwd - oneOf world.mem.cwd + oneOf created := by
    intro other
    have below : oneOf world.mem.cwd other ≤ g.held other := whole.cwd other
    have more : 0 ≤ oneOf created other := nonneg_oneOf _ other
    change oneOf middle.mem.cwd other ≤ g.held other + oneOf middle.mem.cwd other -
      oneOf world.mem.cwd other + oneOf created other
    omega
  cases created with
  | none => exact ⟨g', whole.next step cwd⟩
  | some ip =>
      have free : ip ∉ (∅ : Set Slot) := Set.notMem_empty ip
      simp only [Prog.wp_bind, Prog.wp_pure]
      apply (iunlock_takes.frame (iunlock_step permits_notDoubleFree (step.stands whole.unpinned)
        free)).mono
      rintro _ after ⟨⟨-, unlocks⟩, sameCwd, -⟩
      refine ⟨g', whole.next (step.trans (unlocks _)) ?_⟩
      rw [sameCwd, step.held]
      exact cwd

theorem unlink_keeps (path : CString) : KeepsWhole (.unlink path) world := by
  apply (Prog.wp_bind _ _).mpr
  apply (xv6fsUnlink_spec (fun _ _ _ => trivial) permits_notDoubleFree whole.toReady
    (.inr fun _ => nofun)).mono
  rintro r after ⟨g', files', -, step, -, -⟩
  refine ⟨g', whole.next step ?_⟩
  intro other
  have below : oneOf world.mem.cwd other ≤ g.held other := whole.cwd other
  change oneOf after.mem.cwd other ≤
    g.held other + oneOf after.mem.cwd other - oneOf world.mem.cwd other
  omega

theorem namei_keeps (path : CString) : KeepsWhole (.namei path) world := by
  apply (namei_step (fun _ _ _ => trivial) permits_notDoubleFree whole.toReady).mono
  rintro found after ⟨g', files', -, step, -⟩
  refine ⟨g', whole.next step ?_⟩
  intro other
  have below : oneOf world.mem.cwd other ≤ g.held other := whole.cwd other
  have more : 0 ≤ oneOf found other := nonneg_oneOf _ other
  change oneOf after.mem.cwd other ≤ g.held other + oneOf after.mem.cwd other -
    oneOf world.mem.cwd other + oneOf found other
  omega

theorem idup_keeps {ip : Slot} (inUse : 0 < (world.mem.icache ip).ref) :
    KeepsWhole (.idup ip) world := by
  have permits : Permits NotDoubleFree g.aligned := permits_notDoubleFree
  have spec := idup_spec (P := fun _ => True) permits.accepts.benign whole.sound whole.idle inUse
  apply (Prog.wp_bind _ _).mpr
  apply (idup_takes.frame (joint idup_safely whole.holding spec)).mono
  rintro _ after ⟨⟨⟨-, gets⟩, holding⟩, sameCwd, -⟩
  refine ⟨_, whole.next ⟨gets.moves, holding⟩ ?_⟩
  rw [sameCwd]
  intro other
  have below : oneOf world.mem.cwd other ≤ g.held other := whole.cwd other
  have more : 0 ≤ one ip other := nonneg_oneOf (some ip) other
  change oneOf world.mem.cwd other ≤ g.held other + one ip other
  omega

theorem iput_keeps {ip : Slot} (owns : oneOf world.mem.cwd ip < (world.mem.icache ip).ref) :
    KeepsWhole (.iput ip) world := by
  have free : ip ∉ (∅ : Set Slot) := Set.notMem_empty ip
  apply (Prog.wp_bind _ _).mpr
  apply (iput_takes.frame (iput_step (fun _ _ _ => trivial) permits_notDoubleFree whole.toStands
    free rfl)).mono
  rintro _ after ⟨⟨g', files', -, step⟩, sameCwd, -⟩
  refine ⟨g', whole.next step ?_⟩
  rw [sameCwd, whole.counted]
  intro other
  have below : oneOf world.mem.cwd other ≤ world.mem.refs other := whole.counted ▸ whole.cwd other
  change oneOf world.mem.cwd other ≤ world.mem.refs other - one ip other
  by_cases same : other = ip
  · rw [same, one_self]
    change oneOf world.mem.cwd ip ≤ (world.mem.icache ip).ref - 1
    omega
  · rw [one_of_ne same]
    omega

theorem load_keeps (ip : Slot) : KeepsWhole (.load ip) world := by
  have free : ip ∉ (∅ : Set Slot) := Set.notMem_empty ip
  apply (Prog.wp_bind _ _).mpr
  apply (ilock_takes.frame (ilock_step permits_notDoubleFree whole.toStands free rfl)).mono
  rintro _ middle ⟨⟨-, -, locks⟩, firstCwd, -⟩
  have locked := locks 0
  apply (Prog.wp_bind _ _).mpr
  apply (iunlock_takes.frame (iunlock_step permits_notDoubleFree (locked.stands whole.unpinned)
    free)).mono
  rintro _ after ⟨⟨-, unlocks⟩, secondCwd, -⟩
  refine ⟨g, whole.next (locked.trans (unlocks 0)) ?_⟩
  rw [secondCwd, firstCwd]
  exact whole.cwd

/-- Every operation keeps the invariant. -/
theorem FileOp.keeps {op : FileOp} (allowed : op.Allowed world) : KeepsWhole op world := by
  cases op with
  | serve request => exact request_keeps whole allowed
  | create path type major minor => exact create_keeps whole path type major minor
  | unlink path => exact unlink_keeps whole path
  | namei path => exact namei_keeps whole path
  | idup ip => exact idup_keeps whole allowed
  | iput ip => exact iput_keeps whole allowed
  | load ip => exact load_keeps whole ip

end Operations

/-! ## Sequences of operations -/

/-- The states that sequences of operations lead to. -/
inductive Worked (start : FsWorld) : FsWorld → Prop where
  | start : Worked start start
  | step {world next : FsWorld} {op : FileOp} {result : Option Slot}
      {writes : List (Nat × Block)} (worked : Worked start world) (allowed : op.Allowed world)
      (returned : op.program.run world = ⟨.ret result, next, writes⟩) : Worked start next

theorem Whole.worked {start world : FsWorld} {g : Ghost} (whole : Whole start g)
    (worked : Worked start world) : ∃ g', Whole world g' := by
  induction worked with
  | start => exact ⟨g, whole⟩
  | step worked allowed returned ih =>
      obtain ⟨g', whole'⟩ := ih
      have ends := (FileOp.keeps whole' allowed).run
      rw [returned] at ends
      exact ends

/-- After every sequence of operations the bitmap marks the metadata and the blocks that have
one owner, and the next operation frees no block twice. -/
theorem blocks_owned_once {start world : FsWorld} {g : Ghost} (whole : Whole start g)
    (worked : Worked start world) :
    BlocksOwned world ∧ ∀ op : FileOp, op.Allowed world →
      Prog.Run.Ends (fun reason _ => reason ≠ .freeingFreeBlock) (fun _ after => BlocksOwned after)
        (op.program.run world) := by
  obtain ⟨g', whole'⟩ := whole.worked worked
  refine ⟨whole'.accounted.blocksOwned, fun op allowed => ?_⟩
  apply Prog.wp.run (P := fun _ => True)
  apply (FileOp.keeps whole' allowed).mono
  rintro result after ⟨g'', whole''⟩
  exact whole''.accounted.blocksOwned

theorem bootedWorld_whole : Whole bootedWorld (directGhost smallSb smallDisk smallOwner) where
  toReady := bootedWorld_intact.toReady
  counted := rfl
  settled := directGhost_settled

/-- The first operation on the small disk creates a file. -/
theorem blocks_owned_once_small : ∃ world,
    (∃ result writes, (FileOp.create ⟨[slash, 103], by decide⟩ T_FILE 0 0).program.run bootedWorld =
      ⟨.ret result, world, writes⟩) ∧
    BlocksOwned world ∧ ∀ op : FileOp, op.Allowed world →
      Prog.Run.Ends (fun reason _ => reason ≠ .freeingFreeBlock) (fun _ after => BlocksOwned after)
        (op.program.run world) := by
  have outcome : ((FileOp.create ⟨[slash, 103], by decide⟩ T_FILE 0 0).program.run
      bootedWorld).outcome = .ret (some 1) := by decide +kernel
  cases ran : (FileOp.create ⟨[slash, 103], by decide⟩ T_FILE 0 0).program.run bootedWorld with
  | mk ended world writes =>
      rw [ran] at outcome
      cases outcome
      have allowed : (FileOp.create ⟨[slash, 103], by decide⟩ T_FILE 0 0).Allowed bootedWorld :=
        trivial
      exact ⟨world, ⟨_, _, rfl⟩, blocks_owned_once bootedWorld_whole (.step .start allowed ran)⟩

/-! ## Where the blocks are in order, and more is needed -/

/-- The small disk with another file in the place of `f`, and the bitmap that belongs to it. -/
def diskWith (file : Dinode) (bits : Byte) : Disk := fun blockno =>
  if blockno = 2 then setDinode (smallDisk 2) 2 file
  else if blockno = 5 then fun i => if (i : Nat) = 8 then bits else smallDisk 5 i
  else smallDisk blockno

/-- The block of `f` is missing. -/
def holedDisk : Disk := diskWith (oneBlock T_FILE 1 5 0) 5

def holedOwner (b : Nat) : Option (Nat × Nat) := if b = 65 then none else smallOwner b

theorem holedOwner_lt {b : Nat} {place : Nat × Nat} (owned : holedOwner b = some place) :
    b < 67 := by
  unfold holedOwner at owned
  split at owned
  · cases owned
  · exact smallOwner_lt owned

theorem holedDisk_direct : DirectBlocks smallSb holedDisk holedOwner :=
  directBlocks_of holedOwner_lt (by decide +kernel) (by decide +kernel) (by decide +kernel)

/-- Such a disk has its blocks in order, and so has a kernel that caches it. -/
theorem blocksOwned_of_direct {kernel : Kernel} {disk : Disk} {owner : Nat → Option (Nat × Nat)}
    (direct : DirectBlocks smallSb disk owner) (sameSb : kernel.sb = smallSb)
    (cache : CacheSound kernel (directGhost smallSb disk owner)) : BlocksOwned ⟨kernel, disk⟩ := by
  have accounted : Accounted ⟨kernel, disk⟩ (directGhost smallSb disk owner) :=
    { laid := direct.laid, sameSb, cache, store := directGhost_store
      blocks := direct.blocksSound, idle := directGhost_idle, settled := directGhost_settled }
  exact accounted.blocksOwned

/-- The kernel has mounted the disk, and no inode is in use. -/
def holedWorld : FsWorld := { bootedWorld with disk := holedDisk }

theorem holedWorld_blocksOwned : BlocksOwned holedWorld :=
  blocksOwned_of_direct holedDisk_direct rfl (cacheSound_of_single 0
    (show 0 < smallSb.ninodes by decide) (fun valid => absurd valid Bool.false_ne_true)
    (le_refl (0 : Int)) fun _ _ => rfl)

/-- The world after an operation. -/
def FileOp.after (op : FileOp) (world : FsWorld) : FsWorld := (op.program.run world).world

/-- An operation that returns. -/
theorem Worked.next {start world : FsWorld} (worked : Worked start world) {op : FileOp}
    {result : Option Slot} (allowed : op.Allowed world)
    (returns : (op.program.run world).outcome = .ret result) : Worked start (op.after world) := by
  unfold FileOp.after
  cases ran : op.program.run world with
  | mk outcome after writes =>
      rw [ran] at returns
      cases returns
      exact worked.step allowed ran

/-- `/f` is found, loaded and read, and given back. -/
def foundWorld : FsWorld := (FileOp.namei smallPath).after holedWorld

def loadedWorld : FsWorld := (FileOp.load 1).after foundWorld

def readWorld : FsWorld := (FileOp.serve (.read 1 0 5)).after loadedWorld

def lostWorld : FsWorld := (FileOp.iput 1).after readWorld

theorem lostWorld_worked : Worked holedWorld lostWorld := by
  have finds : ((FileOp.namei smallPath).program.run holedWorld).outcome =
      .ret (some 1) := by decide +kernel
  have loads : ((FileOp.load 1).program.run foundWorld).outcome = .ret none := by decide +kernel
  have reads : ((FileOp.serve (.read 1 0 5)).program.run loadedWorld).outcome = .ret none := by
    decide +kernel
  have gives : ((FileOp.iput 1).program.run readWorld).outcome = .ret none := by decide +kernel
  have onFile : OnFile loadedWorld 1 :=
    ⟨by decide +kernel, by decide +kernel, by decide +kernel⟩
  have owns : oneOf readWorld.mem.cwd 1 < (readWorld.mem.icache 1).ref := by decide +kernel
  have found : Worked holedWorld foundWorld := .next .start trivial finds
  have loaded : Worked holedWorld loadedWorld := found.next trivial loads
  have read : Worked holedWorld readWorld := loaded.next onFile reads
  exact read.next owns gives

/-- Where no inode is in use, all are as they are on disk. -/
theorem currentDin_of_unused {world : FsWorld} (unused : ∀ ip, (world.mem.icache ip).ref = 0)
    (i : Nat) : currentDin world i = onDisk world.mem.sb world.disk i := by
  unfold currentDin
  split
  · next ip found =>
    have inUse := List.find?_some found
    replace inUse := (of_decide_eq_true inUse).1
    rw [unused ip] at inUse
    exact absurd inUse (Int.lt_irrefl 0)
  · rfl

/-- The block that reading has put into the hole is marked, and no inode on disk refers to it. -/
theorem lostWorld_not_owned : ¬ BlocksOwned lostWorld := by
  intro owned
  have size : lostWorld.mem.sb = smallSb := by decide +kernel
  have marks : marked smallSb lostWorld.disk 65 = true := by decide +kernel
  have unused : ∀ ip, (lostWorld.mem.icache ip).ref = 0 := by decide +kernel
  have elsewhere : ∀ i < smallSb.ninodes, (onDisk smallSb lostWorld.disk i).addr NDIRECT = 0 ∧
      (onDisk smallSb lostWorld.disk i).addr (NDIRECT + 1) = 0 ∧
        ∀ k < NDIRECT, (onDisk smallSb lostWorld.disk i).addr k ≠ 65 := by
    decide +kernel
  have marked := owned.marks 65 (by rw [size]; decide)
  rw [size] at marked
  obtain low | ⟨place, refers, -⟩ := marked.mp marks
  · exact absurd low (by decide)
  · have inRange := refers.inRange
    have block := refers.block
    rw [currentDin_of_unused unused, size] at block
    rw [size] at inRange
    obtain ⟨single, double, apart⟩ := elsewhere place.1 inRange
    obtain ⟨k, small, isRoot⟩ := root_of_present single double refers.valid (by rw [block]; decide)
    rw [isRoot] at block
    exact apart k small block

/-- If a block is missing below the size of a file, reading there takes one, and it is lost with
the inode in memory. -/
theorem blocks_owned_not_kept :
    ¬ ∀ start world : FsWorld, BlocksOwned start → Worked start world → BlocksOwned world := by
  intro always
  exact lostWorld_not_owned
    (always _ _ holedWorld_blocksOwned lostWorld_worked)

/-- `f` has its block, and is longer than a file can be. -/
def longDisk : Disk :=
  diskWith (oneBlock T_FILE 1 (BitVec.ofNat 32 (MAXFILE * BSIZE + 1)) 65) 7

theorem longDisk_direct : DirectBlocks smallSb longDisk smallOwner :=
  directBlocks_of smallOwner_lt (by decide +kernel) (by decide +kernel) (by decide +kernel)

/-- The file is loaded. -/
def longWorld : FsWorld :=
  { bootedWorld with
    disk := longDisk
    mem :=
      { bootedWorld.mem with icache := fun ip =>
          if ip = 0 then
            { Inode.vacant with
              inum := 2, ref := 1, valid := true, din := onDisk smallSb longDisk 2 }
          else Inode.vacant } }

theorem longWorld_blocksOwned : BlocksOwned longWorld :=
  blocksOwned_of_direct longDisk_direct rfl (cacheSound_of_single 0
    (show 2 < smallSb.ninodes by decide) (fun _ => ⟨rfl, by decide +kernel⟩) Int.one_nonneg
    fun _ differ => congrArg Inode.ref (if_neg differ))

/-- If a file is longer than a file can be, reading at its end panics, whatever blocks are free. -/
theorem bmap_out_of_range :
    ¬ ∀ (start : FsWorld) (request : Request), BlocksOwned start → OnFile start request.ip →
      0 < freeOn start →
        Prog.Run.Ends (fun reason _ => reason ≠ .bmapOutOfRange) (fun _ _ => True)
          (request.program.run start) := by
  intro always
  have onFile : OnFile longWorld 0 := ⟨by decide +kernel, by decide +kernel, by decide +kernel⟩
  have ends := always longWorld (.read 0 (BitVec.ofNat 32 (MAXFILE * BSIZE)) 1)
    longWorld_blocksOwned onFile (by decide +kernel)
  have panics : ((Request.read 0 (BitVec.ofNat 32 (MAXFILE * BSIZE)) 1).program.run
      longWorld).outcome = .stop .bmapOutOfRange := by
    decide +kernel
  unfold Prog.Run.Ends at ends
  rw [panics] at ends
  exact ends rfl

end Notux.Sys
