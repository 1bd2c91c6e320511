import Notux.Fs.Files
import Notux.Fs.Directory

/-!
# Disks of small files

A disk whose files lie in direct blocks satisfies the invariant if the bitmap marks the
metadata and the blocks of the files, and nothing else.
-/

namespace Notux.Fs

open Notux.Store Notux.Proc

/-- All blocks of inodes are direct ones, and the bitmap marks them.  `owner` tells which block of
which inode a data block is. -/
structure DirectBlocks (sb : Superblock) (disk : Disk) (owner : Nat → Option (Nat × Nat)) :
    Prop where
  laid : WellLaid sb
  direct : ∀ i < sb.ninodes, (onDisk sb disk i).addr NDIRECT = 0 ∧
    (onDisk sb disk i).addr (NDIRECT + 1) = 0
  points : ∀ i < sb.ninodes, (onDisk sb disk i).type ≠ 0 → ∀ k < NDIRECT,
    (onDisk sb disk i).addr k ≠ 0 → owner ((onDisk sb disk i).addr k) = some (i, k)
  owned : ∀ b i k, owner b = some (i, k) → firstData sb ≤ b ∧ b < sb.size ∧ i < sb.ninodes ∧
    (onDisk sb disk i).type ≠ 0 ∧ k < NDIRECT ∧ (onDisk sb disk i).addr k = b
  marks : ∀ b < sb.size, marked sb disk b = true ↔ b < firstData sb ∨ (owner b).isSome = true

/-- Every file lies in direct blocks. -/
structure Direct (sb : Superblock) (disk : Disk) (owner : Nat → Option (Nat × Nat)) : Prop
    extends DirectBlocks sb disk owner where
  full : ∀ i < sb.ninodes, (onDisk sb disk i).type ≠ 0 →
    ∀ k, k * BSIZE < (onDisk sb disk i).size.toNat → k < NDIRECT ∧ (onDisk sb disk i).addr k ≠ 0
  entries : ∀ i < sb.ninodes, (onDisk sb disk i).type = T_DIR →
    DIRENT_SIZE ∣ (onDisk sb disk i).size.toNat ∧
      ∀ off, ((onDisk sb disk i).node disk).IsEntry off →
        (((onDisk sb disk i).node disk).dirent off).inum.toNat < sb.ninodes

/-- The ghost state of such a disk when no inode is in use. -/
def directGhost (sb : Superblock) (disk : Disk) (owner : Nat → Option (Nat × Nat)) : Ghost where
  sb
  view := onDisk sb disk
  tag b :=
    if b < firstData sb then .metadata
    else match owner b with
      | none => .free
      | some (i, k) => .owned i (.root k)
  held := 0
  detached := none
  dirty := none
  pinned := ∅
  aligned := True
  credit := 0

section Direct

variable {sb : Superblock} {disk : Disk} {owner : Nat → Option (Nat × Nat)}

theorem directGhost_idle : (directGhost sb disk owner).Idle := ⟨rfl, rfl⟩

theorem directGhost_owns {i : Nat} (owns : (directGhost sb disk owner).Owns i) :
    i < sb.ninodes ∧ (onDisk sb disk i).type ≠ 0 :=
  ⟨owns.inRange, owns.allocated⟩

/-- A table in which at most one entry is in use. -/
theorem cacheSound_of_single {kernel : Kernel} (used : Slot)
    (inRange : (kernel.icache used).inum < sb.ninodes)
    (loaded : (kernel.icache used).valid = true →
      (kernel.icache used).din = onDisk sb disk (kernel.icache used).inum ∧
        (onDisk sb disk (kernel.icache used).inum).type ≠ 0) (counted : 0 ≤ (kernel.icache used).ref)
    (others : ∀ ip ≠ used, (kernel.icache ip).ref = 0) :
    CacheSound kernel (directGhost sb disk owner) := by
  have only : ∀ ip, 0 < (kernel.icache ip).ref → ip = used := by
    intro ip inUse
    by_contra differ
    exact absurd (others ip differ) (Int.ne_of_gt inUse)
  constructor
  · intro a b first second _
    rw [only a first, only b second]
  · intro ip inUse
    rwa [only ip inUse]
  · intro ip inUse valid
    obtain rfl := only ip inUse
    exact loaded valid
  · intro ip
    by_cases same : ip = used
    · exact same ▸ counted
    · exact (others ip same).ge

/-- The copies of the inodes on disk are the inodes in view. -/
theorem directGhost_store : StoreSound disk (directGhost sb disk owner) where
  lags _ _ _ := ⟨rfl, rfl, rfl, rfl, rfl, fun _ => Or.inr rfl⟩
  clean _ _ _ _ := rfl

theorem directGhost_settled (b : Nat) : (directGhost sb disk owner).tag b ≠ .loose := by
  intro loose
  unfold directGhost at loose
  dsimp only at loose
  split at loose
  · cases loose
  · split at loose <;> cases loose

/-- Without indirect blocks, the present positions are the direct blocks. -/
theorem root_of_present {din : Dinode} {disk : Disk} (single : din.addr NDIRECT = 0)
    (double : din.addr (NDIRECT + 1) = 0) {p : Pos} (valid : p.Valid fileShape)
    (present : din.blockAt disk p ≠ 0) : ∃ k < NDIRECT, p = .root k := by
  induction p with
  | root k =>
      refine ⟨k, ?_, rfl⟩
      have bound : k < NDIRECT + 2 := valid
      by_contra beyond
      have which : k = NDIRECT ∨ k = NDIRECT + 1 := by omega
      rcases which with rfl | rfl
      · exact present single
      · exact present double
  | child parent j ih =>
      obtain ⟨k, small, rfl⟩ := ih valid.1 (Pos.parent_ne_zero present)
      have levels := valid.2.1
      simp only [Pos.height, fileShape] at levels
      omega

section Blocks

variable (direct : DirectBlocks sb disk owner)

include direct

/-- The tag of a data block. -/
theorem DirectBlocks.tag_of_owned {b i k : Nat} (owned : owner b = some (i, k)) :
    (directGhost sb disk owner).tag b = .owned i (.root k) := by
  have beyond := (direct.owned b i k owned).1
  unfold directGhost
  dsimp only
  rw [if_neg (Nat.not_lt.mpr beyond), owned]

omit direct in
theorem owner_of_directGhost {b i : Nat} {p : Pos}
    (tag : (directGhost sb disk owner).tag b = .owned i p) :
    ∃ k, p = .root k ∧ owner b = some (i, k) := by
  unfold directGhost at tag
  dsimp only at tag
  split at tag
  · cases tag
  · split at tag
    · cases tag
    · next k found =>
      cases tag
      exact ⟨k, rfl, found⟩

theorem DirectBlocks.blocksSound : BlocksSound disk (directGhost sb disk owner) where
  marks := by
    intro b inside
    refine (direct.marks b inside).trans ?_
    unfold directGhost
    dsimp only
    split
    · next metadata => simp [metadata]
    · next data =>
      cases found : owner b with
      | none => simp [data]
      | some place => simp
  metadata := by
    intro b
    unfold directGhost
    dsimp only
    split
    · next metadata => simp [metadata]
    · next data => cases found : owner b <;> simp [data]
  inside := by
    intro b used
    cases found : owner b with
    | some place => exact (direct.owned b _ _ found).2.1
    | none =>
        by_contra outside
        apply used
        have below : firstData sb ≤ sb.size := firstData_le
        unfold directGhost at *
        dsimp only at *
        rw [if_neg (by omega), found]
  points := by
    intro i p owns valid present
    obtain ⟨inRange, allocated⟩ := directGhost_owns owns
    obtain ⟨single, double⟩ := direct.direct i inRange
    obtain ⟨k, small, rfl⟩ := root_of_present single double valid present
    exact direct.tag_of_owned (direct.points i inRange allocated k small present)
  owned := by
    intro b i p tag _
    obtain ⟨k, rfl, found⟩ := owner_of_directGhost tag
    obtain ⟨-, -, inRange, allocated, small, isAt⟩ := direct.owned b i k found
    exact ⟨⟨inRange, allocated, nofun⟩, Nat.lt_add_right 2 small, isAt⟩
  credit := Nat.zero_le _

end Blocks

variable (direct : Direct sb disk owner)

include direct

theorem Direct.fileSound {i : Nat} (owns : (directGhost sb disk owner).Owns i) :
    FileSound disk (directGhost sb disk owner) i := by
  obtain ⟨inRange, allocated⟩ := directGhost_owns owns
  have full := direct.full i inRange allocated
  constructor
  · by_contra large
    have beyond := (full NDIRECT (Nat.lt_of_le_of_lt (by decide) (Nat.not_le.mp large))).1
    exact absurd beyond (by decide)
  · intro bn inside
    obtain ⟨small, present⟩ := full bn inside
    unfold posOf
    rw [if_pos small]
    exact present
  · intro isDir
    obtain ⟨multiple, inRange⟩ := direct.entries i inRange isDir
    exact ⟨fun _ => multiple, fun off aligned inside _ =>
      ⟨inRange off ⟨aligned, inside⟩, fun pinned => pinned.elim⟩⟩

/-- The invariant holds of the disk and of an inode table that caches it. -/
theorem Direct.sound {kernel : Kernel} (sameSb : kernel.sb = sb)
    (mounted : kernel.xv6fsMounted = true)
    (cache : CacheSound kernel (directGhost sb disk owner)) :
    Sound ∅ ⟨kernel, disk⟩ (directGhost sb disk owner) where
  laid := direct.laid
  sameSb := sameSb
  mounted := mounted
  cache := cache
  store := directGhost_store
  blocks := direct.blocksSound
  files _ owns := direct.fileSound owns
  pinned := nofun
  base := Set.empty_subset _

end Direct

/-! ## A small disk -/

def smallSb : Superblock := ⟨XV6_MAGIC, 128, 64, 14, 0, 2, 2, 5⟩

/-- An inode whose only block is `b`. -/
def oneBlock (type nlink : BitVec 16) (size : BitVec 32) (b : BitVec 32) : Dinode :=
  { Dinode.zero with type, nlink, size, addrs := fun i => if i = 0 then b else 0 }

/-- A block of directory entries. -/
def entryBlock (entries : List (Nat × List Byte)) : Block := fun i =>
  match entries[(i : Nat) / DIRENT_SIZE]? with
  | none => 0
  | some (inum, name) => (Dirent.bytes ⟨BitVec.ofNat 16 inum, strncpy name⟩) (i % DIRENT_SIZE)

/-- The root directory holds the file `f`, whose content is `hello`, and the empty directory
`d`. -/
def smallDisk : Disk := fun blockno =>
  if blockno = 2 then
    setDinode (setDinode (setDinode Buffer.zero 1 (oneBlock T_DIR 1 64 64))
      2 (oneBlock T_FILE 1 5 65)) 3 (oneBlock T_DIR 1 32 66)
  else if blockno = 5 then fun i => if i < 8 then 255 else if i = 8 then 7 else 0
  else if blockno = 64 then entryBlock [(1, [46]), (1, [46, 46]), (2, [102]), (3, [100])]
  else if blockno = 65 then fun i => [104, 101, 108, 108, 111].getD i 0
  else if blockno = 66 then entryBlock [(3, [46]), (1, [46, 46])]
  else Buffer.zero

def smallOwner (b : Nat) : Option (Nat × Nat) :=
  if b = 64 then some (1, 0) else if b = 65 then some (2, 0) else if b = 66 then some (3, 0)
  else none

theorem smallOwner_lt {b : Nat} {place : Nat × Nat} (owned : smallOwner b = some place) :
    b < 67 := by
  by_contra beyond
  unfold smallOwner at owned
  rw [if_neg (by omega), if_neg (by omega), if_neg (by omega)] at owned
  cases owned

section Small

variable {disk : Disk} {owner : Nat → Option (Nat × Nat)}

/-- The checks of a disk of this size are finitely many. -/
theorem directBlocks_of (below : ∀ {b place}, owner b = some place → b < 67)
    (points : ∀ i < smallSb.ninodes, (onDisk smallSb disk i).addr NDIRECT = 0 ∧
      (onDisk smallSb disk i).addr (NDIRECT + 1) = 0 ∧ ∀ k < NDIRECT,
        (onDisk smallSb disk i).addr k ≠ 0 → owner ((onDisk smallSb disk i).addr k) = some (i, k))
    (owned : ∀ b < 67, ∀ place ∈ owner b, firstData smallSb ≤ b ∧ b < smallSb.size ∧
      place.1 < smallSb.ninodes ∧ (onDisk smallSb disk place.1).type ≠ 0 ∧
      place.2 < NDIRECT ∧ (onDisk smallSb disk place.1).addr place.2 = b)
    (marks : ∀ b < smallSb.size, marked smallSb disk b = true ↔
      b < firstData smallSb ∨ (owner b).isSome = true) : DirectBlocks smallSb disk owner where
  laid := ⟨by decide, by decide, by decide⟩
  direct i inRange := ⟨(points i inRange).1, (points i inRange).2.1⟩
  points i inRange _ := (points i inRange).2.2
  owned b i k found := owned b (below found) (i, k) found
  marks := marks

/-- Every file has one block. -/
theorem direct_of (blocks : DirectBlocks smallSb disk owner)
    (single : ∀ i < smallSb.ninodes, (onDisk smallSb disk i).type ≠ 0 →
      (onDisk smallSb disk i).size.toNat ≤ BSIZE ∧ (onDisk smallSb disk i).addr 0 ≠ 0)
    (dirs : ∀ i < smallSb.ninodes, (onDisk smallSb disk i).type = T_DIR →
      DIRENT_SIZE ∣ (onDisk smallSb disk i).size.toNat ∧
        ∀ k < (onDisk smallSb disk i).size.toNat / DIRENT_SIZE,
          (((onDisk smallSb disk i).node disk).dirent (DIRENT_SIZE * k)).inum.toNat <
            smallSb.ninodes) : Direct smallSb disk owner where
  toDirectBlocks := blocks
  full := by
    intro i inRange allocated k inside
    obtain ⟨short, present⟩ := single i inRange allocated
    have first : k = 0 := by
      simp only [BSIZE] at *
      omega
    subst first
    exact ⟨by decide, present⟩
  entries := by
    intro i inRange isDir
    obtain ⟨multiple, inside⟩ := dirs i inRange isDir
    refine ⟨multiple, ?_⟩
    rintro off ⟨⟨k, rfl⟩, within⟩
    apply inside
    change DIRENT_SIZE * k + DIRENT_SIZE ≤ (onDisk smallSb disk i).size.toNat at within
    simp only [DIRENT_SIZE] at *
    omega

end Small

theorem smallDisk_direct : Direct smallSb smallDisk smallOwner :=
  direct_of (directBlocks_of smallOwner_lt (by decide +kernel) (by decide +kernel)
    (by decide +kernel)) (by decide +kernel) (by decide +kernel)

end Notux.Fs
