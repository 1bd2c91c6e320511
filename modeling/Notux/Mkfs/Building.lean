import Notux.Fs.Content
import Notux.Mkfs.Image
import Notux.Store.State

/-!
# The image under construction

The bitmap is written last.  With the bitmap that would be written now in its
place, the image satisfies the invariant of the file system at every moment: the
blocks below the counter belong to the trees, the ones above it are free and
zero.
-/

namespace Notux.Mkfs

open Notux.Store Notux.Fs Notux.Proc

/-! ## The bitmap -/

theorem bitSet_foldl (condition : Nat → Prop) [DecidablePred condition] {n : Nat}
    (inside : n ≤ BPB) (bj : Nat) :
    bitSet ((List.range n).foldl
        (fun buf bi => if condition bi then setBit buf bi else buf) Buffer.zero) bj =
      decide (bj < n ∧ condition bj) := by
  induction n with
  | zero => simp
  | succ n ih =>
      have before := ih (by omega)
      rw [List.range_succ, List.foldl_append, List.foldl_cons, List.foldl_nil]
      split
      · next set =>
        rw [bitSet_setBit _ (by omega), before]
        by_cases same : bj = n
        · subst same
          simp [set]
        · have bound : bj < n + 1 ↔ bj < n := by omega
          simp [same, bound]
      · next clear =>
        rw [before]
        by_cases same : bj = n
        · subst same
          simp [clear]
        · have bound : bj < n + 1 ↔ bj < n := by omega
          simp [bound]

/-- The bitmap marks the blocks below the counter. -/
theorem bitSet_bitmapBlock (used k : Nat) {bi : Nat} (inside : bi < BPB) :
    bitSet (bitmapBlock used k) bi = decide (k * BPB + bi < used) := by
  unfold bitmapBlock
  rw [bitSet_foldl (fun bi => k * BPB + bi < used) (Nat.le_refl _)]
  simp [inside]

theorem bitmapBlock_congr {used used' k : Nat}
    (same : ∀ bi < BPB, k * BPB + bi < used ↔ k * BPB + bi < used') :
    bitmapBlock used k = bitmapBlock used' k := by
  unfold bitmapBlock
  apply List.foldl_ext
  intro buf bi member
  have bit := same bi (List.mem_range.mp member)
  simp only [bit]

/-- One more block changes one block of the bitmap. -/
theorem bitmapBlock_succ_of_ne {used k : Nat} (other : k ≠ used / BPB) :
    bitmapBlock (used + 1) k = bitmapBlock used k := by
  apply bitmapBlock_congr
  intro bi inside
  simp only [BPB] at *
  omega

/-- The first loop of `balloc_mark_used` stays in its buffer as long as it counts
no further than the buffer has bits. -/
theorem markBuffer_stray (used : Nat) : (markBuffer used).2 = [] ↔ used ≤ BPB := by
  unfold markBuffer
  induction used with
  | zero => simp
  | succ used ih =>
      rw [List.range_succ, List.foldl_append, List.foldl_cons, List.foldl_nil]
      generalize List.foldl _ _ (List.range used) = loop at ih ⊢
      by_cases within : used / 8 < BSIZE
      · simp only [within, if_true, ih]
        simp only [BSIZE, BPB] at *
        omega
      · simp only [within, if_false, List.append_eq_nil_iff, List.cons_ne_self, and_false,
          false_iff]
        simp only [BSIZE, BPB] at *
        omega

/-! ## The image as a disk of the kernel -/

/-- The disk with the bitmap that would be written now. -/
def Image.bitmapped (image : Image) : Disk :=
  Function.update
    (Function.update image.disk sb.bmapstart (bitmapBlock image.freeblock 0))
    (sb.bmapstart + 1) (bitmapBlock image.freeblock 1)

/-- The image as a kernel sees it. -/
def Image.world (kernel : Kernel) (image : Image) : FsWorld := ⟨kernel, image.bitmapped⟩

/-- A sector that holds no part of the bitmap. -/
def NotBitmap (sec : Nat) : Prop := sec < sb.bmapstart ∨ nmeta ≤ sec

theorem NotBitmap.ne {sec : Nat} (notBitmap : NotBitmap sec) :
    sec ≠ sb.bmapstart ∧ sec ≠ sb.bmapstart + 1 := by
  have place : sb.bmapstart = 61 := rfl
  have start : nmeta = 64 := rfl
  unfold NotBitmap at notBitmap
  omega

theorem bitmapped_of_notBitmap (image : Image) {sec : Nat} (notBitmap : NotBitmap sec) :
    image.bitmapped sec = image.disk sec := by
  obtain ⟨notFirst, notSecond⟩ := notBitmap.ne
  unfold Image.bitmapped
  rw [Function.update_of_ne notSecond, Function.update_of_ne notFirst]

/-- `wsect` of a sector outside the bitmap. -/
theorem bitmapped_write (image : Image) {sec : Nat} (notBitmap : NotBitmap sec) (buf : Block)
    (sectors : Nat) :
    ({ image with disk := Function.update image.disk sec buf, sectors } : Image).bitmapped =
      Function.update image.bitmapped sec buf := by
  obtain ⟨notFirst, notSecond⟩ := notBitmap.ne
  unfold Image.bitmapped
  rw [Function.update_comm notFirst, Function.update_comm notSecond]

theorem bblock_sb {b : Nat} (inside : b < FSSIZE) : bblock sb b = b / BPB + sb.bmapstart := by
  have place : sb.bmapstart = 61 := rfl
  unfold bblock
  apply Nat.mod_eq_of_lt
  simp only [FSSIZE, BPB] at *
  omega

/-- Moving the counter on marks one block. -/
theorem bitmapped_take (image : Image) (room : image.freeblock < FSSIZE) :
    ({ image with freeblock := image.freeblock + 1 } : Image).bitmapped =
      Function.update image.bitmapped (bblock sb image.freeblock)
        (bitmapBlock (image.freeblock + 1) (image.freeblock / BPB)) := by
  have half : image.freeblock / BPB = 0 ∨ image.freeblock / BPB = 1 := by
    simp only [FSSIZE, BPB] at *
    omega
  have differ : sb.bmapstart ≠ sb.bmapstart + 1 := by omega
  rw [bblock_sb room]
  unfold Image.bitmapped
  rcases half with first | second
  · have other : bitmapBlock (image.freeblock + 1) 1 = bitmapBlock image.freeblock 1 :=
      bitmapBlock_succ_of_ne (by omega)
    rw [first, Nat.zero_add, other, Function.update_comm differ.symm, Function.update_idem,
      Function.update_comm differ]
  · have other : bitmapBlock (image.freeblock + 1) 0 = bitmapBlock image.freeblock 0 :=
      bitmapBlock_succ_of_ne (by omega)
    rw [second, Nat.add_comm 1, other, Function.update_idem]

/-- The bitmap agrees with the counter. -/
theorem marked_bitmapped (image : Image) {b : Nat} (inside : b < FSSIZE) :
    marked sb image.bitmapped b = true ↔ b < image.freeblock := by
  have half : b / BPB = 0 ∨ b / BPB = 1 := by
    simp only [FSSIZE, BPB] at *
    omega
  have place : b % BPB < BPB := Nat.mod_lt _ (by decide)
  have whole := Nat.div_add_mod b BPB
  have differ : sb.bmapstart ≠ sb.bmapstart + 1 := by omega
  unfold marked Image.bitmapped
  rw [bblock_sb inside]
  rcases half with first | second
  · rw [first] at whole ⊢
    rw [Nat.zero_add, Function.update_of_ne differ, Function.update_self,
      bitSet_bitmapBlock _ _ place, decide_eq_true_iff]
    omega
  · rw [second] at whole ⊢
    rw [Nat.add_comm 1, Function.update_self, bitSet_bitmapBlock _ _ place,
      decide_eq_true_iff]
    omega

/-! ## The invariant -/

/-- A kernel that has mounted the image and uses none of its inodes. -/
structure Mounted (kernel : Kernel) : Prop where
  sb : kernel.sb = sb
  mounted : kernel.xv6fsMounted = true
  unused : ∀ ip, (kernel.icache ip).ref = 0

/-- An inode table without references caches every view. -/
theorem Mounted.cache {kernel : Kernel} (mounted : Mounted kernel) {g : Ghost}
    (held : g.held = 0) : CacheSound kernel g where
  unique a _ inUse := absurd inUse (by rw [mounted.unused a]; exact lt_irrefl 0)
  inRange ip inUse := absurd inUse (by rw [mounted.unused ip]; exact lt_irrefl 0)
  cached ip inUse := absurd inUse (by rw [mounted.unused ip]; exact lt_irrefl 0)
  holds ip := by rw [held, mounted.unused ip]; exact le_refl 0

/-- The image satisfies the invariant of the file system, and the counters say which
blocks and inodes are in use. -/
structure Building (kernel : Kernel) (image : Image) (g : Ghost) : Prop where
  sound : Sound ∅ (image.world kernel) g
  sb : g.sb = Mkfs.sb
  held : g.held = 0
  detached : g.detached = none
  pinned : g.pinned = ∅
  aligned : g.aligned
  credit : g.credit = 0
  sectors : image.sectors = FSSIZE
  free : ∀ b, g.tag b = .free ↔ image.freeblock ≤ b
  attached : ∀ b, g.tag b ≠ .loose
  unused : ∀ i, image.freeinode ≤ i → g.view i = Dinode.zero
  zero : ∀ b, image.freeblock ≤ b → image.disk b = Buffer.zero
  super : image.disk 1 = superblockBlock

/-- The image after one block has been taken and a block written. -/
def Image.taken (image : Image) (disk : Disk) : Image :=
  { image with disk, freeblock := image.freeblock + 1 }

/-- The ghost state in which the next block is marked. -/
def nextMarked (image : Image) (g : Ghost) : Ghost :=
  g.retag image.freeblock .loose (g.credit - 1)

section Invariant

variable {kernel : Kernel} {image : Image} {g : Ghost} (building : Building kernel image g)

include building

theorem Building.nmeta_le : nmeta ≤ image.freeblock := by
  by_contra low
  have metadata := (building.sound.blocks.metadata image.freeblock).mpr (by
    rw [building.sb]
    exact Nat.lt_of_not_le low)
  rw [(building.free _).mpr (Nat.le_refl _)] at metadata
  cases metadata

theorem Building.freeblock_le : image.freeblock ≤ FSSIZE := by
  by_contra beyond
  have used : g.tag FSSIZE ≠ .free := fun free => beyond ((building.free _).mp free)
  have inside := building.sound.blocks.inside FSSIZE used
  rw [building.sb] at inside
  exact Nat.lt_irrefl _ inside

/-- The blocks of the trees lie between the metadata and the counter. -/
theorem Building.owned_range {b i : Nat} {p : Pos} (owned : g.tag b = .owned i p) :
    nmeta ≤ b ∧ b < image.freeblock := by
  constructor
  · by_contra low
    have metadata := (building.sound.blocks.metadata b).mpr (by
      rw [building.sb]
      exact Nat.lt_of_not_le low)
    rw [owned] at metadata
    cases metadata
  · by_contra beyond
    have free := (building.free b).mpr (Nat.le_of_not_lt beyond)
    rw [owned] at free
    cases free

theorem Building.present_range {n : Nat} (owns : g.Owns n) {p : Pos}
    (valid : p.Valid fileShape) (present : (g.view n).blockAt image.bitmapped p ≠ 0) :
    nmeta ≤ (g.view n).blockAt image.bitmapped p ∧
      (g.view n).blockAt image.bitmapped p < image.freeblock :=
  building.owned_range (building.sound.blocks.points n p owns valid present)

theorem Building.used_inode {n : Nat} (owns : g.Owns n) : n < image.freeinode := by
  by_contra beyond
  have zero := building.unused n (Nat.le_of_not_lt beyond)
  have allocated := owns.allocated
  rw [zero] at allocated
  exact allocated rfl

/-! ## Taking a block -/

/-- Moving the counter on is an allocation. -/
theorem Building.take (room : image.freeblock < FSSIZE) :
    Allocates (image.world kernel) ((image.taken image.disk).world kernel) g
        image.freeblock ∧
      Sound ∅ ((image.taken image.disk).world kernel) (nextMarked image g) := by
  have free := (building.free image.freeblock).mpr (Nat.le_refl _)
  have inside : image.freeblock < g.sb.size := by
    rw [building.sb]
    exact room
  have taken : (image.taken image.disk).bitmapped =
      Function.update image.bitmapped (bblock g.sb image.freeblock)
        (bitmapBlock (image.freeblock + 1) (image.freeblock / BPB)) :=
    building.sb ▸ bitmapped_take image room
  have notBitmap : NotBitmap image.freeblock := Or.inr building.nmeta_le
  constructor
  · refine ⟨rfl, free, inside, ?_, fun x used data => ?_⟩
    · rw [← building.zero image.freeblock (Nat.le_refl _)]
      exact bitmapped_of_notBitmap _ notBitmap
    · change (image.taken image.disk).bitmapped x = _
      rw [taken]
      apply Function.update_of_ne
      intro same
      rw [same] at data
      exact data (building.sound.metadata_bblock inside)
  · have marked := @Sound.retag _ _ _ building.sound _ (g.credit - 1) .loose
      (bitmapBlock (image.freeblock + 1) (image.freeblock / BPB)) inside
      (by simp [free]) (fun i p tag => by simp [free] at tag) (Or.inl rfl) ?_ ?_
    · change Sound ∅ ⟨kernel, (image.taken image.disk).bitmapped⟩ _
      rw [taken]
      exact marked
    · intro x small
      change marked g.sb (Function.update image.bitmapped _ _) x = true ↔
        if x = image.freeblock then _ else marked g.sb image.bitmapped x = true
      rw [← taken]
      rw [building.sb] at small ⊢
      rw [marked_bitmapped _ small, marked_bitmapped _ small]
      simp only [Image.taken]
      by_cases same : x = image.freeblock
      · simp [same]
      · rw [if_neg same]
        omega
    · rw [building.credit]
      exact Nat.zero_le _

end Invariant

/-- A block has been taken for a position of the tree of inode `n`. -/
structure Takes (kernel : Kernel) (n : Nat) (p : Pos) (image : Image) (g : Ghost)
    (image' : Image) (g' : Ghost) : Prop where
  building : Building kernel image' g'
  maps : Maps ∅ n 1 p (image.world kernel) g image.freeblock (image'.world kernel) g'
  places : ∀ q, q.Valid fileShape → (g'.view n).blockAt image'.bitmapped q =
    if q = p then image.freeblock else (g.view n).blockAt image.bitmapped q
  others : ∀ i, i ≠ n → g.Owns i → ∀ q, q.Valid fileShape →
    (g'.view i).blockAt image'.bitmapped q = (g.view i).blockAt image.bitmapped q
  freeblock : image'.freeblock = image.freeblock + 1
  freeinode : image'.freeinode = image.freeinode
  stray : image'.stray = image.stray

section Taking

variable {kernel : Kernel} {image : Image} {g : Ghost} {n : Nat}

theorem Building.attach (building : Building kernel image g) (room : image.freeblock < FSSIZE)
    (owns : g.Owns n) {target : Pos} {din : Dinode} {dirty : Option Nat} {disk : Disk}
    (sound : Sound ∅ ((image.taken disk).world kernel)
      ((nextMarked image g).attach n target image.freeblock din dirty))
    (attaches : Attaches (image.taken image.disk).bitmapped (image.taken disk).bitmapped
      (nextMarked image g) n target image.freeblock din)
    (only : OnlyDirty (nextMarked image g) n → ∀ i, dirty = some i → i = n)
    (zero : ∀ b, image.freeblock < b → disk b = Buffer.zero)
    (super : disk 1 = superblockBlock) :
    Takes kernel n target image g (image.taken disk)
      ((nextMarked image g).attach n target image.freeblock din dirty) := by
  obtain ⟨allocates, marked⟩ := building.take room
  have same : ∀ i, SameBlocks g i image.bitmapped (image.taken image.disk).bitmapped :=
    fun i x p tag => allocates.same x (by rw [tag]; simp) (by rw [tag]; simp)
  have blocks := building.sound.blocks
  have self : ((nextMarked image g).attach n target image.freeblock din dirty).tag
      image.freeblock = .owned n target := Function.update_self _ _ _
  have tags : ∀ b, b ≠ image.freeblock →
      ((nextMarked image g).attach n target image.freeblock din dirty).tag b = g.tag b :=
    fun b differ => (Attaches.tag_of_ne differ).trans (retag_tag_of_ne g differ _ _)
  refine ⟨?_, ⟨sound, ?_, ?_, allocates.ne_zero building.sound, attach_settled⟩, ?_, ?_, rfl, rfl,
    rfl⟩
  · refine ⟨sound, building.sb, building.held, building.detached, building.pinned,
      building.aligned, ?_, building.sectors, fun b => ?_, fun b => ?_, fun i beyond => ?_,
      fun b beyond => zero b beyond, super⟩
    · change g.credit - 1 = 0
      rw [building.credit]
    · by_cases next : b = image.freeblock
      · subst next
        rw [self]
        simp [Image.taken]
      · rw [tags b next, building.free b]
        simp only [Image.taken]
        omega
    · by_cases next : b = image.freeblock
      · subst next
        rw [self]
        simp
      · rw [tags b next]
        exact building.attached b
    · have differ : i ≠ n := by
        rintro rfl
        exact Nat.not_lt.mpr beyond (building.used_inode owns)
      rw [Attaches.view_of_ne differ]
      exact building.unused i beyond
  · exact (allocates.grows building.sound owns).trans
      (Attaches.grows attaches marked (SameSlots.refl _) only)
  · rw [Attaches.view_self]
    exact (attaches.blockAt attaches.valid).trans (if_pos rfl)
  · intro q valid
    rw [Attaches.view_self]
    refine (attaches.blockAt valid).trans ?_
    rw [show ((nextMarked image g).view n).blockAt (image.taken image.disk).bitmapped q =
      (g.view n).blockAt image.bitmapped q from blockAt_same blocks owns (same n) valid]
  · intro i differ owned q valid
    rw [Attaches.view_of_ne differ]
    have marking := blockAt_same blocks owned (same i) valid
    exact (blockAt_same marked.blocks owned.retag (attaches.others i differ) valid).trans marking

theorem nextMarked_loose : (nextMarked image g).tag image.freeblock = .loose :=
  retag_tag_self _ _ _ _

/-- A block is taken for a new address in the inode. -/
theorem Building.take_root (building : Building kernel image g) (mounted : Mounted kernel)
    (room : image.freeblock < FSSIZE) (owns : g.Owns n) (only : OnlyDirty g n) {r : Nat}
    (root : r < fileShape.roots) (missing : (g.view n).addr r = 0) :
    ∃ g', Takes kernel n (.root r) image g (image.taken image.disk) g' ∧
      g'.view n = (g.view n).setAddr r image.freeblock := by
  obtain ⟨allocates, marked⟩ := building.take room
  have onlyMarked : OnlyDirty (nextMarked image g) n := ⟨only.dirty, only.detached⟩
  have attaches := marked.attaches_root owns.retag root missing nextMarked_loose allocates.zero
  have sound := @Sound.attach_root_of_cache _ _ _ marked _ _ _ kernel rfl marked.mounted
    (mounted.cache building.held) onlyMarked owns.retag root missing nextMarked_loose
    allocates.zero
  refine ⟨_, building.attach room owns sound attaches ?_ ?_ building.super, Attaches.view_self⟩
  · rintro - i same
    exact (Option.some.inj same).symm
  · exact fun b beyond => building.zero b (Nat.le_of_lt beyond)

/-- A block is taken for a new entry in a block of block numbers. -/
theorem Building.take_child (building : Building kernel image g)
    (room : image.freeblock < FSSIZE) (owns : g.Owns n) {parent : Pos} {j : Nat}
    (valid : (Pos.child parent j).Valid fileShape)
    (present : (g.view n).blockAt image.bitmapped parent ≠ 0)
    (missing : word (image.disk ((g.view n).blockAt image.bitmapped parent)) j = 0) :
    ∃ g', Takes kernel n (.child parent j) image g
        (image.taken (Function.update image.disk ((g.view n).blockAt image.bitmapped parent)
          (setWord (image.disk ((g.view n).blockAt image.bitmapped parent)) j
            image.freeblock))) g' ∧
      g'.view n = g.view n := by
  obtain ⟨allocates, marked⟩ := building.take room
  have range := building.present_range owns valid.parent present
  have notBitmap : NotBitmap ((g.view n).blockAt image.bitmapped parent) := Or.inr range.1
  have grown := allocates.grows building.sound owns
  have place : ((nextMarked image g).view n).blockAt (image.taken image.disk).bitmapped parent =
      (g.view n).blockAt image.bitmapped parent := grown.keeps parent valid.parent present
  have presentMarked :
      ((nextMarked image g).view n).blockAt (image.taken image.disk).bitmapped parent ≠ 0 :=
    fun zero => present (place.symm.trans zero)
  have contents : (image.taken image.disk).bitmapped
      (((nextMarked image g).view n).blockAt (image.taken image.disk).bitmapped parent) =
        image.disk ((g.view n).blockAt image.bitmapped parent) := by
    rw [place]
    exact bitmapped_of_notBitmap _ notBitmap
  have missingMarked : word ((image.taken image.disk).bitmapped
      (((nextMarked image g).view n).blockAt (image.taken image.disk).bitmapped parent)) j = 0 :=
    contents ▸ missing
  have attaches := marked.attaches_child owns.retag valid.parent valid.parent_height valid.2.2
    presentMarked missingMarked nextMarked_loose allocates.zero
  have sound := marked.attach_child owns.retag valid.parent valid.parent_height valid.2.2
    presentMarked missingMarked nextMarked_loose allocates.zero
  have written := bitmapped_write (image.taken image.disk) notBitmap
    (setWord (image.disk ((g.view n).blockAt image.bitmapped parent)) j image.freeblock)
    image.sectors
  rw [show ((image.taken image.disk).world kernel).disk = (image.taken image.disk).bitmapped
    from rfl, contents, place] at attaches
  refine ⟨_, building.attach room owns ?_ ?_ (fun only => only.dirty) ?_ ?_,
    Attaches.view_self⟩
  · have world : (image.taken (Function.update image.disk
        ((g.view n).blockAt image.bitmapped parent)
          (setWord (image.disk ((g.view n).blockAt image.bitmapped parent)) j
            image.freeblock))).world kernel = writeDisk ((image.taken image.disk).world kernel)
        ((g.view n).blockAt image.bitmapped parent)
        (setWord (image.disk ((g.view n).blockAt image.bitmapped parent)) j image.freeblock) :=
      congrArg (World.mk kernel) written
    rw [world]
    rw [show ((image.taken image.disk).world kernel).disk = (image.taken image.disk).bitmapped
      from rfl, contents, place] at sound
    exact sound
  · exact written.symm ▸ attaches
  · intro b beyond
    rw [Function.update_of_ne (by omega)]
    exact building.zero b (Nat.le_of_lt beyond)
  · rw [Function.update_of_ne (by have start : nmeta = 64 := rfl; omega)]
    exact building.super

end Taking

/-! ## Writing a sector -/

/-- The image after `wsect`. -/
def Image.written (image : Image) (sec : Nat) (buf : Block) : Image :=
  { image with
    disk := Function.update image.disk sec buf
    sectors := max image.sectors (sec + 1) }

theorem world_written (kernel : Kernel) (image : Image) {sec : Nat} (notBitmap : NotBitmap sec)
    (buf : Block) :
    (image.written sec buf).world kernel = writeDisk (image.world kernel) sec buf :=
  congrArg (World.mk kernel) (bitmapped_write image notBitmap buf _)

section Writing

variable {kernel : Kernel} {image : Image} {g : Ghost} {n : Nat}

theorem Building.sectors_written (building : Building kernel image g) {sec : Nat}
    (low : sec < image.freeblock) (buf : Block) : (image.written sec buf).sectors = FSSIZE := by
  have room := building.freeblock_le
  simp only [Image.written, building.sectors]
  omega

/-- The superblock stays. -/
theorem Building.super_written (building : Building kernel image g) {sec : Nat}
    (beyond : 1 < sec) (buf : Block) : (image.written sec buf).disk 1 = superblockBlock := by
  change Function.update image.disk sec buf 1 = superblockBlock
  rw [Function.update_of_ne (Nat.ne_of_lt beyond)]
  exact building.super

/-- A block of a file is written in a way that keeps the invariant. -/
theorem Building.write (building : Building kernel image g) {sec : Nat} {buf : Block}
    (data : nmeta ≤ sec) (low : sec < image.freeblock)
    (sound : Sound ∅ (writeDisk (image.world kernel) sec buf) g) :
    Building kernel (image.written sec buf) g :=
  { building with
    sound := world_written kernel image (Or.inr data) buf ▸ sound
    sectors := building.sectors_written low buf
    super := building.super_written (Nat.lt_of_lt_of_le (by decide) data) buf
    zero := fun b beyond => by
      change image.freeblock ≤ b at beyond
      change Function.update image.disk sec buf b = Buffer.zero
      rw [Function.update_of_ne (by omega)]
      exact building.zero b beyond }

/-- The image after `winode`. -/
def Image.putInode (image : Image) (n : Nat) (din : Dinode) : Image :=
  image.written (iblock sb n) (setDinode (image.disk (iblock sb n)) (n % IPB) din)

theorem iblock_eq {n : Nat} (inRange : n < NINODES) : iblock sb n = n / 7 + 32 := by
  have start : sb.inodestart = 32 := rfl
  apply Nat.mod_eq_of_lt
  simp only [IPB, NINODES] at *
  omega

theorem iblock_sb {n : Nat} (inRange : n < NINODES) :
    iblock sb n < sb.bmapstart ∧ iblock sb n < nmeta := by
  have place : sb.bmapstart = 61 := rfl
  have data : nmeta = 64 := rfl
  have block := iblock_eq inRange
  simp only [NINODES] at inRange
  omega

/-- An inode is written. -/
theorem Building.put (building : Building kernel image g) (mounted : Mounted kernel)
    {din : Dinode} (inRange : n < NINODES) (used : n < image.freeinode) (only : OnlyDirty g n)
    (points : (g.put n din).Owns n → ∀ p, p.Valid fileShape →
      din.blockAt image.bitmapped p ≠ 0 → g.tag (din.blockAt image.bitmapped p) = .owned n p)
    (owned : ∀ b p, g.tag b = .owned n p →
      (g.put n din).Owns n ∧ p.Valid fileShape ∧ din.blockAt image.bitmapped p = b)
    (file : (g.put n din).Owns n → FileSound image.bitmapped (g.put n din) n) :
    Building kernel (image.putInode n din) (g.put n din) := by
  have place := iblock_sb inRange
  have notBitmap : NotBitmap (iblock Mkfs.sb n) := Or.inl place.1
  have low : iblock Mkfs.sb n < image.freeblock := Nat.lt_of_lt_of_le place.2 building.nmeta_le
  have bound : n < g.sb.ninodes := by
    rw [building.sb]
    exact inRange
  have sound := building.sound.put bound only rfl building.sound.mounted
    (mounted.cache building.held) points owned file fun pinned => by
      rw [building.pinned] at pinned
      cases pinned
  have contents : image.bitmapped (iblock g.sb n) = image.disk (iblock Mkfs.sb n) := by
    rw [building.sb]
    exact bitmapped_of_notBitmap image notBitmap
  rw [show (image.world kernel).disk (iblock g.sb n) = _ from contents, building.sb] at sound
  exact
    { sound := world_written kernel image notBitmap _ ▸ sound
      sb := building.sb
      held := building.held
      detached := rfl
      pinned := building.pinned
      aligned := building.aligned
      credit := building.credit
      sectors := building.sectors_written low _
      super := building.super_written (by rw [Mkfs.iblock_eq inRange]; omega) _
      free := building.free
      attached := building.attached
      unused := fun i beyond => by
        change image.freeinode ≤ i at beyond
        rw [put_view_of_ne g (by omega)]
        exact building.unused i beyond
      zero := fun b beyond => by
        change image.freeblock ≤ b at beyond
        change Function.update image.disk (iblock Mkfs.sb n) _ b = Buffer.zero
        rw [Function.update_of_ne (by omega)]
        exact building.zero b beyond }

/-- Writing an inode moves no tree. -/
theorem Building.blockAt_put (building : Building kernel image g) {din : Dinode}
    (inRange : n < NINODES) (blocks : BlocksSound image.bitmapped (g.put n din)) {i : Nat}
    (owns : (g.put n din).Owns i) {p : Pos} (valid : p.Valid fileShape) :
    ((g.put n din).view i).blockAt (image.putInode n din).bitmapped p =
      ((g.put n din).view i).blockAt image.bitmapped p := by
  have notBitmap : NotBitmap (iblock Mkfs.sb n) := Or.inl (iblock_sb inRange).1
  have bound : n < g.sb.ninodes := by
    rw [building.sb]
    exact inRange
  have same := @sameBlocks_of_metadata (g.put n din) image.bitmapped _
    (building.sound.metadata_iblock bound)
    (setDinode (image.disk (iblock Mkfs.sb n)) (n % IPB) din) i
  rw [building.sb, ← bitmapped_write image notBitmap _
    (max image.sectors (iblock Mkfs.sb n + 1))] at same
  exact blockAt_same blocks owns same valid

end Writing

end Notux.Mkfs
