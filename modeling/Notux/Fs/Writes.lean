import Notux.Fs.Sound

/-!
# What a block write does to the invariant

One lemma for every kind of write: to a block nothing points to, to a bit of the
bitmap, to an inode, to an entry of a block of block numbers, and to a block of
file content.
-/

namespace Notux.Fs

open Notux.Store Notux.Proc

/-- The disk after one block write. -/
def writeDisk (world : FsWorld) (b : Nat) (contents : Block) : FsWorld :=
  { world with disk := Function.update world.disk b contents }

/-! ## Reading back what was written -/

section Fields

variable {sb : Superblock} (laid : WellLaid sb)

include laid

theorem onDisk_write_inode (disk : Disk) {n i : Nat} (written : n < sb.ninodes)
    (inRange : i < sb.ninodes) (din : Dinode) :
    onDisk sb (Function.update disk (iblock sb n)
      (setDinode (disk (iblock sb n)) (n % IPB) din)) i =
        if i = n then din else onDisk sb disk i := by
  unfold onDisk
  by_cases same : i = n
  · subst same
    rw [if_pos rfl, Function.update_self]
    exact dinodeAt_setDinode (Nat.mod_lt _ (by decide)) din
  · rw [if_neg same]
    by_cases sameBlock : iblock sb i = iblock sb n
    · have differ : i % IPB ≠ n % IPB := by
        rw [iblock_eq laid inRange, iblock_eq laid written] at sameBlock
        intro samePlace
        apply same
        have quotient : i / IPB = n / IPB := Nat.add_right_cancel sameBlock
        rw [← Nat.div_add_mod i IPB, ← Nat.div_add_mod n IPB, quotient, samePlace]
      rw [sameBlock, Function.update_self, dinodeAt_setDinode_of_ne differ]
    · rw [Function.update_of_ne sameBlock]

/-- The place of a bit in the bitmap determines the block. -/
theorem eq_of_bitmap_place {b x : Nat} (inside : b < sb.size) (other : x < sb.size)
    (sameBlock : bblock sb x = bblock sb b) (samePlace : x % BPB = b % BPB) : x = b := by
  rw [bblock_eq laid other, bblock_eq laid inside] at sameBlock
  have quotient : x / BPB = b / BPB := Nat.add_right_cancel sameBlock
  rw [← Nat.div_add_mod x BPB, ← Nat.div_add_mod b BPB, quotient, samePlace]

theorem marked_write_setBit (disk : Disk) {b x : Nat} (inside : b < sb.size)
    (other : x < sb.size) :
    marked sb (Function.update disk (bblock sb b)
      (setBit (disk (bblock sb b)) (b % BPB))) x = (decide (x = b) || marked sb disk x) := by
  unfold marked
  by_cases sameBlock : bblock sb x = bblock sb b
  · have place : decide (x % BPB = b % BPB) = decide (x = b) :=
      decide_eq_decide.mpr ⟨eq_of_bitmap_place laid inside other sameBlock, fun same => by
        rw [same]⟩
    rw [sameBlock, Function.update_self, bitSet_setBit _ (Nat.mod_lt _ (by decide)), place]
  · have differ : x ≠ b := fun same => sameBlock (by rw [same])
    rw [Function.update_of_ne sameBlock, decide_eq_false differ, Bool.false_or]

theorem marked_write_clearBit (disk : Disk) {b x : Nat} (inside : b < sb.size)
    (other : x < sb.size) :
    marked sb (Function.update disk (bblock sb b)
      (clearBit (disk (bblock sb b)) (b % BPB))) x = (decide (x ≠ b) && marked sb disk x) := by
  unfold marked
  by_cases sameBlock : bblock sb x = bblock sb b
  · have place : decide (x % BPB ≠ b % BPB) = decide (x ≠ b) :=
      decide_eq_decide.mpr (not_congr
        ⟨eq_of_bitmap_place laid inside other sameBlock, fun same => by rw [same]⟩)
    rw [sameBlock, Function.update_self, bitSet_clearBit _ (Nat.mod_lt _ (by decide)), place]
  · have differ : x ≠ b := fun same => sameBlock (by rw [same])
    rw [Function.update_of_ne sameBlock, decide_eq_true differ, Bool.true_and]

end Fields

/-! ## Trees in place -/

section Trees

variable {disk disk' : Disk} {g : Ghost} {i : Nat}

/-- The disks agree on the blocks of an inode. -/
def SameBlocks (g : Ghost) (i : Nat) (disk disk' : Disk) : Prop :=
  ∀ b p, g.tag b = .owned i p → disk' b = disk b

theorem blockAt_same (blocks : BlocksSound disk g) (owns : g.Owns i)
    (same : SameBlocks g i disk disk') {p : Pos} (valid : p.Valid fileShape) :
    (g.view i).blockAt disk' p = (g.view i).blockAt disk p :=
  Pos.blockAt_congr (fun _ _ => rfl)
    (fun q qValid _ present j _ =>
      congrArg (word · j) (same _ q (blocks.points i q owns qValid present))) valid

/-- Entries beyond the end of a block are zero. -/
theorem word_of_ge (block : Block) {j : Nat} (beyond : NINDIRECT ≤ j) : word block j = 0 := by
  have outside : ∀ r, block.get (4 * j + r) = 0 := fun r => by
    simp only [NINDIRECT] at beyond
    exact dif_neg (by omega)
  have first := outside 0
  rw [Nat.add_zero] at first
  simp [word, Buffer.u32, outside, first]

/-- A file has no blocks beyond its largest size. -/
theorem blockAt_posOf_of_ge (disk : Disk) (din : Dinode) {bn : Nat} (beyond : MAXFILE ≤ bn) :
    din.blockAt disk (posOf bn) = 0 := by
  simp only [MAXFILE, NDINDIRECT, NDIRECT, NINDIRECT] at beyond
  have position : posOf bn = .child (.child (.root (NDIRECT + 1))
      ((bn - NDIRECT - NINDIRECT) / NINDIRECT)) ((bn - NDIRECT - NINDIRECT) % NINDIRECT) := by
    unfold posOf
    rw [if_neg (by simp only [NDIRECT]; omega), if_neg (by simp only [NDIRECT, NINDIRECT]; omega)]
  rw [position]
  refine Pos.blockAt_child_of_zero ?_ _
  by_cases missing : (Pos.root (NDIRECT + 1)).blockAt word disk din.addr = 0
  · exact Pos.blockAt_child_of_zero missing _
  · rw [Pos.blockAt_child_of_ne_zero missing]
    exact word_of_ge _ (by simp only [NDIRECT, NINDIRECT]; omega)

theorem blockAt_posOf_same (blocks : BlocksSound disk g) (owns : g.Owns i)
    (same : SameBlocks g i disk disk') (bn : Nat) :
    (g.view i).blockAt disk' (posOf bn) = (g.view i).blockAt disk (posOf bn) := by
  by_cases inside : bn < MAXFILE
  · exact blockAt_same blocks owns same (isData_posOf inside).1
  · rw [blockAt_posOf_of_ge _ _ (Nat.le_of_not_lt inside),
      blockAt_posOf_of_ge _ _ (Nat.le_of_not_lt inside)]

theorem posOf_valid_of_ne_zero {din : Dinode} {bn : Nat}
    (present : din.blockAt disk (posOf bn) ≠ 0) : bn < MAXFILE :=
  Nat.lt_of_not_le fun beyond => present (blockAt_posOf_of_ge disk din beyond)

/-- The tag of a block of file content. -/
theorem tag_posOf (blocks : BlocksSound disk g) (owns : g.Owns i) {bn : Nat}
    (present : (g.view i).blockAt disk (posOf bn) ≠ 0) :
    g.tag ((g.view i).blockAt disk (posOf bn)) = .owned i (posOf bn) :=
  blocks.points i _ owns (isData_posOf (posOf_valid_of_ne_zero present)).1 present

theorem content_same (blocks : BlocksSound disk g) (owns : g.Owns i)
    (same : SameBlocks g i disk disk') : content disk' (g.view i) = content disk (g.view i) := by
  funext off
  unfold content
  rw [blockAt_posOf_same blocks owns same]
  by_cases missing : (g.view i).blockAt disk (posOf (off / BSIZE)) = 0
  · rw [if_pos missing, if_pos missing]
  · rw [if_neg missing, if_neg missing, same _ _ (tag_posOf blocks owns missing)]

theorem node_same (blocks : BlocksSound disk g) (owns : g.Owns i)
    (same : SameBlocks g i disk disk') : (g.view i).node disk' = (g.view i).node disk := by
  unfold Dinode.node
  rw [content_same blocks owns same]

theorem FileSound.congr {g' : Ghost} (file : FileSound disk g i) (sb : g'.sb = g.sb)
    (pinned : g'.pinned = g.pinned) (aligned : g'.aligned = g.aligned)
    (node : (g'.view i).node disk' = (g.view i).node disk)
    (present : ∀ bn, (g.view i).blockAt disk (posOf bn) ≠ 0 →
      (g'.view i).blockAt disk' (posOf bn) ≠ 0) : FileSound disk' g' i := by
  have size : (g'.view i).size = (g.view i).size := congrArg Node.size node
  refine ⟨size ▸ file.small, fun bn inside => ?_, ?_⟩
  · rw [size] at inside
    exact present bn (file.full bn inside)
  · rw [EntriesSound, node, sb, pinned, aligned]
    exact file.entries

/-- The trees stay in place when no block of theirs changes. -/
theorem FileSound.same (file : FileSound disk g i) (blocks : BlocksSound disk g)
    (owns : g.Owns i) (same : SameBlocks g i disk disk') : FileSound disk' g i :=
  file.congr rfl rfl rfl (node_same blocks owns same) fun bn present => by
    rwa [blockAt_posOf_same blocks owns same]

/-- Writes outside the bitmap and the trees do not matter. -/
theorem BlocksSound.same (blocks : BlocksSound disk g)
    (marks : ∀ b < g.sb.size, marked g.sb disk' b = marked g.sb disk b)
    (same : ∀ i, g.Owns i → SameBlocks g i disk disk') : BlocksSound disk' g where
  marks b inside := by rw [marks b inside]; exact blocks.marks b inside
  metadata := blocks.metadata
  inside := blocks.inside
  points i p owns valid present := by
    rw [blockAt_same blocks owns (same i owns) valid] at present ⊢
    exact blocks.points i p owns valid present
  owned b i p tag attached := by
    obtain ⟨owns, valid, at_b⟩ := blocks.owned b i p tag attached
    exact ⟨owns, valid, (blockAt_same blocks owns (same i owns) valid).trans at_b⟩
  credit := blocks.credit

theorem StoreSound.same (store : StoreSound disk g)
    (same : ∀ i < g.sb.ninodes, disk' (iblock g.sb i) = disk (iblock g.sb i)) :
    StoreSound disk' g where
  lags i inRange attached := by
    rw [onDisk, same i inRange]
    exact store.lags i inRange attached
  clean i inRange attached notDirty := by
    rw [onDisk, same i inRange]
    exact store.clean i inRange attached notDirty

end Trees

section Steps

variable {base : Set Nat} {world : FsWorld} {g : Ghost}

theorem Sound.metadata_iblock (sound : Sound base world g) {i : Nat}
    (inRange : i < g.sb.ninodes) : g.tag (iblock g.sb i) = .metadata :=
  (sound.blocks.metadata _).mpr (iblock_lt_firstData sound.laid inRange)

theorem Sound.metadata_bblock (sound : Sound base world g) {b : Nat} (inside : b < g.sb.size) :
    g.tag (bblock g.sb b) = .metadata :=
  (sound.blocks.metadata _).mpr (bblock_lt_firstData sound.laid inside)

/-- A write to a block that is neither metadata nor part of a tree. -/
theorem Sound.write_loose (sound : Sound base world g) {b : Nat} (loose : g.tag b = .loose)
    (contents : Block) : Sound base (writeDisk world b contents) g := by
  have apart : ∀ x, g.tag x ≠ .loose → Function.update world.disk b contents x = world.disk x :=
    fun x other => Function.update_of_ne (fun same => other (by rw [same]; exact loose)) _ _
  have same : ∀ i, SameBlocks g i world.disk (Function.update world.disk b contents) :=
    fun i x p tag => apart x (by rw [tag]; simp)
  refine { sound with store := ?_, blocks := ?_, files := ?_ }
  · exact sound.store.same fun i inRange => apart _ (by rw [sound.metadata_iblock inRange]; simp)
  · refine sound.blocks.same (fun x inside => ?_) fun i _ => same i
    rw [marked, marked]
    simp only [writeDisk]
    rw [apart _ (by rw [sound.metadata_bblock inside]; simp)]
  · exact fun i owns => (sound.files i owns).same sound.blocks owns (same i)

/-- A write to a metadata block leaves every tree in place. -/
theorem sameBlocks_of_metadata {disk : Disk} {b : Nat} (isMetadata : g.tag b = .metadata)
    (contents : Block) (i : Nat) :
    SameBlocks g i disk (Function.update disk b contents) :=
  fun x p tag => Function.update_of_ne
    (fun same => by rw [same, isMetadata] at tag; cases tag) _ _

/-! ## The bitmap -/

/-- Give a block another tag, with some number of blocks known to be free. -/
def Ghost.retag (g : Ghost) (b : Nat) (tag : Tag) (credit : Nat) : Ghost :=
  { g with tag := Function.update g.tag b tag, credit }

@[simp]
theorem retag_tag_self (g : Ghost) (b : Nat) (tag : Tag) (credit : Nat) :
    (g.retag b tag credit).tag b = tag :=
  Function.update_self _ _ _

theorem retag_tag_of_ne (g : Ghost) {b x : Nat} (differ : x ≠ b) (tag : Tag) (credit : Nat) :
    (g.retag b tag credit).tag x = g.tag x :=
  Function.update_of_ne differ _ _

theorem Ghost.Owns.of_retag {i b : Nat} {tag : Tag} {credit : Nat}
    (owns : (g.retag b tag credit).Owns i) : g.Owns i :=
  ⟨owns.inRange, owns.allocated, owns.attached⟩

theorem Ghost.Owns.retag {i b : Nat} {tag : Tag} {credit : Nat} (owns : g.Owns i) :
    (g.retag b tag credit).Owns i :=
  ⟨owns.inRange, owns.allocated, owns.attached⟩

/-- Taking a free block. -/
theorem freeBlocks_take {b : Nat} {tag : Tag} (credit : Nat) (inside : b < g.sb.size)
    (free : g.tag b = .free) (taken : tag ≠ .free) :
    (g.retag b tag credit).freeBlocks + 1 = g.freeBlocks := by
  have member : b ∈ (Finset.range g.sb.size).filter fun b => g.tag b = .free := by
    simp [inside, free]
  have rest : (Finset.range g.sb.size).filter (fun x => (g.retag b tag credit).tag x = .free) =
      ((Finset.range g.sb.size).filter fun x => g.tag x = .free).erase b := by
    ext x
    by_cases same : x = b
    · subst same; simp [taken]
    · simp [retag_tag_of_ne g same, same]
  unfold Ghost.freeBlocks
  rw [show (g.retag b tag credit).sb = g.sb from rfl, rest]
  exact Finset.card_erase_add_one member

/-- Giving a block back. -/
theorem freeBlocks_give {b : Nat} (credit : Nat) (inside : b < g.sb.size)
    (used : g.tag b ≠ .free) : (g.retag b .free credit).freeBlocks = g.freeBlocks + 1 := by
  have back := freeBlocks_take (g := g.retag b .free credit) (b := b) g.credit inside
    (retag_tag_self _ _ _ _) used
  have restored : (g.retag b .free credit).retag b (g.tag b) g.credit = g := by
    unfold Ghost.retag
    simp
  rw [restored] at back
  exact back.symm

/-- A block that belongs to no tree in place may be given another such tag. -/
theorem BlocksSound.retag {disk disk' : Disk} (blocks : BlocksSound disk g) {b credit : Nat}
    {tag : Tag} (inside : b < g.sb.size) (notMetadata : g.tag b ≠ .metadata)
    (notOwned : ∀ i p, g.tag b = .owned i p → g.detached = some i)
    (newTag : tag = .loose ∨ tag = .free)
    (marks : ∀ x < g.sb.size, marked g.sb disk' x = true ↔
      if x = b then tag ≠ .free else marked g.sb disk x = true)
    (same : ∀ i, g.Owns i → SameBlocks g i disk disk')
    (enough : credit ≤ (g.retag b tag credit).freeBlocks) :
    BlocksSound disk' (g.retag b tag credit) where
  marks x small := by
    rw [show (g.retag b tag credit).sb = g.sb from rfl] at *
    rw [marks x small]
    by_cases atBlock : x = b
    · subst atBlock
      simp
    · rw [if_neg atBlock, retag_tag_of_ne g atBlock]
      exact blocks.marks x small
  metadata x := by
    by_cases atBlock : x = b
    · subst atBlock
      have beyond : ¬ x < firstData g.sb := fun low =>
        notMetadata ((blocks.metadata x).mpr low)
      rw [retag_tag_self]
      rcases newTag with rfl | rfl <;> simpa [Ghost.retag] using beyond
    · rw [retag_tag_of_ne g atBlock]
      exact blocks.metadata x
  inside x used := by
    by_cases atBlock : x = b
    · subst atBlock
      exact inside
    · rw [retag_tag_of_ne g atBlock] at used
      exact blocks.inside x used
  points i p owns valid present := by
    have before := owns.of_retag
    change (g.view i).blockAt disk' p ≠ 0 at present
    rw [blockAt_same blocks before (same i before) valid] at present
    have tagged := blocks.points i p before valid present
    have apart : (g.view i).blockAt disk p ≠ b := by
      rintro rfl
      exact before.attached (notOwned i p tagged)
    change (g.retag b tag credit).tag ((g.view i).blockAt disk' p) = _
    rw [blockAt_same blocks before (same i before) valid, retag_tag_of_ne g apart]
    exact tagged
  owned x i p tagged attached := by
    by_cases atBlock : x = b
    · subst atBlock
      rw [retag_tag_self] at tagged
      rcases newTag with rfl | rfl <;> cases tagged
    · rw [retag_tag_of_ne g atBlock] at tagged
      obtain ⟨owns, valid, place⟩ := blocks.owned x i p tagged attached
      exact ⟨owns.retag, valid, (blockAt_same blocks owns (same i owns) valid).trans place⟩
  credit := enough

/-- A write to the bitmap that gives a block another tag. -/
theorem Sound.retag (sound : Sound base world g) {b credit : Nat} {tag : Tag} {contents : Block}
    (inside : b < g.sb.size) (notMetadata : g.tag b ≠ .metadata)
    (notOwned : ∀ i p, g.tag b = .owned i p → g.detached = some i)
    (newTag : tag = .loose ∨ tag = .free)
    (marks : ∀ x < g.sb.size,
      marked g.sb (Function.update world.disk (bblock g.sb b) contents) x = true ↔
        if x = b then tag ≠ .free else marked g.sb world.disk x = true)
    (enough : credit ≤ (g.retag b tag credit).freeBlocks) :
    Sound base (writeDisk world (bblock g.sb b) contents) (g.retag b tag credit) where
  laid := sound.laid
  sameSb := sound.sameSb
  mounted := sound.mounted
  cache := ⟨sound.cache.unique, sound.cache.inRange, sound.cache.cached, sound.cache.holds⟩
  store := by
    have same : StoreSound (Function.update world.disk (bblock g.sb b) contents) g :=
      sound.store.same fun i inRange =>
        Function.update_of_ne (iblock_ne_bblock sound.laid inRange inside) _ _
    exact ⟨same.lags, same.clean⟩
  blocks := sound.blocks.retag inside notMetadata notOwned newTag marks
    (fun i _ => sameBlocks_of_metadata (sound.metadata_bblock inside) contents i) enough
  files i owns := by
    have same : SameBlocks g i world.disk _ :=
      sameBlocks_of_metadata (sound.metadata_bblock inside) contents i
    have file := (sound.files i owns.of_retag).same sound.blocks owns.of_retag same
    exact ⟨file.small, file.full, file.entries⟩
  pinned i member := (sound.pinned i member).retag
  base := sound.base

/-- `balloc` marks a free block. -/
theorem Sound.mark (sound : Sound base world g) {b : Nat} (inside : b < g.sb.size)
    (free : g.tag b = .free) :
    Sound base
      (writeDisk world (bblock g.sb b) (setBit (world.disk (bblock g.sb b)) (b % BPB)))
      (g.retag b .loose (g.credit - 1)) := by
  refine sound.retag inside (by simp [free]) (fun i p tag => by simp [free] at tag)
    (Or.inl rfl) (fun x small => ?_) ?_
  · rw [marked_write_setBit sound.laid _ inside small]
    by_cases same : x = b <;> simp [same]
  · have taken : (g.retag b .loose (g.credit - 1)).freeBlocks + 1 = g.freeBlocks :=
      freeBlocks_take _ inside free (by simp)
    have enough := sound.blocks.credit
    omega

/-- A block that belongs to no tree in place. -/
def Released (g : Ghost) (b : Nat) : Prop :=
  g.tag b = .loose ∨ ∃ i p, g.tag b = .owned i p ∧ g.detached = some i

theorem Released.used {b : Nat} (released : Released g b) : g.tag b ≠ .free := by
  rcases released with tag | ⟨i, p, tag, -⟩ <;> rw [tag] <;> simp

/-- `bfree` clears the mark of a block. -/
theorem Sound.unmark (sound : Sound base world g) {b : Nat} (released : Released g b) :
    Sound base
      (writeDisk world (bblock g.sb b) (clearBit (world.disk (bblock g.sb b)) (b % BPB)))
      (g.retag b .free g.credit) := by
  have inside := sound.blocks.inside b released.used
  refine sound.retag inside ?_ ?_ (Or.inr rfl) (fun x small => ?_) ?_
  · rcases released with tag | ⟨i, p, tag, -⟩ <;> rw [tag] <;> simp
  · intro i p tag
    rcases released with loose | ⟨j, q, owned, detached⟩
    · rw [loose] at tag; cases tag
    · rw [owned] at tag; cases tag; exact detached
  · rw [marked_write_clearBit sound.laid _ inside small]
    by_cases same : x = b <;> simp [same]
  · rw [freeBlocks_give g.credit inside released.used]
    exact Nat.le_succ_of_le sound.blocks.credit

/-! ## Inode blocks -/

/-- Put an inode into view, with everything on disk and every tree in place. -/
def Ghost.put (g : Ghost) (n : Nat) (din : Dinode) : Ghost :=
  { g with view := Function.update g.view n din, dirty := none, detached := none }

@[simp]
theorem put_view_self (g : Ghost) (n : Nat) (din : Dinode) : (g.put n din).view n = din :=
  Function.update_self _ _ _

theorem put_view_of_ne (g : Ghost) {n i : Nat} (differ : i ≠ n) (din : Dinode) :
    (g.put n din).view i = g.view i :=
  Function.update_of_ne differ _ _

/-- Only one inode may be out of step with the disk or have its tree taken apart. -/
structure OnlyDirty (g : Ghost) (n : Nat) : Prop where
  dirty : ∀ i, g.dirty = some i → i = n
  detached : ∀ i, g.detached = some i → i = n

theorem OnlyDirty.owns_of_ne {n i : Nat} (only : OnlyDirty g n) {din : Dinode}
    (differ : i ≠ n) : (g.put n din).Owns i ↔ g.Owns i := by
  constructor
  · rintro ⟨inRange, allocated, -⟩
    rw [put_view_of_ne g differ] at allocated
    exact ⟨inRange, allocated, fun detached => differ (only.detached i detached)⟩
  · rintro ⟨inRange, allocated, -⟩
    exact ⟨inRange, by rwa [put_view_of_ne g differ], nofun⟩

theorem StoreSound.put {disk : Disk} (store : StoreSound disk g) (laid : WellLaid g.sb) {n : Nat}
    (inRange : n < g.sb.ninodes) (only : OnlyDirty g n) (din : Dinode) :
    StoreSound (Function.update disk (iblock g.sb n)
      (setDinode (disk (iblock g.sb n)) (n % IPB) din)) (g.put n din) := by
  have clean : ∀ i < g.sb.ninodes, onDisk g.sb (Function.update disk (iblock g.sb n)
      (setDinode (disk (iblock g.sb n)) (n % IPB) din)) i = (g.put n din).view i := by
    intro i small
    rw [onDisk_write_inode laid disk inRange small]
    by_cases same : i = n
    · subst same
      rw [if_pos rfl, put_view_self]
    · rw [if_neg same, put_view_of_ne g same]
      exact store.clean i small (fun detached => same (only.detached i detached))
        fun dirty => same (only.dirty i dirty)
  refine ⟨fun i small _ => ?_, fun i small _ _ => clean i small⟩
  have stored := clean i small
  change Lags (onDisk g.sb _ i) _
  rw [stored]
  exact ⟨rfl, rfl, rfl, rfl, rfl, fun j => Or.inr rfl⟩

/-- The trees that are in place once an inode has been put into view. -/
theorem Sound.blocks_put (sound : Sound base world g) {n : Nat} {din : Dinode}
    (only : OnlyDirty g n)
    (points : (g.put n din).Owns n → ∀ p, p.Valid fileShape →
      din.blockAt world.disk p ≠ 0 → g.tag (din.blockAt world.disk p) = .owned n p)
    (owned : ∀ b p, g.tag b = .owned n p →
      (g.put n din).Owns n ∧ p.Valid fileShape ∧ din.blockAt world.disk p = b) :
    BlocksSound world.disk (g.put n din) := by
  refine ⟨sound.blocks.marks, sound.blocks.metadata, sound.blocks.inside, ?_, ?_,
    sound.blocks.credit⟩
  · intro i p owns valid present
    by_cases same : i = n
    · subst same
      rw [put_view_self] at present ⊢
      exact points owns p valid present
    · rw [put_view_of_ne g same] at present ⊢
      exact sound.blocks.points i p ((only.owns_of_ne same).mp owns) valid present
  · intro b i p tag _
    by_cases same : i = n
    · subst same
      rw [put_view_self]
      exact owned b p tag
    · rw [put_view_of_ne g same]
      obtain ⟨owns, rest⟩ := sound.blocks.owned b i p tag
        fun detached => same (only.detached i detached)
      exact ⟨(only.owns_of_ne same).mpr owns, rest⟩

/-- Writing an inode leaves every tree in place. -/
theorem Sound.sameBlocks_put (sound : Sound base world g) {n : Nat} (inRange : n < g.sb.ninodes)
    (din : Dinode) (i : Nat) :
    SameBlocks (g.put n din) i world.disk
      (Function.update world.disk (iblock g.sb n)
        (setDinode (world.disk (iblock g.sb n)) (n % IPB) din)) :=
  sameBlocks_of_metadata (g := g.put n din) (sound.metadata_iblock inRange) _ i

/-- A write of an inode, together with a change of the inode table. -/
theorem Sound.put (sound : Sound base world g) {n : Nat} {din : Dinode} {kernel : Kernel}
    (inRange : n < g.sb.ninodes) (only : OnlyDirty g n)
    (sameSb : kernel.sb = world.mem.sb) (mounted : kernel.xv6fsMounted = true)
    (cache : CacheSound kernel (g.put n din))
    (points : (g.put n din).Owns n → ∀ p, p.Valid fileShape →
      din.blockAt world.disk p ≠ 0 → g.tag (din.blockAt world.disk p) = .owned n p)
    (owned : ∀ b p, g.tag b = .owned n p →
      (g.put n din).Owns n ∧ p.Valid fileShape ∧ din.blockAt world.disk p = b)
    (file : (g.put n din).Owns n → FileSound world.disk (g.put n din) n)
    (pinned : n ∈ g.pinned → (g.put n din).Owns n) :
    Sound base
      { mem := kernel
        disk := Function.update world.disk (iblock g.sb n)
          (setDinode (world.disk (iblock g.sb n)) (n % IPB) din) }
      (g.put n din) := by
  have before := sound.blocks_put only points owned
  have sameBlocks := sound.sameBlocks_put inRange din
  have files : ∀ i, (g.put n din).Owns i → FileSound world.disk (g.put n din) i := by
    intro i owns
    by_cases same : i = n
    · subst same
      exact file owns
    · have old := sound.files i ((only.owns_of_ne same).mp owns)
      have view := put_view_of_ne g same din
      exact old.congr rfl rfl rfl (by rw [view]) fun bn present => by rwa [view]
  exact
    { laid := sound.laid
      sameSb := sameSb.trans sound.sameSb
      mounted
      cache
      store := sound.store.put sound.laid inRange only din
      blocks := before.same
        (fun b inside => by
          rw [marked, marked]
          exact congrArg (bitSet · _)
            (Function.update_of_ne (Ne.symm (iblock_ne_bblock sound.laid inRange inside)) _ _))
        fun i _ => sameBlocks i
      files := fun i owns => (files i owns).same before owns (sameBlocks i)
      pinned := fun i member => by
        by_cases same : i = n
        · subst same
          exact pinned member
        · exact (only.owns_of_ne same).mpr (sound.pinned i member)
      base := sound.base }

/-- A change of one entry of the inode table, and of the inode it caches. -/
theorem CacheSound.setInode {kernel : Kernel} (cache : CacheSound kernel g) {ip : Slot}
    {change : Inode → Inode} {g' : Ghost} (sb : g'.sb = g.sb)
    (view : ∀ other, other ≠ ip → 0 < (kernel.icache other).ref →
      g'.view (kernel.icache other).inum = g.view (kernel.icache other).inum)
    (unique : 0 < (change (kernel.icache ip)).ref →
      ∀ other, other ≠ ip → 0 < (kernel.icache other).ref →
        (kernel.icache other).inum ≠ (change (kernel.icache ip)).inum)
    (inRange : 0 < (change (kernel.icache ip)).ref →
      (change (kernel.icache ip)).inum < g.sb.ninodes)
    (cached : 0 < (change (kernel.icache ip)).ref →
      (change (kernel.icache ip)).valid = true →
      (change (kernel.icache ip)).din = g'.view (change (kernel.icache ip)).inum ∧
        (g'.view (change (kernel.icache ip)).inum).type ≠ 0)
    (holds : ∀ other, g'.held other ≤ ((kernel.setInode ip change).icache other).ref) :
    CacheSound (kernel.setInode ip change) g' := by
  have self : (kernel.setInode ip change).icache ip = change (kernel.icache ip) :=
    Function.update_self _ _ _
  have others : ∀ other, other ≠ ip →
      (kernel.setInode ip change).icache other = kernel.icache other :=
    fun other differ => Function.update_of_ne differ _ _
  refine ⟨fun a b aInUse bInUse same => ?_, fun other inUse => ?_, fun other inUse valid => ?_,
    holds⟩
  · by_cases aIs : a = ip
    · by_cases bIs : b = ip
      · rw [aIs, bIs]
      · rw [aIs, self, others b bIs] at same
        rw [aIs, self] at aInUse
        rw [others b bIs] at bInUse
        exact absurd same.symm (unique aInUse b bIs bInUse)
    · rw [others a aIs] at aInUse same
      by_cases bIs : b = ip
      · rw [bIs, self] at bInUse same
        exact absurd same (unique bInUse a aIs aInUse)
      · rw [others b bIs] at bInUse same
        exact cache.unique a b aInUse bInUse same
  · rw [sb]
    by_cases atIp : other = ip
    · subst atIp
      rw [self] at inUse ⊢
      exact inRange inUse
    · rw [others other atIp] at inUse ⊢
      exact cache.inRange other inUse
  · by_cases atIp : other = ip
    · subst atIp
      rw [self] at inUse valid ⊢
      exact cached inUse valid
    · rw [others other atIp] at inUse valid ⊢
      rw [view other atIp inUse]
      exact cache.cached other inUse valid

/-- The references to an entry do not change with its other fields. -/
theorem CacheSound.holds_setInode {kernel : Kernel} (cache : CacheSound kernel g) {ip : Slot}
    {change : Inode → Inode} (ref : (change (kernel.icache ip)).ref = (kernel.icache ip).ref)
    (other : Slot) : g.held other ≤ ((kernel.setInode ip change).icache other).ref := by
  have below := cache.holds other
  by_cases atIp : other = ip
  · subst atIp
    simpa [Kernel.setInode, ref] using below
  · simpa [Kernel.setInode, atIp] using below

/-- Entries in use cache different inodes. -/
theorem CacheSound.apart {kernel : Kernel} (cache : CacheSound kernel g) {ip : Slot}
    (inUse : 0 < (kernel.icache ip).ref) {other : Slot} (differ : other ≠ ip)
    (otherInUse : 0 < (kernel.icache other).ref) :
    (kernel.icache other).inum ≠ (kernel.icache ip).inum :=
  fun same => differ (cache.unique other ip otherInUse inUse same)

/-- Assigning to the fields of a cached inode. -/
theorem CacheSound.setDin {kernel : Kernel} (cache : CacheSound kernel g) {ip : Slot}
    {change : Dinode → Dinode} {g' : Ghost}
    (inUse : 0 < (kernel.icache ip).ref) (valid : (kernel.icache ip).valid = true)
    (allocated : (change (g.view (kernel.icache ip).inum)).type ≠ 0)
    (sb : g'.sb = g.sb) (held : g'.held = g.held)
    (newView : g'.view = Function.update g.view (kernel.icache ip).inum
      (change (g.view (kernel.icache ip).inum))) :
    CacheSound (kernel.setInode ip (·.mapDin change)) g' := by
  refine cache.setInode sb (fun other differ otherInUse => ?_)
    (fun _ other => cache.apart inUse) (fun _ => cache.inRange ip inUse) (fun _ _ => ?_)
    fun other => ?_
  · rw [newView, Function.update_of_ne (cache.apart inUse differ otherInUse)]
  · simp only [Inode.mapDin, newView, Function.update_self, (cache.cached ip inUse valid).1]
    exact ⟨trivial, allocated⟩
  · rw [held]
    exact cache.holds_setInode rfl other

/-! ## Blocks of a tree -/

/-- Attach a block to the tree of an inode. -/
def Ghost.attach (g : Ghost) (n : Nat) (target : Pos) (b : Nat) (din : Dinode)
    (dirty : Option Nat) : Ghost :=
  { g with
    view := Function.update g.view n din
    tag := Function.update g.tag b (.owned n target)
    dirty }

/-- Attaching a fresh block of zeros where the tree has none, by a new address in
the inode or a new entry in a block of the tree. -/
structure Attaches (disk disk' : Disk) (g : Ghost) (n : Nat) (target : Pos) (b : Nat)
    (din : Dinode) : Prop where
  owns : g.Owns n
  loose : g.tag b = .loose
  valid : target.Valid fileShape
  missing : (g.view n).blockAt disk target = 0
  reached : ∀ parent j, target = .child parent j → (g.view n).blockAt disk parent ≠ 0
  fields : din.type = (g.view n).type ∧ din.major = (g.view n).major ∧
    din.minor = (g.view n).minor ∧ din.nlink = (g.view n).nlink ∧ din.size = (g.view n).size
  newRoots : ∀ i < fileShape.roots,
    din.addr i = if .root i = target then b else (g.view n).addr i
  newEntries : ∀ q : Pos, q.Valid fileShape → 0 < q.height fileShape →
    (g.view n).blockAt disk q ≠ 0 → ∀ j < fileShape.width,
    word (disk' ((g.view n).blockAt disk q)) j =
      if .child q j = target then b else word (disk ((g.view n).blockAt disk q)) j
  zero : disk' b = Buffer.zero
  sameData : ∀ x p, g.tag x = .owned n p → p.height fileShape = 0 → disk' x = disk x
  others : ∀ i, i ≠ n → SameBlocks g i disk disk'

namespace Attaches

variable {disk disk' : Disk} {n b : Nat} {target : Pos} {din : Dinode} {dirty : Option Nat}

theorem blockAt (attaches : Attaches disk disk' g n target b din) {p : Pos}
    (valid : p.Valid fileShape) :
    din.blockAt disk' p = if p = target then b else (g.view n).blockAt disk p :=
  Pos.blockAt_attach attaches.missing attaches.reached attaches.newRoots attaches.newEntries
    (fun j _ => by rw [attaches.zero]; exact word_zero j) valid

/-- A missing block reads as zeros, and so does the new one. -/
theorem node (attaches : Attaches disk disk' g n target b din) (blocks : BlocksSound disk g) :
    din.node disk' = (g.view n).node disk := by
  obtain ⟨type, major, minor, nlink, size⟩ := attaches.fields
  have bytes : content disk' din = content disk (g.view n) := by
    funext off
    unfold content
    by_cases inside : off / BSIZE < MAXFILE
    · have isData := isData_posOf inside
      rw [attaches.blockAt isData.1]
      by_cases atTarget : posOf (off / BSIZE) = target
      · rw [if_pos atTarget, atTarget, attaches.missing, if_pos rfl, attaches.zero]
        split <;> simp
      · rw [if_neg atTarget]
        by_cases absent : (g.view n).blockAt disk (posOf (off / BSIZE)) = 0
        · rw [if_pos absent, if_pos absent]
        · rw [if_neg absent, if_neg absent,
            attaches.sameData _ _ (tag_posOf blocks attaches.owns absent) isData.2]
    · rw [blockAt_posOf_of_ge _ _ (Nat.le_of_not_lt inside),
        blockAt_posOf_of_ge _ _ (Nat.le_of_not_lt inside), if_pos rfl, if_pos rfl]
  simp only [Dinode.node, type, major, minor, nlink, size, bytes]

theorem owns_iff (attaches : Attaches disk disk' g n target b din) (i : Nat) :
    (g.attach n target b din dirty).Owns i ↔ g.Owns i := by
  have type : ∀ i, ((g.attach n target b din dirty).view i).type = (g.view i).type := by
    intro i
    by_cases same : i = n
    · subst same
      simp [Ghost.attach, attaches.fields.1]
    · simp [Ghost.attach, same]
  constructor
  · rintro ⟨inRange, allocated, attached⟩
    exact ⟨inRange, by rwa [type] at allocated, attached⟩
  · rintro ⟨inRange, allocated, attached⟩
    exact ⟨inRange, by rwa [type], attached⟩

theorem view_of_ne {i : Nat} (differ : i ≠ n) :
    (g.attach n target b din dirty).view i = g.view i :=
  Function.update_of_ne differ _ _

@[simp]
theorem view_self : (g.attach n target b din dirty).view n = din := Function.update_self _ _ _

theorem tag_of_ne {x : Nat} (differ : x ≠ b) :
    (g.attach n target b din dirty).tag x = g.tag x :=
  Function.update_of_ne differ _ _

theorem blocks (attaches : Attaches disk disk' g n target b din) (laid : WellLaid g.sb)
    (blocks : BlocksSound disk g)
    (marks : ∀ x < g.sb.size, marked g.sb disk' x = marked g.sb disk x) :
    BlocksSound disk' (g.attach n target b din dirty) := by
  have tagged : (g.attach n target b din dirty).tag b = .owned n target :=
    Function.update_self _ _ _
  have small : b < g.sb.size := blocks.inside b (by rw [attaches.loose]; simp)
  have notLoose : ∀ {x i p}, g.tag x = .owned i p → x ≠ b := by
    rintro x i p tag rfl
    rw [attaches.loose] at tag
    cases tag
  refine ⟨fun x inside => ?_, fun x => ?_, fun x used => ?_, fun i p owns valid present => ?_,
    fun x i p tag attached => ?_, ?_⟩
  · change marked g.sb disk' x = true ↔ _
    rw [marks x inside]
    by_cases same : x = b
    · subst same
      rw [blocks.marks x inside, tagged, attaches.loose]
      simp
    · rw [tag_of_ne same]
      exact blocks.marks x inside
  · by_cases same : x = b
    · subst same
      rw [tagged]
      have notMetadata : ¬ x < firstData g.sb := fun low => by
        have metadata := (blocks.metadata x).mpr low
        rw [attaches.loose] at metadata
        cases metadata
      simpa [Ghost.attach] using notMetadata
    · rw [tag_of_ne same]
      exact blocks.metadata x
  · by_cases same : x = b
    · exact same ▸ small
    · rw [tag_of_ne same] at used
      exact blocks.inside x used
  · have before := (attaches.owns_iff i).mp owns
    by_cases same : i = n
    · subst same
      rw [view_self, attaches.blockAt valid] at *
      by_cases atTarget : p = target
      · rw [if_pos atTarget, atTarget]
        exact tagged
      · rw [if_neg atTarget] at present ⊢
        have owned := blocks.points i p before valid present
        rw [tag_of_ne (notLoose owned)]
        exact owned
    · rw [view_of_ne same] at present ⊢
      rw [blockAt_same blocks before (attaches.others i same) valid] at present ⊢
      have owned := blocks.points i p before valid present
      rw [tag_of_ne (notLoose owned)]
      exact owned
  · by_cases atBlock : x = b
    · subst atBlock
      rw [tagged] at tag
      obtain ⟨rfl, rfl⟩ := Tag.owned.inj tag
      refine ⟨(attaches.owns_iff _).mpr attaches.owns, attaches.valid, ?_⟩
      rw [view_self, attaches.blockAt attaches.valid, if_pos rfl]
    · rw [tag_of_ne atBlock] at tag
      obtain ⟨owns, valid, place⟩ := blocks.owned x i p tag attached
      refine ⟨(attaches.owns_iff i).mpr owns, valid, ?_⟩
      by_cases same : i = n
      · subst same
        have notTarget : p ≠ target := by
          rintro rfl
          rw [attaches.missing] at place
          have low : x < firstData g.sb := by
            rw [← place]
            exact Nat.lt_of_le_of_lt (Nat.zero_le _) laid.bitmap
          rw [(blocks.metadata x).mpr low] at tag
          cases tag
        rw [view_self, attaches.blockAt valid, if_neg notTarget]
        exact place
      · rw [view_of_ne same]
        exact (blockAt_same blocks owns (attaches.others i same) valid).trans place
  · have sameFree : (g.attach n target b din dirty).freeBlocks = g.freeBlocks := by
      unfold Ghost.freeBlocks
      refine congrArg Finset.card (Finset.filter_congr fun x _ => ?_)
      by_cases same : x = b
      · subst same
        rw [tagged, attaches.loose]
        simp
      · rw [tag_of_ne same]
    rw [sameFree]
    exact blocks.credit

theorem file (attaches : Attaches disk disk' g n target b din) (blocks : BlocksSound disk g)
    {i : Nat} (owns : g.Owns i) (file : FileSound disk g i) :
    FileSound disk' (g.attach n target b din dirty) i := by
  by_cases same : i = n
  · subst same
    refine file.congr rfl rfl rfl ?_ fun bn present => ?_
    · rw [view_self]
      exact attaches.node blocks
    · have valid := (isData_posOf (posOf_valid_of_ne_zero present)).1
      rw [view_self, attaches.blockAt valid]
      split
      · next atTarget =>
        rw [atTarget] at present
        exact absurd attaches.missing present
      · exact present
  · refine file.congr rfl rfl rfl ?_ fun bn present => ?_
    · rw [view_of_ne same]
      exact node_same blocks owns (attaches.others i same)
    · rw [view_of_ne same, blockAt_posOf_same blocks owns (attaches.others i same)]
      exact present

end Attaches

theorem Sound.attaches_root (sound : Sound base world g) {n b r : Nat} (owns : g.Owns n)
    (root : r < fileShape.roots) (missing : (g.view n).addr r = 0) (loose : g.tag b = .loose)
    (zero : world.disk b = Buffer.zero) :
    Attaches world.disk world.disk g n (.root r) b ((g.view n).setAddr r b) where
  owns := owns
  loose := loose
  valid := root
  missing := missing
  reached := nofun
  fields := ⟨rfl, rfl, rfl, rfl, rfl⟩
  newRoots i inside := by
    have small : b < 2 ^ 32 :=
      Nat.lt_trans (sound.blocks.inside b (by rw [loose]; simp)) sound.laid.small
    rw [addr_setAddr root inside small]
    simp
  newEntries q _ _ _ j _ := by simp
  zero := zero
  sameData _ _ _ _ := rfl
  others _ _ _ _ _ := rfl

/-- A new address in the inode, which only memory has so far. -/
theorem Sound.attach_root_of_cache (sound : Sound base world g) {n b r : Nat} {kernel : Kernel}
    (sameSb : kernel.sb = world.mem.sb) (mounted : kernel.xv6fsMounted = true)
    (cache : CacheSound kernel (g.attach n (.root r) b ((g.view n).setAddr r b) (some n)))
    (only : OnlyDirty g n) (owns : g.Owns n) (root : r < fileShape.roots)
    (missing : (g.view n).addr r = 0) (loose : g.tag b = .loose)
    (zero : world.disk b = Buffer.zero) :
    Sound base { world with mem := kernel }
      (g.attach n (.root r) b ((g.view n).setAddr r b) (some n)) := by
  have attaches := sound.attaches_root owns root missing loose zero
  refine ⟨sound.laid, sameSb.trans sound.sameSb, mounted, cache, ⟨?_, ?_⟩,
    attaches.blocks sound.laid sound.blocks fun _ _ => rfl, ?_, ?_, sound.base⟩
  · intro i inRange attached
    have lags := sound.store.lags i inRange attached
    by_cases same : i = n
    · subst same
      rw [Attaches.view_self]
      refine ⟨lags.type, lags.major, lags.minor, lags.nlink, lags.size, fun j => ?_⟩
      change (onDisk g.sb world.disk _).addrs j = 0 ∨ (onDisk g.sb world.disk _).addrs j = _
      by_cases atRoot : j = Fin.ofNat _ r
      · subst atRoot
        left
        rcases lags.addrs (Fin.ofNat _ r) with zero | equal
        · exact zero
        · rw [equal]
          exact BitVec.eq_of_toNat_eq missing
      · unfold Dinode.setAddr
        dsimp only
        rw [Function.update_of_ne atRoot]
        exact lags.addrs j
    · rw [Attaches.view_of_ne same]
      exact lags
  · intro i inRange attached notDirty
    have differ : i ≠ n := fun same => notDirty (by rw [same]; rfl)
    rw [Attaches.view_of_ne differ]
    exact sound.store.clean i inRange attached fun dirty => differ (only.dirty i dirty)
  · exact fun i owned => attaches.file sound.blocks ((attaches.owns_iff i).mp owned)
      (sound.files i ((attaches.owns_iff i).mp owned))
  · exact fun i member => (attaches.owns_iff i).mpr (sound.pinned i member)

/-- A new address in a cached inode. -/
theorem Sound.attach_root (sound : Sound base world g) {n b r : Nat} {ip : Slot}
    (inUse : 0 < (world.mem.icache ip).ref) (valid : (world.mem.icache ip).valid = true)
    (inum : (world.mem.icache ip).inum = n) (only : OnlyDirty g n) (owns : g.Owns n)
    (root : r < fileShape.roots) (missing : (g.view n).addr r = 0) (loose : g.tag b = .loose)
    (zero : world.disk b = Buffer.zero) :
    Sound base
      { world with mem := world.mem.setInode ip (·.mapDin (·.setAddr r b)) }
      (g.attach n (.root r) b ((g.view n).setAddr r b) (some n)) := by
  subst inum
  exact sound.attach_root_of_cache rfl sound.mounted
    (sound.cache.setDin inUse valid owns.allocated rfl rfl rfl) only owns root missing loose zero

section Child

variable {n b j : Nat} {parent : Pos}

/-- A write to a block of block numbers leaves every other block alone. -/
theorem update_of_tag (blocks : BlocksSound world.disk g) (owns : g.Owns n)
    (parentValid : parent.Valid fileShape)
    (present : (g.view n).blockAt world.disk parent ≠ 0) (contents : Block) {x : Nat} {tag : Tag}
    (tagged : g.tag x = tag) (other : tag ≠ .owned n parent) :
    Function.update world.disk ((g.view n).blockAt world.disk parent) contents x =
      world.disk x := by
  refine Function.update_of_ne (fun same => other ?_) _ _
  rw [← tagged, same]
  exact blocks.points n parent owns parentValid present

variable (sound : Sound base world g) (owns : g.Owns n) (parentValid : parent.Valid fileShape)
  (above : 0 < parent.height fileShape) (entry : j < NINDIRECT)
  (present : (g.view n).blockAt world.disk parent ≠ 0)
  (missing : word (world.disk ((g.view n).blockAt world.disk parent)) j = 0)
  (loose : g.tag b = .loose) (zero : world.disk b = Buffer.zero)

include sound owns parentValid above entry present missing loose zero

theorem Sound.attaches_child :
    Attaches world.disk
      (Function.update world.disk ((g.view n).blockAt world.disk parent)
        (setWord (world.disk ((g.view n).blockAt world.disk parent)) j b))
      g n (.child parent j) b (g.view n) where
  owns := owns
  loose := loose
  valid := ⟨parentValid, above, entry⟩
  missing := (blockAt_child present j).trans missing
  reached := by
    rintro other k same
    cases same
    exact present
  fields := ⟨rfl, rfl, rfl, rfl, rfl⟩
  newRoots i inside := by simp
  newEntries q qValid qAbove qPresent k inside := by
    have small : b < 2 ^ 32 :=
      Nat.lt_trans (sound.blocks.inside b (by rw [loose]; simp)) sound.laid.small
    by_cases atParent : q = parent
    · subst atParent
      rw [Function.update_self, word_setWord entry small]
      simp
    · have owned := sound.blocks.points n q owns qValid qPresent
      rw [update_of_tag sound.blocks owns parentValid present _ owned
        fun same => atParent (Tag.owned.inj same).2]
      simp [atParent]
  zero := by
    rw [update_of_tag sound.blocks owns parentValid present _ loose (by simp)]
    exact zero
  sameData x p tag data := by
    refine update_of_tag sound.blocks owns parentValid present _ tag fun same => ?_
    cases same
    omega
  others i differ x p tag :=
    update_of_tag sound.blocks owns parentValid present _ tag fun same =>
      differ (Tag.owned.inj same).1

/-- A new entry in a block of block numbers. -/
theorem Sound.attach_child :
    Sound base
      (writeDisk world ((g.view n).blockAt world.disk parent)
        (setWord (world.disk ((g.view n).blockAt world.disk parent)) j b))
      (g.attach n (.child parent j) b (g.view n) g.dirty) := by
  have attaches :=
    sound.attaches_child owns parentValid above entry present missing loose zero
  have apart : ∀ {x}, g.tag x = .metadata →
      Function.update world.disk ((g.view n).blockAt world.disk parent)
        (setWord (world.disk ((g.view n).blockAt world.disk parent)) j b) x = world.disk x :=
    fun tag => update_of_tag sound.blocks owns parentValid present _ tag (by simp)
  have view : ∀ i, (g.attach n (.child parent j) b (g.view n) g.dirty).view i = g.view i := by
    intro i
    simp [Ghost.attach]
  refine ⟨sound.laid, sound.sameSb, sound.mounted, ?_, ⟨?_, ?_⟩,
    attaches.blocks sound.laid sound.blocks ?_, ?_, ?_, sound.base⟩
  · exact ⟨sound.cache.unique, sound.cache.inRange,
      fun ip inUse valid => by rw [view]; exact sound.cache.cached ip inUse valid,
      sound.cache.holds⟩
  · intro i inRange attached
    have lags := sound.store.lags i inRange attached
    rw [onDisk, ← apart (sound.metadata_iblock inRange)] at lags
    rw [view]
    exact lags
  · intro i inRange attached notDirty
    have clean := sound.store.clean i inRange attached notDirty
    rw [onDisk, ← apart (sound.metadata_iblock inRange)] at clean
    rw [view]
    exact clean
  · intro x inside
    rw [marked, marked, apart (sound.metadata_bblock inside)]
  · exact fun i owned => attaches.file sound.blocks ((attaches.owns_iff i).mp owned)
      (sound.files i ((attaches.owns_iff i).mp owned))
  · exact fun i member => (attaches.owns_iff i).mpr (sound.pinned i member)

end Child

/-! ## File content -/

section Data

variable {disk : Disk} {n bn : Nat}

/-- The disk after a write to a block of file content. -/
def writeData (g : Ghost) (disk : Disk) (n bn : Nat) (contents : Block) : Disk :=
  Function.update disk ((g.view n).blockAt disk (posOf bn)) contents

theorem writeData_of_tag (blocks : BlocksSound disk g) (owns : g.Owns n)
    (present : (g.view n).blockAt disk (posOf bn) ≠ 0) (contents : Block) {x : Nat} {tag : Tag}
    (tagged : g.tag x = tag) (other : tag ≠ .owned n (posOf bn)) :
    writeData g disk n bn contents x = disk x := by
  refine Function.update_of_ne (fun same => other ?_) _ _
  rw [← tagged, same]
  exact tag_posOf blocks owns present

/-- Block numbers do not stand in blocks of file content. -/
theorem blockAt_writeData (blocks : BlocksSound disk g) (owns : g.Owns n)
    (present : (g.view n).blockAt disk (posOf bn) ≠ 0) (contents : Block) {i : Nat}
    (owned : g.Owns i) {p : Pos} (valid : p.Valid fileShape) :
    (g.view i).blockAt (writeData g disk n bn contents) p = (g.view i).blockAt disk p := by
  refine Pos.blockAt_congr (fun _ _ => rfl) (fun q qValid above qPresent j _ => ?_) valid
  refine congrArg (word · j) (writeData_of_tag blocks owns present contents
    (blocks.points i q owned qValid qPresent) fun same => ?_)
  obtain ⟨-, rfl⟩ := Tag.owned.inj same
  have data := (isData_posOf (posOf_valid_of_ne_zero present)).2
  omega

theorem blockAt_posOf_writeData (blocks : BlocksSound disk g) (owns : g.Owns n)
    (present : (g.view n).blockAt disk (posOf bn) ≠ 0) (contents : Block) {i : Nat}
    (owned : g.Owns i) (bm : Nat) :
    (g.view i).blockAt (writeData g disk n bn contents) (posOf bm) =
      (g.view i).blockAt disk (posOf bm) := by
  by_cases inside : bm < MAXFILE
  · exact blockAt_writeData blocks owns present contents owned (isData_posOf inside).1
  · rw [blockAt_posOf_of_ge _ _ (Nat.le_of_not_lt inside),
      blockAt_posOf_of_ge _ _ (Nat.le_of_not_lt inside)]

/-- The bytes of the block that is written change, and no others. -/
theorem content_writeData (blocks : BlocksSound disk g) (owns : g.Owns n)
    (present : (g.view n).blockAt disk (posOf bn) ≠ 0) (contents : Block) :
    content (writeData g disk n bn contents) (g.view n) = fun off =>
      if off / BSIZE = bn then contents.get (off % BSIZE) else content disk (g.view n) off := by
  funext off
  unfold content
  rw [blockAt_posOf_writeData blocks owns present contents owns]
  by_cases same : off / BSIZE = bn
  · rw [if_pos same, same, if_neg present, writeData, Function.update_self]
  · rw [if_neg same]
    by_cases missing : (g.view n).blockAt disk (posOf (off / BSIZE)) = 0
    · rw [if_pos missing, if_pos missing]
    · rw [if_neg missing, if_neg missing,
        writeData_of_tag blocks owns present contents (tag_posOf blocks owns missing)]
      intro equal
      exact same (posOf_injective (Tag.owned.inj equal).2)

theorem sameBlocks_writeData (blocks : BlocksSound disk g) (owns : g.Owns n)
    (present : (g.view n).blockAt disk (posOf bn) ≠ 0) (contents : Block) {i : Nat}
    (differ : i ≠ n) : SameBlocks g i disk (writeData g disk n bn contents) :=
  fun _ _ tag => writeData_of_tag blocks owns present contents tag fun same =>
    differ (Tag.owned.inj same).1

end Data

/-- A write to a block of file content. -/
theorem Sound.write_data (sound : Sound base world g) {n bn : Nat} (owns : g.Owns n)
    (present : (g.view n).blockAt world.disk (posOf bn) ≠ 0) (contents : Block)
    (entries : EntriesSound g n
      ((g.view n).node (writeData g world.disk n bn contents))) :
    Sound base (writeDisk world ((g.view n).blockAt world.disk (posOf bn)) contents) g := by
  have blocks := sound.blocks
  change Sound base { world with disk := writeData g world.disk n bn contents } g
  refine ⟨sound.laid, sound.sameSb, sound.mounted, sound.cache, ?_, ?_, ?_, sound.pinned,
    sound.base⟩
  · exact sound.store.same fun i inRange =>
      writeData_of_tag blocks owns present contents (sound.metadata_iblock inRange) (by simp)
  · refine ⟨fun b inside => ?_, blocks.metadata, blocks.inside, ?_, ?_, blocks.credit⟩
    · change marked g.sb (writeData g world.disk n bn contents) b = true ↔ _
      rw [marked, writeData_of_tag blocks owns present contents
        (sound.metadata_bblock inside) (by simp)]
      exact blocks.marks b inside
    · intro i p owned valid pPresent
      rw [blockAt_writeData blocks owns present contents owned valid] at pPresent ⊢
      exact blocks.points i p owned valid pPresent
    · intro b i p tag attached
      obtain ⟨owned, valid, place⟩ := blocks.owned b i p tag attached
      exact ⟨owned, valid,
        (blockAt_writeData blocks owns present contents owned valid).trans place⟩
  · intro i owned
    have file := sound.files i owned
    by_cases same : i = n
    · subst same
      refine ⟨file.small, fun bm inside => ?_, entries⟩
      rw [blockAt_posOf_writeData blocks owns present contents owns]
      exact file.full bm inside
    · exact file.same blocks owned (sameBlocks_writeData blocks owns present contents same)

end Steps

end Notux.Fs
