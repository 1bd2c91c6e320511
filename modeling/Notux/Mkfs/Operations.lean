import Notux.Mkfs.Append

/-!
# The operations of the image builder

Between two operations every inode is on disk and every tree is filled in order, and
the image holds a set of files.  Each operation changes one file, and takes exactly
the blocks by which its tree grows.
-/

namespace Notux.Mkfs

open Notux.Store Notux.Fs Notux.Proc

/-! ## Between the operations -/

/-- The image holds `files` and has used so many blocks and inodes. -/
structure Holds (kernel : Kernel) (files : Files) (blocks inodes : Nat) (image : Image)
    (g : Ghost) : Prop where
  building : Building kernel image g
  dirty : g.dirty = none
  grown : ∀ i, g.Owns i →
    Grown image.bitmapped (g.view i) (dataBlocks (g.view i).size.toNat) 3
  files : g.files image.bitmapped = files
  freeblock : image.freeblock = blocks
  freeinode : image.freeinode = inodes
  stray : image.stray = []

section Holding

variable {kernel : Kernel} {files : Files} {blocks inodes n : Nat} {image : Image} {g : Ghost}

theorem Holds.idle (holds : Holds kernel files blocks inodes image g) : g.Idle :=
  ⟨holds.dirty, holds.building.detached⟩

theorem Holds.owns (holds : Holds kernel files blocks inodes image g) {node : Node}
    (found : files n = some node) : g.Owns n ∧ (g.view n).node image.bitmapped = node :=
  holds.idle.owns_of_files (holds.files ▸ found)

theorem Building.inRange (building : Building kernel image g) (owns : g.Owns n) :
    n < NINODES := by
  have bound := owns.inRange
  rwa [building.sb] at bound

/-- `rinode` reads the inode in view. -/
theorem rinode_spec {F : Prop} (holds : Holds kernel files blocks inodes image g)
    (owns : g.Owns n) {Q : Dinode → Image → Prop} (rest : Q (g.view n) image) :
    Arrives (rinode n) F Q image := by
  have building := holds.building
  have inRange := building.inRange owns
  have place := iblock_sb inRange
  have stored := building.sound.store.clean n owns.inRange owns.attached
    (by rw [holds.dirty]; exact nofun)
  rw [onDisk, building.sb, show (image.world kernel).disk (iblock sb n) = image.disk (iblock sb n)
    from bitmapped_of_notBitmap image (Or.inl place.1)] at stored
  unfold rinode
  rw [arrives_bind]
  apply rsect_spec
  · rw [building.sectors]
    exact Nat.lt_of_lt_of_le place.2 (by decide)
  · rw [arrives_pure, stored]
    exact rest

theorem winode_spec {F : Prop} (building : Building kernel image g) (inRange : n < NINODES)
    {din : Dinode} {Q : Unit → Image → Prop} (rest : Q () (image.putInode n din)) :
    Arrives (winode n din) F Q image := by
  have place := iblock_sb inRange
  unfold winode
  rw [arrives_bind]
  apply rsect_spec
  · rw [building.sectors]
    exact Nat.lt_of_lt_of_le place.2 (by decide)
  · exact wsect_spec rest

/-- Writing an inode changes one file. -/
theorem Building.files_put (building : Building kernel image g) (inRange : n < NINODES)
    {din : Dinode} (blocks : BlocksSound image.bitmapped (g.put n din)) (type : din.type ≠ 0) :
    (g.put n din).files (image.putInode n din).bitmapped =
      Function.update (g.files image.bitmapped) n (some (din.node image.bitmapped)) := by
  have bound : n < g.sb.ninodes := by
    rw [building.sb]
    exact inRange
  have notBitmap : NotBitmap (iblock Mkfs.sb n) := Or.inl (iblock_sb inRange).1
  have stored := building.sound.files_put bound blocks
  have contents : image.bitmapped (iblock Mkfs.sb n) = image.disk (iblock Mkfs.sb n) :=
    bitmapped_of_notBitmap image notBitmap
  rw [if_neg type, building.sb,
    show (image.world kernel).disk (iblock Mkfs.sb n) = _ from contents] at stored
  rw [show (image.putInode n din).bitmapped = _ from bitmapped_write image notBitmap _ _]
  exact stored

/-- The fields of an inode are stored, and its tree with them. -/
theorem Building.store (building : Building kernel image g) (mounted : Mounted kernel)
    (owns : g.Owns n) (only : OnlyDirty g n) {din : Dinode}
    (addrs : din.addrs = (g.view n).addrs) (type : din.type ≠ 0)
    (file : FileSound image.bitmapped (g.put n din) n) :
    Building kernel (image.putInode n din) (g.put n din) ∧
      (g.put n din).files (image.putInode n din).bitmapped =
        Function.update (g.files image.bitmapped) n (some (din.node image.bitmapped)) ∧
      (∀ i, (g.put n din).Owns i ↔ g.Owns i) ∧
      ∀ i, g.Owns i → ∀ p, p.Valid fileShape →
        ((g.put n din).view i).blockAt (image.putInode n din).bitmapped p =
          (g.view i).blockAt image.bitmapped p := by
  have inRange := building.inRange owns
  have newOwns : (g.put n din).Owns n := ⟨owns.inRange, by rwa [put_view_self], nofun⟩
  have points : (g.put n din).Owns n → ∀ p, p.Valid fileShape →
      din.blockAt image.bitmapped p ≠ 0 → g.tag (din.blockAt image.bitmapped p) = .owned n p := by
    intro _ p valid present
    rw [blockAt_of_addrs addrs] at present ⊢
    exact building.sound.blocks.points n p owns valid present
  have owned : ∀ b p, g.tag b = .owned n p →
      (g.put n din).Owns n ∧ p.Valid fileShape ∧ din.blockAt image.bitmapped p = b := by
    intro b p tag
    obtain ⟨-, valid, place⟩ := building.sound.blocks.owned b n p tag owns.attached
    exact ⟨newOwns, valid, (blockAt_of_addrs addrs _ _).trans place⟩
  have blocks : BlocksSound image.bitmapped (g.put n din) :=
    building.sound.blocks_put only points owned
  have iff : ∀ i, (g.put n din).Owns i ↔ g.Owns i := by
    intro i
    by_cases same : i = n
    · subst same
      exact ⟨fun _ => owns, fun _ => newOwns⟩
    · exact only.owns_of_ne same
  refine ⟨building.put mounted inRange (building.used_inode owns) only points owned
    fun _ => file, building.files_put inRange blocks type, iff, fun i ownsI p valid => ?_⟩
  rw [building.blockAt_put inRange blocks ((iff i).mpr ownsI) valid]
  by_cases same : i = n
  · subst same
    rw [put_view_self]
    exact blockAt_of_addrs addrs _ _
  · rw [put_view_of_ne g same]

/-! ## Inodes -/

/-- A file without content. -/
def emptyNode (type : BitVec 16) : Node where
  type := type
  major := 0
  minor := 0
  nlink := 1
  size := 0
  bytes := fun _ => 0

theorem blockAt_of_noAddrs {din : Dinode} (none : ∀ i, din.addr i = 0) (disk : Disk) (p : Pos) :
    din.blockAt disk p = 0 := by
  cases p with
  | root i => exact none i
  | child parent j => exact Pos.blockAt_child_of_zero (blockAt_of_noAddrs none disk parent) j

/-- An inode that has no blocks yet. -/
def newInode (type : BitVec 16) : Dinode := { Dinode.zero with type, nlink := 1 }

theorem blockAt_newInode (type : BitVec 16) (disk : Disk) (p : Pos) :
    (newInode type).blockAt disk p = 0 :=
  blockAt_of_noAddrs (fun _ => rfl) disk p

theorem node_newInode (type : BitVec 16) (disk : Disk) :
    (newInode type).node disk = emptyNode type := by
  have bytes : content disk (newInode type) = fun _ => 0 := by
    funext off
    unfold content
    rw [if_pos (blockAt_newInode type disk _)]
  unfold Dinode.node
  rw [bytes]
  rfl

/-- `ialloc` adds an empty file. -/
theorem ialloc_spec {F : Prop} (mounted : Mounted kernel)
    (holds : Holds kernel files blocks inodes image g) (inRange : inodes < NINODES)
    {type : BitVec 16} (allocated : type ≠ 0) {Q : Nat → Image → Prop}
    (rest : ∀ image' g', Holds kernel (Function.update files inodes (some (emptyNode type)))
      blocks (inodes + 1) image' g' → Q inodes image') :
    Arrives (ialloc type) F Q image := by
  have counter := holds.freeinode
  subst counter
  have building := holds.building
  have zero : g.view image.freeinode = Dinode.zero := building.unused _ (Nat.le_refl _)
  have notOwns : ¬ g.Owns image.freeinode := fun owns => owns.allocated (by rw [zero]; rfl)
  have only := holds.idle.only image.freeinode
  have bound : image.freeinode < g.sb.ninodes := by
    rw [building.sb]
    exact inRange
  have next : Building kernel { image with freeinode := image.freeinode + 1 } g :=
    { building with unused := fun i beyond => building.unused i (Nat.le_of_succ_le beyond) }
  have newOwns : (g.put image.freeinode (newInode type)).Owns image.freeinode :=
    ⟨bound, by rwa [put_view_self], nofun⟩
  have points : (g.put image.freeinode (newInode type)).Owns image.freeinode → ∀ p, p.Valid fileShape →
      (newInode type).blockAt image.bitmapped p ≠ 0 →
      g.tag ((newInode type).blockAt image.bitmapped p) = .owned image.freeinode p :=
    fun _ p _ present => absurd (blockAt_newInode type _ p) present
  have owned : ∀ b p, g.tag b = .owned image.freeinode p → (g.put image.freeinode (newInode type)).Owns image.freeinode ∧
      p.Valid fileShape ∧ (newInode type).blockAt image.bitmapped p = b := by
    intro b p tag
    exact absurd (building.sound.blocks.owned b image.freeinode p tag (holds.idle.attached _)).1 notOwns
  have blocksPut : BlocksSound image.bitmapped (g.put image.freeinode (newInode type)) :=
    building.sound.blocks_put only points owned
  have file : FileSound image.bitmapped (g.put image.freeinode (newInode type)) image.freeinode := by
    refine ⟨?_, fun bn inside => ?_, fun _ => ⟨fun _ => ?_, fun off _ inside => ?_⟩⟩
    · rw [put_view_self]
      exact Nat.zero_le _
    · rw [put_view_self] at inside
      exact absurd inside (Nat.not_lt_zero _)
    · rw [put_view_self]
      exact Nat.dvd_zero _
    · rw [put_view_self] at inside
      exact absurd inside (Nat.not_succ_le_zero _)
  have stored := next.put mounted inRange (Nat.lt_succ_self _) only points owned fun _ => file
  have storedFiles := next.files_put inRange blocksPut allocated
  unfold ialloc
  rw [arrives_bind, arrives_get, arrives_bind, arrives_set, arrives_bind]
  apply winode_spec next inRange
  refine rest _ _ ⟨stored, rfl, fun i owns => ?_, ?_, holds.freeblock, rfl, holds.stray⟩
  · have places := fun (p : Pos) (valid : p.Valid fileShape) =>
      next.blockAt_put inRange blocksPut owns valid
    by_cases same : i = image.freeinode
    · subst same
      rw [put_view_self]
      intro p valid
      have most := noneAbove_double 0 p (place_of_valid valid)
      rw [blockAt_newInode]
      have empty : dataBlocks (newInode type).size.toNat = 0 :=
        show dataBlocks (0 : BitVec 32).toNat = 0 by decide
      rw [empty]
      omega
    · rw [put_view_of_ne g same] at places ⊢
      exact (holds.grown i ((only.owns_of_ne same).mp owns)).congr places
  · rw [node_newInode] at storedFiles
    rw [← holds.files]
    exact storedFiles

/-! ## Content -/

/-- A file with bytes added at its end. -/
def append (node : Node) (xp : List Byte) : Node :=
  { node with
    bytes := Fs.overwrite node.bytes node.size.toNat xp.length fun i => xp.getD i 0
    size := BitVec.ofNat 32 (node.size.toNat + xp.length) }

/-- A directory that may stand on the image. -/
def Sane (node : Node) : Prop :=
  node.type = T_DIR → DIRENT_SIZE ∣ node.size.toNat ∧
    ∀ off, DIRENT_SIZE ∣ off → off + DIRENT_SIZE ≤ node.size.toNat →
      (node.dirent off).inum.toNat < NINODES

theorem Sane.entries {node : Node} (sane : Sane node) (sb : g.sb = Mkfs.sb)
    (pinned : g.pinned = ∅) (i : Nat) : EntriesSound g i node := by
  intro isDir
  obtain ⟨multiple, inRange⟩ := sane isDir
  refine ⟨fun _ => multiple, fun off aligned inside _ => ⟨?_, fun member => ?_⟩⟩
  · rw [sb]
    exact inRange off aligned inside
  · rw [pinned] at member
    cases member

/-- `iappend` adds bytes to the end of a file. -/
theorem iappend_spec {F : Prop} (mounted : Mounted kernel)
    (holds : Holds kernel files blocks inodes image g) {node : Node}
    (found : files n = some node) {xp : List Byte} (sane : Sane (append node xp))
    (full : FSSIZE + treeSize (dataBlocks node.size.toNat) <
      blocks + treeSize (dataBlocks (node.size.toNat + xp.length)) → F)
    (long : MAXFILE * BSIZE < node.size.toNat + xp.length → F)
    {Q : Unit → Image → Prop}
    (rest : ∀ image' g' blocks', Holds kernel (Function.update files n (some (append node xp)))
        blocks' inodes image' g' →
      blocks' + treeSize (dataBlocks node.size.toNat) =
        blocks + treeSize (dataBlocks (node.size.toNat + xp.length)) →
      node.size.toNat + xp.length ≤ MAXFILE * BSIZE → Q () image') :
    Arrives (iappend n xp) F Q image := by
  have building := holds.building
  obtain ⟨owns, nodeIs⟩ := holds.owns found
  have size : node.size = (g.view n).size := by
    rw [← nodeIs]
    rfl
  have writing := (Writing.start building.sound holds.idle owns).mono (Nat.zero_le 1)
  rw [show (g.view n).node (image.world kernel).disk = node from nodeIs, ← size] at writing
  have start : Appending kernel n image g node node.size.toNat (dataBlocks node.size.toNat) 3
      image g :=
    { building
      noCredit := building.credit
      writing
      grown := size ▸ holds.grown n owns
      others := fun i _ _ => ⟨rfl, fun _ _ => rfl⟩
      owns := fun _ => Iff.rfl
      freeinode := rfl
      stray := rfl }
  have file := building.sound.files n owns
  have entries : EntriesSound g n node := nodeIs ▸ file.entries
  unfold iappend
  rw [arrives_bind]
  apply rinode_spec holds owns
  rw [arrives_bind, ← size]
  refine appendLoop_spec mounted (Nat.le_refl _) start (Nat.le_refl _) entries
    (size ▸ file.small) (by rw [holds.freeblock]; exact full) long ?_
  intro image' g' last count bound
  obtain ⟨din, dinIs⟩ : ∃ din : Dinode, din =
      { g'.view n with size := BitVec.ofNat 32 (node.size.toNat + xp.length) } := ⟨_, rfl⟩
  have length : din.size.toNat = node.size.toNat + xp.length := by
    rw [dinIs, BitVec.toNat_ofNat, Nat.mod_eq_of_lt]
    exact Nat.lt_of_le_of_lt bound (by decide)
  have newNode : din.node image'.bitmapped = append node xp := by
    have middle := last.writing.node_eq
    rw [dinIs]
    change ({ (g'.view n).node (image'.world kernel).disk with
      size := BitVec.ofNat 32 (node.size.toNat + xp.length) } : Node) = _
    rw [middle]
    rfl
  have addrs : din.addrs = (g'.view n).addrs := by rw [dinIs]
  have type : din.type ≠ 0 := by
    rw [dinIs]
    exact last.writing.owns.allocated
  have newFile : FileSound image'.bitmapped (g'.put n din) n := by
    refine ⟨?_, fun bn inside => ?_, ?_⟩
    · rw [put_view_self, length]
      exact bound
    · rw [put_view_self, length] at inside
      rw [put_view_self, blockAt_of_addrs addrs]
      exact last.writing.full bn inside
    · rw [put_view_self, newNode]
      exact sane.entries last.building.sb last.building.pinned n
  obtain ⟨stored, storedFiles, sameOwners, places⟩ :=
    last.building.store mounted last.writing.owns last.writing.only addrs type newFile
  dsimp only
  rw [← dinIs]
  apply winode_spec last.building (building.inRange owns)
  refine rest _ _ image'.freeblock ⟨stored, rfl, fun i ownsI => ?_, ?_, rfl, ?_, ?_⟩ ?_ bound
  · have before := (sameOwners i).mp ownsI
    by_cases same : i = n
    · subst same
      have grown := last.grown.congr (places i before)
      rw [put_view_self] at grown ⊢
      rwa [length]
    · have start := (last.owns i).mp before
      obtain ⟨view, others⟩ := last.others i same start
      have grown := (holds.grown i start).congr fun p valid =>
        (places i before p valid).trans (others p valid)
      rwa [← view, ← put_view_of_ne g' same din] at grown
  · rw [storedFiles, newNode]
    have files := last.writing.files
    rw [show g'.files image'.bitmapped = _ from files, Function.update_idem, ← holds.files]
    rfl
  · exact last.freeinode.trans holds.freeinode
  · exact last.stray.trans holds.stray
  · rw [← holds.freeblock]
    exact count

/-- `setNlink` changes the link count of a file. -/
theorem setNlink_spec {F : Prop} (mounted : Mounted kernel)
    (holds : Holds kernel files blocks inodes image g) {node : Node}
    (found : files n = some node) {nlink : BitVec 16} {Q : Unit → Image → Prop}
    (rest : ∀ image' g', Holds kernel (Function.update files n (some { node with nlink }))
      blocks inodes image' g' → Q () image') :
    Arrives (setNlink n nlink) F Q image := by
  have building := holds.building
  obtain ⟨owns, nodeIs⟩ := holds.owns found
  have file : FileSound image.bitmapped (g.put n { g.view n with nlink }) n :=
    (building.sound.files n owns).fields rfl rfl rfl
  obtain ⟨stored, storedFiles, sameOwners, places⟩ :=
    building.store mounted owns (holds.idle.only n)
      (show ({ g.view n with nlink } : Dinode).addrs = (g.view n).addrs from rfl)
      owns.allocated file
  unfold setNlink
  rw [arrives_bind]
  apply rinode_spec holds owns
  apply winode_spec building (building.inRange owns)
  refine rest _ _ ⟨stored, rfl, fun i ownsI => ?_, ?_, holds.freeblock, holds.freeinode,
    holds.stray⟩
  · have before := (sameOwners i).mp ownsI
    have grown := (holds.grown i before).congr (places i before)
    by_cases same : i = n
    · subst same
      rw [put_view_self] at grown ⊢
      exact grown
    · rwa [put_view_of_ne g same] at grown ⊢
  · rw [storedFiles, holds.files, ← nodeIs]
    rfl

end Holding

end Notux.Mkfs
