import Notux.Fs.Allocator
import Notux.Mkfs.Contents

/-!
# The finished image

Whatever binary is embedded, the image holds the directories and files that were
asked for, its bitmap marks the blocks below the counter, and each of these is
metadata or belongs to one place of one file.  The loop that runs before the bitmap
is written leaves its buffer once more than 4096 blocks are in use, which is a
condition on the length of the binary alone.
-/

namespace Notux.Mkfs

open Notux.Store Notux.Fs Notux.Proc

/-! ## What is built -/

/-- The entries of the root directory. -/
def rootEntries : List Dirent :=
  [entry [46] 1, entry [46, 46] 1, entry (ascii "etc") 2, entry (ascii "bin") 3,
    entry (ascii "root") 4, entry (ascii "README") 5]

/-- The dot entries of a directory under the root. -/
def dotEntries (inum : Nat) : List Dirent := [entry [46] inum, entry [46, 46] 1]

/-- The files of an image, by inode number from 1 on. -/
def imageNodes (binary : List Byte) : List Node :=
  [dirNode 5 rootEntries, dirNode 2 (dotEntries 2),
    dirNode 2 (dotEntries 3 ++ [entry (ascii "child") 6]), dirNode 2 (dotEntries 4),
    fileNode readmeText, fileNode binary]

/-- The blocks that an image with a binary of `size` bytes uses. -/
def imageBlocks (size : Nat) : Nat := nmeta + 5 + treeSize (dataBlocks size)

/-- The image after `balloc_mark_used`. -/
def Image.finished (image : Image) : Image :=
  let marked := { image with stray := image.stray ++ (markBuffer image.freeblock).2 }
  (marked.written sb.bmapstart (bitmapBlock image.freeblock 0)).written (sb.bmapstart + 1)
    (bitmapBlock image.freeblock 1)

/-- Entries of inodes that exist. -/
def InRange (entries : List Dirent) : Prop := ∀ de ∈ entries, de.inum.toNat < NINODES

theorem inRange_nil : InRange [] := nofun

theorem inRange_entry {entries : List Dirent} (inRange : InRange entries) (name : List Byte)
    {inum : Nat} (target : inum < NINODES) : InRange (entries ++ [entry name inum]) := by
  intro de member
  rcases List.mem_append.mp member with old | new
  · exact inRange de old
  · rw [List.mem_singleton.mp new]
    exact inum_entry name target

/-! ## The phases of `main` -/

section Phases

variable {kernel : Kernel} {image : Image} {F : Prop} (mounted : Mounted kernel)

include mounted

/-- The root directory with its two dot entries. -/
theorem rootDots_built (built : Built kernel [] nmeta image)
    {next : Nat → MkfsM Unit} {Q : Unit → Image → Prop}
    (rest : ∀ image', Built kernel [dirNode 1 [entry [46] 1, entry [46, 46] 1]] 65 image' →
      Arrives (next 1) F Q image') :
    Arrives (do
      let rootInum ← ialloc T_DIR
      if rootInum = ROOTINO then
        dirlink rootInum [46] rootInum
        dirlink rootInum [46, 46] rootInum
        next rootInum
      else failure) F Q image := by
  rw [arrives_bind]
  apply ialloc_built mounted built (by decide) (by decide)
  intro image₁ built₁
  rw [List.nil_append, ← dirNode_nil] at built₁
  have one : ([] : List Node).length + 1 = 1 := rfl
  rw [one, if_pos rfl, arrives_bind]
  have found₁ : [dirNode 1 []][0]? = some (dirNode 1 []) := rfl
  apply dirlink_built mounted built₁ found₁ (by decide) inRange_nil (by decide)
    (fun _ tooLarge => absurd tooLarge (by decide))
  intro image₂ built₂
  rw [List.set_cons_zero, List.nil_append, if_pos rfl] at built₂
  rw [arrives_bind]
  have found₂ : [dirNode 1 [entry [46] 1]][0]? = some (dirNode 1 [entry [46] 1]) := rfl
  have inRange₂ : InRange [entry [46] 1] := inRange_entry inRange_nil [46] (by decide)
  apply dirlink_built mounted built₂ found₂ (by simp) inRange₂ (by decide) nofun
  intro image₃ built₃
  rw [List.set_cons_zero, if_neg (by simp)] at built₃
  exact rest image₃ built₃

/-- The three directories under the root, and its link count. -/
theorem rootDirs_built (etc bin root : List Byte)
    (built : Built kernel [dirNode 1 [entry [46] 1, entry [46, 46] 1]] 65 image)
    {next : Nat → MkfsM Unit} {Q : Unit → Image → Prop}
    (rest : ∀ image', Built kernel
      [dirNode 5 [entry [46] 1, entry [46, 46] 1, entry etc 2, entry bin 3, entry root 4],
        dirNode 2 (dotEntries 2), dirNode 2 (dotEntries 3), dirNode 2 (dotEntries 4)] 68 image' →
      Arrives (next 3) F Q image') :
    Arrives (do
      let _ ← makeDirUnderRoot 1 etc
      let binInum ← makeDirUnderRoot 1 bin
      let _ ← makeDirUnderRoot 1 root
      setNlink 1 (2 + 3)
      next binInum) F Q image := by
  have inRange₀ : InRange [entry [46] 1, entry [46, 46] 1] :=
    inRange_entry (inRange_entry inRange_nil [46] (by decide)) [46, 46] (by decide)
  have inRange₁ : InRange [entry [46] 1, entry [46, 46] 1, entry etc 2] :=
    inRange_entry inRange₀ etc (by decide)
  have inRange₂ : InRange [entry [46] 1, entry [46, 46] 1, entry etc 2, entry bin 3] :=
    inRange_entry inRange₁ bin (by decide)
  rw [arrives_bind]
  apply makeDirUnderRoot_built mounted built rfl (by simp) (by simp) inRange₀ (by decide) (by decide)
  intro image₁ built₁
  rw [arrives_bind]
  apply makeDirUnderRoot_built mounted built₁ rfl (by simp) (by simp) inRange₁ (by simp [NINODES])
    (by decide)
  intro image₂ built₂
  rw [arrives_bind]
  apply makeDirUnderRoot_built mounted built₂ rfl (by simp) (by simp) inRange₂ (by simp [NINODES])
    (by decide)
  intro image₃ built₃
  rw [arrives_bind]
  apply setNlink_built mounted built₃ rfl
  intro image₄ built₄
  exact rest image₄ built₄

/-- The text file, entered in the root. -/
theorem rootFile_built {nodes : List Node} {nlink : BitVec 16} {entries : List Dirent}
    {blocks : Nat} (name : List Byte) {text : List Byte}
    (built : Built kernel (dirNode nlink entries :: nodes) blocks image)
    (some : entries ≠ []) (small : entries.length < 32) (inRange : InRange entries)
    (spare : nodes.length + 2 < NINODES) (room : blocks + 1 ≤ FSSIZE)
    (positive : 0 < text.length) (short : text.length ≤ BSIZE)
    {next : MkfsM Unit} {Q : Unit → Image → Prop}
    (rest : ∀ image', Built kernel
      (dirNode nlink (entries ++ [entry name (nodes.length + 2)]) :: nodes ++ [fileNode text])
        (blocks + 1) image' → Arrives next F Q image') :
    Arrives (do
      let inum ← ialloc T_FILE
      iappend inum text
      dirlink 1 name inum
      next) F Q image := by
  rw [arrives_bind]
  apply ialloc_built mounted built spare (by decide)
  intro image₁ built₁
  rw [← fileNode_nil] at built₁
  rw [arrives_bind]
  have last : ∀ node : Node, ((dirNode nlink entries :: nodes) ++ [node])[(dirNode nlink entries ::
      nodes).length]? = Option.some node := by simp
  have one : dataBlocks (([] : List Byte).length + text.length) = 1 := by
    unfold dataBlocks
    simp only [BSIZE, List.length_nil] at *
    omega
  have none : dataBlocks ([] : List Byte).length = 0 := rfl
  have grown := @append_fileNode [] text (by simp)
  have size : (fileNode []).size.toNat = ([] : List Byte).length := size_fileNode (by simp)
  have first : treeSize 1 = 1 := rfl
  have nothing : treeSize 0 = 0 := rfl
  apply iappend_built mounted built₁ (last _)
  · rw [grown]
    exact sane_fileNode _
  · rw [size, one, none, first, nothing]
    intro tooLarge
    omega
  · rw [size]
    simp only [MAXFILE, NDINDIRECT, NDIRECT, NINDIRECT, BSIZE, List.length_nil] at *
    intro tooLarge
    omega
  · intro image₂ blocks₂ built₂ count _
    rw [size, one, none, first, nothing] at count
    rw [grown, List.nil_append, List.set_append_right _ _ (Nat.le_refl _), Nat.sub_self,
      List.set_cons_zero] at built₂
    rw [Nat.add_zero] at count
    rw [count] at built₂
    rw [arrives_bind]
    apply dirlink_built mounted built₂ (k := 0) rfl small inRange spare
      (fun empty => absurd empty some)
    intro image₃ built₃
    rw [List.cons_append, List.set_cons_zero, if_neg some] at built₃
    exact rest image₃ built₃

/-- The binary, entered in its directory. -/
theorem binary_built {nodes : List Node} {k : Nat} {nlink : BitVec 16} {entries : List Dirent}
    {blocks : Nat} (name : List Byte) {chunks : List (List Byte)}
    (built : Built kernel nodes blocks image) (found : nodes[k]? = some (dirNode nlink entries))
    (some : entries ≠ []) (small : entries.length < 32) (inRange : InRange entries)
    (spare : nodes.length + 1 < NINODES)
    (full : FSSIZE < blocks + treeSize (dataBlocks chunks.flatten.length) → F)
    (long : MAXFILE * BSIZE < chunks.flatten.length → F)
    {next : MkfsM Unit} {Q : Unit → Image → Prop}
    (rest : ∀ image', Built kernel
      (nodes.set k (dirNode nlink (entries ++ [entry name (nodes.length + 1)])) ++
        [fileNode chunks.flatten])
        (blocks + treeSize (dataBlocks chunks.flatten.length)) image' →
      Arrives next F Q image') :
    Arrives (do
      let inum ← ialloc T_FILE
      appendChunks inum chunks
      dirlink (k + 1) name inum
      next) F Q image := by
  have inside : k < nodes.length := (List.getElem?_eq_some_iff.mp found).1
  have none : dataBlocks ([] : List Byte).length = 0 := rfl
  have nothing : treeSize 0 = 0 := rfl
  rw [arrives_bind]
  apply ialloc_built mounted built spare (by decide)
  intro image₁ built₁
  rw [← fileNode_nil] at built₁
  have last : ∀ node : Node, (nodes ++ [node])[nodes.length]? = Option.some node := by simp
  rw [arrives_bind]
  apply appendChunks_built mounted built₁ (last _) (Nat.zero_le _)
  · rw [none, nothing, List.length_nil, Nat.zero_add]
    exact full
  · rw [List.length_nil, Nat.zero_add]
    exact long
  · intro image₂ blocks₂ built₂ count
    rw [none, nothing, List.length_nil, Nat.zero_add, Nat.add_zero] at count
    rw [List.set_append_right _ _ (Nat.le_refl _), Nat.sub_self, List.set_cons_zero,
      List.nil_append, count] at built₂
    have found₂ : (nodes ++ [fileNode chunks.flatten])[k]? =
        Option.some (dirNode nlink entries) := by
      rw [List.getElem?_append_left inside]
      exact found
    rw [arrives_bind]
    apply dirlink_built mounted built₂ found₂ small inRange spare
      (fun empty => absurd empty some)
    intro image₃ built₃
    rw [List.set_append_left _ _ inside, if_neg some] at built₃
    exact rest image₃ built₃

end Phases

/-! ## The whole image -/

theorem length_readmeText : readmeText.length = 252 := by decide +kernel

/-- A binary that is longer than a file can be does not fit either. -/
theorem imageBlocks_of_long {size : Nat} (long : MAXFILE * BSIZE < size) :
    FSSIZE < imageBlocks size := by
  have blocks : MAXFILE ≤ dataBlocks size := by
    unfold dataBlocks
    simp only [BSIZE] at *
    omega
  have tree := le_treeSize (dataBlocks size)
  have most : FSSIZE < MAXFILE := by decide
  unfold imageBlocks
  omega

/-- `main` builds the image, or the blocks do not suffice. -/
theorem build_spec {kernel : Kernel} (mounted : Mounted kernel) (chunks : List (List Byte))
    {image : Image} (built : Built kernel [] nmeta image) :
    Arrives (build (some chunks)) (FSSIZE < imageBlocks chunks.flatten.length)
      (fun _ final => ∃ image, final = image.finished ∧
        Built kernel (imageNodes chunks.flatten) (imageBlocks chunks.flatten.length) image)
      image := by
  have inRange : InRange rootEntries.dropLast :=
    inRange_entry (inRange_entry (inRange_entry (inRange_entry (inRange_entry inRange_nil _
      (by decide)) _ (by decide)) _ (by decide)) _ (by decide)) _ (by decide)
  have inRangeDots : InRange (dotEntries 3) :=
    inRange_entry (inRange_entry inRange_nil _ (by decide)) _ (by decide)
  unfold build
  dsimp only
  apply rootDots_built mounted built
  intro image₁ built₁
  apply rootDirs_built mounted (ascii "etc") (ascii "bin") (ascii "root") built₁
  intro image₂ built₂
  apply rootFile_built mounted (ascii "README") built₂
  · simp
  · simp
  · exact inRange
  · decide
  · decide
  · rw [length_readmeText]
    decide
  · rw [length_readmeText]
    decide
  intro image₃ built₃
  apply binary_built mounted (ascii "child") (k := 2) built₃ rfl
  · simp [dotEntries]
  · simp [dotEntries]
  · exact inRangeDots
  · decide
  · exact id
  · exact imageBlocks_of_long
  intro image₄ built₄
  exact ⟨image₄, rfl, built₄⟩

/-- A kernel that has just mounted the image. -/
def freshKernel : Kernel where
  sb := sb
  xv6fsMounted := true
  icacheLocked := false
  icache := fun _ => Inode.vacant
  cwd := none
  table := ProcTable.schedulerInit fun _ => 0
  elfLoadBuffer := fun _ => 0

theorem freshKernel_mounted : Mounted freshKernel := ⟨rfl, rfl, fun _ => rfl⟩

/-- `main` does not give up if the blocks suffice. -/
theorem build_succeeds {kernel : Kernel} (mounted : Mounted kernel) {chunks : List (List Byte)}
    {image : Image} (built : Built kernel [] nmeta image)
    (fits : imageBlocks chunks.flatten.length ≤ FSSIZE) :
    ∃ value after, (build (some chunks)).run image = some (value, after) := by
  have arrives := build_spec mounted chunks built
  obtain ⟨value, after, run, -⟩ := arrives.exists_some (Nat.not_lt.mpr fits)
  exact ⟨value, after, run⟩

/-- What `main` leaves behind. -/
theorem build_of_some {kernel : Kernel} (mounted : Mounted kernel) {chunks : List (List Byte)}
    {image final : Image} {value : Unit} (built : Built kernel [] nmeta image)
    (run : (build (some chunks)).run image = some (value, final)) :
    ∃ image, final = image.finished ∧
      Built kernel (imageNodes chunks.flatten) (imageBlocks chunks.flatten.length) image := by
  have arrives := build_spec mounted chunks built
  have reached := arrives.of_some run
  exact reached

theorem mkfs_built {kernel : Kernel} (mounted : Mounted kernel) {chunks : List (List Byte)}
    {final : Image} (made : mkfs (some chunks) = some final) :
    ∃ image, final = image.finished ∧
      Built kernel (imageNodes chunks.flatten) (imageBlocks chunks.flatten.length) image := by
  obtain ⟨⟨value, after⟩, run, same⟩ := Option.map_eq_some_iff.mp made
  change after = final at same
  subst same
  exact build_of_some mounted (blank_built mounted) run

theorem mkfs_succeeds {chunks : List (List Byte)}
    (fits : imageBlocks chunks.flatten.length ≤ FSSIZE) :
    ∃ final, mkfs (some chunks) = some final := by
  obtain ⟨value, after, run⟩ := build_succeeds freshKernel_mounted
    (blank_built freshKernel_mounted) fits
  exact ⟨after, Option.map_eq_some_iff.mpr ⟨(value, after), run, rfl⟩⟩

theorem finished_disk (image : Image) : image.finished.disk = image.bitmapped := rfl

/-! ## The bitmap of the image -/

/-- The block tree of an inode refers to a block at a position. -/
def RefersTo (disk : Disk) (b : Nat) (place : Nat × Pos) : Prop :=
  place.1 < NINODES ∧ (onDisk sb disk place.1).type ≠ 0 ∧ place.2.Valid fileShape ∧
    (onDisk sb disk place.1).blockAt disk place.2 = b

/-- The blocks of an image are accounted for. -/
structure WellMarked (image : Image) : Prop where
  buffer : image.stray = []
  inside : image.freeblock ≤ FSSIZE
  marks : ∀ b < FSSIZE, marked sb image.disk b = true ↔ b < image.freeblock
  once : ∀ b < image.freeblock, b < nmeta ∨ ∃! place, RefersTo image.disk b place
  /-- A kernel that has mounted a disk on which these blocks are marked takes none of
  them. -/
  kept : ∀ world : FsWorld, world.mem.sb = sb →
    (∀ b < image.freeblock, marked sb world.disk b = true) →
    balloc.wp (fun _ => True) (fun _ _ => True) (fun b _ => image.freeblock ≤ b) world

/-- `balloc` takes a block that is not marked. -/
theorem ballocLoop_unmarked {world : FsWorld} {sb : Superblock} {fuel b : Nat}
    (aligned : BPB ∣ b) :
    (ballocLoop sb fuel b).wp (fun _ => True) (fun _ _ => True)
      (fun b _ => marked sb world.disk b = false) world := by
  induction fuel generalizing b with
  | zero => trivial
  | succ fuel ih =>
      unfold ballocLoop
      split
      · simp only [Prog.wp_bind, Prog.wp_bread, Prog.wp_data]
        intro slot
        cases found : findClear (world.disk (bblock sb b)) (sb.size - b) BPB 0 with
        | some bi =>
            obtain ⟨-, -, near, clear⟩ := findClear_eq_some found
            obtain ⟨sameBlock, place⟩ := bitmap_place sb aligned (Nat.zero_add BPB ▸ near)
            have unmarked : marked sb world.disk (b + bi) = false := by
              unfold marked
              rw [sameBlock, place]
              exact clear
            unfold bzero
            simp only [Prog.wp_bind, Prog.wp_logWrite, Prog.wp_bread]
            exact ⟨trivial, fun _ => ⟨trivial, unmarked⟩⟩
        | none => exact ih (Nat.dvd_add aligned (Nat.dvd_refl _))
      · trivial

theorem balloc_unmarked (world : FsWorld) :
    balloc.wp (fun _ => True) (fun _ _ => True)
      (fun b _ => marked world.mem.sb world.disk b = false) world := by
  unfold balloc
  simp only [Prog.wp_bind, Prog.wp_getMem]
  split
  · exact ballocLoop_unmarked (Nat.dvd_zero _)
  · trivial

/-- A block below the counter belongs to one place of one inode. -/
theorem Building.refersTo_unique {kernel : Kernel} {image : Image} {g : Ghost}
    (building : Building kernel image g) (clean : g.dirty = none) {b : Nat}
    (low : b < image.freeblock) :
    b < nmeta ∨ ∃! place, RefersTo image.bitmapped b place := by
  have stored : ∀ i < NINODES, onDisk Mkfs.sb image.bitmapped i = g.view i := by
    intro i inRange
    rw [← building.sb]
    refine building.sound.store.clean i ?_ ?_ ?_
    · rwa [building.sb]
    · rw [building.detached]
      exact nofun
    · rw [clean]
      exact nofun
  have used : g.tag b ≠ .free := fun free => Nat.not_le.mpr low ((building.free b).mp free)
  cases tag : g.tag b with
  | free => exact absurd tag used
  | loose => exact absurd tag (building.attached b)
  | metadata =>
      left
      have bound := (building.sound.blocks.metadata b).mp tag
      rwa [building.sb] at bound
  | owned i p =>
      right
      have attached : g.detached ≠ some i := by
        rw [building.detached]
        exact nofun
      obtain ⟨owns, valid, place⟩ := building.sound.blocks.owned b i p tag attached
      have inRange := building.inRange owns
      refine ⟨(i, p), ⟨inRange, ?_, valid, ?_⟩, ?_⟩
      · rw [stored i inRange]
        exact owns.allocated
      · rw [stored i inRange]
        exact place
      · rintro ⟨j, q⟩ ⟨inRange', allocated, valid', place'⟩
        rw [stored j inRange'] at allocated place'
        have owns' : g.Owns j := by
          refine ⟨?_, allocated, ?_⟩
          · rwa [building.sb]
          · rw [building.detached]
            exact nofun
        have range := (building.owned_range tag).1
        have positive : 0 < nmeta := by decide
        have present : (g.view j).blockAt image.bitmapped q ≠ 0 := by
          rw [place']
          omega
        have points := building.sound.blocks.points j q owns' valid' present
        rw [show (g.view j).blockAt (image.world kernel).disk q = b from place', tag] at points
        cases points
        rfl

/-- All is well as long as the bitmap fits into the buffer. -/
theorem finished_wellMarked {kernel : Kernel} {image : Image} {g : Ghost} {files : Files}
    {blocks inodes : Nat} (holds : Holds kernel files blocks inodes image g) :
    WellMarked image.finished ↔ blocks ≤ BPB := by
  have building := holds.building
  have counter : image.finished.freeblock = blocks := holds.freeblock
  have stray : image.finished.stray = (markBuffer image.freeblock).2 := by
    change image.stray ++ (markBuffer image.freeblock).2 = _
    rw [holds.stray, List.nil_append]
  constructor
  · intro well
    have empty := well.buffer
    rw [stray, markBuffer_stray, holds.freeblock] at empty
    exact empty
  · intro fits
    refine ⟨?_, building.freeblock_le, ?_, ?_, ?_⟩
    · rw [stray, markBuffer_stray, holds.freeblock]
      exact fits
    · intro b inside
      exact marked_bitmapped image inside
    · intro b low
      exact building.refersTo_unique holds.dirty low
    · intro world same reserved
      refine (balloc_unmarked world).mono fun b _ unmarked => ?_
      by_contra low
      rw [same] at unmarked
      rw [reserved b (Nat.lt_of_not_le low)] at unmarked
      cases unmarked

/-- The longest binary for which the bitmap fits into its buffer. -/
abbrev maxBinary : Nat := 2044928

theorem imageBlocks_le_iff (size : Nat) : imageBlocks size ≤ BPB ↔ size ≤ maxBinary := by
  unfold imageBlocks treeSize dataBlocks
  have start : nmeta = 64 := rfl
  simp only [start, BPB, BSIZE, maxBinary]
  split_ifs <;> omega

/-- The image of a binary has a well-formed bitmap, made without leaving the buffer,
exactly when the binary has at most 2044928 bytes. -/
theorem mkfs_wellMarked (chunks : List (List Byte)) (image : Image)
    (made : mkfs (some chunks) = some image) :
    WellMarked image ↔ chunks.flatten.length ≤ maxBinary := by
  obtain ⟨image, rfl, g, holds⟩ := mkfs_built freshKernel_mounted made
  rw [finished_wellMarked holds, imageBlocks_le_iff]

/-- A binary of five hundred pages of zeros. -/
def longBinary : List (List Byte) := List.replicate 500 (List.replicate 4096 0)

theorem length_longBinary : longBinary.flatten.length = 2048000 := by
  rw [longBinary, List.length_flatten, List.map_replicate, List.length_replicate,
    List.sum_replicate_nat]

theorem mkfs_longBinary :
    ∃ image, mkfs (some longBinary) = some image ∧ ¬ WellMarked image := by
  obtain ⟨image, made⟩ := @mkfs_succeeds longBinary (by
    rw [length_longBinary]
    decide)
  refine ⟨image, made, fun well => ?_⟩
  obtain ⟨image, rfl, g, holds⟩ := mkfs_built freshKernel_mounted made
  have bound := (imageBlocks_le_iff _).mp ((finished_wellMarked holds).mp well)
  rw [length_longBinary] at bound
  exact absurd bound (by decide)

/-- A binary of two chunks, which takes ten blocks. -/
def twoChunks : List (List Byte) := [List.replicate 4096 0x90, List.replicate 1000 0xC3]

theorem mkfs_wellMarked_twoChunks :
    ∃ image, mkfs (some twoChunks) = some image ∧ WellMarked image := by
  have length : twoChunks.flatten.length = 5096 := by
    simp only [twoChunks, List.flatten_cons, List.flatten_nil, List.append_nil, List.length_append,
      List.length_replicate]
  obtain ⟨image, made⟩ := @mkfs_succeeds twoChunks (by
    rw [length]
    decide)
  exact ⟨image, made, (mkfs_wellMarked twoChunks image made).mpr (by
    rw [length]
    decide)⟩

end Notux.Mkfs
