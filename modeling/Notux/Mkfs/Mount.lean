import Notux.Mkfs.Bitmap
import Notux.Fs.Removal

/-!
# A mounted image

The state in which the kernel starts to work on an image that `mkfs` has written.
-/

namespace Notux.Mkfs

open Notux.Store Notux.Fs Notux.Proc

/-- The kernel has mounted an image with this binary and uses no inode yet. -/
structure Mounts (binary : List Byte) (world : FsWorld) : Prop where
  image : ∃ chunks final, chunks.flatten = binary ∧ mkfs (some chunks) = some final ∧
    world.disk = final.disk
  mounted : Mounted world.mem
  cwd : world.mem.cwd = none

/-- Every entry of a directory of the image is one of the list. -/
theorem mem_of_isEntry {nlink : BitVec 16} {entries : List Dirent}
    (small : DIRENT_SIZE * entries.length < 2 ^ 32) {off : Nat}
    (entry : (dirNode nlink entries).IsEntry off) :
    (dirNode nlink entries).dirent off ∈ entries := by
  obtain ⟨⟨j, rfl⟩, inside⟩ := entry
  rw [size_dirNode small] at inside
  have bound : j < entries.length := by
    simp only [DIRENT_SIZE] at inside
    omega
  rw [dirent_dirNode bound]
  exact List.getElem_mem bound

/-- The directories of an image. -/
theorem dir_of_image {binary : List Byte} {d : Nat} {node : Node}
    (found : table (imageNodes binary) d = some node) (isDir : node.type = T_DIR) :
    (d = 1 ∧ node = dirNode 5 rootEntries) ∨ (d = 2 ∧ node = dirNode 2 (dotEntries 2)) ∨
      (d = 3 ∧ node = dirNode 2 (dotEntries 3 ++ [entry (ascii "child") 6])) ∨
      (d = 4 ∧ node = dirNode 2 (dotEntries 4)) := by
  cases d with
  | zero => cases found
  | succ k =>
      rw [table_succ] at found
      match k, found with
      | 0, found => exact Or.inl ⟨rfl, (Option.some.inj found).symm⟩
      | 1, found => exact Or.inr (Or.inl ⟨rfl, (Option.some.inj found).symm⟩)
      | 2, found => exact Or.inr (Or.inr (Or.inl ⟨rfl, (Option.some.inj found).symm⟩))
      | 3, found => exact Or.inr (Or.inr (Or.inr ⟨rfl, (Option.some.inj found).symm⟩))
      | 4, found => rw [← Option.some.inj found] at isDir; cases isDir
      | 5, found => rw [← Option.some.inj found] at isDir; cases isDir

section Mounts

variable {binary : List Byte} {world : FsWorld} (mounts : Mounts binary world)

include mounts

/-- A mounted image is sound and holds the files of the image. -/
theorem Mounts.sound : ∃ g, Sound ∅ world g ∧ g.Idle ∧ g.pinned = ∅ ∧ g.held = 0 ∧
    g.aligned ∧ g.sb = sb ∧ g.files world.disk = table (imageNodes binary) := by
  obtain ⟨chunks, final, rfl, made, disk⟩ := mounts.image
  obtain ⟨image, rfl, g, holds⟩ := mkfs_built mounts.mounted made
  have same : world = image.world world.mem := by
    rw [finished_disk] at disk
    rw [Image.world, ← disk]
  have files : g.files world.disk = table (imageNodes chunks.flatten) := by
    rw [disk, finished_disk]
    exact holds.files
  refine ⟨g, ?_, holds.idle, holds.building.pinned, holds.building.held, holds.building.aligned,
    holds.building.sb, files⟩
  rw [same]
  exact holds.building.sound

end Mounts

/-- There is such a state, with an empty binary and no lock held. -/
theorem exists_mounts : ∃ world, Mounts [] world ∧ world.mem = freshKernel := by
  have fits : imageBlocks ([[]] : List (List Byte)).flatten.length ≤ FSSIZE := by decide
  obtain ⟨final, made⟩ := mkfs_succeeds fits
  exact ⟨⟨freshKernel, final.disk⟩, ⟨⟨[[]], final, rfl, made, rfl⟩, freshKernel_mounted, rfl⟩, rfl⟩

end Notux.Mkfs
