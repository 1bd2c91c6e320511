import Notux.Mkfs.Mount
import Notux.Sys.Forest

/-!
# The names of an image

The files of an image are a forest.  The directories that `mkfs` makes have a link more than the
kernel would count, and the root has two.
-/

namespace Notux.Mkfs

open Notux.Store Notux.Fs Notux.Proc

/-! ## Directories as lists of entries -/

section Entries

variable {nlink : BitVec 16} {entries : List Dirent}
  (small : DIRENT_SIZE * entries.length < 2 ^ 32)

include small

/-- The entries in use are those of the list. -/
theorem used_dirNode {off : Nat} : (dirNode nlink entries).Used off ↔
    ∃ j, ∃ inside : j < entries.length, off = DIRENT_SIZE * j ∧ entries[j].inum ≠ 0 := by
  unfold Node.Used Node.IsEntry
  rw [size_dirNode small]
  constructor
  · rintro ⟨⟨⟨j, rfl⟩, inside⟩, inUse⟩
    have bound : j < entries.length := by
      simp only [DIRENT_SIZE] at inside
      omega
    rw [dirent_dirNode bound] at inUse
    exact ⟨j, bound, rfl, inUse⟩
  · rintro ⟨j, bound, rfl, inUse⟩
    refine ⟨⟨Nat.dvd_mul_right _ _, ?_⟩, ?_⟩
    · simp only [DIRENT_SIZE]
      omega
    · rw [dirent_dirNode bound]
      exact inUse

omit small in
theorem nameAt_dirNode {j : Nat} (inside : j < entries.length) :
    (dirNode nlink entries).nameAt (DIRENT_SIZE * j) = cstr entries[j].name := by
  unfold Node.nameAt
  rw [dirent_dirNode inside]

/-- Entries that start with the dots and have distinct names make a directory. -/
theorem listed_dirNode {i up : Nat} {rest : List Dirent}
    (starts : entries = entry [dot] i :: entry [dot, dot] up :: rest) (here : i < 2 ^ 16)
    (above : up < 2 ^ 16) (positive : 0 < i) (positiveUp : 0 < up)
    (distinct : (entries.map fun de => cstr de.name).Nodup) : (dirNode nlink entries).Listed i := by
  have first : 0 < entries.length := by simp [starts]
  have second : 1 < entries.length := by simp [starts]
  have isFirst : entries[0] = entry [dot] i := by simp [starts]
  have isSecond : entries[1] = entry [dot, dot] up := by simp [starts]
  constructor
  · rw [size_dirNode small]
    exact Nat.dvd_mul_right _ _
  · refine (used_dirNode small).mpr ⟨0, first, rfl, ?_⟩
    rw [isFirst]
    exact Node.inum_naming_ne [dot] here positive
  · unfold Node.inumAt
    rw [← Nat.mul_zero DIRENT_SIZE, dirent_dirNode first, isFirst]
    exact Node.inum_naming [dot] here
  · rw [← Nat.mul_zero DIRENT_SIZE, nameAt_dirNode first, isFirst]
    exact (fits_dots (Or.inl rfl)).cstr
  · refine (used_dirNode small).mpr ⟨1, second, rfl, ?_⟩
    rw [isSecond]
    exact Node.inum_naming_ne [dot, dot] above positiveUp
  · rw [← Nat.mul_one DIRENT_SIZE, nameAt_dirNode second, isSecond]
    exact (fits_dots (Or.inr rfl)).cstr
  · intro off other used used' same
    obtain ⟨j, inside, rfl, -⟩ := (used_dirNode small).mp used
    obtain ⟨k, inside', rfl, -⟩ := (used_dirNode small).mp used'
    rw [nameAt_dirNode inside, nameAt_dirNode inside'] at same
    have inMap : j < (entries.map fun de => cstr de.name).length := by simpa using inside
    have inMap' : k < (entries.map fun de => cstr de.name).length := by simpa using inside'
    have equal : (entries.map fun de => cstr de.name)[j] =
        (entries.map fun de => cstr de.name)[k] := by
      simpa using same
    rw [(distinct.getElem_inj_iff).mp equal]

/-- What a directory binds is in its list. -/
theorem mem_of_bound {name : List Byte} {n : Nat}
    (bound : (dirNode nlink entries).bound name = some n) : ¬ IsDots name ∧
      ∃ de ∈ entries, cstr de.name = name ∧ de.inum.toNat = n := by
  unfold Node.bound Node.answer at bound
  split at bound
  · next asked =>
    obtain ⟨off, found, isNumber⟩ := Option.map_eq_some_iff.mp bound
    obtain ⟨used, named⟩ := Node.lookup_used found
    rw [List.take_of_length_le asked.1] at named
    obtain ⟨j, inside, rfl, -⟩ := (used_dirNode small).mp used
    refine ⟨asked.2, entries[j], List.getElem_mem inside, ?_, ?_⟩
    · rw [← nameAt_dirNode inside]
      exact named
    · rw [← dirent_dirNode inside]
      exact isNumber
  · cases bound

end Entries

/-! ## The forest of an image -/

/-- The names of an image: the directory, the name and the inode. -/
def imageNames : List (Nat × List Byte × Nat) :=
  [(1, ascii "etc", 2), (1, ascii "bin", 3), (1, ascii "root", 4), (1, ascii "README", 5),
    (3, ascii "child", 6)]

/-- The links that `mkfs` gives to its directories beyond those the kernel would count. -/
def imageExtra (i : Nat) : Nat := if i = 1 then 2 else if i = 2 ∨ i = 3 ∨ i = 4 then 1 else 0

section Image

variable {binary : List Byte}

theorem inode_of_image {i : Nat} {node : Node}
    (found : table (imageNodes binary) i = some node) : 0 < i ∧ i ≤ 6 := by
  cases i with
  | zero => cases found
  | succ k =>
      rw [table_succ] at found
      have inside := (List.getElem?_eq_some_iff.mp found).1
      exact ⟨Nat.succ_pos k, inside⟩

theorem listed_image {d : Nat} {node : Node} (found : table (imageNodes binary) d = some node)
    (isDir : node.type = T_DIR) : node.Listed d := by
  rcases dir_of_image found isDir with ⟨rfl, rfl⟩ | ⟨rfl, rfl⟩ | ⟨rfl, rfl⟩ | ⟨rfl, rfl⟩
  · exact listed_dirNode (by decide) rfl (by decide) (by decide) (by decide) (by decide)
      (by decide +kernel)
  · exact listed_dirNode (by decide) rfl (by decide) (by decide) (by decide) (by decide)
      (by decide +kernel)
  · exact listed_dirNode (by decide) rfl (by decide) (by decide) (by decide) (by decide)
      (by decide +kernel)
  · exact listed_dirNode (by decide) rfl (by decide) (by decide) (by decide) (by decide)
      (by decide +kernel)

/-- The directories of an image bind what `mkfs` has linked. -/
theorem child_image {d n : Nat} {name : List Byte} :
    (table (imageNodes binary)).naming.child d name = some n ↔ (d, name, n) ∈ imageNames := by
  constructor
  · intro bound
    have ofRoot : ∀ de ∈ rootEntries, ¬ IsDots (cstr de.name) →
        (1, cstr de.name, de.inum.toNat) ∈ imageNames := by decide +kernel
    have ofEtc : ∀ de ∈ dotEntries 2, ¬ IsDots (cstr de.name) →
        (2, cstr de.name, de.inum.toNat) ∈ imageNames := by decide +kernel
    have ofBin : ∀ de ∈ dotEntries 3 ++ [entry (ascii "child") 6], ¬ IsDots (cstr de.name) →
        (3, cstr de.name, de.inum.toNat) ∈ imageNames := by decide +kernel
    have ofHome : ∀ de ∈ dotEntries 4, ¬ IsDots (cstr de.name) →
        (4, cstr de.name, de.inum.toNat) ∈ imageNames := by decide +kernel
    obtain ⟨node, found, type, binds⟩ := Files.child_iff.mp bound
    rcases dir_of_image found type with ⟨rfl, rfl⟩ | ⟨rfl, rfl⟩ | ⟨rfl, rfl⟩ | ⟨rfl, rfl⟩
    · obtain ⟨notDots, de, member, rfl, rfl⟩ := mem_of_bound (by decide) binds
      exact ofRoot de member notDots
    · obtain ⟨notDots, de, member, rfl, rfl⟩ := mem_of_bound (by decide) binds
      exact ofEtc de member notDots
    · obtain ⟨notDots, de, member, rfl, rfl⟩ := mem_of_bound (by decide) binds
      exact ofBin de member notDots
    · obtain ⟨notDots, de, member, rfl, rfl⟩ := mem_of_bound (by decide) binds
      exact ofHome de member notDots
  · intro member
    have root : (table (imageNodes binary)).naming.dirOf 1 = (dirNode 5 rootEntries).directory := rfl
    have bin : (table (imageNodes binary)).naming.dirOf 3 =
        (dirNode 2 (dotEntries 3 ++ [entry (ascii "child") 6])).directory := rfl
    unfold imageNames at member
    simp only [List.mem_cons, Prod.mk.injEq, List.not_mem_nil, or_false] at member
    unfold Naming.child
    rcases member with ⟨rfl, rfl, rfl⟩ | ⟨rfl, rfl, rfl⟩ | ⟨rfl, rfl, rfl⟩ | ⟨rfl, rfl, rfl⟩ |
      ⟨rfl, rfl, rfl⟩
    · rw [root]
      decide +kernel
    · rw [root]
      decide +kernel
    · rw [root]
      decide +kernel
    · rw [root]
      decide +kernel
    · rw [bin]
      decide +kernel

/-- The inodes of the directories of an image. -/
theorem isDir_image {i : Nat} :
    (table (imageNodes binary)).naming.dirOf i ≠ none ↔ i ∈ [1, 2, 3, 4] := by
  rw [Files.dirOf_ne_none_iff]
  constructor
  · rintro ⟨node, found, type⟩
    rcases dir_of_image found type with ⟨rfl, -⟩ | ⟨rfl, -⟩ | ⟨rfl, -⟩ | ⟨rfl, -⟩ <;> decide
  · intro member
    simp only [List.mem_cons, List.not_mem_nil, or_false] at member
    rcases member with rfl | rfl | rfl | rfl <;> exact ⟨_, rfl, rfl⟩

/-- The names of an image, by inode. -/
theorem image_once : ∀ place ∈ imageNames, ∀ other ∈ imageNames, place.2.2 = other.2.2 →
    place = other := by
  decide +kernel

theorem listing_image : (table (imageNodes binary)).Listing [1, 2, 3, 4] imageNames :=
  ⟨child_image, isDir_image⟩

/-- The directories of an image have their links, and those that the kernel would not count. -/
theorem counted_image {i : Nat} (isDir : i ∈ [1, 2, 3, 4]) :
    (table (imageNodes binary)).naming.links i =
      (Files.placesIn imageNames i).card + (Files.kidsIn [1, 2, 3, 4] imageNames i).card +
        imageExtra i := by
  have count : ∀ i ∈ [1, 2, 3, 4], (if i = 1 then 5 else 2) =
      (Files.placesIn imageNames i).card + (Files.kidsIn [1, 2, 3, 4] imageNames i).card +
        imageExtra i := by decide +kernel
  rw [← count i isDir]
  simp only [List.mem_cons, List.not_mem_nil, or_false] at isDir
  rcases isDir with rfl | rfl | rfl | rfl <;> rfl

/-- The files of an image are a forest. -/
theorem forest_image : (table (imageNodes binary)).Forest imageExtra where
  noZero := rfl
  listed _ _ := listed_image
  formed := by
    have targets : ∀ place ∈ imageNames, place.2.2 ∈ [2, 3, 4, 5, 6] ∧ place.2.2 ≠ ROOTINO ∧
        place.1 < place.2.2 ∧ (place.2.2 ∈ [1, 2, 3, 4] → place.1 = 1) := by decide +kernel
    refine @Files.Listing.wellFormed _ _ _ listing_image _ 6 ?finite ⟨_, rfl, by decide +kernel⟩ ?places
      image_once ?up ?single (fun i => counted_image) ?standing (by decide)
    case finite =>
      intro i present
      obtain ⟨node, found⟩ := Option.ne_none_iff_exists'.mp present
      exact (inode_of_image found).2
    case places =>
      intro place listed
      obtain ⟨member, notRoot, above, -⟩ := targets place listed
      refine ⟨?_, notRoot, above⟩
      simp only [List.mem_cons, List.not_mem_nil, or_false] at member
      rcases member with target | target | target | target | target <;> rw [target] <;>
        exact Option.some_ne_none _
    case up =>
      intro place listed dir isDir
      have known : place.2.2 ∈ [1, 2, 3, 4] := isDir_image.mp (isDir ▸ Option.some_ne_none dir)
      rw [(targets place listed).2.2.2 known]
      obtain ⟨node, found, type⟩ := Files.dirOf_ne_none_iff.mp (isDir ▸ Option.some_ne_none dir)
      rw [Naming.dirOf_eq_some (Files.naming_dir found type)] at isDir
      cases isDir
      rcases dir_of_image found type with ⟨-, rfl⟩ | ⟨-, rfl⟩ | ⟨-, rfl⟩ | ⟨-, rfl⟩ <;>
        decide +kernel
    case single =>
      intro place listed notDir
      have member := (targets place listed).1
      simp only [List.mem_cons, List.not_mem_nil, or_false] at member notDir
      have last : place.2.2 = 5 ∨ place.2.2 = 6 := by omega
      rcases last with target | target <;> rw [target] <;> rfl
    case standing =>
      intro i more
      unfold imageExtra at more
      simp only [List.mem_cons, List.not_mem_nil, or_false]
      split at more
      · omega
      · split at more <;> omega

theorem imageExtra_le (i : Nat) : imageExtra i ≤ 2 := by
  unfold imageExtra
  split
  · exact le_refl 2
  · split <;> decide

end Image

end Notux.Mkfs
