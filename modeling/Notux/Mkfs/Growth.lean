import Notux.Fs.FileMap

/-!
# How the tree of a file grows

A file that only grows at its end has its blocks in the order of the file blocks
they lead to.  A position is needed from the first file block below it on, so
the number of blocks a file occupies depends on its length alone.
-/

namespace Notux.Mkfs

open Notux.Store Notux.Fs

/-! ## Positions -/

/-- The first file block that a position leads to. -/
def firstBlock : Pos → Nat
  | .root i => if i < NDIRECT then i else NDIRECT + (i - NDIRECT) * NINDIRECT
  | .child parent j => firstBlock parent + j * NINDIRECT ^ (parent.height fileShape - 1)

/-- The positions of the tree of an inode. -/
inductive Place : Pos → Prop
  | direct (i : Nat) (inside : i < NDIRECT) : Place (.root i)
  | single : Place (.root NDIRECT)
  | entry (j : Nat) (inside : j < NINDIRECT) : Place (.child (.root NDIRECT) j)
  | double : Place (.root (NDIRECT + 1))
  | table (j : Nat) (inside : j < NINDIRECT) : Place (.child (.root (NDIRECT + 1)) j)
  | leaf (j k : Nat) (inside : j < NINDIRECT) (within : k < NINDIRECT) :
      Place (.child (.child (.root (NDIRECT + 1)) j) k)

section Values

variable (i j k : Nat)

theorem height_direct (inside : i < NDIRECT) : (Pos.root i).height fileShape = 0 := by
  simp only [Pos.height, fileShape, NDIRECT] at *
  omega

@[simp] theorem height_single : (Pos.root NDIRECT).height fileShape = 1 := rfl
@[simp] theorem height_entry : (Pos.child (.root NDIRECT) j).height fileShape = 0 := rfl
@[simp] theorem height_double : (Pos.root (NDIRECT + 1)).height fileShape = 2 := rfl
@[simp] theorem height_table : (Pos.child (.root (NDIRECT + 1)) j).height fileShape = 1 := rfl
@[simp] theorem height_leaf :
    (Pos.child (.child (.root (NDIRECT + 1)) j) k).height fileShape = 0 := rfl

theorem firstBlock_direct (inside : i < NDIRECT) : firstBlock (.root i) = i := if_pos inside

@[simp] theorem firstBlock_single : firstBlock (.root NDIRECT) = 12 := rfl
@[simp] theorem firstBlock_double : firstBlock (.root (NDIRECT + 1)) = 140 := rfl

@[simp]
theorem firstBlock_entry : firstBlock (.child (.root NDIRECT) j) = 12 + j :=
  congrArg (12 + ·) (Nat.mul_one j)

@[simp]
theorem firstBlock_table : firstBlock (.child (.root (NDIRECT + 1)) j) = 140 + j * 128 := rfl

@[simp]
theorem firstBlock_leaf :
    firstBlock (.child (.child (.root (NDIRECT + 1)) j) k) = 140 + j * 128 + k :=
  congrArg (140 + j * 128 + ·) (Nat.mul_one k)

end Values

theorem place_of_valid {p : Pos} (valid : p.Valid fileShape) : Place p := by
  induction p with
  | root i =>
      have bound : i < 14 := valid
      by_cases direct : i < NDIRECT
      · exact .direct i direct
      · simp only [NDIRECT] at direct
        by_cases single : i = 12
        · exact single ▸ .single
        · have double : i = 13 := by omega
          exact double ▸ .double
  | child parent j ih =>
      have above := valid.parent_height
      cases ih valid.parent with
      | direct i inside =>
          rw [height_direct i inside] at above
          exact absurd above (Nat.lt_irrefl 0)
      | single => exact .entry j valid.2.2
      | entry i inside => exact absurd above (Nat.lt_irrefl 0)
      | double => exact .table j valid.2.2
      | table i inside => exact .leaf i j inside valid.2.2
      | leaf i k inside within => exact absurd above (Nat.lt_irrefl 0)

/-- No position of a height above `h` starts at a file block. -/
def NoneAbove (bn h : Nat) : Prop :=
  ∀ p, Place p → firstBlock p = bn → p.height fileShape ≤ h

theorem noneAbove_direct {bn : Nat} (direct : bn < 12) : NoneAbove bn 0 := by
  intro p place starts
  cases place with
  | direct i inside => rw [height_direct i inside]
  | single => simp at starts; omega
  | entry j inside => simp
  | double => simp at starts; omega
  | table j inside => simp at starts; omega
  | leaf j k inside within => simp

theorem noneAbove_single {bn : Nat} (near : bn < 140) : NoneAbove bn 1 := by
  intro p place starts
  cases place with
  | direct i inside => rw [height_direct i inside]; omega
  | single => simp
  | entry j inside => simp
  | double => simp at starts; omega
  | table j inside => simp
  | leaf j k inside within => simp

theorem noneAbove_double (bn : Nat) : NoneAbove bn 2 := by
  intro p place starts
  cases place with
  | direct i inside => rw [height_direct i inside]; omega
  | single => simp
  | entry j inside => simp
  | double => simp
  | table j inside => simp
  | leaf j k inside within => simp

/-- A position on the way to a file block: no other one of its height starts at that
block. -/
structure Covers (p : Pos) (bn : Nat) : Prop where
  valid : p.Valid fileShape
  starts : firstBlock p ≤ bn
  only : ∀ q, Place q → firstBlock q = bn → q.height fileShape = p.height fileShape → q = p

theorem covers_direct {bn : Nat} (direct : bn < NDIRECT) : Covers (.root bn) bn := by
  have bound : bn < NDIRECT + 2 := by omega
  refine ⟨bound, (firstBlock_direct bn direct).le, fun q place starts _ => ?_⟩
  simp only [NDIRECT] at direct
  cases place with
  | direct i inside => rw [← starts, firstBlock_direct i inside]
  | single => simp at starts; omega
  | entry j inside => simp at starts; omega
  | double => simp at starts; omega
  | table j inside => simp at starts; omega
  | leaf j k inside within => simp at starts; omega

theorem covers_single {bn : Nat} (beyond : 12 ≤ bn) (near : bn < 140) :
    Covers (.root NDIRECT) bn := by
  refine ⟨show 12 < 14 by decide, beyond, fun q place starts same => ?_⟩
  cases place with
  | direct i inside => rw [height_direct i inside] at same; cases same
  | single => rfl
  | entry j inside => cases same
  | double => cases same
  | table j inside => simp at starts; omega
  | leaf j k inside within => cases same

theorem covers_entry {j : Nat} (inside : j < NINDIRECT) :
    Covers (.child (.root NDIRECT) j) (12 + j) := by
  have valid : (Pos.child (.root NDIRECT) j).Valid fileShape :=
    ⟨show 12 < 14 by decide, show 0 < 1 by decide, inside⟩
  refine ⟨valid, (firstBlock_entry j).le, fun q place starts same => ?_⟩
  simp only [NINDIRECT] at inside
  cases place with
  | direct i direct =>
      rw [firstBlock_direct i direct] at starts
      simp only [NDIRECT] at direct
      omega
  | single => cases same
  | entry k within =>
      rw [firstBlock_entry] at starts
      rw [Nat.add_left_cancel starts]
  | double => cases same
  | table k within => cases same
  | leaf k m within deeper => simp at starts; omega

theorem covers_double {bn : Nat} (far : 140 ≤ bn) : Covers (.root (NDIRECT + 1)) bn := by
  refine ⟨show 13 < 14 by decide, far, fun q place starts same => ?_⟩
  cases place with
  | direct i inside => rw [height_direct i inside] at same; cases same
  | single => cases same
  | entry j inside => cases same
  | double => rfl
  | table j inside => cases same
  | leaf j k inside within => cases same

theorem covers_table {j k : Nat} (inside : j < NINDIRECT) (within : k < NINDIRECT) :
    Covers (.child (.root (NDIRECT + 1)) j) (140 + j * 128 + k) := by
  have valid : (Pos.child (.root (NDIRECT + 1)) j).Valid fileShape :=
    ⟨show 13 < 14 by decide, show 0 < 2 by decide, inside⟩
  refine ⟨valid, Nat.le_add_right _ _, fun q place starts same => ?_⟩
  simp only [NINDIRECT] at within
  cases place with
  | direct i direct => rw [height_direct i direct] at same; cases same
  | single => simp at starts; omega
  | entry m small => cases same
  | double => cases same
  | table m small =>
      rw [firstBlock_table] at starts
      rw [show m = j by omega]
  | leaf m r small deeper => cases same

theorem covers_leaf {j k : Nat} (inside : j < NINDIRECT) (within : k < NINDIRECT) :
    Covers (.child (.child (.root (NDIRECT + 1)) j) k) (140 + j * 128 + k) := by
  have valid : (Pos.child (.child (.root (NDIRECT + 1)) j) k).Valid fileShape :=
    ⟨⟨show 13 < 14 by decide, show 0 < 2 by decide, inside⟩, show 0 < 1 by decide, within⟩
  refine ⟨valid, (firstBlock_leaf j k).le, fun q place starts same => ?_⟩
  simp only [NINDIRECT] at inside within
  cases place with
  | direct i direct =>
      rw [firstBlock_direct i direct] at starts
      simp only [NDIRECT] at direct
      omega
  | single => cases same
  | entry m small =>
      rw [firstBlock_entry] at starts
      simp only [NINDIRECT] at small
      omega
  | double => cases same
  | table m small => cases same
  | leaf m r small deeper =>
      rw [firstBlock_leaf] at starts
      simp only [NINDIRECT] at deeper
      have sameTable : m = j := by omega
      have sameEntry : r = k := by omega
      rw [sameTable, sameEntry]

/-! ## Trees that are filled in order -/

/-- The tree has the positions that start before file block `bn`, and of those that
start at it the ones of height `h` and above. -/
def Grown (disk : Disk) (din : Dinode) (bn h : Nat) : Prop :=
  ∀ p, p.Valid fileShape →
    (din.blockAt disk p ≠ 0 ↔ firstBlock p < bn ∨ firstBlock p = bn ∧ h ≤ p.height fileShape)

variable {disk disk' : Disk} {din din' : Dinode} {bn h : Nat}

theorem Grown.congr (grown : Grown disk din bn h)
    (same : ∀ p, p.Valid fileShape → din'.blockAt disk' p = din.blockAt disk p) :
    Grown disk' din' bn h := by
  intro p valid
  rw [same p valid]
  exact grown p valid

/-- Where no position is of a height in between, the height does not matter. -/
theorem Grown.skip (grown : Grown disk din bn 3) (none : NoneAbove bn h) :
    Grown disk din bn (h + 1) := by
  intro p valid
  rw [grown p valid]
  have bound := none p (place_of_valid valid)
  have most := noneAbove_double bn p (place_of_valid valid)
  omega

theorem grown_succ : Grown disk din bn 0 ↔ Grown disk din (bn + 1) 3 := by
  apply forall₂_congr
  intro p valid
  have most := noneAbove_double (bn + 1) p (place_of_valid valid)
  apply iff_congr Iff.rfl
  omega

/-- A position that is there already needs no block. -/
theorem Grown.present {p : Pos} (grown : Grown disk din bn (p.height fileShape + 1))
    (covers : Covers p bn) (present : din.blockAt disk p ≠ 0) :
    firstBlock p < bn ∧ Grown disk din bn (p.height fileShape) := by
  have before : firstBlock p < bn := by
    have start := (grown p covers.valid).mp present
    omega
  refine ⟨before, fun q valid => ?_⟩
  rw [grown q valid]
  have only := covers.only q (place_of_valid valid)
  by_cases same : q = p
  · subst same
    omega
  · have other : firstBlock q = bn → q.height fileShape ≠ p.height fileShape :=
      fun starts equal => same (only starts equal)
    omega

/-- A position that is missing starts at the file block. -/
theorem Grown.missing {p : Pos} {b : Nat} (grown : Grown disk din bn (p.height fileShape + 1))
    (covers : Covers p bn) (missing : din.blockAt disk p = 0) (nonzero : b ≠ 0)
    (places : ∀ q, q.Valid fileShape →
      din'.blockAt disk' q = if q = p then b else din.blockAt disk q) :
    firstBlock p = bn ∧ Grown disk' din' bn (p.height fileShape) := by
  have starts : firstBlock p = bn := by
    have start := (not_congr (grown p covers.valid)).mp (not_not.mpr missing)
    have below := covers.starts
    omega
  refine ⟨starts, fun q valid => ?_⟩
  rw [places q valid]
  have only := covers.only q (place_of_valid valid)
  by_cases same : q = p
  · subst same
    simp [nonzero, starts]
  · rw [if_neg same, grown q valid]
    have other : firstBlock q = bn → q.height fileShape ≠ p.height fileShape :=
      fun starts equal => same (only starts equal)
    omega

/-! ## Counting blocks -/

/-- The blocks of a file of `k` blocks of content. -/
def treeSize (k : Nat) : Nat :=
  k + (if 12 < k then 1 else 0) + (if 140 < k then 1 + (k - 140 + 127) / 128 else 0)

/-- The blocks that file block `bn` is the first to need. -/
def newBlocks (bn : Nat) : Nat :=
  if bn = 12 then 2
  else if bn = 140 then 3
  else if 140 < bn ∧ (bn - 140) % 128 = 0 then 2
  else 1

theorem newBlocks_direct {bn : Nat} (direct : bn < 12) : newBlocks bn = 1 := by
  unfold newBlocks
  split_ifs <;> omega

theorem newBlocks_entry {bn : Nat} (beyond : 12 ≤ bn) (near : bn < 140) :
    newBlocks bn = (if 12 = bn then 1 else 0) + 1 := by
  unfold newBlocks
  split_ifs <;> omega

theorem newBlocks_leaf {bn j k : Nat} (place : bn = 140 + j * 128 + k) (within : k < 128) :
    newBlocks bn = (if 140 = bn then 1 else 0) + (if 140 + j * 128 = bn then 1 else 0) + 1 := by
  unfold newBlocks
  split_ifs <;> omega

theorem treeSize_succ (bn : Nat) : treeSize (bn + 1) = treeSize bn + newBlocks bn := by
  unfold treeSize newBlocks
  by_cases single : bn = 12
  · subst single
    decide
  · by_cases double : bn = 140
    · subst double
      decide
    · rw [if_neg single, if_neg double]
      split_ifs <;> omega

theorem treeSize_mono {k m : Nat} (le : k ≤ m) : treeSize k ≤ treeSize m := by
  unfold treeSize
  split_ifs <;> omega

theorem le_treeSize (k : Nat) : k ≤ treeSize k := by
  unfold treeSize
  omega

/-- The blocks of content of a file of `size` bytes. -/
def dataBlocks (size : Nat) : Nat := (size + (BSIZE - 1)) / BSIZE

/-- A piece that stays inside a block ends in the block it begins in. -/
theorem dataBlocks_piece {off m : Nat} (positive : 0 < m) (fits : off % BSIZE + m ≤ BSIZE) :
    dataBlocks (off + m) = off / BSIZE + 1 := by
  unfold dataBlocks
  simp only [BSIZE] at *
  omega

theorem dataBlocks_aligned {off : Nat} (aligned : off % BSIZE = 0) :
    dataBlocks off = off / BSIZE := by
  unfold dataBlocks
  simp only [BSIZE] at *
  omega

theorem dataBlocks_ragged {off : Nat} (ragged : off % BSIZE ≠ 0) :
    dataBlocks off = off / BSIZE + 1 := by
  unfold dataBlocks
  simp only [BSIZE] at *
  omega

theorem dataBlocks_mono {off off' : Nat} (le : off ≤ off') : dataBlocks off ≤ dataBlocks off' :=
  Nat.div_le_div_right (Nat.add_le_add_right le _)

end Notux.Mkfs
