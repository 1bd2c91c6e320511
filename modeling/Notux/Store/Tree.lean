import Mathlib.Logic.Function.Basic

/-!
# Trees of blocks

A file that is too large for a list of block numbers reaches its blocks through
blocks of block numbers.  A position in such a tree is a root or an entry of the
block at another position; zero stands for a missing block.  A shape says how
many levels of entries there are below each root and how many entries a block
has.

Attaching a fresh zeroed block where one is missing adds exactly one position,
and writes to blocks that hold no block numbers move nothing.
-/

namespace Notux.Store

/-- A position in the tree of a file. -/
inductive Pos where
  | root (i : Nat)
  | child (parent : Pos) (j : Nat)
deriving DecidableEq, Repr

/-- The number of roots, the levels of entries below each, and the entries of a
block. -/
structure Shape where
  roots : Nat
  levels : Nat → Nat
  width : Nat

namespace Pos

variable (shape : Shape)

/-- The levels of entries below a position. -/
def height : Pos → Nat
  | .root i => shape.levels i
  | .child parent _ => parent.height - 1

/-- Whether a position exists. -/
def Valid : Pos → Prop
  | .root i => i < shape.roots
  | .child parent j => parent.Valid ∧ 0 < parent.height shape ∧ j < shape.width

/-- The block at a position, given how block numbers are read from a block. -/
def blockAt {D : Type} (next : D → Nat → Nat) (disk : Nat → D) (roots : Nat → Nat) : Pos → Nat
  | .root i => roots i
  | .child parent j =>
      if parent.blockAt next disk roots = 0 then 0
      else next (disk (parent.blockAt next disk roots)) j

variable {shape}

theorem Valid.parent {parent : Pos} {j : Nat} (valid : (child parent j).Valid shape) :
    parent.Valid shape :=
  valid.1

theorem Valid.parent_height {parent : Pos} {j : Nat} (valid : (child parent j).Valid shape) :
    0 < parent.height shape :=
  valid.2.1

section Blocks

variable {D : Type} {next : D → Nat → Nat} {disk disk' : Nat → D} {roots roots' : Nat → Nat}

theorem blockAt_child_of_zero {parent : Pos} (missing : parent.blockAt next disk roots = 0)
    (j : Nat) : (child parent j).blockAt next disk roots = 0 :=
  if_pos missing

theorem blockAt_child_of_ne_zero {parent : Pos}
    (present : parent.blockAt next disk roots ≠ 0) (j : Nat) :
    (child parent j).blockAt next disk roots =
      next (disk (parent.blockAt next disk roots)) j :=
  if_neg present

/-- A parent of a present block is present. -/
theorem parent_ne_zero {parent : Pos} {j : Nat}
    (present : (child parent j).blockAt next disk roots ≠ 0) :
    parent.blockAt next disk roots ≠ 0 :=
  fun missing => present (blockAt_child_of_zero missing j)

/-- Blocks stay where they are as long as the block numbers stay. -/
theorem blockAt_congr (sameRoots : ∀ i < shape.roots, roots' i = roots i)
    (sameEntries : ∀ q : Pos, q.Valid shape → 0 < q.height shape →
      q.blockAt next disk roots ≠ 0 → ∀ j < shape.width,
      next (disk' (q.blockAt next disk roots)) j = next (disk (q.blockAt next disk roots)) j)
    {p : Pos} (valid : p.Valid shape) :
    p.blockAt next disk' roots' = p.blockAt next disk roots := by
  induction p with
  | root i => exact sameRoots i valid
  | child parent j ih =>
      have same := ih valid.1
      by_cases missing : parent.blockAt next disk roots = 0
      · rw [blockAt_child_of_zero missing, blockAt_child_of_zero (same.trans missing)]
      · rw [blockAt_child_of_ne_zero missing,
          blockAt_child_of_ne_zero (same ▸ missing : parent.blockAt next disk' roots' ≠ 0), same]
        exact sameEntries parent valid.1 valid.2.1 missing j valid.2.2

/-- Attaching a fresh block at a position where one is missing. -/
theorem blockAt_attach {target : Pos} {b : Nat}
    (missing : target.blockAt next disk roots = 0)
    (reached : ∀ parent j, target = child parent j → parent.blockAt next disk roots ≠ 0)
    (newRoots : ∀ i < shape.roots, roots' i = if root i = target then b else roots i)
    (newEntries : ∀ q : Pos, q.Valid shape → 0 < q.height shape →
      q.blockAt next disk roots ≠ 0 → ∀ j < shape.width,
      next (disk' (q.blockAt next disk roots)) j =
        if child q j = target then b else next (disk (q.blockAt next disk roots)) j)
    (fresh : ∀ j < shape.width, next (disk' b) j = 0)
    {p : Pos} (valid : p.Valid shape) :
    p.blockAt next disk' roots' =
      if p = target then b else p.blockAt next disk roots := by
  induction p with
  | root i => exact newRoots i valid
  | child parent j ih =>
      have moved := ih valid.1
      by_cases atTarget : parent = target
      · -- the new block has no entries, and the position below it had no block
        subst atTarget
        rw [if_pos rfl] at moved
        have notTarget : child parent j ≠ parent := fun loop => by
          have sizes := congrArg sizeOf loop
          simp only [child.sizeOf_spec] at sizes
          omega
        rw [if_neg notTarget, blockAt_child_of_zero missing]
        by_cases zero : b = 0
        · exact blockAt_child_of_zero (moved.trans zero) j
        · rw [blockAt_child_of_ne_zero (moved ▸ zero), moved]
          exact fresh j valid.2.2
      · rw [if_neg atTarget] at moved
        by_cases absent : parent.blockAt next disk roots = 0
        · have notTarget : child parent j ≠ target := fun same =>
            reached parent j same.symm absent
          rw [if_neg notTarget, blockAt_child_of_zero absent,
            blockAt_child_of_zero (moved.trans absent)]
        · rw [blockAt_child_of_ne_zero absent,
            blockAt_child_of_ne_zero (moved ▸ absent : parent.blockAt next disk' roots' ≠ 0),
            moved]
          exact newEntries parent valid.1 valid.2.1 absent j valid.2.2

end Blocks

end Pos

end Notux.Store
