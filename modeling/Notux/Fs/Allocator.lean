import Notux.Fs.Writes

/-!
# The block allocator

`balloc` takes a free block and returns it zeroed; it stops only when every block
is in use.  `bfree` gives a block back that belongs to no tree in place, and
never finds it free.
-/

namespace Notux.Fs

open Notux.Store Notux.Proc

/-! ## The scan of a bitmap block -/

theorem findClear_eq_some {block : Block} {limit fuel bi r : Nat}
    (found : findClear block limit fuel bi = some r) :
    bi ≤ r ∧ r < limit ∧ r < bi + fuel ∧ bitSet block r = false := by
  induction fuel generalizing bi with
  | zero => cases found
  | succ fuel ih =>
      unfold findClear at found
      split at found
      · next inside =>
        cases bit : bitSet block bi with
        | true =>
            rw [bit] at found
            obtain ⟨lower, upper, near, clear⟩ := ih found
            exact ⟨by omega, upper, by omega, clear⟩
        | false =>
            rw [bit] at found
            cases found
            exact ⟨Nat.le_refl _, inside, by omega, bit⟩
      · cases found

theorem findClear_eq_none {block : Block} {limit fuel bi : Nat}
    (none : findClear block limit fuel bi = none) {r : Nat} (lower : bi ≤ r) (upper : r < limit)
    (near : r < bi + fuel) : bitSet block r = true := by
  induction fuel generalizing bi with
  | zero => omega
  | succ fuel ih =>
      unfold findClear at none
      rw [if_pos (by omega)] at none
      cases bit : bitSet block bi with
      | true =>
          rw [bit] at none
          by_cases same : r = bi
          · exact same ▸ bit
          · exact ih none (by omega) (by omega)
      | false =>
          rw [bit] at none
          cases none

/-! ## Allocation -/

/-- The place of a bit in the bitmap, from the first block of its bitmap block. -/
theorem bitmap_place (sb : Superblock) {b bi : Nat} (aligned : BPB ∣ b) (small : bi < BPB) :
    bblock sb (b + bi) = bblock sb b ∧ (b + bi) % BPB = bi := by
  obtain ⟨k, rfl⟩ := aligned
  unfold bblock
  rw [Nat.mul_add_div (by decide), Nat.mul_add_mod, Nat.mul_div_cancel_left _ (by decide),
    Nat.div_eq_of_lt small, Nat.mod_eq_of_lt small]
  exact ⟨rfl, rfl⟩

section Allocator

variable {base : Set Nat} {world : FsWorld} {g : Ghost} {P : Disk → Prop}
  {F : Stop → FsWorld → Prop}

/-- What `balloc` leaves alone: everything but the bitmap and the new block. -/
structure Allocates (world after : FsWorld) (g : Ghost) (b : Nat) : Prop where
  mem : after.mem = world.mem
  free : g.tag b = .free
  inside : b < g.sb.size
  zero : after.disk b = Buffer.zero
  same : ∀ x, g.tag x ≠ .free → g.tag x ≠ .metadata → after.disk x = world.disk x

variable (safe : ∀ world g, Sound base world g → P world.disk)

include safe

theorem bzero_spec {b : Nat} (sound : Sound base world g) (loose : g.tag b = .loose) :
    (bzero b).wp P F
      (fun _ after => after = writeDisk world b Buffer.zero ∧ Sound base after g) world := by
  unfold bzero
  simp only [Prog.wp_bind, Prog.wp_bread, Prog.wp_logWrite]
  have zeroed := sound.write_loose loose Buffer.zero
  exact fun slot => ⟨safe _ _ zeroed, rfl, zeroed⟩

variable (full : g.credit = 0 → ∀ world g, Sound base world g → g.freeBlocks = 0 →
  F .ballocOutOfBlocks world)

include full

theorem ballocLoop_spec (sound : Sound base world g) {fuel b : Nat} (aligned : BPB ∣ b)
    (enough : g.sb.size < b + fuel * BPB)
    (used : ∀ x < b, x < g.sb.size → g.tag x ≠ .free) :
    (ballocLoop g.sb fuel b).wp P F
      (fun b after => Allocates world after g b ∧
        Sound base after (g.retag b .loose (g.credit - 1))) world := by
  have outOfBlocks : (∀ x < g.sb.size, g.tag x ≠ .free) → F .ballocOutOfBlocks world := by
    intro noneFree
    have zero : g.freeBlocks = 0 := by
      refine Finset.card_eq_zero.mpr (Finset.filter_eq_empty_iff.mpr fun x member => ?_)
      exact noneFree x (Finset.mem_range.mp member)
    have credit := sound.blocks.credit
    exact full (by omega) world g sound zero
  induction fuel generalizing b with
  | zero =>
      exact outOfBlocks fun x inside => used x (by omega) inside
  | succ fuel ih =>
      unfold ballocLoop
      split
      · next inside =>
        simp only [Prog.wp_bind, Prog.wp_bread, Prog.wp_data]
        intro slot
        cases found : findClear (world.disk (bblock g.sb b)) (g.sb.size - b) BPB 0 with
        | some bi =>
            obtain ⟨-, upper, near, clear⟩ := findClear_eq_some found
            obtain ⟨sameBlock, place⟩ := bitmap_place g.sb aligned (Nat.zero_add BPB ▸ near)
            have small : b + bi < g.sb.size := by omega
            have free : g.tag (b + bi) = .free := by
              have mark := sound.blocks.marks (b + bi) small
              rw [marked, sameBlock, place, clear] at mark
              simpa using mark
            have first := sound.mark small free
            rw [sameBlock, place] at first
            simp only [Prog.wp_bind, Prog.wp_logWrite]
            refine ⟨safe _ _ first, (bzero_spec safe first (by simp)).mono ?_⟩
            rintro _ after ⟨rfl, second⟩
            refine ⟨⟨rfl, free, small, Function.update_self _ _ _, fun x used data => ?_⟩, second⟩
            have notNew : x ≠ b + bi := fun same => used (same ▸ free)
            have notBitmap : x ≠ bblock g.sb b := fun same =>
              data (same ▸ sound.metadata_bblock inside)
            exact (Function.update_of_ne notNew _ _).trans (Function.update_of_ne notBitmap _ _)
        | none =>
            refine ih (Nat.dvd_add aligned (Nat.dvd_refl _)) ?_ fun x below small => ?_
            · rw [Nat.succ_mul] at enough
              omega
            · by_cases before : x < b
              · exact used x before small
              · have near : x - b < BPB := by omega
                obtain ⟨sameBlock, place⟩ := bitmap_place g.sb aligned near
                rw [Nat.add_sub_cancel' (Nat.le_of_not_lt before)] at sameBlock place
                have bit := findClear_eq_none found (Nat.zero_le (x - b)) (by omega)
                  (by rwa [Nat.zero_add])
                refine (sound.blocks.marks x small).mp ?_
                rw [marked, sameBlock, place]
                exact bit
      · next beyond =>
        exact outOfBlocks fun x inside => used x (by omega) inside

/-- `balloc` returns a block that was free, marked and zeroed. -/
theorem balloc_spec (sound : Sound base world g) :
    balloc.wp P F
      (fun b after => Allocates world after g b ∧
        Sound base after (g.retag b .loose (g.credit - 1))) world := by
  unfold balloc
  simp only [Prog.wp_bind, Prog.wp_getMem]
  rw [if_pos sound.mounted, sound.sameSb]
  refine ballocLoop_spec safe full sound (Nat.dvd_zero _) ?_ fun x low => absurd low (by omega)
  rw [Nat.zero_add, Nat.succ_mul]
  exact Nat.lt_div_mul_add (by decide)

omit full in
/-- `bfree` finds its block marked. -/
theorem bfree_spec (sound : Sound base world g) {b : Nat} (released : Released g b) :
    (bfree b).wp P F
      (fun _ after => after.mem = world.mem ∧
        (∀ x, g.tag x ≠ .metadata → after.disk x = world.disk x) ∧
        Sound base after (g.retag b .free g.credit)) world := by
  have inside := sound.blocks.inside b released.used
  have isMarked := (sound.blocks.marks b inside).mpr released.used
  have freed := sound.unmark released
  unfold marked at isMarked
  unfold bfree
  simp only [Prog.wp_bind, Prog.wp_getMem, Prog.wp_bread, Prog.wp_data]
  rw [sound.sameSb]
  intro slot
  rw [if_pos isMarked]
  simp only [Prog.wp_bind, Prog.wp_logWrite]
  refine ⟨safe _ _ freed, rfl, fun x data => ?_, freed⟩
  exact Function.update_of_ne
    (fun same => data (by rw [same]; exact sound.metadata_bblock inside)) _ _

end Allocator

end Notux.Fs
