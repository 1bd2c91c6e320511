import Notux.Store.State
import Mathlib.Tactic.ByContra

/-!
# The blit call

System call 222 copies an image into the framebuffer, two pixels at a time.  It copies the
pixels one after another, as if the screen were as wide as the image, so the image comes out
as a rectangle only where the width of the screen does not matter.
-/

namespace Notux.Dev

open Notux.Store

/-- A row of 32-bit pixels, as the image and the framebuffer are. -/
abbrev Pixels := Nat → BitVec 32

/-- The pitch of the screen in pixels. -/
abbrev PITCH : Nat := 800

/-- The lines of the screen. -/
abbrev LINES : Nat := 600

/-- `src[i]`, read as 64 bits in little endian. -/
def load64 (src : Pixels) (i : Nat) : BitVec 64 := src (2 * i + 1) ++ src (2 * i)

/-- `fb[i] = word`, written as 64 bits. -/
def store64 (word : BitVec 64) (i : Nat) (fb : Pixels) : Pixels :=
  assign (assign fb (2 * i) (word.extractLsb' 0 32)) (2 * i + 1) (word.extractLsb' 32 32)

/-- The copy of `total_pixels` pixels. -/
def copyPixels (src : Pixels) (total_pixels : BitVec 32) (fb : Pixels) : Pixels :=
  let count64 := total_pixels / 2
  let paired := forRange (fun i fb => store64 (load64 src i) i fb) count64.toNat fb
  if total_pixels % 2 ≠ 0 then
    assign paired (total_pixels - 1).toNat (src (total_pixels - 1).toNat)
  else paired

/-- System call 222, with the pixels at every address, the address and the pixels of the
framebuffer, and the three arguments. -/
def sysBlit (memory : BitVec 64 → Pixels) (vbeaddr : BitVec 32) (arg1 arg2 arg3 : BitVec 64)
    (screen : Pixels) : BitVec 64 × Pixels :=
  let width := arg2.setWidth 32
  let height := arg3.setWidth 32
  if arg1 ≠ 0 ∧ width ≤ 800 ∧ height ≤ 600 then
    if vbeaddr ≠ 0 then (0, copyPixels (memory arg1) (width * height) screen) else (0, screen)
  else (0, screen)

/-- The pixels of `image` are a rectangle on the screen, and the others are those of
`before`. -/
structure Rectangle (image : Pixels) (width height : Nat) (before after : Pixels) : Prop where
  inside : ∀ x < width, ∀ y < height, after (y * PITCH + x) = image (y * width + x)
  outside : ∀ x < PITCH, ∀ y < LINES, ¬ (x < width ∧ y < height) →
    after (y * PITCH + x) = before (y * PITCH + x)

/-! ## The copy -/

variable {image before : Pixels}

/-- A pair of pixels is copied as it is. -/
theorem store64_load64 (src fb : Pixels) (i : Nat) :
    store64 (load64 src i) i fb = assign (assign fb (2 * i) (src (2 * i))) (2 * i + 1)
      (src (2 * i + 1)) := by
  unfold store64 load64
  rw [BitVec.extractLsb'_append_eq_of_add_le (by decide),
    BitVec.extractLsb'_append_eq_of_le (by decide), BitVec.extractLsb'_eq_self, Nat.sub_self,
    BitVec.extractLsb'_eq_self]

/-- The loop copies the pixels of as many pairs. -/
theorem copyPairs_apply (src fb : Pixels) (pairs j : Nat) :
    forRange (fun i fb => store64 (load64 src i) i fb) pairs fb j =
      if j < 2 * pairs then src j else fb j := by
  induction pairs with
  | zero => rfl
  | succ pairs ih =>
      unfold forRange
      rw [store64_load64]
      by_cases second : j = 2 * pairs + 1
      · rw [second, assign_self, if_pos (by omega)]
      · rw [assign_of_ne second]
        by_cases first : j = 2 * pairs
        · rw [first, assign_self, if_pos (by omega)]
        · rw [assign_of_ne first, ih]
          apply if_congr _ rfl rfl
          omega

/-- The first pixels are those of the image, wherever the lines of the image end. -/
theorem copyPixels_apply (src fb : Pixels) (total_pixels : BitVec 32) (j : Nat) :
    copyPixels src total_pixels fb j = if j < total_pixels.toNat then src j else fb j := by
  have half : (total_pixels / 2).toNat = total_pixels.toNat / 2 := BitVec.toNat_udiv
  have rest : (total_pixels % 2).toNat = total_pixels.toNat % 2 := BitVec.toNat_umod
  have odd : total_pixels % 2 ≠ 0 ↔ total_pixels.toNat % 2 ≠ 0 := by
    rw [← rest, ne_eq, BitVec.toNat_eq]
    rfl
  unfold copyPixels
  split
  · rename_i isOdd
    have single := odd.mp isOdd
    have last : (total_pixels - 1).toNat = total_pixels.toNat - 1 := by bv_omega
    rw [last]
    by_cases isLast : j = total_pixels.toNat - 1
    · rw [isLast, assign_self, if_pos (by omega)]
    · rw [assign_of_ne isLast, copyPairs_apply, half]
      apply if_congr _ rfl rfl
      omega
  · rename_i isEven
    have none := mt odd.mpr isEven
    rw [copyPairs_apply, half]
    apply if_congr _ rfl rfl
    omega

/-- What the blit call leaves on the screen. -/
theorem sysBlit_apply {vbeaddr : BitVec 32} {arg1 arg2 arg3 : BitVec 64} (present : vbeaddr ≠ 0)
    (given : arg1 ≠ 0) (narrow : arg2.setWidth 32 ≤ 800) (low : arg3.setWidth 32 ≤ 600)
    (memory : BitVec 64 → Pixels) (screen : Pixels) (j : Nat) :
    (sysBlit memory vbeaddr arg1 arg2 arg3 screen).2 j =
      if j < (arg2.setWidth 32).toNat * (arg3.setWidth 32).toNat then memory arg1 j
      else screen j := by
  unfold sysBlit
  dsimp only
  rw [if_pos ⟨given, narrow, low⟩, if_pos present]
  dsimp only
  rw [copyPixels_apply, BitVec.toNat_mul, Nat.mod_eq_of_lt]
  have area := Nat.mul_le_mul (BitVec.le_def.mp narrow) (BitVec.le_def.mp low)
  apply Nat.lt_of_le_of_lt area
  decide

/-- The blit call draws every image as a rectangle exactly if the image is as wide as the
screen, or no pixel of it is in a second line. -/
theorem sysBlit_rectangle_iff {vbeaddr : BitVec 32} {arg1 arg2 arg3 : BitVec 64}
    (present : vbeaddr ≠ 0) (given : arg1 ≠ 0) (narrow : arg2.setWidth 32 ≤ 800)
    (low : arg3.setWidth 32 ≤ 600) :
    (∀ (memory : BitVec 64 → Pixels) (screen : Pixels),
      Rectangle (memory arg1) (arg2.setWidth 32).toNat (arg3.setWidth 32).toNat screen
        (sysBlit memory vbeaddr arg1 arg2 arg3 screen).2) ↔
    (arg2.setWidth 32).toNat = PITCH ∨ (arg3.setWidth 32).toNat ≤ 1 ∨
      (arg2.setWidth 32).toNat = 0 := by
  have copied := sysBlit_apply present given narrow low
  have narrow' : (arg2.setWidth 32).toNat ≤ 800 := BitVec.le_def.mp narrow
  generalize (arg2.setWidth 32).toNat = width at copied narrow' ⊢
  generalize (arg3.setWidth 32).toNat = height at copied ⊢
  constructor
  · intro draws
    by_contra neither
    obtain ⟨differs, lines, some⟩ : width ≠ PITCH ∧ 1 < height ∧ 0 < width := by omega
    -- an image with one pixel set, the first one of the second line
    have second := (draws (fun _ => assign (fun _ => 0) width 1) (fun _ => 0)).inside 0 some 1 lines
    rw [copied, Nat.add_zero, Nat.one_mul, Nat.one_mul, Nat.add_zero, assign_self,
      assign_of_ne (Ne.symm differs), ite_self] at second
    exact absurd second (by decide)
  · intro even memory screen
    constructor
    · intro x xSmall y ySmall
      have line := Nat.mul_le_mul_left width ySmall
      rw [Nat.mul_succ] at line
      rcases even with rfl | single | rfl
      · rw [copied, if_pos]
        rw [Nat.mul_comm y]
        omega
      · obtain rfl : y = 0 := by omega
        rw [copied, if_pos]
        · rw [Nat.zero_mul, Nat.zero_mul]
        · omega
      · exact absurd xSmall (Nat.not_lt_zero x)
    · intro x xSmall y ySmall outside
      rw [copied, if_neg]
      rcases even with rfl | single | rfl
      · have below : height ≤ y := by omega
        have lines := Nat.mul_le_mul_left PITCH below
        rw [Nat.mul_comm y]
        omega
      · have lines : height = 0 ∨ height = 1 := by omega
        simp only [PITCH]
        rcases lines with rfl | rfl <;> omega
      · omega

/-- A square of four pixels comes out as a line. -/
theorem sysBlit_line : ¬ ∀ (memory : BitVec 64 → Pixels) (vbeaddr : BitVec 32)
    (arg1 arg2 arg3 : BitVec 64) (screen : Pixels), vbeaddr ≠ 0 → arg1 ≠ 0 →
    arg2.setWidth 32 ≤ 800 → arg3.setWidth 32 ≤ 600 →
    Rectangle (memory arg1) (arg2.setWidth 32).toNat (arg3.setWidth 32).toNat screen
      (sysBlit memory vbeaddr arg1 arg2 arg3 screen).2 := by
  intro draws
  have second := (draws (fun _ _ => 1) 0xE0000000 0x400000 2 2 (fun _ => 0) (by decide) (by decide)
    (by decide) (by decide)).inside 0 (by decide) 1 (by decide)
  revert second
  decide

/-- Two lines as long as those of the screen. -/
theorem sysBlit_full_lines :
    Rectangle (BitVec.ofNat 32) 800 2 (fun _ => 0)
      (sysBlit (fun _ => BitVec.ofNat 32) 0xE0000000 0x400000 800 2 (fun _ => 0)).2 :=
  (@sysBlit_rectangle_iff 0xE0000000 0x400000 800 2 (by decide) (by decide) (by decide)
    (by decide)).mpr (Or.inl (by decide)) (fun _ => BitVec.ofNat 32) (fun _ => 0)

end Notux.Dev
