import Mathlib.Data.BitVec
import Mathlib.Logic.Function.Basic

/-!
# Bits packed into bytes

An array of bytes as an array of bits, eight to a byte.  Setting or clearing a bit through
a mask changes that bit and no other.
-/

namespace Notux.Store

/-- Masking a byte with one bit tests that bit. -/
theorem and_one_shiftLeft_eq_zero_iff (byte : BitVec 8) {k : Nat} (small : k < 8) :
    byte &&& (1#8 <<< k) = 0 ↔ byte.getLsbD k = false := by
  constructor
  · intro masked
    have bit := congrArg (fun word : BitVec 8 => word.getLsbD k) masked
    simpa [small] using bit
  · intro bit
    apply BitVec.eq_of_getLsbD_eq
    intro i inside
    simp only [BitVec.getLsbD_and, BitVec.getLsbD_shiftLeft, BitVec.getLsbD_one]
    by_cases same : i = k
    · subst same; simp [bit]
    · grind

/-- Bytes with eight bits each. -/
abbrev Bits := Nat → BitVec 8

namespace Bits

/-- The mask of a bit in its byte. -/
def mask (i : Nat) : BitVec 8 := 1#8 <<< (i % 8)

/-- One bit. -/
def bit (bits : Bits) (i : Nat) : Bool := (bits (i / 8)).getLsbD (i % 8)

/-- Set a bit through its mask. -/
def set (bits : Bits) (i : Nat) : Bits :=
  Function.update bits (i / 8) (bits (i / 8) ||| mask i)

/-- Clear a bit through its mask. -/
def clear (bits : Bits) (i : Nat) : Bits :=
  Function.update bits (i / 8) (bits (i / 8) &&& ~~~ mask i)

variable (bits : Bits) (i j : Nat)

theorem and_mask_eq_zero_iff : bits (i / 8) &&& mask i = 0 ↔ bits.bit i = false :=
  and_one_shiftLeft_eq_zero_iff _ (Nat.mod_lt _ (by decide))

@[simp]
theorem bit_set : (bits.set i).bit j = (decide (j = i) || bits.bit j) := by
  unfold bit set mask
  by_cases sameByte : j / 8 = i / 8
  · rw [sameByte, Function.update_self]
    have small : j % 8 < 8 := Nat.mod_lt _ (by decide)
    by_cases same : j = i
    · subst same
      simp [small]
    · have differ : j % 8 ≠ i % 8 := by omega
      simp only [BitVec.getLsbD_or, BitVec.getLsbD_shiftLeft, BitVec.getLsbD_one]
      simp only [same, decide_false, Bool.false_or]
      grind
  · have differ : j ≠ i := fun same => sameByte (by rw [same])
    rw [Function.update_of_ne sameByte]
    simp [differ]

@[simp]
theorem bit_clear : (bits.clear i).bit j = (decide (j ≠ i) && bits.bit j) := by
  unfold bit clear mask
  by_cases sameByte : j / 8 = i / 8
  · rw [sameByte, Function.update_self]
    have small : j % 8 < 8 := Nat.mod_lt _ (by decide)
    by_cases same : j = i
    · subst same
      simp [small]
    · have differ : j % 8 ≠ i % 8 := by omega
      simp only [BitVec.getLsbD_and, BitVec.getLsbD_not, BitVec.getLsbD_shiftLeft,
        BitVec.getLsbD_one]
      simp only [same, ne_eq, not_false_eq_true, decide_true, Bool.true_and]
      grind
  · have differ : j ≠ i := fun same => sameByte (by rw [same])
    rw [Function.update_of_ne sameByte]
    simp [differ]

end Bits

end Notux.Store
