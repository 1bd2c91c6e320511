import Mathlib.Logic.Function.Basic

/-!
# Fixed-size byte buffers

A buffer of `n` bytes, with reads and overwrites at an offset and little-endian
16- and 32-bit fields.  An overwrite changes exactly the bytes of its range, so
a field is read back where it was stored and every disjoint field is kept.
-/

namespace Notux.Store

/-- A byte. -/
abbrev Byte := BitVec 8

/-- A buffer of exactly `n` bytes. -/
def Buffer (n : Nat) := Fin n → Byte

/-- The bytes of a word, least significant first. -/
def le {w : Nat} (value : BitVec w) (i : Nat) : Byte := value.extractLsb' (8 * i) 8

namespace Buffer

variable {n : Nat}

/-- The buffer of zeros. -/
def zero : Buffer n := fun _ => 0

/-- The byte at an offset. -/
def get (buffer : Buffer n) (i : Nat) : Byte := if h : i < n then buffer ⟨i, h⟩ else 0

/-- Overwrite `len` bytes from `off` on. -/
def splice (buffer : Buffer n) (off len : Nat) (source : Nat → Byte) : Buffer n :=
  fun i => if off ≤ i ∧ i < off + len then source (i - off) else buffer i

/-- The `len` bytes from `off` on. -/
def slice (buffer : Buffer n) (off len : Nat) : List Byte :=
  (List.range len).map fun i => buffer.get (off + i)

/-- The 16-bit field at an offset. -/
def u16 (buffer : Buffer n) (off : Nat) : BitVec 16 :=
  buffer.get (off + 1) ++ buffer.get off

/-- The 32-bit field at an offset. -/
def u32 (buffer : Buffer n) (off : Nat) : BitVec 32 :=
  buffer.get (off + 3) ++ buffer.get (off + 2) ++ buffer.get (off + 1) ++ buffer.get off

/-- Store a 32-bit field. -/
def setU32 (buffer : Buffer n) (off : Nat) (value : BitVec 32) : Buffer n :=
  buffer.splice off 4 (le value)

@[simp]
theorem get_zero (i : Nat) : (zero : Buffer n).get i = 0 := by
  simp [get, zero]

/-- Every byte after an overwrite. -/
theorem get_splice (buffer : Buffer n) (off len : Nat) (source : Nat → Byte) (i : Nat) :
    (buffer.splice off len source).get i =
      if off ≤ i ∧ i < off + len ∧ i < n then source (i - off) else buffer.get i := by
  by_cases inside : i < n <;> simp [get, splice, inside]

theorem get_splice_of_mem {buffer : Buffer n} {off len : Nat} {source : Nat → Byte} {i : Nat}
    (lower : off ≤ i) (upper : i < off + len) (inside : i < n) :
    (buffer.splice off len source).get i = source (i - off) := by
  rw [get_splice, if_pos ⟨lower, upper, inside⟩]

theorem get_splice_of_disjoint {buffer : Buffer n} {off len : Nat} {source : Nat → Byte}
    {i : Nat} (disjoint : i < off ∨ off + len ≤ i) :
    (buffer.splice off len source).get i = buffer.get i := by
  rw [get_splice, if_neg (by omega)]

@[simp]
theorem length_slice (buffer : Buffer n) (off len : Nat) :
    (buffer.slice off len).length = len := by
  simp [slice]

@[simp]
theorem u16_zero (off : Nat) : (zero : Buffer n).u16 off = 0 := by
  simp [u16]

@[simp]
theorem u32_zero (off : Nat) : (zero : Buffer n).u32 off = 0 := by
  simp [u32]

theorem le_append_le_16 (value : BitVec 16) : (le value 1 ++ le value 0 : BitVec 16) = value := by
  apply BitVec.eq_of_getLsbD_eq
  intro i small
  simp only [le, BitVec.getLsbD_append, BitVec.getLsbD_extractLsb']
  split
  · next low => simp [low]
  · next high =>
    have inside : i - 8 < 8 := by omega
    have sum : 8 * 1 + (i - 8) = i := by omega
    simp [inside, sum]

theorem le_append_le_32 (value : BitVec 32) :
    (le value 3 ++ le value 2 ++ le value 1 ++ le value 0 : BitVec 32) = value := by
  apply BitVec.eq_of_getLsbD_eq
  intro i small
  simp only [le, BitVec.getLsbD_append, BitVec.getLsbD_extractLsb']
  split
  · next first => simp [first]
  · split
    · next second =>
      have sum : 8 * 1 + (i - 8) = i := by omega
      simp [second, sum]
    · split
      · next third =>
        have sum : 8 * 2 + (i - 8 - 8) = i := by omega
        simp [third, sum]
      · have fourth : i - 8 - 8 - 8 < 8 := by omega
        have sum : 8 * 3 + (i - 8 - 8 - 8) = i := by omega
        simp [fourth, sum]

/-- A 16-bit field inside an overwritten range. -/
theorem u16_splice_of_mem {buffer : Buffer n} {off len : Nat} {source : Nat → Byte}
    {field : Nat} (within : field + 2 ≤ len) (inside : off + len ≤ n) :
    (buffer.splice off len source).u16 (off + field) = source (field + 1) ++ source field := by
  rw [u16, get_splice_of_mem (by omega) (by omega) (by omega),
    get_splice_of_mem (by omega) (by omega) (by omega),
    show off + field + 1 - off = field + 1 by omega, Nat.add_sub_cancel_left]

/-- A 32-bit field inside an overwritten range. -/
theorem u32_splice_of_mem {buffer : Buffer n} {off len : Nat} {source : Nat → Byte}
    {field : Nat} (within : field + 4 ≤ len) (inside : off + len ≤ n) :
    (buffer.splice off len source).u32 (off + field) =
      source (field + 3) ++ source (field + 2) ++ source (field + 1) ++ source field := by
  rw [u32, get_splice_of_mem (by omega) (by omega) (by omega),
    get_splice_of_mem (by omega) (by omega) (by omega),
    get_splice_of_mem (by omega) (by omega) (by omega),
    get_splice_of_mem (by omega) (by omega) (by omega),
    show off + field + 1 - off = field + 1 by omega,
    show off + field + 2 - off = field + 2 by omega,
    show off + field + 3 - off = field + 3 by omega, Nat.add_sub_cancel_left]

/-- A 32-bit field is read back from where it was stored. -/
theorem u32_setU32 {buffer : Buffer n} {off : Nat} (inside : off + 4 ≤ n) (value : BitVec 32) :
    (buffer.setU32 off value).u32 off = value :=
  (u32_splice_of_mem (Nat.le_refl (0 + _)) inside).trans (le_append_le_32 value)

/-- An overwrite keeps every disjoint 16-bit field. -/
theorem u16_splice_of_disjoint {buffer : Buffer n} {off len : Nat} {source : Nat → Byte}
    {field : Nat} (disjoint : field + 2 ≤ off ∨ off + len ≤ field) :
    (buffer.splice off len source).u16 field = buffer.u16 field := by
  rw [u16, u16, get_splice_of_disjoint (by omega), get_splice_of_disjoint (by omega)]

/-- An overwrite keeps every disjoint 32-bit field. -/
theorem u32_splice_of_disjoint {buffer : Buffer n} {off len : Nat} {source : Nat → Byte}
    {field : Nat} (disjoint : field + 4 ≤ off ∨ off + len ≤ field) :
    (buffer.splice off len source).u32 field = buffer.u32 field := by
  rw [u32, u32, get_splice_of_disjoint (by omega), get_splice_of_disjoint (by omega),
    get_splice_of_disjoint (by omega), get_splice_of_disjoint (by omega)]

theorem u32_setU32_of_disjoint {buffer : Buffer n} {off field : Nat} {value : BitVec 32}
    (disjoint : field + 4 ≤ off ∨ off + 4 ≤ field) :
    (buffer.setU32 off value).u32 field = buffer.u32 field :=
  u32_splice_of_disjoint disjoint

end Buffer

end Notux.Store
