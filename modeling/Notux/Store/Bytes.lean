import Notux.Store.Buffer
import Notux.Store.State
import Mathlib.Data.BitVec

/-!
# Bytes in memory

Memory of bytes at 64-bit addresses, written one byte after the other.  What a program
has written is a list of stores; memory after them is the memory before, overwritten.
Strings end with a zero byte, and words are little-endian.
-/

namespace Notux.Store

/-- A byte for every address. -/
abbrev ByteMemory := BitVec 64 → Byte

/-! ## Stores -/

section Stores

variable {ι α : Type} [DecidableEq ι]

/-- Memory after some stores, the first one first. -/
def overwrite (memory : ι → α) : List (ι × α) → ι → α
  | [] => memory
  | (addr, value) :: rest => overwrite (assign memory addr value) rest

variable {memory : ι → α} {stores : List (ι × α)}

theorem overwrite_append (first second : List (ι × α)) :
    overwrite memory (first ++ second) = overwrite (overwrite memory first) second := by
  induction first generalizing memory with
  | nil => rfl
  | cons store rest ih => exact ih

/-- An address that is not stored to keeps its value. -/
theorem overwrite_of_notMem {addr : ι} (elsewhere : addr ∉ stores.map Prod.fst) :
    overwrite memory stores addr = memory addr := by
  induction stores generalizing memory with
  | nil => rfl
  | cons store rest ih =>
      rw [List.map_cons, List.mem_cons, not_or] at elsewhere
      rw [overwrite, ih elsewhere.2, assign_of_ne elsewhere.1]

/-- Stores of what is already there change nothing. -/
theorem overwrite_eq_self (same : ∀ store ∈ stores, memory store.1 = store.2) :
    overwrite memory stores = memory := by
  induction stores with
  | nil => rfl
  | cons store rest ih =>
      have first := same store List.mem_cons_self
      rw [overwrite, ← first, assign_eq_self]
      exact ih fun other member => same other (List.mem_cons_of_mem store member)

end Stores

/-! ## Runs of bytes -/

/-- The stores of some bytes from an address on. -/
def bytesAt : BitVec 64 → List Byte → List (BitVec 64 × Byte)
  | _, [] => []
  | addr, byte :: rest => (addr, byte) :: bytesAt (addr + 1) rest

variable {addr : BitVec 64} {bytes : List Byte} {memory : ByteMemory}

theorem add_ofNat_succ (addr : BitVec 64) (k : Nat) :
    addr + 1 + BitVec.ofNat 64 k = addr + BitVec.ofNat 64 (k + 1) := by
  rw [BitVec.add_assoc, BitVec.ofNat_add, BitVec.add_comm (BitVec.ofNat 64 k)]
  rfl

/-- Different offsets lead to different addresses. -/
theorem add_ofNat_inj {i j : Nat} (first : i < 2 ^ 64) (second : j < 2 ^ 64)
    (same : addr + BitVec.ofNat 64 i = addr + BitVec.ofNat 64 j) : i = j := by
  have offsets := congrArg BitVec.toNat (add_left_cancel same)
  rwa [BitVec.toNat_ofNat, BitVec.toNat_ofNat, Nat.mod_eq_of_lt first,
    Nat.mod_eq_of_lt second] at offsets

theorem mem_bytesAt {store : BitVec 64 × Byte} :
    store ∈ bytesAt addr bytes ↔
      ∃ (k : Nat) (inside : k < bytes.length),
        store = (addr + BitVec.ofNat 64 k, bytes[k]) := by
  induction bytes generalizing addr with
  | nil => simp [bytesAt]
  | cons byte rest ih =>
      rw [bytesAt, List.mem_cons, ih]
      constructor
      · rintro (rfl | ⟨k, inside, rfl⟩)
        · exact ⟨0, Nat.succ_pos _, by simp⟩
        · exact ⟨k + 1, Nat.succ_lt_succ inside, by rw [add_ofNat_succ]; rfl⟩
      · rintro ⟨k, inside, rfl⟩
        cases k with
        | zero =>
            left
            simp
        | succ k =>
            right
            exact ⟨k, Nat.lt_of_succ_lt_succ inside, by rw [add_ofNat_succ]; rfl⟩

theorem bytesAt_append (first second : List Byte) :
    bytesAt addr (first ++ second) =
      bytesAt addr first ++ bytesAt (addr + BitVec.ofNat 64 first.length) second := by
  induction first generalizing addr with
  | nil => simp [bytesAt]
  | cons byte rest ih =>
      rw [List.cons_append, bytesAt, ih, bytesAt, List.cons_append, add_ofNat_succ]
      rfl

/-- The bytes are read back. -/
theorem overwrite_bytesAt (short : bytes.length ≤ 2 ^ 64) {k : Nat} (inside : k < bytes.length) :
    overwrite memory (bytesAt addr bytes) (addr + BitVec.ofNat 64 k) = bytes[k] := by
  induction bytes generalizing addr memory k with
  | nil => cases inside
  | cons byte rest ih =>
      rw [List.length_cons] at short inside
      rw [bytesAt, overwrite]
      cases k with
      | zero =>
          rw [overwrite_of_notMem]
          · simp
          · intro member
            obtain ⟨store, isStore, same⟩ := List.mem_map.mp member
            obtain ⟨j, below, rfl⟩ := mem_bytesAt.mp isStore
            rw [add_ofNat_succ] at same
            have none := add_ofNat_inj (by omega) (by omega) same
            omega
      | succ k =>
          rw [← add_ofNat_succ]
          exact ih (by omega) (by omega)

/-! ## Words -/

/-- The bytes of a word. -/
def wordBytes (word : BitVec 64) : List Byte := (List.range 8).map (le word)

@[simp]
theorem length_wordBytes (word : BitVec 64) : (wordBytes word).length = 8 := by
  simp [wordBytes]

/-- Read a word. -/
def loadWord (memory : ByteMemory) (addr : BitVec 64) : BitVec 64 :=
  BitVec.ofNat 64 ((List.range 8).foldr
    (fun k value => (memory (addr + BitVec.ofNat 64 k)).toNat + 256 * value) 0)

theorem loadWord_congr {memory' : ByteMemory}
    (same : ∀ k < 8, memory' (addr + BitVec.ofNat 64 k) = memory (addr + BitVec.ofNat 64 k)) :
    loadWord memory' addr = loadWord memory addr := by
  unfold loadWord
  congr 1
  apply List.foldr_ext
  intro k member value
  rw [same k (List.mem_range.mp member)]

/-- A word is read where its bytes are. -/
theorem loadWord_eq {word : BitVec 64}
    (holds : ∀ k < 8, memory (addr + BitVec.ofNat 64 k) = le word k) :
    loadWord memory addr = word := by
  have bound := word.isLt
  apply BitVec.eq_of_toNat_eq
  unfold loadWord
  simp only [show List.range 8 = [0, 1, 2, 3, 4, 5, 6, 7] from rfl, List.foldr_cons,
    List.foldr_nil]
  rw [holds 0 (by decide), holds 1 (by decide), holds 2 (by decide), holds 3 (by decide),
    holds 4 (by decide), holds 5 (by decide), holds 6 (by decide), holds 7 (by decide)]
  simp only [le, BitVec.extractLsb'_toNat, Nat.shiftRight_eq_div_pow, BitVec.toNat_ofNat]
  omega

theorem loadWord_of_stored {word : BitVec 64}
    (stored : ∀ store ∈ bytesAt addr (wordBytes word), memory store.1 = store.2) :
    loadWord memory addr = word := by
  apply loadWord_eq
  intro k inside
  have byte := stored _ (mem_bytesAt.mpr ⟨k, by simpa using inside, rfl⟩)
  simpa [wordBytes] using byte

/-! ## Strings -/

/-- A string without its terminator stands at an address. -/
structure StringAt (memory : ByteMemory) (addr : BitVec 64) (string : List Byte) : Prop where
  bytes : ∀ (k : Nat) (inside : k < string.length),
    memory (addr + BitVec.ofNat 64 k) = string[k]
  nonzero : ∀ byte ∈ string, byte ≠ 0
  ends : memory (addr + BitVec.ofNat 64 string.length) = 0

theorem stringAt_of_stored {string : List Byte} (nonzero : ∀ byte ∈ string, byte ≠ 0)
    (stored : ∀ store ∈ bytesAt addr (string ++ [0]), memory store.1 = store.2) :
    StringAt memory addr string where
  bytes k inside := by
    have byte := stored _ (mem_bytesAt.mpr ⟨k, by simp; omega, rfl⟩)
    rwa [List.getElem_append_left inside] at byte
  nonzero := nonzero
  ends := by
    have byte := stored _ (mem_bytesAt.mpr ⟨string.length, by simp, rfl⟩)
    simpa using byte

theorem StringAt.byte_ne {string : List Byte} (isString : StringAt memory addr string) {k : Nat}
    (inside : k < string.length) : memory (addr + BitVec.ofNat 64 k) ≠ 0 := by
  rw [isString.bytes k inside]
  exact isString.nonzero _ (List.getElem_mem inside)

/-- There is one string at an address. -/
theorem StringAt.unique {first second : List Byte} (isFirst : StringAt memory addr first)
    (isSecond : StringAt memory addr second) : first = second := by
  have notShorter : ∀ {first second : List Byte}, StringAt memory addr first →
      StringAt memory addr second → ¬ first.length < second.length := by
    intro first second isFirst isSecond shorter
    have byte := isSecond.bytes first.length shorter
    rw [isFirst.ends] at byte
    exact isSecond.nonzero _ (List.getElem_mem shorter) byte.symm
  have lengths : first.length = second.length := by
    have one := notShorter isFirst isSecond
    have two := notShorter isSecond isFirst
    omega
  apply List.ext_getElem lengths
  intro k inside inside'
  rw [← isFirst.bytes k inside, isSecond.bytes k inside']

end Notux.Store
