import Notux.Store.Bytes
import Notux.Proc.Scheduler

/-!
# The arguments of a spawned process

`spawn_from_xv6fs` packs the strings it is given into `argv_scratch`, and pointers to
them into `argv_ptrs`.  Both are single buffers of the kernel, and a process that was
spawned with arguments gets pointers into them.  So the strings that are copied may
stand where they are copied to, and the next spawn overwrites the arguments of the last
one.
-/

namespace Notux.Proc

open Notux.Store

abbrev MAX_ARGV : Nat := 16
abbrev ARGV_SCRATCH_SIZE : Nat := 4096

/-- Where the linker put `argv_scratch` and `argv_ptrs`. -/
structure ArgvArea where
  scratch : Word
  ptrs : Word
  scratchFits : scratch.toNat + ARGV_SCRATCH_SIZE ≤ 2 ^ 64
  ptrsFits : ptrs.toNat + 8 * MAX_ARGV ≤ 2 ^ 64
  disjoint : scratch.toNat + ARGV_SCRATCH_SIZE ≤ ptrs.toNat ∨
    ptrs.toNat + 8 * MAX_ARGV ≤ scratch.toNat

/-- Memory as the kernel sees it for the current process, and the addresses that were
written. -/
structure Ram where
  bytes : ByteMemory
  writes : List Word

namespace Ram

def set (ram : Ram) (addr : Word) (byte : Byte) : Ram where
  bytes := assign ram.bytes addr byte
  writes := addr :: ram.writes

/-- Many writes. -/
def store (ram : Ram) (stores : List (Word × Byte)) : Ram where
  bytes := overwrite ram.bytes stores
  writes := (stores.map Prod.fst).reverse ++ ram.writes

def storeWord (ram : Ram) (addr word : Word) : Ram := ram.store (bytesAt addr (wordBytes word))

end Ram

/-! ## The copy -/

/-- The loop that measures a string, which ends with the buffer at the latest. -/
def strLen (memory : ByteMemory) : Nat → Word → Nat
  | 0, _ => 0
  | room + 1, src => if memory src = 0 then 0 else strLen memory room (src + 1) + 1

/-- The loop that copies a string. -/
def copyBytes : Nat → Word → Word → Ram → Ram
  | 0, _, _, ram => ram
  | len + 1, src, dst, ram => copyBytes len (src + 1) (dst + 1) (ram.set dst (ram.bytes src))

/-- `scratch_ptr`, as an offset in `argv_scratch`, and `copied_argc`. -/
structure ArgvCopy where
  ram : Ram
  scratchPtr : Nat
  copiedArgc : Nat

/-- The loop over the caller's array. -/
def copyArgv (area : ArgvArea) (callerArgv : Word) : Nat → Nat → ArgvCopy → ArgvCopy
  | 0, _, copy => copy
  | count + 1, i, copy =>
      let src := loadWord copy.ram.bytes (callerArgv + BitVec.ofNat 64 (8 * i))
      if src = 0 then copy
      else
        let len := strLen copy.ram.bytes (ARGV_SCRATCH_SIZE - copy.scratchPtr) src
        if copy.scratchPtr + len + 1 ≥ ARGV_SCRATCH_SIZE then copy
        else
          let dst := area.scratch + BitVec.ofNat 64 copy.scratchPtr
          let ram := copyBytes len src dst copy.ram
          let ram := ram.set (dst + BitVec.ofNat 64 len) 0
          let ram := ram.storeWord (area.ptrs + BitVec.ofNat 64 (8 * copy.copiedArgc)) dst
          copyArgv area callerArgv count (i + 1)
            ⟨ram, copy.scratchPtr + len + 1, copy.copiedArgc + 1⟩

/-- What `spawn_from_xv6fs` does with the arguments: the number and the array for
`set_process_argv`, if there are any. -/
def installArgv (area : ArgvArea) (callerArgv : Word) (argc : Nat) (ram : Ram) :
    Option (Nat × Word) × Ram :=
  if callerArgv ≠ 0 ∧ 0 < argc ∧ argc < MAX_ARGV then
    let copy := copyArgv area callerArgv argc 0 ⟨ram, 0, 0⟩
    (some (copy.copiedArgc, area.ptrs),
      copy.ram.storeWord (area.ptrs + BitVec.ofNat 64 (8 * copy.copiedArgc)) 0)
  else (none, ram)

/-! ## Writes -/

theorem Ram.store_store (ram : Ram) (first second : List (Word × Byte)) :
    (ram.store first).store second = ram.store (first ++ second) := by
  unfold Ram.store
  rw [overwrite_append, List.map_append, List.reverse_append, List.append_assoc]

theorem Ram.set_eq_store (ram : Ram) (addr : Word) (byte : Byte) :
    ram.set addr byte = ram.store [(addr, byte)] := rfl

/-! ## One string -/

section Strings

variable {memory : ByteMemory} {src dst : Word} {room len : Nat}

/-- Before the end that was found there is no zero byte. -/
theorem strLen_nonzero {k : Nat} (inside : k < strLen memory room src) :
    memory (src + BitVec.ofNat 64 k) ≠ 0 := by
  induction room generalizing src k with
  | zero => cases inside
  | succ room ih =>
      rw [strLen] at inside
      split at inside
      · cases inside
      · next nonzero =>
        cases k with
        | zero => simpa using nonzero
        | succ k =>
            rw [← add_ofNat_succ]
            exact ih (Nat.lt_of_succ_lt_succ inside)

/-- At the end there is one, unless the buffer ends. -/
theorem strLen_ends (short : strLen memory room src < room) :
    memory (src + BitVec.ofNat 64 (strLen memory room src)) = 0 := by
  induction room generalizing src with
  | zero => cases short
  | succ room ih =>
      rw [strLen] at short ⊢
      split
      · next zero => simpa using zero
      · next nonzero =>
        rw [if_neg nonzero] at short
        rw [← add_ofNat_succ]
        exact ih (Nat.lt_of_succ_lt_succ short)

theorem strLen_eq (nonzero : ∀ k < len, memory (src + BitVec.ofNat 64 k) ≠ 0)
    (ends : memory (src + BitVec.ofNat 64 len) = 0) (short : len < room) :
    strLen memory room src = len := by
  have within : strLen memory room src ≤ len := by
    by_contra longer
    exact strLen_nonzero (Nat.lt_of_not_le longer) ends
  by_contra differ
  have shorter : strLen memory room src < len := Nat.lt_of_le_of_ne within differ
  exact nonzero _ shorter (strLen_ends (shorter.trans short))

/-- The bytes come out of a copy: each one is read after the ones before it were
written. -/
def Yields (memory : ByteMemory) (src dst : Word) (bytes : List Byte) : Prop :=
  ∀ (k : Nat) (inside : k < bytes.length),
    overwrite memory (bytesAt dst (bytes.take k)) (src + BitVec.ofNat 64 k) = bytes[k]

theorem yields_cons {byte : Byte} {rest : List Byte} :
    Yields memory src dst (byte :: rest) ↔
      memory src = byte ∧ Yields (assign memory dst byte) (src + 1) (dst + 1) rest := by
  constructor
  · intro yields
    constructor
    · have first := yields 0 (Nat.succ_pos _)
      simpa [bytesAt, overwrite] using first
    · intro k inside
      have later := yields (k + 1) (Nat.succ_lt_succ inside)
      rw [List.take_succ_cons, bytesAt, overwrite] at later
      rw [add_ofNat_succ]
      exact later
  · rintro ⟨first, yields⟩ k inside
    cases k with
    | zero => simpa [bytesAt, overwrite] using first
    | succ k =>
        have later := yields k (Nat.lt_of_succ_lt_succ inside)
        rw [add_ofNat_succ] at later
        rw [List.take_succ_cons, bytesAt, overwrite]
        exact later

/-- The copy writes the bytes that come out of it. -/
theorem copyBytes_eq {ram : Ram} {bytes : List Byte} (yields : Yields ram.bytes src dst bytes) :
    copyBytes bytes.length src dst ram = ram.store (bytesAt dst bytes) := by
  induction bytes generalizing ram src dst with
  | nil => rfl
  | cons byte rest ih =>
      obtain ⟨first, later⟩ := yields_cons.mp yields
      rw [List.length_cons, copyBytes, first, ih later, Ram.set_eq_store, Ram.store_store]
      rfl

/-- Some bytes always do. -/
theorem exists_yields (memory : ByteMemory) (src dst : Word) (len : Nat) :
    ∃ bytes : List Byte, bytes.length = len ∧ Yields memory src dst bytes := by
  induction len generalizing memory src dst with
  | zero => exact ⟨[], rfl, nofun⟩
  | succ len ih =>
      obtain ⟨rest, length, yields⟩ := ih (assign memory dst (memory src)) (src + 1) (dst + 1)
      exact ⟨memory src :: rest, congrArg Nat.succ length, yields_cons.mpr ⟨rfl, yields⟩⟩

/-- The copy of a string from memory with some bytes packed already. -/
structure CopiesTo (memory : ByteMemory) (src dst : Word) (string : List Byte) : Prop where
  nonnull : src ≠ 0
  nonzero : ∀ k < string.length, memory (src + BitVec.ofNat 64 k) ≠ 0
  ends : memory (src + BitVec.ofNat 64 string.length) = 0
  yields : Yields memory src dst string

/-- What comes out of the copy of a string has no zero byte. -/
theorem Yields.nonzero {string : List Byte} (yields : Yields memory src dst string)
    (short : string.length ≤ 2 ^ 64)
    (nonzero : ∀ k < string.length, memory (src + BitVec.ofNat 64 k) ≠ 0) :
    ∀ byte ∈ string, byte ≠ 0 := by
  have each : ∀ (k : Nat) (inside : k < string.length), string[k] ≠ 0 := by
    intro k
    induction k using Nat.strong_induction_on with
    | _ k ih =>
        intro inside
        rw [← yields k inside]
        by_cases packed : src + BitVec.ofNat 64 k ∈ (bytesAt dst (string.take k)).map Prod.fst
        · obtain ⟨store, isStore, same⟩ := List.mem_map.mp packed
          obtain ⟨j, below, rfl⟩ := mem_bytesAt.mp isStore
          rw [List.length_take] at below
          rw [← same, overwrite_bytesAt (by rw [List.length_take]; omega)
            (by rw [List.length_take]; omega), List.getElem_take]
          exact ih j (by omega) (by omega)
        · rw [overwrite_of_notMem packed]
          exact nonzero k inside
  intro byte member
  obtain ⟨k, inside, rfl⟩ := List.mem_iff_getElem.mp member
  exact each k inside

end Strings

/-! ## The loop -/

/-- The writes for one string. -/
def packString (area : ArgvArea) (pos i : Nat) (string : List Byte) : List (Word × Byte) :=
  let dst := area.scratch + BitVec.ofNat 64 pos
  bytesAt dst (string ++ [0]) ++ bytesAt (area.ptrs + BitVec.ofNat 64 (8 * i)) (wordBytes dst)

/-- The writes for some strings, packed one behind the other. -/
def packStrings (area : ArgvArea) : Nat → Nat → List (List Byte) → List (Word × Byte)
  | _, _, [] => []
  | pos, i, string :: rest =>
      packString area pos i string ++ packStrings area (pos + string.length + 1) (i + 1) rest

/-- The room that strings and their terminators take. -/
def packedSize (strings : List (List Byte)) : Nat :=
  (strings.map fun string => string.length + 1).sum

/-- Read through what has been packed so far, the array and the strings are as given. -/
def Served (area : ArgvArea) (callerArgv : Word) : ByteMemory → Nat → Nat → List (List Byte) → Prop
  | _, _, _, [] => True
  | memory, pos, i, string :: rest =>
      CopiesTo memory (loadWord memory (callerArgv + BitVec.ofNat 64 (8 * i)))
        (area.scratch + BitVec.ofNat 64 pos) string ∧
      Served area callerArgv (overwrite memory (packString area pos i string))
        (pos + string.length + 1) (i + 1) rest

section Loop

variable {area : ArgvArea} {callerArgv : Word}

theorem ArgvArea.apart (area : ArgvArea) (i : Nat) (inside : i < ARGV_SCRATCH_SIZE) (j : Nat)
    (inside' : j < 8 * MAX_ARGV) :
    area.scratch + BitVec.ofNat 64 i ≠ area.ptrs + BitVec.ofNat 64 j := by
  intro same
  have equal := congrArg BitVec.toNat same
  have scratchFits := area.scratchFits
  have ptrsFits := area.ptrsFits
  have disjoint := area.disjoint
  simp only [BitVec.toNat_add, BitVec.toNat_ofNat, ARGV_SCRATCH_SIZE, MAX_ARGV] at *
  omega

theorem packedSize_cons (string : List Byte) (rest : List (List Byte)) :
    packedSize (string :: rest) = string.length + 1 + packedSize rest := by
  simp [packedSize]

/-- One turn of the loop. -/
theorem copyArgv_step {ram : Ram} {count i pos : Nat} {string : List Byte}
    (copies : CopiesTo ram.bytes (loadWord ram.bytes (callerArgv + BitVec.ofNat 64 (8 * i)))
      (area.scratch + BitVec.ofNat 64 pos) string)
    (fits : pos + string.length + 1 < ARGV_SCRATCH_SIZE) :
    copyArgv area callerArgv (count + 1) i ⟨ram, pos, i⟩ =
      copyArgv area callerArgv count (i + 1)
        ⟨ram.store (packString area pos i string), pos + string.length + 1, i + 1⟩ := by
  have length : strLen ram.bytes (ARGV_SCRATCH_SIZE - pos)
      (loadWord ram.bytes (callerArgv + BitVec.ofNat 64 (8 * i))) = string.length :=
    strLen_eq copies.nonzero copies.ends (by omega)
  rw [copyArgv]
  simp only [if_neg copies.nonnull, length, if_neg (Nat.not_le.mpr fits)]
  rw [copyBytes_eq copies.yields, Ram.set_eq_store, Ram.storeWord, Ram.store_store,
    Ram.store_store, packString, bytesAt_append, List.append_assoc]
  rfl

/-- The loop packs the strings it is served, and goes on behind them. -/
theorem copyArgv_append {ram : Ram} {more i pos : Nat} {strings : List (List Byte)}
    (served : Served area callerArgv ram.bytes pos i strings)
    (fits : pos + packedSize strings < ARGV_SCRATCH_SIZE) :
    copyArgv area callerArgv (strings.length + more) i ⟨ram, pos, i⟩ =
      copyArgv area callerArgv more (i + strings.length)
        ⟨ram.store (packStrings area pos i strings), pos + packedSize strings,
          i + strings.length⟩ := by
  induction strings generalizing ram i pos with
  | nil =>
      rw [List.length_nil, Nat.zero_add]
      rfl
  | cons string rest ih =>
      obtain ⟨copies, later⟩ := served
      rw [packedSize_cons] at fits ⊢
      have sizes : pos + string.length + 1 + packedSize rest =
          pos + (string.length + 1 + packedSize rest) := by omega
      have counts : i + 1 + rest.length = i + (rest.length + 1) := by omega
      rw [List.length_cons, Nat.add_right_comm, copyArgv_step copies (by omega),
        ih later (by omega), Ram.store_store, packStrings, sizes, counts]

/-- Whatever it is given, the loop packs some strings that it reads. -/
theorem copyArgv_packs (ram : Ram) (count i pos : Nat) (bound : pos < ARGV_SCRATCH_SIZE) :
    ∃ strings : List (List Byte), strings.length ≤ count ∧
      pos + packedSize strings < ARGV_SCRATCH_SIZE ∧
      Served area callerArgv ram.bytes pos i strings ∧
      copyArgv area callerArgv count i ⟨ram, pos, i⟩ =
        ⟨ram.store (packStrings area pos i strings), pos + packedSize strings,
          i + strings.length⟩ := by
  induction count generalizing ram i pos with
  | zero => exact ⟨[], Nat.le_refl 0, bound, trivial, rfl⟩
  | succ count ih =>
      by_cases null : loadWord ram.bytes (callerArgv + BitVec.ofNat 64 (8 * i)) = 0
      · refine ⟨[], Nat.zero_le _, bound, trivial, ?_⟩
        rw [copyArgv]
        simp only [if_pos null]
        rfl
      · by_cases fits : pos + strLen ram.bytes (ARGV_SCRATCH_SIZE - pos)
            (loadWord ram.bytes (callerArgv + BitVec.ofNat 64 (8 * i))) + 1 < ARGV_SCRATCH_SIZE
        · obtain ⟨string, length, yields⟩ := exists_yields ram.bytes
            (loadWord ram.bytes (callerArgv + BitVec.ofNat 64 (8 * i)))
            (area.scratch + BitVec.ofNat 64 pos)
            (strLen ram.bytes (ARGV_SCRATCH_SIZE - pos)
              (loadWord ram.bytes (callerArgv + BitVec.ofNat 64 (8 * i))))
          have copies : CopiesTo ram.bytes
              (loadWord ram.bytes (callerArgv + BitVec.ofNat 64 (8 * i)))
              (area.scratch + BitVec.ofNat 64 pos) string := by
            refine ⟨null, fun k inside => ?_, ?_, yields⟩
            · rw [length] at inside
              exact strLen_nonzero inside
            · rw [length]
              exact strLen_ends (by omega)
          rw [← length] at fits
          obtain ⟨rest, few, inside, served, copied⟩ :=
            ih (ram.store (packString area pos i string)) (i + 1) (pos + string.length + 1) fits
          refine ⟨string :: rest, Nat.succ_le_succ few, ?_, ⟨copies, served⟩, ?_⟩
          · rw [packedSize_cons]
            omega
          · rw [copyArgv_step copies fits, copied, Ram.store_store, packedSize_cons]
            congr 1
            · omega
            · rw [List.length_cons]
              omega
        · refine ⟨[], Nat.zero_le _, bound, trivial, ?_⟩
          rw [copyArgv]
          simp only [if_neg null, if_pos (Nat.not_lt.mp fits)]
          rfl

/-! ## What is written -/

/-- The address lies in `argv_scratch` from a position on, or in `argv_ptrs` from an
index on. -/
def ArgvArea.Behind (area : ArgvArea) (pos i : Nat) (addr : Word) : Prop :=
  (∃ k, pos ≤ k ∧ k < ARGV_SCRATCH_SIZE ∧ addr = area.scratch + BitVec.ofNat 64 k) ∨
    ∃ j, 8 * i ≤ j ∧ j < 8 * MAX_ARGV ∧ addr = area.ptrs + BitVec.ofNat 64 j

theorem ArgvArea.Behind.mono {pos pos' i i' : Nat} {addr : Word} (behind : area.Behind pos' i' addr)
    (lower : pos ≤ pos') (lower' : i ≤ i') : area.Behind pos i addr := by
  rcases behind with ⟨k, above, below, same⟩ | ⟨j, above, below, same⟩
  · exact Or.inl ⟨k, lower.trans above, below, same⟩
  · exact Or.inr ⟨j, by omega, below, same⟩

theorem behind_of_mem_word {i : Nat} (bound : i < MAX_ARGV) {word : Word} {store : Word × Byte}
    (member : store ∈ bytesAt (area.ptrs + BitVec.ofNat 64 (8 * i)) (wordBytes word)) (pos : Nat) :
    area.Behind pos i store.1 := by
  obtain ⟨j, inside, rfl⟩ := mem_bytesAt.mp member
  rw [length_wordBytes] at inside
  simp only [MAX_ARGV] at bound
  refine Or.inr ⟨8 * i + j, by omega, by simp only [MAX_ARGV]; omega, ?_⟩
  rw [BitVec.ofNat_add, ← BitVec.add_assoc]

/-- The packed strings go behind a position and an index. -/
theorem behind_of_mem_packStrings {pos i : Nat} {strings : List (List Byte)}
    {store : Word × Byte} (member : store ∈ packStrings area pos i strings)
    (fits : pos + packedSize strings ≤ ARGV_SCRATCH_SIZE) (few : i + strings.length ≤ MAX_ARGV) :
    area.Behind pos i store.1 := by
  induction strings generalizing pos i with
  | nil => cases member
  | cons string rest ih =>
      rw [packedSize_cons] at fits
      rw [List.length_cons] at few
      rcases List.mem_append.mp member with here | later
      · rcases List.mem_append.mp here with isByte | isPtr
        · obtain ⟨k, inside, rfl⟩ := mem_bytesAt.mp isByte
          rw [List.length_append, List.length_singleton] at inside
          refine Or.inl ⟨pos + k, by omega, by omega, ?_⟩
          rw [BitVec.ofNat_add, ← BitVec.add_assoc]
        · exact behind_of_mem_word (by omega) isPtr pos
      · exact (ih later (by omega) (by omega)).mono (by omega) (Nat.le_succ i)

/-- What one string takes does not lie behind it. -/
theorem not_behind_of_mem_packString {pos i : Nat} {string : List Byte} {store : Word × Byte}
    (member : store ∈ packString area pos i string)
    (fits : pos + string.length + 1 ≤ ARGV_SCRATCH_SIZE) (few : i < MAX_ARGV) :
    ¬ area.Behind (pos + string.length + 1) (i + 1) store.1 := by
  simp only [ARGV_SCRATCH_SIZE] at fits
  simp only [MAX_ARGV] at few
  rcases List.mem_append.mp member with isByte | isPtr
  · obtain ⟨k, inside, rfl⟩ := mem_bytesAt.mp isByte
    rw [List.length_append, List.length_singleton] at inside
    have offset : area.scratch + BitVec.ofNat 64 pos + BitVec.ofNat 64 k =
        area.scratch + BitVec.ofNat 64 (pos + k) := by
      rw [BitVec.ofNat_add, BitVec.add_assoc]
    dsimp only
    rw [offset]
    rintro (⟨k', above, below, same⟩ | ⟨j, -, below, same⟩)
    · simp only [ARGV_SCRATCH_SIZE] at below
      have equal := add_ofNat_inj (by omega) (by omega) same
      omega
    · exact area.apart (pos + k) (by simp only [ARGV_SCRATCH_SIZE]; omega) j below same
  · obtain ⟨j, inside, rfl⟩ := mem_bytesAt.mp isPtr
    rw [length_wordBytes] at inside
    have offset : area.ptrs + BitVec.ofNat 64 (8 * i) + BitVec.ofNat 64 j =
        area.ptrs + BitVec.ofNat 64 (8 * i + j) := by
      rw [BitVec.ofNat_add, BitVec.add_assoc]
    dsimp only
    rw [offset]
    rintro (⟨k, -, below, same⟩ | ⟨j', above, below, same⟩)
    · exact area.apart k below (8 * i + j) (by simp only [MAX_ARGV]; omega) same.symm
    · simp only [MAX_ARGV] at below
      have equal := add_ofNat_inj (by omega) (by omega) same
      omega

/-- A string that was packed is there, and so is its pointer. -/
theorem packString_holds {memory : ByteMemory} {pos i : Nat} {string : List Byte}
    (fits : pos + string.length + 1 ≤ ARGV_SCRATCH_SIZE) (few : i < MAX_ARGV) :
    ∀ store ∈ packString area pos i string,
      overwrite memory (packString area pos i string) store.1 = store.2 := by
  simp only [ARGV_SCRATCH_SIZE] at fits
  intro store member
  unfold packString
  rw [overwrite_append]
  rcases List.mem_append.mp member with isByte | isPtr
  · obtain ⟨k, inside, rfl⟩ := mem_bytesAt.mp isByte
    have short := inside
    rw [List.length_append, List.length_singleton] at short
    rw [overwrite_of_notMem, overwrite_bytesAt _ inside]
    · rw [List.length_append, List.length_singleton]
      omega
    · intro overwritten
      obtain ⟨other, isPtr, same⟩ := List.mem_map.mp overwritten
      rcases behind_of_mem_word few isPtr ARGV_SCRATCH_SIZE with
        ⟨k', above, below, -⟩ | ⟨j, -, below, isAddr⟩
      · omega
      · have offset : area.scratch + BitVec.ofNat 64 pos + BitVec.ofNat 64 k =
            area.scratch + BitVec.ofNat 64 (pos + k) := by
          rw [BitVec.ofNat_add, BitVec.add_assoc]
        rw [isAddr] at same
        dsimp only at same
        rw [offset] at same
        exact area.apart (pos + k) (by simp only [ARGV_SCRATCH_SIZE]; omega) j below same.symm
  · obtain ⟨j, inside, rfl⟩ := mem_bytesAt.mp isPtr
    exact overwrite_bytesAt (by simp) inside

/-- What was packed is there. -/
theorem packStrings_holds {memory : ByteMemory} {pos i : Nat} {strings : List (List Byte)}
    {later : List (Word × Byte)} (fits : pos + packedSize strings ≤ ARGV_SCRATCH_SIZE)
    (few : i + strings.length ≤ MAX_ARGV)
    (behind : ∀ store ∈ later,
      area.Behind (pos + packedSize strings) (i + strings.length) store.1) :
    ∀ store ∈ packStrings area pos i strings,
      overwrite memory (packStrings area pos i strings ++ later) store.1 = store.2 := by
  induction strings generalizing memory pos i with
  | nil => exact nofun
  | cons string rest ih =>
      rw [packedSize_cons] at fits behind
      rw [List.length_cons] at few behind
      have sizes : pos + (string.length + 1 + packedSize rest) =
          pos + string.length + 1 + packedSize rest := by omega
      have counts : i + (rest.length + 1) = i + 1 + rest.length := by omega
      rw [sizes] at fits behind
      rw [counts] at few behind
      intro store member
      rw [packStrings, List.append_assoc, overwrite_append]
      rcases List.mem_append.mp member with here | packed
      · rw [overwrite_of_notMem]
        · exact packString_holds (by omega) (by omega) store here
        · intro overwritten
          obtain ⟨other, isLater, same⟩ := List.mem_map.mp overwritten
          apply not_behind_of_mem_packString here (by omega) (by omega)
          rw [← same]
          rcases List.mem_append.mp isLater with packed | isLater
          · exact behind_of_mem_packStrings packed fits few
          · exact (behind other isLater).mono (by omega) (by omega)
      · exact ih fits few behind store packed

/-- Strings that are packed are read through their pointers. -/
theorem reads_of_packed {memory : ByteMemory} {pos i : Nat} {strings : List (List Byte)}
    (nonzero : ∀ string ∈ strings, ∀ byte ∈ string, byte ≠ 0)
    (packed : ∀ store ∈ packStrings area pos i strings, memory store.1 = store.2)
    (k : Nat) (inside : k < strings.length) :
    loadWord memory (area.ptrs + BitVec.ofNat 64 (8 * (i + k))) =
        area.scratch + BitVec.ofNat 64 (pos + packedSize (strings.take k)) ∧
      StringAt memory (area.scratch + BitVec.ofNat 64 (pos + packedSize (strings.take k)))
        strings[k] := by
  induction strings generalizing pos i k with
  | nil => cases inside
  | cons string rest ih =>
      have here := fun store member => packed store (List.mem_append_left _ member)
      cases k with
      | zero =>
          constructor
          · exact loadWord_of_stored fun store member =>
              here store (List.mem_append_right _ member)
          · exact stringAt_of_stored (nonzero string List.mem_cons_self)
              fun store member => here store (List.mem_append_left _ member)
      | succ k =>
          have place : i + (k + 1) = i + 1 + k := by omega
          have start : pos + packedSize ((string :: rest).take (k + 1)) =
              pos + string.length + 1 + packedSize (rest.take k) := by
            rw [List.take_succ_cons, packedSize_cons]
            omega
          rw [place, start]
          exact ih (fun other member => nonzero other (List.mem_cons_of_mem string member))
            (fun store member => packed store (List.mem_append_right _ member)) k
            (Nat.lt_of_succ_lt_succ inside)

end Loop

/-! ## The arguments of the child -/

/-- The writes for all arguments: the strings, their pointers and a null pointer. -/
def packArgs (area : ArgvArea) (strings : List (List Byte)) : List (Word × Byte) :=
  packStrings area 0 0 strings ++
    bytesAt (area.ptrs + BitVec.ofNat 64 (8 * strings.length)) (wordBytes 0)

/-- What a process finds: so many arguments in an array, behind them a null pointer. -/
structure Finds (memory : ByteMemory) (argc : Nat) (argv : Word) (strings : List (List Byte)) :
    Prop where
  count : argc = strings.length
  each : ∀ (k : Nat) (inside : k < strings.length),
    StringAt memory (loadWord memory (argv + BitVec.ofNat 64 (8 * k))) strings[k]
  ends : loadWord memory (argv + BitVec.ofNat 64 (8 * strings.length)) = 0

/-- The array holds these strings. -/
structure Passes (memory : ByteMemory) (argv : Word) (strings : List (List Byte)) : Prop where
  nonnull : ∀ k < strings.length, loadWord memory (argv + BitVec.ofNat 64 (8 * k)) ≠ 0
  each : ∀ (k : Nat) (inside : k < strings.length),
    StringAt memory (loadWord memory (argv + BitVec.ofNat 64 (8 * k))) strings[k]

/-- The registers of a child: `set_process_argv` is only called when there are arguments. -/
def childArgs (installed : Option (Nat × Word)) : Nat × Word := installed.getD (0, 0)

section Child

variable {area : ArgvArea} {callerArgv : Word}

theorem packArgs_holds {memory : ByteMemory} {strings : List (List Byte)}
    (fits : packedSize strings < ARGV_SCRATCH_SIZE) (few : strings.length < MAX_ARGV) :
    ∀ store ∈ packArgs area strings,
      overwrite memory (packArgs area strings) store.1 = store.2 := by
  intro store member
  rcases List.mem_append.mp member with packed | isNull
  · apply packStrings_holds
    · rw [Nat.zero_add]
      exact Nat.le_of_lt fits
    · rw [Nat.zero_add]
      exact Nat.le_of_lt few
    · intro other isOther
      rw [Nat.zero_add, Nat.zero_add]
      exact behind_of_mem_word few isOther _
    · exact packed
  · obtain ⟨j, inside, rfl⟩ := mem_bytesAt.mp isNull
    unfold packArgs
    rw [overwrite_append]
    exact overwrite_bytesAt (by simp) inside

/-- All of it lies in the buffers. -/
theorem behind_of_mem_packArgs {strings : List (List Byte)} {store : Word × Byte}
    (member : store ∈ packArgs area strings) (fits : packedSize strings < ARGV_SCRATCH_SIZE)
    (few : strings.length < MAX_ARGV) : area.Behind 0 0 store.1 := by
  rcases List.mem_append.mp member with isString | isNull
  · exact behind_of_mem_packStrings isString (by omega) (by omega)
  · exact (behind_of_mem_word few isNull 0).mono (Nat.le_refl 0) (Nat.zero_le _)

/-- A process finds the arguments that are packed. -/
theorem finds_of_packed {memory : ByteMemory} {strings : List (List Byte)}
    (nonzero : ∀ string ∈ strings, ∀ byte ∈ string, byte ≠ 0)
    (packed : ∀ store ∈ packArgs area strings, memory store.1 = store.2) :
    Finds memory strings.length area.ptrs strings where
  count := rfl
  each := by
    intro k inside
    have reads := reads_of_packed nonzero
      (fun store member => packed store (List.mem_append_left _ member)) k inside
    rw [Nat.zero_add] at reads
    rw [reads.1]
    exact reads.2
  ends := loadWord_of_stored fun store member => packed store (List.mem_append_right _ member)

theorem finds_packArgs {memory : ByteMemory} {strings : List (List Byte)}
    (nonzero : ∀ string ∈ strings, ∀ byte ∈ string, byte ≠ 0)
    (fits : packedSize strings < ARGV_SCRATCH_SIZE) (few : strings.length < MAX_ARGV) :
    Finds (overwrite memory (packArgs area strings)) strings.length area.ptrs strings :=
  finds_of_packed nonzero (packArgs_holds fits few)

/-- Whatever it is given, the copy packs some strings that it reads, and writes nothing
else. -/
theorem installArgv_packs {argc : Nat} (ram : Ram)
    (given : callerArgv ≠ 0 ∧ 0 < argc ∧ argc < MAX_ARGV) :
    ∃ strings : List (List Byte), strings.length ≤ argc ∧
      packedSize strings < ARGV_SCRATCH_SIZE ∧ Served area callerArgv ram.bytes 0 0 strings ∧
      installArgv area callerArgv argc ram =
        (some (strings.length, area.ptrs), ram.store (packArgs area strings)) := by
  obtain ⟨strings, few, fits, served, copied⟩ :=
    @copyArgv_packs area callerArgv ram argc 0 0 (by decide)
  rw [Nat.zero_add] at fits
  refine ⟨strings, few, fits, served, ?_⟩
  unfold installArgv packArgs
  rw [if_pos given, copied]
  simp only [Ram.storeWord, Ram.store_store, Nat.zero_add]

theorem Served.nonzero {memory : ByteMemory} {pos i : Nat} {strings : List (List Byte)}
    (served : Served area callerArgv memory pos i strings)
    (fits : packedSize strings < ARGV_SCRATCH_SIZE) :
    ∀ string ∈ strings, ∀ byte ∈ string, byte ≠ 0 := by
  induction strings generalizing memory pos i with
  | nil => exact nofun
  | cons string rest ih =>
      obtain ⟨copies, later⟩ := served
      rw [packedSize_cons] at fits
      simp only [ARGV_SCRATCH_SIZE] at fits ih
      intro other member
      rcases List.mem_cons.mp member with rfl | isLater
      · exact copies.yields.nonzero (by omega) copies.nonzero
      · exact ih later (by omega) other isLater

/-- The child finds the strings exactly if the copy is served them. -/
theorem finds_iff_served {argc : Nat} {strings : List (List Byte)} (ram : Ram)
    (given : callerArgv ≠ 0 ∧ 0 < argc ∧ argc < MAX_ARGV) (count : argc = strings.length)
    (fits : packedSize strings < ARGV_SCRATCH_SIZE) :
    Finds (installArgv area callerArgv argc ram).2.bytes
        (childArgs (installArgv area callerArgv argc ram).1).1
        (childArgs (installArgv area callerArgv argc ram).1).2 strings ↔
      Served area callerArgv ram.bytes 0 0 strings := by
  constructor
  · intro finds
    obtain ⟨packed, few, size, served, installed⟩ :=
      @installArgv_packs area callerArgv _ ram given
    rw [installed] at finds
    have packs := @finds_packArgs area ram.bytes _ (served.nonzero size) size
      (Nat.lt_of_le_of_lt few given.2.2)
    have lengths : packed.length = strings.length := finds.count
    have same : packed = strings := by
      apply List.ext_getElem lengths
      intro k inside inside'
      exact (packs.each k inside).unique (finds.each k inside')
    rwa [← same]
  · intro served
    have copied := @copyArgv_append area _ _ 0 _ _ _ served (by rwa [Nat.zero_add])
    have installed : installArgv area callerArgv argc ram =
        (some (strings.length, area.ptrs), ram.store (packArgs area strings)) := by
      unfold installArgv packArgs
      rw [if_pos given, count]
      rw [Nat.add_zero] at copied
      rw [copied, copyArgv]
      simp only [Ram.storeWord, Ram.store_store, Nat.zero_add]
    rw [installed]
    exact finds_packArgs (served.nonzero fits) fits (by rw [← count]; exact given.2.2)

/-- Where everything has been packed already, the copy is served. -/
theorem served_of_packed {memory : ByteMemory} {pos i : Nat} {strings : List (List Byte)}
    (packed : ∀ store ∈ packStrings area pos i strings, memory store.1 = store.2)
    (passes : ∀ (k : Nat) (inside : k < strings.length),
      loadWord memory (callerArgv + BitVec.ofNat 64 (8 * (i + k))) ≠ 0 ∧
        StringAt memory (loadWord memory (callerArgv + BitVec.ofNat 64 (8 * (i + k))))
          strings[k]) :
    Served area callerArgv memory pos i strings := by
  induction strings generalizing pos i with
  | nil => exact trivial
  | cons string rest ih =>
      obtain ⟨nonnull, isString⟩ :
          loadWord memory (callerArgv + BitVec.ofNat 64 (8 * i)) ≠ 0 ∧
            StringAt memory (loadWord memory (callerArgv + BitVec.ofNat 64 (8 * i))) string :=
        passes 0 (Nat.succ_pos _)
      have here := fun store member => packed store (List.mem_append_left _ member)
      constructor
      · refine ⟨nonnull, fun k inside => isString.byte_ne inside, isString.ends, ?_⟩
        intro k inside
        rw [overwrite_eq_self]
        · exact isString.bytes k inside
        · intro store member
          apply here
          apply List.mem_append_left
          obtain ⟨j, below, rfl⟩ := mem_bytesAt.mp member
          rw [List.length_take] at below
          refine mem_bytesAt.mpr ⟨j, ?_, ?_⟩
          · rw [List.length_append]
            omega
          · rw [List.getElem_take, List.getElem_append_left]
      · rw [overwrite_eq_self here]
        apply ih
        · exact fun store member => packed store (List.mem_append_right _ member)
        · intro k inside
          have next := passes (k + 1) (Nat.succ_lt_succ inside)
          rw [show i + 1 + k = i + (k + 1) by omega]
          exact next

/-- Neither the array nor a string lies in the buffers. -/
def Elsewhere (area : ArgvArea) (memory : ByteMemory) (callerArgv : Word) (i : Nat)
    (strings : List (List Byte)) : Prop :=
  ∀ (k : Nat) (inside : k < strings.length),
    (∀ j < 8, ¬ area.Behind 0 0
      (callerArgv + BitVec.ofNat 64 (8 * (i + k)) + BitVec.ofNat 64 j)) ∧
    ∀ j ≤ strings[k].length, ¬ area.Behind 0 0
      (loadWord memory (callerArgv + BitVec.ofNat 64 (8 * (i + k))) + BitVec.ofNat 64 j)

/-- Then the copy is served, whatever it has packed. -/
theorem served_of_elsewhere {memory memory' : ByteMemory} {pos i : Nat}
    {strings : List (List Byte)} (elsewhere : Elsewhere area memory callerArgv i strings)
    (agree : ∀ addr, ¬ area.Behind 0 0 addr → memory' addr = memory addr)
    (passes : ∀ (k : Nat) (inside : k < strings.length),
      loadWord memory (callerArgv + BitVec.ofNat 64 (8 * (i + k))) ≠ 0 ∧
        StringAt memory (loadWord memory (callerArgv + BitVec.ofNat 64 (8 * (i + k))))
          strings[k])
    (fits : pos + packedSize strings ≤ ARGV_SCRATCH_SIZE) (few : i + strings.length ≤ MAX_ARGV) :
    Served area callerArgv memory' pos i strings := by
  induction strings generalizing memory' pos i with
  | nil => exact trivial
  | cons string rest ih =>
      rw [packedSize_cons] at fits
      rw [List.length_cons] at few
      obtain ⟨nonnull, isString⟩ :
          loadWord memory (callerArgv + BitVec.ofNat 64 (8 * i)) ≠ 0 ∧
            StringAt memory (loadWord memory (callerArgv + BitVec.ofNat 64 (8 * i))) string :=
        passes 0 (Nat.succ_pos _)
      obtain ⟨array, bytes⟩ : (∀ j < 8, ¬ area.Behind 0 0
            (callerArgv + BitVec.ofNat 64 (8 * i) + BitVec.ofNat 64 j)) ∧
          ∀ j ≤ string.length, ¬ area.Behind 0 0
            (loadWord memory (callerArgv + BitVec.ofNat 64 (8 * i)) + BitVec.ofNat 64 j) :=
        elsewhere 0 (Nat.succ_pos _)
      have packed : ∀ store ∈ packString area pos i string, area.Behind 0 0 store.1 := by
        intro store member
        apply (@behind_of_mem_packStrings area pos i [string] _
          (List.mem_append_left _ member) _ _).mono (Nat.zero_le _)
          (Nat.zero_le _)
        · rw [packedSize_cons]
          simp only [packedSize, List.map_nil, List.sum_nil]
          omega
        · simp only [List.length_singleton]
          omega
      have untouched : ∀ {stores : List (Word × Byte)} {addr : Word},
          (∀ store ∈ stores, area.Behind 0 0 store.1) → ¬ area.Behind 0 0 addr →
            overwrite memory' stores addr = memory addr := by
        intro stores addr inside outside
        rw [overwrite_of_notMem, agree addr outside]
        intro member
        obtain ⟨store, isStore, rfl⟩ := List.mem_map.mp member
        exact outside (inside store isStore)
      have pointer : loadWord memory' (callerArgv + BitVec.ofNat 64 (8 * i)) =
          loadWord memory (callerArgv + BitVec.ofNat 64 (8 * i)) := by
        apply loadWord_congr
        exact fun j inside => agree _ (array j inside)
      constructor
      · rw [pointer]
        refine ⟨nonnull, fun k inside => ?_, ?_, fun k inside => ?_⟩
        · rw [agree _ (bytes k (Nat.le_of_lt inside))]
          exact isString.byte_ne inside
        · rw [agree _ (bytes _ (Nat.le_refl _))]
          exact isString.ends
        · rw [untouched _ (bytes k (Nat.le_of_lt inside))]
          · exact isString.bytes k inside
          · intro store member
            obtain ⟨j, below, rfl⟩ := mem_bytesAt.mp member
            rw [List.length_take] at below
            apply packed
            apply List.mem_append_left
            refine mem_bytesAt.mpr ⟨j, ?_, ?_⟩
            · rw [List.length_append]
              omega
            · rw [List.getElem_take, List.getElem_append_left]
      · apply ih
        · intro k inside
          have next := elsewhere (k + 1) (Nat.succ_lt_succ inside)
          rw [show i + 1 + k = i + (k + 1) by omega]
          exact next
        · exact fun addr outside => untouched packed outside
        · intro k inside
          have next := passes (k + 1) (Nat.succ_lt_succ inside)
          rw [show i + 1 + k = i + (k + 1) by omega]
          exact next
        · omega
        · omega

/-- Whatever it is given, the copy writes into the two buffers only. -/
theorem installArgv_writes (argv : Word) (argc : Nat) (ram : Ram) :
    ∀ addr ∈ (installArgv area argv argc ram).2.writes,
      addr ∈ ram.writes ∨ area.Behind 0 0 addr := by
  intro addr member
  by_cases given : argv ≠ 0 ∧ 0 < argc ∧ argc < MAX_ARGV
  · obtain ⟨strings, few, fits, -, installed⟩ := @installArgv_packs area _ _ ram given
    rw [installed] at member
    rcases List.mem_append.mp member with new | old
    · right
      obtain ⟨store, isStore, rfl⟩ := List.mem_map.mp (List.mem_reverse.mp new)
      exact behind_of_mem_packArgs isStore fits (Nat.lt_of_le_of_lt few given.2.2)
    · exact Or.inl old
  · unfold installArgv at member
    rw [if_neg given] at member
    exact Or.inl member

end Child

/-- The child finds the strings that the caller passes. -/
def ChildFinds (area : ArgvArea) (callerArgv : Word) (ram : Ram) (strings : List (List Byte)) :
    Prop :=
  let result := installArgv area callerArgv strings.length ram
  Finds result.2.bytes (childArgs result.1).1 (childArgs result.1).2 strings

/-- What the copy needs: it reads the array and the strings through what it has packed, and
without any arguments the child gets the null pointer for its array. -/
def Serves (area : ArgvArea) (memory : ByteMemory) (callerArgv : Word)
    (strings : List (List Byte)) : Prop :=
  (strings = [] → loadWord memory 0 = 0) ∧ Served area callerArgv memory 0 0 strings

/-- The child finds the strings of the caller exactly if the copy does not overwrite what it
still has to read, or overwrites it with the same; and the copy stays inside of the
buffers. -/
theorem argv_copied_iff (area : ArgvArea) (callerArgv : Word) (ram : Ram)
    (strings : List (List Byte)) (nonnull : callerArgv ≠ 0) (few : strings.length < MAX_ARGV)
    (_passes : Passes ram.bytes callerArgv strings)
    (fits : packedSize strings < ARGV_SCRATCH_SIZE) :
    (ChildFinds area callerArgv ram strings ↔ Serves area ram.bytes callerArgv strings) ∧
    ∀ argv argc, ∀ addr ∈ (installArgv area argv argc ram).2.writes,
      addr ∈ ram.writes ∨ area.Behind 0 0 addr := by
  refine ⟨?_, fun argv argc => installArgv_writes argv argc ram⟩
  unfold ChildFinds
  dsimp only
  cases strings with
  | nil =>
      have none : installArgv area callerArgv 0 ram = (none, ram) := by
        unfold installArgv
        rw [if_neg (by simp)]
      rw [List.length_nil, none]
      constructor
      · exact fun finds => ⟨fun _ => finds.ends, trivial⟩
      · exact fun serves => ⟨rfl, nofun, serves.1 rfl⟩
  | cons string rest =>
      have given : callerArgv ≠ 0 ∧ 0 < (string :: rest).length ∧
          (string :: rest).length < MAX_ARGV := ⟨nonnull, Nat.succ_pos _, few⟩
      rw [finds_iff_served ram given rfl fits]
      constructor
      · exact fun served => ⟨nofun, served⟩
      · exact And.right

/-- Arguments that lie outside of the buffers always arrive. -/
theorem childFinds_of_elsewhere {area : ArgvArea} {callerArgv : Word} {ram : Ram}
    {strings : List (List Byte)} (nonnull : callerArgv ≠ 0) (some : strings ≠ [])
    (few : strings.length < MAX_ARGV) (passes : Passes ram.bytes callerArgv strings)
    (fits : packedSize strings < ARGV_SCRATCH_SIZE)
    (elsewhere : Elsewhere area ram.bytes callerArgv 0 strings) :
    ChildFinds area callerArgv ram strings := by
  have given : callerArgv ≠ 0 ∧ 0 < strings.length ∧ strings.length < MAX_ARGV :=
    ⟨nonnull, List.length_pos_of_ne_nil some, few⟩
  apply (finds_iff_served ram given rfl fits).mpr
  apply served_of_elsewhere elsewhere
  · exact fun _ _ => rfl
  · intro k inside
    rw [Nat.zero_add]
    exact ⟨passes.nonnull k inside, passes.each k inside⟩
  · omega
  · omega

/-! ## A program that passes its own arguments in another order -/

instance (memory : ByteMemory) (addr : Word) (string : List Byte) :
    Decidable (StringAt memory addr string) :=
  decidable_of_iff ((∀ k : Fin string.length, memory (addr + BitVec.ofNat 64 k) = string[k]) ∧
      (∀ byte ∈ string, byte ≠ 0) ∧ memory (addr + BitVec.ofNat 64 string.length) = 0)
    ⟨fun ⟨bytes, nonzero, ends⟩ => ⟨fun k inside => bytes ⟨k, inside⟩, nonzero, ends⟩,
      fun isString => ⟨fun k => isString.bytes k k.isLt, isString.nonzero, isString.ends⟩⟩

instance (memory : ByteMemory) (argv : Word) (strings : List (List Byte)) :
    Decidable (Passes memory argv strings) :=
  decidable_of_iff
    ((∀ k < strings.length, loadWord memory (argv + BitVec.ofNat 64 (8 * k)) ≠ 0) ∧
      ∀ k : Fin strings.length,
        StringAt memory (loadWord memory (argv + BitVec.ofNat 64 (8 * k))) strings[k])
    ⟨fun ⟨nonnull, each⟩ => ⟨nonnull, fun k inside => each ⟨k, inside⟩⟩,
      fun passes => ⟨passes.nonnull, fun k => passes.each k k.isLt⟩⟩

/-- The buffers of a kernel at 1 MB. -/
def smallArea : ArgvArea where
  scratch := 0x104000
  ptrs := 0x105000
  scratchFits := by decide
  ptrsFits := by decide
  disjoint := by decide

/-- A process that was spawned with the arguments `a` and `bb`, and has an array with the
second and the first of them. -/
def swappedRam : Ram where
  bytes := overwrite (fun _ => 0) (packArgs smallArea [[97], [98, 98]] ++
    bytesAt 0x400000 (wordBytes 0x104002 ++ wordBytes 0x104000))
  writes := []

theorem swappedRam_passes : Passes swappedRam.bytes 0x400000 [[98, 98], [97]] := by
  decide +kernel

/-- The second argument is read where the first one has been packed. -/
theorem argv_not_copied :
    ¬ ∀ (area : ArgvArea) (callerArgv : Word) (ram : Ram) (strings : List (List Byte)),
      callerArgv ≠ 0 → strings.length < MAX_ARGV → Passes ram.bytes callerArgv strings →
        packedSize strings < ARGV_SCRATCH_SIZE → ChildFinds area callerArgv ram strings := by
  intro copies
  have finds := copies smallArea 0x400000 swappedRam [[98, 98], [97]] (by decide) (by decide)
    swappedRam_passes (by decide)
  have second := finds.each 1 (by decide)
  have other : ¬ StringAt (installArgv smallArea 0x400000 2 swappedRam).2.bytes
      (loadWord (installArgv smallArea 0x400000 2 swappedRam).2.bytes 0x105008) [97] := by
    decide +kernel
  exact other second

/-- Passed on in their own order the arguments arrive. -/
theorem argv_copied_iff_of_swappedRam :
    (ChildFinds smallArea smallArea.ptrs swappedRam [[97], [98, 98]] ↔
      Serves smallArea swappedRam.bytes smallArea.ptrs [[97], [98, 98]]) ∧
    ∀ argv argc, ∀ addr ∈ (installArgv smallArea argv argc swappedRam).2.writes,
      addr ∈ swappedRam.writes ∨ smallArea.Behind 0 0 addr :=
  argv_copied_iff smallArea smallArea.ptrs swappedRam [[97], [98, 98]] (by decide) (by decide)
    (by decide +kernel) (by decide)

end Notux.Proc
