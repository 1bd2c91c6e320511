import Notux.Vmm.Frames
import Mathlib.Data.Finset.Card
import Mathlib.Data.Finset.Range

/-!
# Walking the page tables

Every table in use has a place: the indices that lead to it from a root.  The
same table may stand behind several roots, but always at one place, so an entry
that is written shows only at the addresses of its own place.  Tables are added
behind entries that lead nowhere or behind a huge page that they repeat, which
no translation notices.
-/

namespace Notux.Vmm

open Notux.Store

/-! ## Entries -/

theorem getLsbD_pageMask {k : Nat} (bound : k < 64) : PAGE_MASK.getLsbD k = decide (12 ≤ k) := by
  have all : ∀ k < 64, PAGE_MASK.getLsbD k = decide (12 ≤ k) := by decide
  exact all k bound

theorem getLsbD_frameAddr (i : Nat) {k : Nat} (bound : k < 64) :
    (frameAddr i).getLsbD k = (decide (12 ≤ k) && i.testBit (k - 12)) := by
  rw [frameAddr, BitVec.getLsbD_ofNat, show PAGE_SIZE = 2 ^ 12 from rfl, Nat.testBit_mul_two_pow]
  simp only [bound, decide_true, Bool.true_and]

/-- A page-aligned address. -/
def Aligned (addr : Addr) : Prop := addr &&& PAGE_MASK = addr

theorem aligned_frameAddr (i : Nat) : Aligned (frameAddr i) := by
  apply BitVec.eq_of_getLsbD_eq
  intro k bound
  rw [BitVec.getLsbD_and, getLsbD_frameAddr i bound, getLsbD_pageMask bound]
  cases i.testBit (k - 12) <;> simp

/-- An aligned address has no bit of a flag. -/
theorem Aligned.and_low {addr flag : Addr} (aligned : Aligned addr) (low : PAGE_MASK &&& flag = 0) :
    addr &&& flag = 0 := by
  rw [← aligned, BitVec.and_assoc, low]
  exact BitVec.and_zero

theorem frameAddr_toNat {i : Nat} (bound : i < MAX_PAGES) : (frameAddr i).toNat = i * PAGE_SIZE := by
  rw [frameAddr, BitVec.toNat_ofNat]
  apply Nat.mod_eq_of_lt
  simp only [MAX_PAGES, PAGE_SIZE] at *
  omega

theorem frameAddr_inj {i j : Nat} (first : i < MAX_PAGES) (second : j < MAX_PAGES)
    (same : frameAddr i = frameAddr j) : i = j := by
  have equal := congrArg BitVec.toNat same
  rw [frameAddr_toNat first, frameAddr_toNat second] at equal
  exact Nat.eq_of_mul_eq_mul_right (by decide) equal

theorem frameAddr_ne_zero {i : Nat} (bound : i < MAX_PAGES) (positive : i ≠ 0) :
    frameAddr i ≠ 0 := by
  intro zero
  apply positive
  apply frameAddr_inj bound (by decide)
  rw [zero]
  decide

theorem tableEntry_present (table : Addr) : tableEntry table &&& PAGE_PRESENT ≠ 0 := by
  intro absent
  have bit := congrArg (fun entry => entry.getLsbD 0) absent
  simp [tableEntry] at bit

theorem tableEntry_not_huge {table : Addr} (aligned : Aligned table) :
    tableEntry table &&& PAGE_HUGE = 0 := by
  have low : table &&& PAGE_HUGE = 0 := aligned.and_low (by decide)
  simp only [tableEntry, BitVec.and_or_distrib_right, low]
  decide

theorem tableEntry_mask {table : Addr} (aligned : Aligned table) :
    tableEntry table &&& PAGE_MASK = table := by
  have flags : (PAGE_PRESENT ||| (PAGE_WRITE ||| PAGE_USER)) &&& PAGE_MASK = 0 := by decide
  rw [tableEntry, BitVec.or_assoc, BitVec.or_assoc, BitVec.and_or_distrib_right, flags, aligned]
  exact BitVec.or_zero

theorem nextLevel_tableEntry {table : Addr} (aligned : Aligned table) :
    nextLevel (tableEntry table) = table := by
  rw [nextLevel, if_pos (tableEntry_present table),
    if_neg (not_not.mpr (tableEntry_not_huge aligned)), tableEntry_mask aligned]

theorem nextLevel_absent {entry : Addr} (absent : entry &&& PAGE_PRESENT = 0) :
    nextLevel entry = 0 := by
  rw [nextLevel, if_neg (not_not.mpr absent)]

theorem nextLevel_huge {entry : Addr} (huge : entry &&& PAGE_HUGE ≠ 0) : nextLevel entry = 0 := by
  by_cases present : entry &&& PAGE_PRESENT = 0
  · exact nextLevel_absent present
  · rw [nextLevel, if_pos present, if_pos huge]

theorem of_nextLevel_ne_zero {entry : Addr} (leads : nextLevel entry ≠ 0) :
    entry &&& PAGE_PRESENT ≠ 0 ∧ entry &&& PAGE_HUGE = 0 ∧
      nextLevel entry = entry &&& PAGE_MASK := by
  by_cases present : entry &&& PAGE_PRESENT = 0
  · exact absurd (nextLevel_absent present) leads
  · by_cases huge : entry &&& PAGE_HUGE = 0
    · refine ⟨present, huge, ?_⟩
      rw [nextLevel, if_pos present, if_neg (not_not.mpr huge)]
    · exact absurd (nextLevel_huge huge) leads

theorem leafEntry_present (phys flags : Addr) : leafEntry phys flags &&& PAGE_PRESENT ≠ 0 := by
  intro absent
  have bit := congrArg (fun entry => entry.getLsbD 0) absent
  simp [leafEntry] at bit

theorem smallPages_present {pde : Addr} (present : pde &&& PAGE_PRESENT ≠ 0) (i : Nat) :
    smallPages pde i &&& PAGE_PRESENT ≠ 0 := by
  intro absent
  apply present
  rw [smallPages, BitVec.and_or_distrib_right] at absent
  have flags : (PAGE_PRESENT ||| PAGE_WRITE ||| PAGE_USER) &&& PAGE_PRESENT = PAGE_PRESENT := by
    decide
  have second := (BitVec.or_eq_zero_iff.mp absent).2
  rwa [BitVec.and_assoc, flags] at second

/-- The offset of a small page in its huge page. -/
theorem smallPage_offset (virt : Addr) :
    BitVec.ofNat 64 (ptIdx virt * PAGE_SIZE) = virt &&& 0x1FF000 := by
  apply BitVec.eq_of_getLsbD_eq
  intro k bound
  have masked : ∀ k < 64, (0x1FF000 : Addr).getLsbD k =
      (decide (12 ≤ k) && (0x1FF : Addr).getLsbD (k - 12)) := by
    decide
  have page := getLsbD_frameAddr (ptIdx virt) bound
  rw [frameAddr] at page
  rw [page, BitVec.getLsbD_and, masked k bound, ptIdx, BitVec.testBit_toNat, BitVec.getLsbD_and,
    BitVec.getLsbD_ushiftRight]
  by_cases le : 12 ≤ k
  · rw [Nat.add_sub_cancel' le]
    simp only [le, decide_true, Bool.true_and]
  · simp only [le, decide_false, Bool.false_and, Bool.and_false]

/-- A small page translates as the huge page does. -/
theorem smallPages_translate (pde virt : Addr) :
    (smallPages pde (ptIdx virt) &&& PAGE_MASK) ||| (virt &&& 0xFFF) =
      (pde &&& HUGE_MASK) ||| (virt &&& 0x1FFFFF) := by
  have apart : (pde &&& HUGE_MASK) &&& (virt &&& 0x1FF000) = 0 := by
    have masks : HUGE_MASK &&& (0x1FF000 : Addr) = 0 := by decide
    calc (pde &&& HUGE_MASK) &&& (virt &&& 0x1FF000)
        = (pde &&& virt) &&& (HUGE_MASK &&& 0x1FF000) := by ac_rfl
      _ = 0 := by rw [masks]; exact BitVec.and_zero
  have flags : (PAGE_PRESENT ||| PAGE_WRITE ||| PAGE_USER) &&& PAGE_MASK = 0 := by decide
  have huge : HUGE_MASK &&& PAGE_MASK = HUGE_MASK := by decide
  have small : (0x1FF000 : Addr) &&& PAGE_MASK = 0x1FF000 := by decide
  have whole : (0x1FFFFF : Addr) = 0x1FF000 ||| 0xFFF := by decide
  rw [smallPages, smallPage_offset, BitVec.add_eq_or_of_and_eq_zero _ _ apart,
    BitVec.and_or_distrib_right, BitVec.and_assoc _ _ PAGE_MASK, flags,
    BitVec.and_or_distrib_right, BitVec.and_assoc _ _ PAGE_MASK,
    BitVec.and_assoc _ _ PAGE_MASK, huge, small, whole, BitVec.and_or_distrib_left]
  simp only [BitVec.ofNat_eq_ofNat, BitVec.and_zero, BitVec.or_zero]
  exact BitVec.or_assoc _ _ _

/-! ## Free frames -/

theorem clearBitFrom_eq_some {bitmap : Nat → Bool} {count i found : Nat}
    (search : clearBitFrom bitmap count i = some found) :
    found < i + count ∧ bitmap found = false := by
  induction count generalizing i with
  | zero => cases search
  | succ count ih =>
      unfold clearBitFrom at search
      by_cases taken : bitmap i = true
      · rw [if_pos taken] at search
        rcases ih search with ⟨below, clear⟩
        exact ⟨by omega, clear⟩
      · rw [if_neg taken] at search
        cases search
        exact ⟨by omega, Bool.eq_false_iff.mpr taken⟩

theorem clearBitFrom_eq_none {bitmap : Nat → Bool} {count i : Nat}
    (search : clearBitFrom bitmap count i = none) {j : Nat} (from_ : i ≤ j) (below : j < i + count) :
    bitmap j = true := by
  induction count generalizing i with
  | zero => omega
  | succ count ih =>
      unfold clearBitFrom at search
      by_cases taken : bitmap i = true
      · rw [if_pos taken] at search
        rcases Nat.eq_or_lt_of_le from_ with same | later
        · rw [← same]
          exact taken
        · exact ih search later (by omega)
      · rw [if_neg taken] at search
        cases search

/-- How many frames are free. -/
def freeFrames (bitmap : Nat → Bool) : Nat :=
  ((Finset.range MAX_PAGES).filter fun i => bitmap i = false).card

theorem nextFrame_eq_none_iff {bitmap : Nat → Bool} :
    nextFrame bitmap = none ↔ freeFrames bitmap = 0 := by
  rw [freeFrames, Finset.card_eq_zero, Finset.filter_eq_empty_iff]
  constructor
  · intro search i member free
    have taken := clearBitFrom_eq_none search (Nat.zero_le i)
      (by simpa using Finset.mem_range.mp member)
    rw [taken] at free
    cases free
  · intro full
    cases search : nextFrame bitmap with
    | none => rfl
    | some i =>
        rcases clearBitFrom_eq_some search with ⟨below, clear⟩
        exact absurd clear (full (Finset.mem_range.mpr (by omega)))

theorem freeFrames_take {bitmap : Nat → Bool} {i : Nat} (bound : i < MAX_PAGES)
    (clear : bitmap i = false) :
    freeFrames (assign bitmap i true) + 1 = freeFrames bitmap := by
  have taken : ((Finset.range MAX_PAGES).filter fun j => assign bitmap i true j = false) =
      ((Finset.range MAX_PAGES).filter fun j => bitmap j = false).erase i := by
    ext j
    by_cases same : j = i
    · subst same
      simp
    · simp [same]
  rw [freeFrames, taken, freeFrames]
  apply Finset.card_erase_add_one
  simp [bound, clear]

/-! ## The walk -/

/-- The table that a path of indices leads to, null if it leads nowhere. -/
def follow (tables : Addr → Nat → Addr) : Addr → List Nat → Addr
  | table, [] => table
  | table, i :: rest =>
      if nextLevel (tables table i) = 0 then 0 else follow tables (nextLevel (tables table i)) rest

theorem follow_append {tables : Addr → Nat → Addr} {table : Addr} {first : List Nat}
    (leads : follow tables table first ≠ 0) (second : List Nat) :
    follow tables table (first ++ second) = follow tables (follow tables table first) second := by
  induction first generalizing table with
  | nil => rfl
  | cons i rest ih =>
      unfold follow at leads
      split at leads
      · exact absurd rfl leads
      · rename_i further
        rw [List.cons_append, follow, if_neg further, ih leads]
        congr 1
        rw [follow, if_neg further]

theorem follow_append_of_zero {tables : Addr → Nat → Addr} {table : Addr} {first : List Nat}
    (stops : follow tables table first = 0) (nonzero : table ≠ 0) (second : List Nat) :
    follow tables table (first ++ second) = 0 := by
  induction first generalizing table with
  | nil => exact absurd stops nonzero
  | cons i rest ih =>
      rw [List.cons_append, follow]
      rw [follow] at stops
      split
      · rfl
      · rename_i further
        rw [if_neg further] at stops
        exact ih stops further

/-- A walk from the root comes to the table. -/
def TableOf (tables : Addr → Nat → Addr) (root table : Addr) : Prop :=
  ∃ path : List Nat, path.length ≤ 3 ∧ (∀ i ∈ path, i < 512) ∧
    follow tables root path ≠ 0 ∧ follow tables root path = table

/-- The indices of the directory of an address. -/
def directoryPath (virt : Addr) : List Nat := [pml4Idx virt, pdpIdx virt]

/-- The indices of the page table of an address. -/
def tablePath (virt : Addr) : List Nat := [pml4Idx virt, pdpIdx virt, pdIdx virt]

/-- Nine bits of an address. -/
theorem idx_lt (addr : Addr) : (addr &&& 0x1FF).toNat < 512 := by
  rw [BitVec.toNat_and]
  exact lt_of_le_of_lt Nat.and_le_right (by decide)

/-- What a page directory makes of an address. -/
def translateIn (tables : Addr → Nat → Addr) (pd virt : Addr) : Addr :=
  let pde := tables pd (pdIdx virt)
  if pde &&& PAGE_PRESENT = 0 then 0
  else if pde &&& PAGE_HUGE ≠ 0 then (pde &&& HUGE_MASK) ||| (virt &&& 0x1FFFFF)
  else
    let pt := pde &&& PAGE_MASK
    if pt = 0 then 0
    else
      let pte := tables pt (ptIdx virt)
      if pte &&& PAGE_PRESENT = 0 then 0 else (pte &&& PAGE_MASK) ||| (virt &&& 0xFFF)

theorem vmmVirtToPhys_eq (memory : Memory) {root : Addr} (nonzero : root ≠ 0) (virt : Addr) :
    vmmVirtToPhys memory root virt =
      if follow memory.tables root (directoryPath virt) = 0 then 0
      else translateIn memory.tables (follow memory.tables root (directoryPath virt)) virt := by
  unfold vmmVirtToPhys
  rw [if_neg nonzero, directoryPath, follow]
  by_cases first : nextLevel (memory.tables root (pml4Idx virt)) = 0
  · rw [if_pos first, if_pos first, if_pos rfl]
  · rw [if_neg first, if_neg first, follow]
    by_cases second : nextLevel
        (memory.tables (nextLevel (memory.tables root (pml4Idx virt))) (pdpIdx virt)) = 0
    · rw [if_pos second, if_pos second, if_pos rfl]
    · rw [if_neg second, if_neg second, follow, if_neg second]
      rfl

/-! ## Places -/

/-- The tables in use have a place, the indices that lead to them.  They are
taken from the allocator, and what stands behind an entry of a table is a table
at the place below. -/
structure Placed (memory : Memory) (place : Addr → Option (List Nat)) : Prop where
  used : ∀ {table path}, place table = some path →
    ∃ i < MAX_PAGES, i ≠ 0 ∧ memory.bitmap i = true ∧ table = frameAddr i
  child : ∀ {table path}, place table = some path → path.length < 3 → ∀ i,
    memory.tables table i &&& PAGE_PRESENT ≠ 0 → memory.tables table i &&& PAGE_HUGE = 0 →
      place (memory.tables table i &&& PAGE_MASK) = some (path ++ [i])
  small : ∀ {table path}, place table = some path → path.length < 2 → ∀ i,
    memory.tables table i &&& PAGE_PRESENT ≠ 0 → memory.tables table i &&& PAGE_HUGE = 0
  kernel : place memory.kernelPml4 = some []
  reserved : memory.bitmap 0 = true

namespace Placed

variable {memory : Memory} {place : Addr → Option (List Nat)} (placed : Placed memory place)

include placed

theorem ne_zero {table : Addr} {path : List Nat} (isAt : place table = some path) : table ≠ 0 := by
  rcases placed.used isAt with ⟨i, bound, positive, -, rfl⟩
  exact frameAddr_ne_zero bound positive

/-- What an entry leads to is a table, and has its place. -/
theorem nextLevel_eq {table : Addr} {path : List Nat} (isAt : place table = some path)
    (short : path.length < 3) {i : Nat} (leads : nextLevel (memory.tables table i) ≠ 0) :
    place (nextLevel (memory.tables table i)) = some (path ++ [i]) := by
  rcases of_nextLevel_ne_zero leads with ⟨present, small, same⟩
  rw [same]
  exact placed.child isAt short i present small

/-- An entry that leads nowhere is absent or a huge page. -/
theorem nextLevel_eq_zero {table : Addr} {path : List Nat} (isAt : place table = some path)
    (short : path.length < 3) {i : Nat} (stops : nextLevel (memory.tables table i) = 0)
    (present : memory.tables table i &&& PAGE_PRESENT ≠ 0) :
    memory.tables table i &&& PAGE_HUGE ≠ 0 := by
  intro small
  have next := placed.ne_zero (placed.child isAt short i present small)
  rw [nextLevel, if_pos present, if_neg (not_not.mpr small)] at stops
  exact next stops

theorem nextLevel_of_upper {table : Addr} {path : List Nat} (isAt : place table = some path)
    (short : path.length < 2) {i : Nat} (present : memory.tables table i &&& PAGE_PRESENT ≠ 0) :
    nextLevel (memory.tables table i) ≠ 0 := by
  intro stops
  exact placed.nextLevel_eq_zero isAt (by omega) stops present (placed.small isAt short i present)

/-- A walk arrives at the place it spells. -/
theorem follow_place {table : Addr} {path : List Nat} (isAt : place table = some path)
    {rest : List Nat} (short : path.length + rest.length ≤ 3)
    (leads : follow memory.tables table rest ≠ 0) :
    place (follow memory.tables table rest) = some (path ++ rest) := by
  induction rest generalizing table path with
  | nil => simpa [follow] using isAt
  | cons i rest ih =>
      rw [follow] at leads ⊢
      split at leads
      · exact absurd rfl leads
      · rename_i further
        rw [if_neg further]
        simp only [List.length_cons] at short
        have next := placed.nextLevel_eq isAt (by omega) further
        have := ih next (by rw [List.length_append, List.length_singleton]; omega) leads
        rwa [List.append_assoc] at this

end Placed

end Notux.Vmm
