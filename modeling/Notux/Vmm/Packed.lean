import Notux.Store.Bits
import Notux.Vmm.Mapping

/-!
# The packed bitmap of the frame allocator

`pmm.c` as it is written: eight frames to a byte, loops over ranges of frames, and masks.
Its operations are those on the bitmap as a set of frames, and no order of them hands out
a frame that is reserved or still in use.
-/

namespace Notux.Vmm.Packed

open Notux.Store

/-- `sizeof(bitmap)`. -/
abbrev BITMAP_SIZE : Nat := MAX_PAGES / 8

/-- `bitmap_set`. -/
def bitmapSet (bitmap : Bits) (pageIndex : Nat) : Bits :=
  if pageIndex ≥ MAX_PAGES then bitmap else bitmap.set pageIndex

/-- `bitmap_clear`. -/
def bitmapClear (bitmap : Bits) (pageIndex : Nat) : Bits :=
  if pageIndex ≥ MAX_PAGES then bitmap else bitmap.clear pageIndex

/-- `bitmap_test`. -/
def bitmapTest (bitmap : Bits) (pageIndex : Nat) : Nat :=
  if pageIndex ≥ MAX_PAGES then 1 else (bitmap (pageIndex / 8) &&& Bits.mask pageIndex).toNat

/-- `pmm_init`. -/
def pmmInit (reservedPages : Nat) (bitmap : Bits) : Bits :=
  let zeroed := (List.range BITMAP_SIZE).foldl (fun bitmap i => Function.update bitmap i 0) bitmap
  (List.range (min reservedPages MAX_PAGES)).foldl bitmapSet zeroed

/-- `pmm_reserve_region`. -/
def pmmReserveRegion (physStart physEnd : Nat) (bitmap : Bits) : Bits :=
  if physEnd ≤ physStart then bitmap
  else
    let startPage := physStart / PAGE_SIZE
    let endPage := (physEnd + PAGE_SIZE - 1) % 2 ^ 64 / PAGE_SIZE
    if startPage ≥ MAX_PAGES then bitmap
    else
      (List.range' startPage (min endPage MAX_PAGES - startPage)).foldl
        (fun bitmap i => bitmapSet bitmap (i % 2 ^ 32)) bitmap

/-- The loop of `pmm_alloc_page` over `count` frames from frame `i` on. -/
def allocFrom (bitmap : Bits) : Nat → Nat → Nat × Bits
  | 0, _ => (0, bitmap)
  | count + 1, i =>
      if bitmapTest bitmap i = 0 then (i * PAGE_SIZE, bitmapSet bitmap i)
      else allocFrom bitmap count (i + 1)

/-- `pmm_alloc_page`: the address and the bitmap after the call. -/
def pmmAllocPage (bitmap : Bits) : Nat × Bits := allocFrom bitmap MAX_PAGES 0

/-- `pmm_free_page`. -/
def pmmFreePage (addr : Nat) (bitmap : Bits) : Bits :=
  if addr = 0 then bitmap
  else if addr % PAGE_SIZE ≠ 0 then bitmap
  else if addr / PAGE_SIZE ≥ MAX_PAGES then bitmap
  else bitmapClear bitmap (addr / PAGE_SIZE)

/-! ## The bitmap as a set of frames -/

theorem bit_bitmapSet {bitmap : Bits} {i j : Nat} (inside : j < MAX_PAGES) :
    (bitmapSet bitmap i).bit j = (decide (j = i) || bitmap.bit j) := by
  unfold bitmapSet
  split
  · next outside =>
    have differ : j ≠ i := by omega
    simp [differ]
  · exact bitmap.bit_set i j

theorem bitmapTest_eq_zero_iff {bitmap : Bits} {i : Nat} (inside : i < MAX_PAGES) :
    bitmapTest bitmap i = 0 ↔ bitmap.bit i = false := by
  unfold bitmapTest
  rw [if_neg (Nat.not_le.mpr inside), ← bitmap.and_mask_eq_zero_iff i]
  exact ⟨fun zero => BitVec.eq_of_toNat_eq zero, congrArg BitVec.toNat⟩

/-- Marking frames one after another. -/
theorem bit_foldl_bitmapSet {ι : Type} (frame : ι → Nat) {items : List ι} {bitmap : Bits} {j : Nat}
    (inside : j < MAX_PAGES) :
    (items.foldl (fun bitmap i => bitmapSet bitmap (frame i)) bitmap).bit j =
      (decide (∃ i ∈ items, frame i = j) || bitmap.bit j) := by
  induction items generalizing bitmap with
  | nil => simp
  | cons item rest ih =>
      rw [List.foldl_cons, ih, bit_bitmapSet inside]
      by_cases same : frame item = j
      · simp [same]
      · have differ : j ≠ frame item := fun equal => same equal.symm
        simp [same, differ]

/-- The first loop of `pmm_init` clears every byte. -/
theorem foldl_zero {count : Nat} {bitmap : Bits} {i : Nat} (inside : i < count) :
    (List.range count).foldl (fun bitmap i => Function.update bitmap i 0) bitmap i = 0 := by
  induction count with
  | zero => exact absurd inside (Nat.not_lt_zero i)
  | succ count ih =>
      rw [List.range_succ, List.foldl_append, List.foldl_cons, List.foldl_nil]
      by_cases same : i = count
      · rw [same, Function.update_self]
      · rw [Function.update_of_ne same]
        exact ih (by omega)

theorem bit_pmmInit (reservedPages : Nat) (bitmap : Bits) {i : Nat} (inside : i < MAX_PAGES) :
    (pmmInit reservedPages bitmap).bit i = Vmm.pmmInit reservedPages i := by
  have cleared : ((List.range BITMAP_SIZE).foldl (fun bitmap i => Function.update bitmap i 0)
      bitmap : Bits).bit i = false := by
    unfold Bits.bit
    rw [foldl_zero (Nat.div_lt_div_of_lt_of_dvd (by decide) inside)]
    simp
  unfold pmmInit Vmm.pmmInit
  dsimp only
  refine (bit_foldl_bitmapSet id inside).trans ?_
  rw [cleared, Bool.or_false]
  simp

theorem bit_pmmReserveRegion {physStart physEnd : Nat} (fits : physEnd + 4095 < 2 ^ 64)
    (bitmap : Bits) {i : Nat} (inside : i < MAX_PAGES) :
    (pmmReserveRegion physStart physEnd bitmap).bit i =
      Vmm.pmmReserveRegion physStart physEnd bitmap.bit i := by
  unfold pmmReserveRegion Vmm.pmmReserveRegion
  dsimp only
  have noWrap : (physEnd + PAGE_SIZE - 1) % 2 ^ 64 = physEnd + PAGE_SIZE - 1 :=
    Nat.mod_eq_of_lt (by simp only [PAGE_SIZE]; omega)
  rw [noWrap]
  split
  · next empty => rw [if_neg (by omega)]
  · next nonempty =>
    split
    · next beyond => rw [if_neg (by omega)]
    · next starts =>
      rw [bit_foldl_bitmapSet (· % 2 ^ 32) inside]
      have range : (∃ k ∈ List.range' (physStart / PAGE_SIZE)
          (min ((physEnd + PAGE_SIZE - 1) / PAGE_SIZE) MAX_PAGES - physStart / PAGE_SIZE),
          k % 2 ^ 32 = i) ↔ physStart < physEnd ∧ physStart / PAGE_SIZE ≤ i ∧
            i < min ((physEnd + PAGE_SIZE - 1) / PAGE_SIZE) MAX_PAGES := by
        simp only [List.mem_range'_1, PAGE_SIZE, MAX_PAGES] at *
        constructor
        · rintro ⟨k, member, rfl⟩
          rw [Nat.mod_eq_of_lt (by omega)]
          omega
        · rintro ⟨-, lower, upper⟩
          exact ⟨i, by omega, Nat.mod_eq_of_lt (by omega)⟩
      rw [decide_eq_decide.mpr range]
      split
      · next marked => rw [decide_eq_true marked, Bool.true_or]
      · next unmarked => rw [decide_eq_false unmarked, Bool.false_or]

theorem allocFrom_eq {bitmap : Bits} {count i : Nat} (fits : i + count ≤ MAX_PAGES) :
    allocFrom bitmap count i =
      match clearBitFrom bitmap.bit count i with
      | none => (0, bitmap)
      | some frame => (frame * PAGE_SIZE, bitmapSet bitmap frame) := by
  induction count generalizing i with
  | zero => rfl
  | succ count ih =>
      unfold allocFrom clearBitFrom
      by_cases taken : bitmap.bit i = true
      · rw [if_neg (by rw [bitmapTest_eq_zero_iff (by omega), taken]; decide), if_pos taken]
        exact ih (by omega)
      · rw [if_pos ((bitmapTest_eq_zero_iff (by omega)).mpr (Bool.eq_false_iff.mpr taken)),
          if_neg taken]

/-- `pmm_alloc_page` hands out the first frame that is not marked, and marks it. -/
theorem pmmAllocPage_eq (bitmap : Bits) :
    pmmAllocPage bitmap =
      match nextFrame bitmap.bit with
      | none => (0, bitmap)
      | some frame => (frame * PAGE_SIZE, bitmapSet bitmap frame) :=
  allocFrom_eq (by omega)

theorem bit_pmmFreePage {bitmap : Bits} {frame i : Nat} (nonzero : frame ≠ 0)
    (inside : frame < MAX_PAGES) :
    (pmmFreePage (frame * PAGE_SIZE) bitmap).bit i = (decide (i ≠ frame) && bitmap.bit i) := by
  have index : frame * PAGE_SIZE / PAGE_SIZE = frame := Nat.mul_div_cancel _ (by decide)
  unfold pmmFreePage bitmapClear
  rw [if_neg (Nat.mul_ne_zero nonzero (by decide)), if_neg (by simp), index,
    if_neg (Nat.not_le.mpr inside), if_neg (Nat.not_le.mpr inside)]
  exact bitmap.bit_clear frame i

/-! ## Runs of the allocator -/

/-- The bitmap, what has been reserved, and the addresses that were handed out and not given
back. -/
structure Pool where
  bitmap : Bits
  reservedPages : Nat
  regions : List (Nat × Nat)
  live : List Nat

inductive Op where
  | reserveRegion (physStart physEnd : Nat)
  | allocPage
  | freePage (addr : Nat)

/-- The pool after `pmm_init`, whatever the bitmap held before. -/
def Pool.init (reservedPages : Nat) (bitmap : Bits) : Pool :=
  ⟨pmmInit reservedPages bitmap, reservedPages, [], []⟩

/-- One call. -/
def Pool.perform (pool : Pool) : Op → Pool
  | .reserveRegion physStart physEnd =>
      { pool with
        bitmap := pmmReserveRegion physStart physEnd pool.bitmap
        regions := (physStart, physEnd) :: pool.regions }
  | .allocPage =>
      let (addr, bitmap) := pmmAllocPage pool.bitmap
      { pool with bitmap, live := if addr = 0 then pool.live else addr :: pool.live }
  | .freePage addr =>
      { pool with bitmap := pmmFreePage addr pool.bitmap, live := pool.live.erase addr }

theorem regions_allocPage (pool : Pool) : (pool.perform .allocPage).regions = pool.regions := rfl

/-- The pools that runs lead to in which every call meets a condition. -/
inductive Reached (meets : Pool → Op → Prop) (reservedPages : Nat) : Pool → Prop where
  | init (bitmap : Bits) : Reached meets reservedPages (.init reservedPages bitmap)
  | step {pool : Pool} (reached : Reached meets reservedPages pool) (op : Op)
      (condition : meets pool op) : Reached meets reservedPages (pool.perform op)

/-- A byte of the region lies in the frame. -/
def Touches (region : Nat × Nat) (frame : Nat) : Prop :=
  ∃ addr, region.1 ≤ addr ∧ addr < region.2 ∧ addr / PAGE_SIZE = frame

/-- A frame that is never to be handed out. -/
def Pool.Reserved (pool : Pool) (frame : Nat) : Prop :=
  frame < pool.reservedPages ∨ ∃ region ∈ pool.regions, Touches region frame

/-- The next frame is one that nobody has, and there is none only if every frame is taken. -/
structure Pool.Exclusive (pool : Pool) : Prop where
  fresh : ∀ addr, (pmmAllocPage pool.bitmap).1 = addr → addr ≠ 0 →
    PAGE_SIZE ∣ addr ∧ addr < 128 * 1024 * 1024 ∧ ¬ pool.Reserved (addr / PAGE_SIZE) ∧
      addr ∉ pool.live
  exhausted : (pmmAllocPage pool.bitmap).1 = 0 ↔
    ∀ frame < MAX_PAGES, pool.Reserved frame ∨ frame * PAGE_SIZE ∈ pool.live

/-- Callers reserve regions that do not end at the top of the address space, and give back
only what they have. -/
def Owned (pool : Pool) : Op → Prop
  | .reserveRegion _ physEnd => physEnd + 4095 < 2 ^ 64
  | .allocPage => True
  | .freePage addr => addr ∈ pool.live

/-- Nor do they give back a frame that has been reserved since they got it. -/
def OwnedAlone (pool : Pool) (op : Op) : Prop :=
  Owned pool op ∧ ∀ addr, op = .freePage addr →
    ∀ region ∈ pool.regions, ¬ Touches region (addr / PAGE_SIZE)

/-- The bitmap marks what is reserved or handed out. -/
structure Accounts (reservedPages : Nat) (pool : Pool) : Prop where
  same : pool.reservedPages = reservedPages
  marks : ∀ frame < MAX_PAGES, pool.bitmap.bit frame = true ↔
    pool.Reserved frame ∨ frame * PAGE_SIZE ∈ pool.live
  frames : ∀ addr ∈ pool.live, ∃ frame < MAX_PAGES, reservedPages ≤ frame ∧
    addr = frame * PAGE_SIZE
  distinct : pool.live.Nodup

theorem touches_iff {physStart physEnd frame : Nat} :
    Touches (physStart, physEnd) frame ↔ physStart < physEnd ∧
      physStart / PAGE_SIZE ≤ frame ∧ frame < (physEnd + PAGE_SIZE - 1) / PAGE_SIZE := by
  simp only [Touches, PAGE_SIZE]
  constructor
  · rintro ⟨addr, lower, upper, rfl⟩
    omega
  · rintro ⟨nonempty, lower, upper⟩
    by_cases first : physStart / 4096 = frame
    · exact ⟨physStart, Nat.le_refl _, nonempty, first⟩
    · exact ⟨frame * 4096, by omega, by omega, by omega⟩

theorem bit_reserve_iff {physStart physEnd : Nat} (fits : physEnd + 4095 < 2 ^ 64)
    (bitmap : Bits) {frame : Nat} (inside : frame < MAX_PAGES) :
    (pmmReserveRegion physStart physEnd bitmap).bit frame = true ↔
      Touches (physStart, physEnd) frame ∨ bitmap.bit frame = true := by
  rw [bit_pmmReserveRegion fits bitmap inside, touches_iff]
  unfold Vmm.pmmReserveRegion
  split
  · next marked =>
    exact iff_of_true rfl (Or.inl ⟨marked.1, marked.2.1, (lt_min_iff.mp marked.2.2).1⟩)
  · next unmarked =>
    refine ⟨Or.inr, fun either => either.resolve_left ?_⟩
    rintro ⟨nonempty, lower, upper⟩
    exact unmarked ⟨nonempty, lower, lt_min upper inside⟩

namespace Accounts

variable {reservedPages : Nat} {pool : Pool}

theorem init (bitmap : Bits) : Accounts reservedPages (.init reservedPages bitmap) where
  same := rfl
  marks frame inside := by
    rw [show (Pool.init reservedPages bitmap).bitmap = pmmInit reservedPages bitmap from rfl,
      bit_pmmInit reservedPages bitmap inside]
    simp only [Vmm.pmmInit, Pool.Reserved, Pool.init, decide_eq_true_eq, lt_min_iff, inside,
      and_true, List.not_mem_nil, false_and, exists_false, or_false]
  frames := nofun
  distinct := List.nodup_nil

variable (accounts : Accounts reservedPages pool)

include accounts

/-- Reserving a region. -/
theorem reserveRegion {physStart physEnd : Nat} (fits : physEnd + 4095 < 2 ^ 64) :
    Accounts reservedPages (pool.perform (.reserveRegion physStart physEnd)) where
  same := accounts.same
  marks frame inside := by
    refine (bit_reserve_iff fits pool.bitmap inside).trans ?_
    rw [accounts.marks frame inside]
    simp only [Pool.Reserved, Pool.perform, List.mem_cons, exists_eq_or_imp, or_assoc]
    exact or_left_comm
  frames := accounts.frames
  distinct := accounts.distinct

/-- A frame that is handed out is not marked. -/
theorem next_free {frame : Nat} (search : nextFrame pool.bitmap.bit = some frame) :
    frame < MAX_PAGES ∧ ¬ pool.Reserved frame ∧ frame * PAGE_SIZE ∉ pool.live := by
  obtain ⟨inside, clear⟩ := nextFrame_bound search
  have unmarked := mt (accounts.marks frame inside).mpr (Bool.eq_false_iff.mp clear)
  exact ⟨inside, not_or.mp unmarked⟩

theorem next_pos (positive : 0 < reservedPages) {frame : Nat}
    (search : nextFrame pool.bitmap.bit = some frame) : frame * PAGE_SIZE ≠ 0 := by
  have free := (accounts.next_free search).2.1
  intro zero
  apply free
  left
  rw [accounts.same]
  simp only [PAGE_SIZE] at zero
  omega

/-- Handing out a frame. -/
theorem allocPage (positive : 0 < reservedPages) :
    Accounts reservedPages (pool.perform .allocPage) := by
  unfold Pool.perform
  rw [pmmAllocPage_eq]
  cases search : nextFrame pool.bitmap.bit with
  | none =>
      dsimp only
      rw [if_pos rfl]
      exact accounts
  | some next =>
      obtain ⟨inside, unreserved, fresh⟩ := accounts.next_free search
      dsimp only
      rw [if_neg (accounts.next_pos positive search)]
      constructor
      · exact accounts.same
      · intro frame bound
        rw [bit_bitmapSet bound, Bool.or_eq_true, decide_eq_true_eq, accounts.marks frame bound,
          List.mem_cons, Nat.mul_left_inj (by decide)]
        exact or_left_comm
      · intro addr member
        rcases List.mem_cons.mp member with rfl | old
        · refine ⟨next, inside, ?_, rfl⟩
          rw [← accounts.same]
          exact Nat.not_lt.mp fun below => unreserved (Or.inl below)
        · exact accounts.frames addr old
      · exact List.nodup_cons.mpr ⟨fresh, accounts.distinct⟩

/-- Taking back a frame that is not reserved. -/
theorem freePage (positive : 0 < reservedPages) {addr : Nat} (isLive : addr ∈ pool.live)
    (alone : ∀ region ∈ pool.regions, ¬ Touches region (addr / PAGE_SIZE)) :
    Accounts reservedPages (pool.perform (.freePage addr)) := by
  obtain ⟨freed, inside, above, rfl⟩ := accounts.frames addr isLive
  rw [Nat.mul_div_cancel _ (by decide)] at alone
  constructor
  · exact accounts.same
  · intro frame bound
    change (pmmFreePage (freed * PAGE_SIZE) pool.bitmap).bit frame = true ↔
      pool.Reserved frame ∨ frame * PAGE_SIZE ∈ pool.live.erase (freed * PAGE_SIZE)
    rw [bit_pmmFreePage (by omega) inside, Bool.and_eq_true, decide_eq_true_eq,
      accounts.marks frame bound, accounts.distinct.mem_erase_iff, ne_eq, ne_eq,
      Nat.mul_left_inj (by decide)]
    constructor
    · rintro ⟨differ, reserved | live⟩
      · exact Or.inl reserved
      · exact Or.inr ⟨differ, live⟩
    · rintro (reserved | ⟨differ, live⟩)
      · refine ⟨?_, Or.inl reserved⟩
        rintro rfl
        rcases reserved with first | ⟨region, member, touches⟩
        · rw [accounts.same] at first
          omega
        · exact alone region member touches
      · exact ⟨differ, Or.inr live⟩
  · exact fun other member => accounts.frames other (List.mem_of_mem_erase member)
  · exact accounts.distinct.erase _

/-- The next frame is nobody's. -/
theorem exclusive (positive : 0 < reservedPages) : pool.Exclusive := by
  constructor
  · intro addr result nonzero
    rw [pmmAllocPage_eq] at result
    cases search : nextFrame pool.bitmap.bit with
    | none =>
        rw [search] at result
        exact absurd result.symm nonzero
    | some next =>
        rw [search] at result
        obtain ⟨inside, unreserved, fresh⟩ := accounts.next_free search
        subst result
        rw [Nat.mul_div_cancel _ (by decide)]
        refine ⟨Nat.dvd_mul_left _ _, ?_, unreserved, fresh⟩
        simp only [MAX_PAGES, PAGE_SIZE] at *
        omega
  · rw [pmmAllocPage_eq]
    cases search : nextFrame pool.bitmap.bit with
    | none =>
        refine iff_of_true rfl fun frame inside => ?_
        exact (accounts.marks frame inside).mp
          (clearBitFrom_eq_none search (Nat.zero_le _) (by omega))
    | some next =>
        obtain ⟨inside, unreserved, fresh⟩ := accounts.next_free search
        refine iff_of_false (accounts.next_pos positive search) fun all => ?_
        exact (all next inside).elim unreserved fresh

end Accounts

/-- No order of calls hands out a frame that is reserved or still in use. -/
theorem alloc_exclusive {reservedPages : Nat} (positive : 0 < reservedPages) {pool : Pool}
    (reached : Reached OwnedAlone reservedPages pool) : pool.Exclusive := by
  suffices accounts : Accounts reservedPages pool from accounts.exclusive positive
  induction reached with
  | init bitmap => exact .init bitmap
  | step reached op condition ih =>
      cases op with
      | reserveRegion physStart physEnd => exact ih.reserveRegion condition.1
      | allocPage => exact ih.allocPage positive
      | freePage addr => exact ih.freePage positive condition.1 (condition.2 addr rfl)

/-- A region, two frames, and one of them back. -/
theorem alloc_exclusive_after_free :
    ((((Pool.init 1 fun _ => 0).perform (.reserveRegion 0x5000 0x5004)).perform
      .allocPage).perform (.freePage 0x1000)).Exclusive := by
  have live : (((Pool.init 1 fun _ => 0).perform (.reserveRegion 0x5000 0x5004)).perform
      .allocPage).live = [0x1000] := by
    decide +kernel
  refine alloc_exclusive (by decide) (.step (.step (.step (.init _) _ ?_) _ ?_) _ ?_)
  · exact ⟨by change 0x5004 + 4095 < 2 ^ 64; decide, nofun⟩
  · exact ⟨trivial, nofun⟩
  · refine ⟨?_, ?_⟩
    · change 0x1000 ∈ Pool.live _
      rw [live]
      exact List.mem_singleton_self _
    · rintro addr same region member touches
      cases same
      rw [regions_allocPage] at member
      change region ∈ [(0x5000, 0x5004)] at member
      rcases List.mem_singleton.mp member with rfl
      obtain ⟨byte, lower, -, place⟩ := touches
      simp only [PAGE_SIZE] at *
      omega

/-- A frame that is reserved while it is in use is handed out again after it has been given
back. -/
theorem alloc_not_exclusive :
    ¬ ∀ (reservedPages : Nat) (pool : Pool), 0 < reservedPages →
      Reached Owned reservedPages pool → pool.Exclusive := by
  intro always
  have live : (((Pool.init 1 fun _ => 0).perform .allocPage).perform
      (.reserveRegion 0x1000 0x2000)).live = [0x1000] := by
    decide +kernel
  have exclusive := always 1
    ((((Pool.init 1 fun _ => 0).perform .allocPage).perform
      (.reserveRegion 0x1000 0x2000)).perform (.freePage 0x1000)) (by decide)
    (.step (.step (.step (.init _) .allocPage trivial) (.reserveRegion 0x1000 0x2000)
      (by change 0x2000 + 4095 < 2 ^ 64; decide)) (.freePage 0x1000)
      (by change 0x1000 ∈ Pool.live _; rw [live]; exact List.mem_singleton_self _))
  obtain ⟨-, -, unreserved, -⟩ := exclusive.fresh 0x1000 (by decide +kernel) (by decide)
  have member : ∀ pool : Pool, (0x1000, 0x2000) ∈
      ((pool.perform (.reserveRegion 0x1000 0x2000)).perform (.freePage 0x1000)).regions :=
    fun _ => List.mem_cons_self
  apply unreserved
  right
  exact ⟨(0x1000, 0x2000), member _, 0x1000, Nat.le_refl _, by decide, rfl⟩

end Notux.Vmm.Packed
