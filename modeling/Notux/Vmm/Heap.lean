import Notux.Vmm.Brk
import Notux.Vmm.Copy

/-!
# What the heap maps

The pages of a heap that translate are the ones below its end, each with a frame of its
own, as long as every growth finds the frames it needs, or none at all for its first
page.  A growth that runs out later leaves pages beyond the end, or an end without its
last page: `vmm_map_page` does not report that there was no memory for a table.
-/

namespace Notux.Vmm

open Notux.Store Notux.Proc

/-! ## Pages of the heap -/

/-- The number of the page an address lies in. -/
def pageNo (virt : Addr) : Nat := virt.toNat / 4096

/-- An address that no heap lies above. -/
def Above (virt : Addr) : Prop := Canonical virt ∧ HEAP_START ≤ virt

/-- A page of an address is mapped to a frame, for the program to read and write. -/
def MapsTo (vm : Vm) (root virt : Addr) (i : Nat) : Prop :=
  translation vm.tables root virt =
    some ⟨frameAddr i ||| (virt &&& 0xFFF), PAGE_PRESENT ||| PAGE_WRITE ||| PAGE_USER⟩

/-- The page of an address has a frame that was free before, and is no table. -/
structure Backs (before : Nat → Bool) (vm : Vm) (root virt : Addr) (i : Nat) : Prop where
  bound : i < MAX_PAGES
  wasFree : before i = false
  taken : vm.bitmap i = true
  noTable : ∀ {index level}, ¬ LeadsTo vm.tables root index level (frameAddr i)
  maps : MapsTo vm root virt i

/-- Of the pages from the start of the heap on, some are mapped, each to a frame of its
own. -/
structure HeapMapped (before : Nat → Bool) (root : Addr) (inside : Nat → Prop) (vm : Vm) :
    Prop where
  tree : PageTables vm.toMemory root
  noGiant : ∀ virt, NoGiant vm.tables root virt
  reserved : vm.bitmap 0 = true
  grown : ∀ {i}, before i = true → vm.bitmap i = true
  outside : ∀ virt, Above virt → ¬ inside (pageNo virt) → translation vm.tables root virt = none
  backed : ∀ virt, Above virt → inside (pageNo virt) → ∃ i, Backs before vm root virt i
  table : ∀ virt, Above virt → inside (pageNo virt) →
    ∃ pt, LeadsTo vm.tables root (indexOf virt) 0 pt
  own : ∀ {virt other i}, i < MAX_PAGES → Above virt → Above other → MapsTo vm root virt i →
    MapsTo vm root other i → SamePage virt other

section

variable {virt other page : Addr} {i j : Nat} {vm : Vm} {root : Addr}

theorem samePage_iff_pageNo (above : Above virt) (low : page.toNat < 2 ^ 47) :
    SamePage page virt ↔ pageNo virt = pageNo page := by
  rw [samePage_iff]
  unfold pageNo
  rcases above.1 with small | high
  all_goals omega

theorem pageNo_next (low : page.toNat < 2 ^ 47) : pageNo (page + 0x1000) = pageNo page + 1 := by
  have step : (0x1000 : Addr).toNat = 4096 := rfl
  unfold pageNo
  rw [BitVec.toNat_add, step]
  omega

/-- A page is mapped to one frame. -/
theorem MapsTo.unique (first : MapsTo vm root virt i) (second : MapsTo vm root virt j)
    (bound : i < MAX_PAGES) (bound' : j < MAX_PAGES) : i = j := by
  unfold MapsTo at first second
  rw [first, Option.some.injEq, Page.mk.injEq] at second
  have frames := congrArg (· &&& PAGE_MASK) second.1
  have offset : (virt &&& 0xFFF) &&& PAGE_MASK = 0 := by
    have none : (0xFFF : Addr) &&& PAGE_MASK = 0 := by decide
    rw [BitVec.and_assoc, none]
    exact BitVec.and_zero
  have alone : ∀ k, (frameAddr k ||| (virt &&& 0xFFF)) &&& PAGE_MASK = frameAddr k := by
    intro k
    rw [BitVec.and_or_distrib_right, offset, aligned_frameAddr k]
    exact BitVec.or_zero
  rw [alone, alone] at frames
  exact frameAddr_inj bound bound' frames

end

namespace HeapMapped

variable {before : Nat → Bool} {root page : Addr} {inside : Nat → Prop} {vm after : Vm} {i : Nat}

theorem congr {inside' : Nat → Prop} (mapped : HeapMapped before root inside vm)
    (same : ∀ k, inside' k ↔ inside k) : HeapMapped before root inside' vm := by
  have equal : inside' = inside := funext fun k => propext (same k)
  rwa [equal]

/-- A frame that is free has been free before, and is mapped nowhere. -/
theorem fresh (mapped : HeapMapped before root inside vm) (free : vm.bitmap i = false) :
    before i = false := by
  by_contra taken
  rw [mapped.grown (Bool.eq_true_of_not_eq_false taken)] at free
  cases free

theorem not_maps (mapped : HeapMapped before root inside vm) (bound : i < MAX_PAGES)
    (free : vm.bitmap i = false) {virt : Addr} (above : Above virt) : ¬ MapsTo vm root virt i := by
  intro maps
  by_cases isInside : inside (pageNo virt)
  · obtain ⟨j, backs⟩ := mapped.backed virt above isInside
    rw [maps.unique backs.maps bound backs.bound, backs.taken] at free
    cases free
  · unfold MapsTo at maps
    rw [mapped.outside virt above isInside] at maps
    cases maps

/-- Tables may be added to the tree. -/
theorem expand (mapped : HeapMapped before root inside vm) (expands : Expands root vm after) :
    HeapMapped before root inside after where
  tree := expands.tree
  noGiant virt := expands.noGiant (mapped.noGiant virt)
  reserved := expands.bitmap mapped.reserved
  grown taken := expands.bitmap (mapped.grown taken)
  outside virt above isOutside := by
    rw [expands.same]
    exact mapped.outside virt above isOutside
  backed virt above isInside := by
    obtain ⟨i, backs⟩ := mapped.backed virt above isInside
    refine ⟨i, backs.bound, backs.wasFree, expands.bitmap backs.taken, ?_, ?_⟩
    · intro index level comes
      rcases expands.added comes with old | ⟨j, bound, free, same⟩
      · exact backs.noTable old
      · rw [← frameAddr_inj backs.bound bound same, backs.taken] at free
        cases free
    · unfold MapsTo
      rw [expands.same]
      exact backs.maps
  table virt above isInside := by
    obtain ⟨pt, comes⟩ := mapped.table virt above isInside
    exact ⟨pt, expands.kept comes⟩
  own {virt other i} bound above above' first second := by
    unfold MapsTo at first second
    rw [expands.same] at first second
    exact mapped.own bound above above' first second

/-- Other code may take frames. -/
theorem lend (mapped : HeapMapped before root inside vm) (lent : Nat → Bool) :
    HeapMapped before root inside { vm with bitmap := fun i => lent i || vm.bitmap i } where
  tree :=
    { unshared := mapped.tree.unshared
      nonnull := mapped.tree.nonnull
      inUse := fun comes i bound free =>
        mapped.tree.inUse comes i bound (Bool.or_eq_false_iff.mp free).2
      small := mapped.tree.small }
  noGiant := mapped.noGiant
  reserved := by simp [mapped.reserved]
  grown taken := by simp [mapped.grown taken]
  outside := mapped.outside
  backed virt above isInside := by
    obtain ⟨i, backs⟩ := mapped.backed virt above isInside
    exact ⟨i, backs.bound, backs.wasFree, by simp [backs.taken], backs.noTable, backs.maps⟩
  table := mapped.table
  own := mapped.own

section Entry

variable {pt entry : Addr}

theorem write_tables (mapped : HeapMapped before root inside vm)
    (comes : LeadsTo vm.tables root (indexOf page) 0 pt) {virt : Addr} (above : Above virt)
    (differ : ¬ SamePage page virt) (isInside : inside (pageNo virt)) :
    (∃ i, Backs before (vm.write root pt page entry) root virt i) ∧
      ∃ pt', LeadsTo (vm.write root pt page entry).tables root (indexOf virt) 0 pt' := by
  constructor
  · obtain ⟨i, backs⟩ := mapped.backed virt above isInside
    refine ⟨i, backs.bound, backs.wasFree, backs.taken, ?_, ?_⟩
    · intro index level arrives
      exact backs.noTable ((write_comes_iff mapped.tree comes).mp arrives)
    · unfold MapsTo
      rw [write_translation mapped.tree comes, if_neg differ]
      exact backs.maps
  · obtain ⟨pt', arrives⟩ := mapped.table virt above isInside
    exact ⟨pt', (write_comes_iff mapped.tree comes).mpr arrives⟩

/-- An entry is cleared. -/
theorem clear (mapped : HeapMapped before root inside vm) (low : page.toNat < 2 ^ 47)
    (comes : LeadsTo vm.tables root (indexOf page) 0 pt) :
    HeapMapped before root (fun k => inside k ∧ k ≠ pageNo page) (vm.write root pt page 0) where
  tree := write_tree mapped.tree comes
  noGiant virt := write_noGiant mapped.tree comes (mapped.noGiant virt)
  reserved := mapped.reserved
  grown := mapped.grown
  outside virt above isOutside := by
    rw [write_translation mapped.tree comes]
    split
    · exact if_pos (by decide)
    · next differ =>
      rw [samePage_iff_pageNo above low] at differ
      exact mapped.outside virt above fun isInside => isOutside ⟨isInside, differ⟩
  backed virt above isInside := by
    have differ := mt (samePage_iff_pageNo above low).mp isInside.2
    exact (mapped.write_tables comes above differ isInside.1).1
  table virt above isInside := by
    have differ := mt (samePage_iff_pageNo above low).mp isInside.2
    exact (@HeapMapped.write_tables _ _ _ _ _ _ 0 mapped comes _ above differ isInside.1).2
  own {virt other i} bound above above' first second := by
    have old : ∀ {virt}, MapsTo (vm.write root pt page 0) root virt i → MapsTo vm root virt i := by
      intro virt maps
      unfold MapsTo at maps ⊢
      rw [write_translation mapped.tree comes] at maps
      split at maps
      · rw [if_pos (by decide)] at maps
        cases maps
      · exact maps
    exact mapped.own bound above above' (old first) (old second)

/-- An entry is filled with a frame that was mapped nowhere. -/
theorem fill (mapped : HeapMapped before root inside vm) (low : page.toNat < 2 ^ 47)
    (comes : LeadsTo vm.tables root (indexOf page) 0 pt) (bound : i < MAX_PAGES)
    (wasFree : before i = false) (taken : vm.bitmap i = true)
    (noTable : ∀ {index level}, ¬ LeadsTo vm.tables root index level (frameAddr i))
    (unmapped : ∀ {virt}, Above virt → ¬ MapsTo vm root virt i) :
    HeapMapped before root (fun k => inside k ∨ k = pageNo page)
      (vm.write root pt page (leafEntry (frameAddr i) VMM_USER_FLAGS)) := by
  have maps : ∀ virt, SamePage page virt →
      MapsTo (vm.write root pt page (leafEntry (frameAddr i) VMM_USER_FLAGS)) root virt i := by
    intro virt same
    unfold MapsTo
    rw [write_translation mapped.tree comes, if_pos same,
      leafEntry_translates (aligned_frameAddr i) (by decide)]
    rfl
  have old : ∀ {virt j}, ¬ SamePage page virt →
      (MapsTo (vm.write root pt page (leafEntry (frameAddr i) VMM_USER_FLAGS)) root virt j ↔
        MapsTo vm root virt j) := by
    intro virt j differ
    unfold MapsTo
    rw [write_translation mapped.tree comes, if_neg differ]
  constructor
  case tree => exact write_tree mapped.tree comes
  case noGiant => exact fun virt => write_noGiant mapped.tree comes (mapped.noGiant virt)
  case reserved => exact mapped.reserved
  case grown => exact mapped.grown
  case outside =>
    intro virt above isOutside
    obtain ⟨notInside, notPage⟩ := not_or.mp isOutside
    rw [write_translation mapped.tree comes,
      if_neg (mt (samePage_iff_pageNo above low).mp notPage)]
    exact mapped.outside virt above notInside
  case backed =>
    intro virt above isInside
    by_cases same : SamePage page virt
    · refine ⟨i, bound, wasFree, taken, ?_, maps virt same⟩
      intro index level arrives
      exact noTable ((write_comes_iff mapped.tree comes).mp arrives)
    · have notPage := mt (samePage_iff_pageNo above low).mpr same
      exact (mapped.write_tables comes above same (isInside.resolve_right notPage)).1
  case table =>
    intro virt above isInside
    by_cases same : SamePage page virt
    · have agree := (samePage_iff_agree page virt).mp same
      refine ⟨pt, (write_comes_iff mapped.tree comes).mpr ?_⟩
      exact comes.transport fun j lower upper => agree j (Nat.zero_le j) upper
    · have notPage := mt (samePage_iff_pageNo above low).mpr same
      exact (@HeapMapped.write_tables _ _ _ _ _ _ (leafEntry (frameAddr i) VMM_USER_FLAGS) mapped
        comes _ above same (isInside.resolve_right notPage)).2
  case own =>
    intro virt other j bound' above above' first second
    have frame : ∀ {virt}, SamePage page virt →
        MapsTo (vm.write root pt page (leafEntry (frameAddr i) VMM_USER_FLAGS)) root virt j →
          j = i := fun same maps' => maps'.unique (maps _ same) bound' bound
    by_cases same : SamePage page virt
    · by_cases same' : SamePage page other
      · exact ⟨same.1.symm.trans same'.1, same.2.symm.trans same'.2⟩
      · rw [frame same first] at second
        exact absurd ((old same').mp second) (unmapped above')
    · by_cases same' : SamePage page other
      · rw [frame same' second] at first
        exact absurd ((old same).mp first) (unmapped above)
      · exact mapped.own bound' above above' ((old same).mp first) ((old same').mp second)

end Entry

/-! ## The loops -/

/-- Unmapping a page. -/
theorem unmap (mapped : HeapMapped before root inside vm) (low : page.toNat < 2 ^ 47)
    (above : Above page) (isInside : inside (pageNo page)) :
    Leads (vmmUnmapPage root page)
      (fun _ => HeapMapped before root fun k => inside k ∧ k ≠ pageNo page) vm := by
  obtain ⟨pt', comes'⟩ := mapped.table page above isInside
  have small := not_mapsHuge_of_table comes'
  apply (vmmUnmapPage_updates mapped.tree (mapped.noGiant page)).mono
  intro _ after outcome
  cases outcome with
  | stuck _ huge _ _ => exact absurd huge small
  | split _ _ _ huge _ _ _ _ _ => exact absurd huge small
  | cleared pt _ comes => exact mapped.clear low comes
  | absent _ unmapped =>
      obtain ⟨i, backs⟩ := mapped.backed page above isInside
      have maps := backs.maps
      unfold MapsTo at maps
      rw [unmapped page ⟨rfl, rfl⟩] at maps
      cases maps

theorem above_of_bounds (lower : HEAP_START.toNat ≤ page.toNat) (low : page.toNat < 2 ^ 47) :
    Above page := ⟨Or.inl low, lower⟩

theorem brkShrink_mapped {count : Nat} (mapped : HeapMapped before root inside vm)
    (lower : HEAP_START.toNat ≤ page.toNat) (fits : page.toNat + count * 4096 ≤ 2 ^ 47)
    (isInside : ∀ k, pageNo page ≤ k → k < pageNo page + count → inside k) :
    Leads (brkShrink root count page)
      (fun _ => HeapMapped before root fun k =>
        inside k ∧ ¬ (pageNo page ≤ k ∧ k < pageNo page + count)) vm := by
  induction count generalizing page vm inside with
  | zero =>
      apply mapped.congr
      intro k
      constructor
      · exact And.left
      · exact fun isInside => ⟨isInside, by omega⟩
  | succ count ih =>
      have step : (0x1000 : Addr).toNat = 4096 := rfl
      have low : page.toNat < 2 ^ 47 := by omega
      have next := pageNo_next low
      have place : (page + 0x1000).toNat = page.toNat + 4096 := by
        rw [BitVec.toNat_add, step]
        omega
      unfold brkShrink
      rw [leads_bind]
      apply (mapped.unmap low (above_of_bounds lower low)
        (isInside _ (Nat.le_refl _) (by omega))).mono
      intro _ middle unmapped
      apply (ih unmapped (by omega) (by omega) ?_).mono
      · intro _ after mapped
        apply mapped.congr
        intro k
        rw [next]
        constructor
        · rintro ⟨isInside, differ⟩
          exact ⟨⟨isInside, by omega⟩, by omega⟩
        · rintro ⟨⟨isInside, notFirst⟩, differ⟩
          exact ⟨isInside, by omega⟩
      · intro k first last
        rw [next] at first last
        exact ⟨isInside k (by omega) (by omega), by omega⟩

/-- A page is mapped to the frame that was taken for it, or all frames have gone into
tables that are too many. -/
inductive MapsPage (before : Nat → Bool) (root page : Addr) (inside : Nat → Prop) (vm : Vm) :
    Vm → Prop where
  | stuck (after : Vm) (mapped : HeapMapped before root inside after)
      (expands : Expands root vm after)
      (drained : ∀ virts, page ∈ virts → Drained root virts vm after) :
      MapsPage before root page inside vm after
  | done (after : Vm) (mapped : HeapMapped before root (fun k => inside k ∨ k = pageNo page) after)
      (spends : ∀ virts, page ∈ virts → Spends root virts vm after) :
      MapsPage before root page inside vm after

theorem map (mapped : HeapMapped before root inside vm) (search : nextFrame vm.bitmap = some i)
    (low : page.toNat < 2 ^ 47) :
    Leads (vmmMapPage root page (frameAddr i) VMM_USER_FLAGS)
      (fun _ => MapsPage before root page inside (vm.take i)) (vm.take i) := by
  obtain ⟨bound, free⟩ := nextFrame_bound search
  have expands := expands_take mapped.tree i
  have start := mapped.expand expands
  apply (vmmMapPage_fills start.tree (start.noGiant page) _ _).mono
  intro _ after outcome
  cases outcome with
  | stuck _ toAfter _ drained =>
      exact .stuck after (start.expand toAfter) toAfter (drained start.reserved)
  | written grown pt toGrown comes spends =>
      have all := expands.trans toGrown
      apply MapsPage.done
      · apply (start.expand toGrown).fill low comes bound (mapped.fresh free)
        · exact toGrown.bitmap assign_self
        · intro index level arrives
          rcases toGrown.added arrives with old | ⟨j, bound', free', same⟩
          · exact mapped.tree.inUse old i bound free rfl
          · have taken : (vm.take i).bitmap i = true := assign_self
            rw [← frameAddr_inj bound bound' same, taken] at free'
            cases free'
        · intro virt above maps
          unfold MapsTo at maps
          rw [all.same] at maps
          exact mapped.not_maps bound free above maps
      · intro virts member
        unfold Spends
        rw [write_lacking toGrown.tree comes]
        exact spends virts member

/-- With a frame for every page and for every table that is lacking, the growing loop maps
all pages. -/
theorem brkGrow_mapped {count : Nat} {virts : List Addr}
    (mapped : HeapMapped before root inside vm) (lower : HEAP_START.toNat ≤ page.toNat)
    (fits : page.toNat + count * 4096 ≤ 2 ^ 47)
    (listed : ∀ other ∈ pagesFrom count page, other ∈ virts)
    (enough : count + (lacking vm.tables root virts).card ≤ freeFrames vm.bitmap) :
    Leads (brkGrow root count page)
      (fun success after => success = true ∧ HeapMapped before root (fun k =>
        inside k ∨ (pageNo page ≤ k ∧ k < pageNo page + count)) after) vm := by
  induction count generalizing page vm inside with
  | zero =>
      refine ⟨rfl, mapped.congr fun k => ?_⟩
      constructor
      · rintro (isInside | none)
        · exact isInside
        · omega
      · exact Or.inl
  | succ count ih =>
      have step : (0x1000 : Addr).toNat = 4096 := rfl
      have low : page.toNat < 2 ^ 47 := by omega
      have next := pageNo_next low
      have place : (page + 0x1000).toNat = page.toNat + 4096 := by
        rw [BitVec.toNat_add, step]
        omega
      unfold brkGrow
      rw [leads_bind]
      apply (pmmAllocPage_spec vm).mono
      intro phys taken outcome
      rcases outcome with ⟨full, -, -⟩ | ⟨i, search, rfl, rfl⟩
      · omega
      · have nonzero : frameAddr i ≠ 0 := by
          obtain ⟨bound, free⟩ := nextFrame_bound search
          apply frameAddr_ne_zero bound
          rintro rfl
          rw [mapped.reserved] at free
          cases free
        have fewer : freeFrames (vm.take i).bitmap + 1 = freeFrames vm.bitmap :=
          freeFrames_pos search
        have first : page ∈ virts := listed page List.mem_cons_self
        rw [if_neg nonzero, leads_bind]
        apply (mapped.map search low).mono
        intro _ middle outcome
        cases outcome with
        | stuck _ _ drained =>
            have short := (drained virts first).1
            unfold Short at short
            change _ < (lacking vm.tables root virts).card at short
            omega
        | done grown spends =>
            have spent := spends virts first
            unfold Spends at spent
            change _ + (lacking vm.tables root virts).card = _ at spent
            apply (ih grown (by omega) (by omega) ?_ (by omega)).mono
            · rintro success after ⟨succeeds, mapped⟩
              refine ⟨succeeds, mapped.congr fun k => ?_⟩
              rw [next, or_assoc]
              apply or_congr_right
              omega
            · exact fun other member => listed other (List.mem_cons_of_mem page member)

/-- With too few frames for the first page the growing loop maps nothing, and notices at
the next. -/
theorem brkGrow_refused {count : Nat} (mapped : HeapMapped before root inside vm)
    (lower : HEAP_START.toNat ≤ page.toNat) (low : page.toNat < 2 ^ 47)
    (short : freeFrames vm.bitmap < 1 + (lacking vm.tables root [page]).card)
    (notices : freeFrames vm.bitmap = 0 ∨ 0 < count) :
    Leads (brkGrow root (count + 1) page)
      (fun success after => success = false ∧ HeapMapped before root inside after ∧
        Expands root vm after) vm := by
  unfold brkGrow
  rw [leads_bind]
  apply (pmmAllocPage_spec vm).mono
  intro phys taken outcome
  rcases outcome with ⟨full, rfl, rfl⟩ | ⟨i, search, rfl, rfl⟩
  · rw [if_pos rfl]
    exact ⟨rfl, mapped, .refl mapped.tree⟩
  · have nonzero : frameAddr i ≠ 0 := by
      obtain ⟨bound, free⟩ := nextFrame_bound search
      apply frameAddr_ne_zero bound
      rintro rfl
      rw [mapped.reserved] at free
      cases free
    have fewer : freeFrames (vm.take i).bitmap + 1 = freeFrames vm.bitmap := freeFrames_pos search
    rw [if_neg nonzero, leads_bind]
    apply (mapped.map search low).mono
    intro _ middle outcome
    cases outcome with
    | stuck still expands drained =>
        obtain ⟨-, empty⟩ := drained [page] List.mem_cons_self
        obtain ⟨count, rfl⟩ : ∃ k, count = k + 1 := by
          rcases notices with none | some
          · omega
          · exact ⟨count - 1, by omega⟩
        unfold brkGrow
        rw [leads_bind]
        apply (pmmAllocPage_spec middle).mono
        intro phys last outcome
        rcases outcome with ⟨-, rfl, rfl⟩ | ⟨j, search', rfl, rfl⟩
        · rw [if_pos rfl]
          exact ⟨rfl, still, (expands_take mapped.tree i).trans expands⟩
        · have none := freeFrames_pos search'
          omega
    | done grown spends =>
        have spent := spends [page] List.mem_cons_self
        unfold Spends at spent
        obtain ⟨pt, comes⟩ := grown.table page (above_of_bounds lower low) (Or.inr rfl)
        rw [lacking_eq_empty comes, Finset.card_empty] at spent
        change _ + (lacking vm.tables root [page]).card = _ at spent
        omega

end HeapMapped

/-! ## A process before its first call -/

/-- Nothing is mapped from the start of the heap on. -/
structure NothingAbove (root : Addr) (vm : Vm) : Prop where
  tree : PageTables vm.toMemory root
  noGiant : ∀ virt, NoGiant vm.tables root virt
  reserved : vm.bitmap 0 = true
  unmapped : ∀ virt, Above virt → translation vm.tables root virt = none

theorem pml4Idx_of_above {virt : Addr} (above : Above virt) : pml4Idx virt ≠ 0 := by
  have start : HEAP_START.toNat ≤ virt.toNat := above.2
  have base : HEAP_START.toNat = 0x700000000000 := rfl
  unfold pml4Idx
  rw [idx_toNat]
  rcases above.1 with small | high
  all_goals omega

/-- Roots with the same entry translate alike what lies behind it. -/
theorem translation_of_entry {tables : Addr → Nat → Addr} {root root' virt : Addr}
    (same : tables root (pml4Idx virt) = tables root' (pml4Idx virt)) :
    translation tables root virt = translation tables root' virt := by
  have slots : slotsOf tables 3 root (indexOf virt 3) = slotsOf tables 3 root' (indexOf virt 3) := by
    unfold slotsOf
    rw [indexOf_three, same]
  unfold translation
  rw [walk, walk, slots]

/-- The new root of a process maps nothing there: the kernel does not. -/
theorem createUserPml4_nothingAbove {vm : Vm} (tables : KernelTables vm) :
    Leads createUserPml4 (fun root after => root ≠ 0 → NothingAbove root after) vm := by
  obtain ⟨⟨place, placed, directories⟩, beyond⟩ := tables
  have tree := placed.pageTables placed.kernel
  apply ((createUserPml4_spec placed directories).and (createUserPml4_fresh tree directories)).mono
  rintro root after ⟨outcome, fresh⟩ nonzero
  rcases outcome with ⟨null, -⟩ | ⟨place', made⟩
  · exact absurd null nonzero
  obtain ⟨-, kernelPml4, same, entries⟩ := fresh nonzero
  have placed' := made.grows.memory.placed
  refine ⟨placed'.pageTables made.isRoot, placed'.noGiant made.isRoot, placed'.reserved, ?_⟩
  intro virt above
  have other := pml4Idx_of_above above
  have atRoot : LeadsTo vm.tables vm.kernelPml4 (indexOf virt) 3 vm.kernelPml4 := .start
  have kernelTable : after.tables vm.kernelPml4 = vm.tables vm.kernelPml4 :=
    same _ (tree.inUse atRoot)
  have entry : after.tables root (pml4Idx virt) = after.tables vm.kernelPml4 (pml4Idx virt) := by
    rw [entries _ other, kernelTable]
  have walks : translation after.tables vm.kernelPml4 virt =
      translation vm.tables vm.kernelPml4 virt := by
    unfold translation
    rw [walk_congr]
    intro level table comes
    unfold slotsOf
    rw [same table (tree.inUse comes)]
  rw [translation_of_entry entry, walks]
  exact beyond virt fun first => absurd first other

/-- Nothing of a file is loaded at the heap or above it. -/
def ElfFile.Below (file : ElfFile) : Prop :=
  ∀ i < file.ePhnum, (file.phdr i).pType = 1 → (file.phdr i).pMemsz ≠ 0 →
    (file.phdr i).pVaddr.toNat + (file.phdr i).pMemsz.toNat ≤ HEAP_START.toNat

section Loading

variable {root fileSize : Addr} {vm : Vm}

theorem NothingAbove.remaps {after : Vm} {pages : List Addr} (nothing : NothingAbove root vm)
    (remaps : Remaps root pages vm after)
    (low : ∀ page ∈ pages, page.toNat < HEAP_START.toNat) : NothingAbove root after where
  tree := remaps.tree
  noGiant virt := remaps.noGiant virt (nothing.noGiant virt)
  reserved := remaps.bitmap nothing.reserved
  unmapped virt above := by
    have base : HEAP_START.toNat = 0x700000000000 := rfl
    rw [remaps.outside]
    · exact nothing.unmapped virt above
    · intro page member same
      have small := low page member
      have start : HEAP_START.toNat ≤ virt.toNat := above.2
      rw [samePage_iff_pageNo above (by omega)] at same
      unfold pageNo at same
      omega

theorem loadPages_nothingAbove {ph : Phdr} {count : Nat} {page : Addr}
    (nothing : NothingAbove root vm) (fits : page.toNat + count * 4096 ≤ HEAP_START.toNat) :
    Leads (loadPages root fileSize ph count page) (fun _ => NothingAbove root) vm := by
  induction count generalizing page vm with
  | zero => exact nothing
  | succ count ih =>
      have base : HEAP_START.toNat = 0x700000000000 := rfl
      have step : (0x1000 : Addr).toNat = 4096 := rfl
      have place : (page + 0x1000).toNat = page.toNat + 4096 := by
        rw [BitVec.toNat_add, step]
        omega
      unfold loadPages
      rw [leads_bind]
      apply (pmmAllocPage_spec vm).mono
      intro phys taken outcome
      have still : NothingAbove root taken := by
        rcases outcome with ⟨-, -, rfl⟩ | ⟨i, -, -, rfl⟩
        · exact nothing
        · exact nothing.remaps ((expands_take nothing.tree i).remaps []) nofun
      split
      · exact still
      · rw [leads_bind]
        apply (vmmMapPage_remaps still.tree (still.noGiant page) phys ph.pageFlags).mono
        intro _ mapped remaps
        have next : NothingAbove root mapped := by
          apply still.remaps remaps
          intro other member
          rw [List.mem_singleton.mp member]
          omega
        split
        · exact ih next (by omega)
        · exact next

theorem loadSegment_nothingAbove {ph : Phdr} (nothing : NothingAbove root vm)
    (below : ph.pMemsz ≠ 0 → ph.pVaddr.toNat + ph.pMemsz.toNat ≤ HEAP_START.toNat) :
    Leads (loadSegment root fileSize ph) (fun _ => NothingAbove root) vm := by
  unfold loadSegment
  split
  · split
    · exact nothing
    · next some =>
      split
      · have fits := below some
        have base : HEAP_START.toNat = 0x700000000000 := rfl
        apply loadPages_nothingAbove nothing
        have last : ph.segEnd.toNat = ph.pVaddr.toNat + ph.pMemsz.toNat := by
          unfold Phdr.segEnd
          rw [BitVec.toNat_add]
          omega
        have pageEnd : ph.pageEnd.toNat = (ph.segEnd.toNat + 4095) / 4096 * 4096 :=
          pageAlignUp_toNat (by simp only [LAST_END]; omega)
        have pageStart : ph.pageStart.toNat = ph.pVaddr.toNat / 4096 * 4096 := pageMask_toNat _
        rw [pages_toNat (by omega)]
        omega
      · exact nothing
  · exact nothing

theorem loadSegments_nothingAbove {phdrs : List Phdr} (nothing : NothingAbove root vm)
    (below : ∀ ph ∈ phdrs, ph.pType = 1 → ph.pMemsz ≠ 0 →
      ph.pVaddr.toNat + ph.pMemsz.toNat ≤ HEAP_START.toNat) :
    Leads (loadSegments root fileSize phdrs) (fun _ => NothingAbove root) vm := by
  induction phdrs generalizing vm with
  | nil => exact nothing
  | cons ph rest ih =>
      have later := fun other member => below other (List.mem_cons_of_mem ph member)
      unfold loadSegments
      split
      · next isLoad =>
        rw [leads_bind]
        apply (loadSegment_nothingAbove nothing (below ph List.mem_cons_self isLoad)).mono
        intro success after nothing
        split
        · exact ih nothing later
        · exact nothing
      · exact ih nothing later

theorem loadElfIntoProcess_nothingAbove {file : ElfFile} (nothing : NothingAbove root vm)
    (below : file.Below) :
    Leads (loadElfIntoProcess root file) (fun _ => NothingAbove root) vm := by
  unfold loadElfIntoProcess
  split
  · exact nothing
  · split
    · dsimp only
      rw [leads_bind]
      apply (loadSegments_nothingAbove nothing ?_).mono
      · intro success after nothing
        split
        · exact nothing
        · exact nothing
      · intro ph member
        obtain ⟨i, inside, rfl⟩ := List.mem_map.mp member
        exact below i (List.mem_range.mp inside)
    · exact nothing

end Loading

/-! ## Every run of calls -/

/-- The pages a growing call asks for. -/
def growth (machine : Machine) (newBrk : Addr) : Nat :=
  ((pageAlignUp newBrk - pageAlignUp machine.heap.2) >>> 12).toNat

/-- There is a frame for every page of a growth and for every table that its pages lack, or
there are too few for the first page, which the loop notices. -/
def Affordable (machine : Machine) (newBrk : Addr) : Prop :=
  machine.heap.1 ≤ newBrk → pageAlignUp machine.heap.2 < pageAlignUp newBrk →
    let free := freeFrames machine.vm.bitmap
    let first := pageAlignUp machine.heap.2
    let lacks := fun virts => (lacking machine.vm.tables machine.root virts).card
    growth machine newBrk + lacks (pagesFrom (growth machine newBrk) first) ≤ free ∨
      free < 1 + lacks [first] ∧ (free = 0 ∨ 1 < growth machine newBrk)

/-- The address 2^40 bytes above the start of every heap. -/
abbrev HEAP_LIMIT : Nat := 0x710000000000

/-- The arguments that are looked at, and the condition on them. -/
structure Allowed (machine : Machine) (newBrk : Addr) : Prop where
  near : newBrk.toNat ≤ HEAP_LIMIT
  affordable : Affordable machine newBrk

/-- The condition on a call and on the pointers that it follows. -/
def Sparing (machine : Machine) (newBrk : Addr) (used : List Use) : Prop :=
  Allowed machine newBrk ∧ ∀ use ∈ used, use.Direct

/-- What is mapped from the start of the heap on are the pages below its end, each with a
frame of its own. -/
structure HeapHolds (before : Nat → Bool) (machine : Machine) : Prop where
  exact : ∀ virt, Above virt →
    ((translation machine.vm.tables machine.root virt).isSome = true ↔
      virt < pageAlignUp machine.heap.2)
  backed : ∀ virt, Above virt → virt < pageAlignUp machine.heap.2 →
    ∃ i, Backs before machine.vm machine.root virt i
  own : ∀ virt other i, Above virt → Above other → Backs before machine.vm machine.root virt i →
    Backs before machine.vm machine.root other i → SamePage virt other

/-- The first page behind a heap that ends at an address. -/
def pagesTo (heapEnd : Addr) : Nat := (heapEnd.toNat + 4095) / 4096

/-- The bounds of the heap and its pages. -/
structure HeapInv (before : Nat → Bool) (machine : Machine) : Prop where
  start : machine.heap.1 = HEAP_START
  lower : HEAP_START.toNat ≤ machine.heap.2.toNat
  upper : machine.heap.2.toNat ≤ HEAP_LIMIT
  mapped : HeapMapped before machine.root (fun k => k < pagesTo machine.heap.2) machine.vm

section

variable {before : Nat → Bool} {machine : Machine} {newBrk : Addr}

theorem HeapInv.holds (inv : HeapInv before machine) : HeapHolds before machine := by
  have base : HEAP_START.toNat = 0x700000000000 := rfl
  have upper := inv.upper
  have fits : machine.heap.2.toNat ≤ LAST_END := by
    simp only [LAST_END, HEAP_LIMIT] at *
    omega
  have below : ∀ virt : Addr, virt < pageAlignUp machine.heap.2 ↔
      pageNo virt < pagesTo machine.heap.2 := by
    intro virt
    rw [BitVec.lt_def, pageAlignUp_toNat fits]
    unfold pageNo pagesTo
    omega
  constructor
  · intro virt above
    rw [below]
    constructor
    · intro some
      by_contra outside
      rw [inv.mapped.outside virt above outside] at some
      cases some
    · intro inside
      obtain ⟨i, backs⟩ := inv.mapped.backed virt above inside
      rw [backs.maps]
      rfl
  · intro virt above inside
    exact inv.mapped.backed virt above ((below virt).mp inside)
  · intro virt other i above above' first second
    exact inv.mapped.own first.bound above above' first.maps second.maps

theorem HeapInv.withHeap {vm : Vm} {heapEnd : Addr} (inv : HeapInv before machine)
    (lower : HEAP_START.toNat ≤ heapEnd.toNat) (upper : heapEnd.toNat ≤ HEAP_LIMIT)
    (mapped : HeapMapped before machine.root (fun k => k < pagesTo heapEnd) vm) :
    HeapInv before (machine.withHeap machine.heap.1 heapEnd vm) := by
  have bounds : (machine.withHeap machine.heap.1 heapEnd vm).heap = (machine.heap.1, heapEnd) := by
    apply withHeap_heap
    rw [inv.start]
    decide
  constructor
  · rw [bounds]
    exact inv.start
  · rw [bounds]
    exact lower
  · rw [bounds]
    exact upper
  · rw [bounds, withHeap_root]
    exact mapped

/-- A call that is allowed keeps the pages and the end of the heap together; it returns the
end, and changes nothing when it refuses. -/
theorem BrkOutcome.heap {value : Addr} {after : Machine} (inv : HeapInv before machine)
    (allowed : Allowed machine newBrk) (outcome : BrkOutcome machine newBrk value after) :
    HeapInv before after ∧ after.heap.2 = value ∧
      (value ≠ newBrk → ∀ virt, translation after.vm.tables machine.root virt =
        translation machine.vm.tables machine.root virt) := by
  have base : HEAP_START.toNat = 0x700000000000 := rfl
  have lower := inv.lower
  have upper := inv.upper
  have near := allowed.near
  have limits : HEAP_LIMIT ≤ LAST_END := by decide
  have endPage := pageAlignUp_toNat (upper.trans limits)
  have newPage := pageAlignUp_toNat (near.trans limits)
  simp only [HEAP_LIMIT] at upper near
  have nonzero : machine.heap.1 ≠ 0 := by
    rw [inv.start]
    decide
  cases outcome with
  | idle =>
      refine ⟨inv.withHeap lower upper inv.mapped, ?_, fun _ _ => rfl⟩
      rw [withHeap_heap nonzero]
  | grown success vm moves reached grows loop =>
      have first : HEAP_START.toNat ≤ (pageAlignUp machine.heap.2).toNat := by omega
      have counted := pages_toNat (Nat.le_of_lt (BitVec.lt_def.mp grows))
      have start := BitVec.not_lt.mp reached
      have above := reached
      rw [inv.start, BitVec.lt_def, not_lt] at above
      have aligned : pageNo (pageAlignUp machine.heap.2) = pagesTo machine.heap.2 := by
        unfold pageNo pagesTo
        omega
      rw [BitVec.lt_def] at grows
      rcases allowed.affordable start grows with enough | ⟨short, notices⟩
      · have leads := @HeapMapped.brkGrow_mapped _ _ (pageAlignUp machine.heap.2) _ _ (growth machine newBrk) _
          inv.mapped first (by unfold growth; omega) (fun _ member => member) enough
        unfold Leads at leads
        unfold growth at leads
        rw [loop, counted] at leads
        obtain ⟨succeeds, mapped⟩ := leads
        change success = true at succeeds
        subst succeeds
        change HeapInv before (machine.withHeap machine.heap.1 newBrk vm) ∧
          (machine.withHeap machine.heap.1 newBrk vm).heap.2 = newBrk ∧ (newBrk ≠ newBrk → _)
        refine ⟨inv.withHeap above near (mapped.congr fun k => ?_), ?_, fun differ => ?_⟩
        · rw [aligned]
          unfold pagesTo at *
          omega
        · rw [withHeap_heap nonzero]
        · exact absurd rfl differ
      · obtain ⟨count, isCount⟩ : ∃ count, growth machine newBrk = count + 1 := by
          refine ⟨growth machine newBrk - 1, ?_⟩
          unfold growth
          omega
        have leads := @HeapMapped.brkGrow_refused _ _ (pageAlignUp machine.heap.2) _ _ count
          inv.mapped first (by omega) short
          (notices.imp_right fun more => by omega)
        unfold Leads at leads
        unfold growth at isCount
        rw [← isCount, loop] at leads
        obtain ⟨fails, mapped, expands⟩ := leads
        change success = false at fails
        subst fails
        change HeapInv before (machine.withHeap machine.heap.1 machine.heap.2 vm) ∧
          (machine.withHeap machine.heap.1 machine.heap.2 vm).heap.2 = machine.heap.2 ∧ _
        refine ⟨inv.withHeap lower upper mapped, ?_, fun _ virt => expands.same virt⟩
        rw [withHeap_heap nonzero]
  | shrunk vm moves reached shrinks loop =>
      rw [BitVec.lt_def, not_lt] at shrinks
      have counted := pages_toNat shrinks
      have above := reached
      rw [inv.start, BitVec.lt_def, not_lt] at above
      have aligned : pageNo (pageAlignUp newBrk) = pagesTo newBrk := by
        unfold pageNo pagesTo
        omega
      have leads := @HeapMapped.brkShrink_mapped _ _ (pageAlignUp newBrk) _ _
        ((pageAlignUp machine.heap.2 - pageAlignUp newBrk) >>> 12).toNat
        inv.mapped (by omega) (by omega) (fun k _ last => by
          rw [aligned] at last
          unfold pagesTo at *
          omega)
      unfold Leads at leads
      rw [loop, counted] at leads
      refine ⟨inv.withHeap above near (leads.congr fun k => ?_), ?_, fun differ => ?_⟩
      · rw [aligned]
        unfold pagesTo at *
        omega
      · rw [withHeap_heap nonzero]
      · exact absurd rfl differ

end

/-- A process before its first call: its root was made for it, a file was loaded below the heap,
and its page tables are the current ones. -/
structure Spawned (file : ElfFile) (machine : Machine) : Prop where
  made : ∃ image regions junk kernel created loaded success used used',
    KernelRun image regions junk Use.Direct kernel ∧
      Paged.createUserPml4.run kernel = some (machine.root, created, used) ∧
      (Paged.loadElfIntoProcess machine.root file).run created = some (success, loaded, used') ∧
      (∀ use ∈ used ++ used', use.Direct) ∧
      machine.vm = ((vmmSwitchPml4 machine.root).run loaded).2
  nonnull : machine.root ≠ 0
  below : file.Below
  unset : machine.table.currentProcess.heapStart = 0

theorem NothingAbove.switch {root other : Addr} {vm : Vm} (nothing : NothingAbove root vm) :
    NothingAbove root ((vmmSwitchPml4 other).run vm).2 := by
  unfold vmmSwitchPml4
  split
  · exact nothing
  · have tree := nothing.tree
    exact ⟨⟨tree.unshared, tree.nonnull, tree.inUse, tree.small⟩, nothing.noGiant,
      nothing.reserved, nothing.unmapped⟩

theorem Spawned.nothingAbove {file : ElfFile} {machine : Machine} (spawned : Spawned file machine) :
    NothingAbove machine.root machine.vm := by
  obtain ⟨image, regions, junk, kernel, created, loaded, success, used, used', run, creates, loads,
    direct, current⟩ := spawned.made
  have fresh := createUserPml4_nothingAbove run.tables
  unfold Leads at fresh
  rw [Paged.createUserPml4_follows.run_eq creates fun use member =>
    direct use (List.mem_append_left _ member)] at fresh
  have below := loadElfIntoProcess_nothingAbove (fresh spawned.nonnull) spawned.below
  unfold Leads at below
  rw [(Paged.loadElfIntoProcess_follows machine.root file).run_eq loads fun use member =>
    direct use (List.mem_append_right _ member)] at below
  rw [current]
  exact below.switch

theorem Spawned.bounds {file : ElfFile} {machine : Machine} (spawned : Spawned file machine) :
    machine.heap = (HEAP_START, HEAP_START) := if_pos spawned.unset

theorem Spawned.inv {file : ElfFile} {machine : Machine} (spawned : Spawned file machine) :
    HeapInv machine.vm.bitmap machine := by
  have nothing := spawned.nothingAbove
  have bounds := spawned.bounds
  have pages : pagesTo HEAP_START = HEAP_START.toNat / 4096 := by decide
  have outside : ∀ virt, Above virt → ¬ pageNo virt < pagesTo HEAP_START := by
    intro virt above
    have start : HEAP_START.toNat ≤ virt.toNat := above.2
    rw [pages]
    unfold pageNo
    omega
  constructor
  · rw [bounds]
  · rw [bounds]
  · rw [bounds]
    decide
  · rw [bounds]
    exact
      { tree := nothing.tree
        noGiant := nothing.noGiant
        reserved := nothing.reserved
        grown := fun taken => taken
        outside := fun virt above _ => nothing.unmapped virt above
        backed := fun virt above inside => absurd inside (outside virt above)
        table := fun virt above inside => absurd inside (outside virt above)
        own := fun {virt _ _} _ above _ maps _ => by
          unfold MapsTo at maps
          rw [nothing.unmapped virt above] at maps
          cases maps }

theorem BrkRun.inv {file : ElfFile} {start machine : Machine} (spawned : Spawned file start)
    (run : BrkRun Sparing start machine) : HeapInv start.vm.bitmap machine := by
  induction run with
  | start => exact spawned.inv
  | brk newBrk _ returns met ih => exact ((BrkOutcome.of_run returns met.2).heap ih met.1).1
  | lend lent _ ih => exact ⟨ih.start, ih.lower, ih.upper, ih.mapped.lend lent⟩

/-- As long as every growth finds the frames it needs, or none for its first page and notices, and
every pointer is mapped onto itself, the heap maps the pages below its end and no others, each to a
frame of its own; a call returns the end, and one that refuses changes nothing. -/
theorem heap_holds {file : ElfFile} {start machine : Machine} (spawned : Spawned file start)
    (run : BrkRun Sparing start machine) :
    HeapHolds start.vm.bitmap machine ∧ ∀ newBrk value after used,
      (Paged.sysBrk newBrk).run machine = some (value, after, used) →
        Sparing machine newBrk used →
          HeapHolds start.vm.bitmap after ∧ after.heap.2 = value ∧
            (value ≠ newBrk → ∀ virt, translation after.vm.tables machine.root virt =
              translation machine.vm.tables machine.root virt) := by
  have inv := run.inv spawned
  refine ⟨inv.holds, fun newBrk value after used returns met => ?_⟩
  obtain ⟨still, ends, refuses⟩ := (BrkOutcome.of_run returns met.2).heap inv met.1
  exact ⟨still.holds, ends, refuses⟩

/-- Four frames are enough for the first page. -/
theorem affordable_one {machine : Machine} (bounds : machine.heap = (HEAP_START, HEAP_START))
    (room : 4 ≤ freeFrames machine.vm.bitmap) : Affordable machine (HEAP_START + 1) := by
  have one : growth machine (HEAP_START + 1) = 1 := by
    unfold growth
    rw [bounds]
    decide
  have lacks := card_lacking_le machine.vm.tables machine.root (pageAlignUp machine.heap.2)
  intro _ _
  left
  rw [one]
  change 1 + (lacking _ _ [pageAlignUp machine.heap.2]).card ≤ freeFrames machine.vm.bitmap
  omega

/-! ## A growth that runs out midway -/

/-- A process with the root that was made for it and a file. -/
def processOf (file : ElfFile) (made : Addr × Vm) : Machine where
  vm := ((vmmSwitchPml4 made.1).run ((loadElfIntoProcess made.1 file).run made.2).2).2
  table := (ProcTable.schedulerInit fun _ => 0).modify 0 fun process =>
    { process with pml4 := made.1.toNat }

theorem processOf_current (file : ElfFile) (made : Addr × Vm) :
    (processOf file made).table.currentProcess =
      { Process.initial with pml4 := made.1.toNat } :=
  ProcTable.modify_same (ProcTable.schedulerInit fun _ => 0) 0 fun process =>
    { process with pml4 := made.1.toNat }

theorem processOf_vm (file : ElfFile) (made : Addr × Vm) :
    (processOf file made).vm =
      ((vmmSwitchPml4 made.1).run ((loadElfIntoProcess made.1 file).run made.2).2).2 :=
  rfl

/-- A process with one page of text. -/
def textProcess : Machine := processOf textFile firstRoot

/-- No pointer leads elsewhere while the process is made, and while its heap grows. -/
theorem textProcess_direct :
    (Paged.createUserPml4.run (bootVm smallImage [] fun _ _ => 0)).any
      (fun done => done.2.2.all fun use => use.Direct) = true ∧
    ((Paged.loadElfIntoProcess firstRoot.1 textFile).run firstRoot.2).any
      (fun done => done.2.2.all fun use => use.Direct) = true ∧
    ((Paged.sysBrk (HEAP_START + 1)).run textProcess).any
      (fun done => done.2.2.all fun use => use.Direct) = true := by
  decide +kernel

theorem textFile_below : textFile.Below := by
  have one : textFile.ePhnum = 1 := by decide +kernel
  intro i bound _ _
  rw [one] at bound
  obtain rfl := Nat.lt_one_iff.mp bound
  decide +kernel

theorem textProcess_root : textProcess.root = firstRoot.1 := by
  unfold Machine.root rootOf textProcess
  rw [processOf_current, BitVec.ofNat_toNat, BitVec.setWidth_eq]

theorem firstRoot_made :
    ∃ used, Paged.createUserPml4.run (bootVm smallImage [] fun _ _ => 0) =
      some (firstRoot.1, firstRoot.2, used) ∧ ∀ use ∈ used, use.Direct := by
  unfold firstRoot
  exact Paged.createUserPml4_follows.exists_run (fun direct => direct) textProcess_direct.1

theorem textProcess_spawned : Spawned textFile textProcess := by
  obtain ⟨used, creates, direct⟩ := firstRoot_made
  obtain ⟨used', loads, direct'⟩ :=
    (Paged.loadElfIntoProcess_follows firstRoot.1 textFile).exists_run (fun direct => direct)
      textProcess_direct.2.1
  constructor
  · rw [textProcess_root]
    refine ⟨smallImage, [], fun _ _ => 0, bootVm smallImage [] fun _ _ => 0, firstRoot.2,
      ((loadElfIntoProcess firstRoot.1 textFile).run firstRoot.2).2,
      ((loadElfIntoProcess firstRoot.1 textFile).run firstRoot.2).1, used, used', ?_⟩
    refine ⟨.boot, creates, loads, fun use member => ?_, processOf_vm textFile firstRoot⟩
    exact (List.mem_append.mp member).elim (direct use) (direct' use)
  · rw [textProcess_root]
    exact firstRoot_nonnull
  · exact textFile_below
  · unfold textProcess
    rw [processOf_current]
    rfl

/-- The heap of the process grows by a page. -/
def grownProcess : Machine := ((sysBrk (HEAP_START + 1)).run textProcess).2

theorem textProcess_free : ∀ i ∈ List.range' 308 4, i < MAX_PAGES ∧
    textProcess.vm.bitmap i = false := by
  decide +kernel

theorem grownProcess_run : BrkRun Sparing textProcess grownProcess := by
  have room := le_freeFrames (by decide) textProcess_free
  have allowed : Allowed textProcess (HEAP_START + 1) :=
    ⟨by decide, affordable_one textProcess_spawned.bounds room⟩
  obtain ⟨used, returns, direct⟩ := (Paged.sysBrk_follows (HEAP_START + 1)).exists_run
    (fun direct => direct) textProcess_direct.2.2
  exact .brk (HEAP_START + 1) .start returns ⟨allowed, direct⟩

theorem heap_holds_of_growth :
    HeapHolds textProcess.vm.bitmap grownProcess ∧ ∀ newBrk value after used,
      (Paged.sysBrk newBrk).run grownProcess = some (value, after, used) →
        Sparing grownProcess newBrk used →
          HeapHolds textProcess.vm.bitmap after ∧ after.heap.2 = value ∧
            (value ≠ newBrk → ∀ virt, translation after.vm.tables grownProcess.root virt =
              translation grownProcess.vm.tables grownProcess.root virt) :=
  heap_holds textProcess_spawned grownProcess_run

/-- All frames but four are gone. -/
def drainedProcess : Machine := textProcess.lend fun i => 312 ≤ i

/-- A growth by two pages is refused, and leaves the first one. -/
theorem drainedProcess_facts :
    ((Paged.sysBrk (HEAP_START + 0x2000)).run drainedProcess).any (fun done =>
      (done.2.2.all fun use => use.Direct) = true ∧ done.2.1.heap.2 = HEAP_START ∧
        (translation done.2.1.vm.tables done.2.1.root HEAP_START).isSome = true) = true := by
  decide +kernel

/-- The first page of a growth that is refused stays mapped. -/
theorem heap_not_exact :
    ¬ ∀ (file : ElfFile) (start machine : Machine), Spawned file start →
      BrkRun (fun _ newBrk _ => newBrk.toNat ≤ HEAP_LIMIT) start machine →
        HeapHolds start.vm.bitmap machine := by
  intro holds
  obtain ⟨⟨value, after, used⟩, returns, facts⟩ :=
    (Option.any_eq_true _ _).mp drainedProcess_facts
  obtain ⟨-, refused, mapped⟩ := of_decide_eq_true facts
  have drained : BrkRun (fun _ newBrk _ => newBrk.toNat ≤ HEAP_LIMIT) textProcess drainedProcess :=
    .lend _ .start
  have run := drained.brk (HEAP_START + 0x2000) returns (by decide)
  have above : Above HEAP_START := ⟨Or.inl (by decide), by decide⟩
  have inside := ((holds textFile _ _ textProcess_spawned run).exact HEAP_START above).mp mapped
  rw [show after.heap.2 = HEAP_START from refused] at inside
  exact absurd inside (by decide)

end Notux.Vmm
