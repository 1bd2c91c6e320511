import Notux.Vmm.PagedRuns
import Notux.Vmm.Update

/-!
# The heap of a process

`sys_brk` maps or unmaps the pages between the old and the new end of the heap.  The
end is rounded up to a page without a check, so an end in the last page of the
address space is rounded to zero and the heap is shrunk down to there.  Every other
end leaves alone what lies outside of the heap: the frames run out long before the
heap comes to the end of the lower half.
-/

namespace Notux.Vmm

open Notux.Store Notux.Proc

/-! ## Addresses as numbers -/

theorem idx_toNat (addr : Addr) (shift : Nat) :
    ((addr >>> shift) &&& 0x1FF).toNat = addr.toNat / 2 ^ shift % 512 := by
  have mask : (0x1FF : Addr).toNat = 2 ^ 9 - 1 := rfl
  rw [BitVec.toNat_and, BitVec.toNat_ushiftRight, mask, Nat.and_two_pow_sub_one_eq_mod,
    Nat.shiftRight_eq_div_pow]

/-- Addresses of one page have the 36 bits above the offset in common. -/
theorem samePage_iff (virt other : Addr) :
    SamePage virt other ↔ virt.toNat / 4096 % 2 ^ 36 = other.toNat / 4096 % 2 ^ 36 := by
  unfold SamePage tablePath
  simp only [List.cons.injEq, and_true, pml4Idx, pdpIdx, pdIdx, ptIdx, idx_toNat]
  omega

theorem pageMask_toNat (addr : Addr) : (addr &&& PAGE_MASK).toNat = addr.toNat / 4096 * 4096 := by
  have shifted : addr &&& PAGE_MASK = (addr >>> 12) <<< 12 := by
    apply BitVec.eq_of_getLsbD_eq
    intro k bound
    rw [BitVec.getLsbD_and, getLsbD_pageMask bound, BitVec.getLsbD_shiftLeft,
      BitVec.getLsbD_ushiftRight]
    by_cases low : k < 12
    · simp [low]
    · have back : 12 + (k - 12) = k := by omega
      simp [low, bound, back, Nat.le_of_not_lt low]
  rw [shifted, BitVec.toNat_shiftLeft, BitVec.toNat_ushiftRight, Nat.shiftRight_eq_div_pow,
    Nat.shiftLeft_eq]
  have bound := addr.isLt
  omega

/-- An address the processor translates: its highest bits are alike. -/
def Canonical (virt : Addr) : Prop := virt.toNat < 2 ^ 47 ∨ 2 ^ 64 - 2 ^ 47 ≤ virt.toNat

/-- The largest end of a heap that is not rounded up to zero. -/
abbrev LAST_END : Nat := 2 ^ 64 - 4096

theorem pageAlignUp_toNat {addr : Addr} (fits : addr.toNat ≤ LAST_END) :
    (pageAlignUp addr).toNat = (addr.toNat + 4095) / 4096 * 4096 := by
  unfold pageAlignUp
  rw [pageMask_toNat, BitVec.toNat_add, show (0xFFF : Addr).toNat = 4095 from rfl]
  simp only [LAST_END] at fits
  omega

theorem pageAlignUp_wraps {addr : Addr} (beyond : LAST_END < addr.toNat) :
    pageAlignUp addr = 0 := by
  apply BitVec.eq_of_toNat_eq
  unfold pageAlignUp
  rw [pageMask_toNat, BitVec.toNat_add, show (0xFFF : Addr).toNat = 4095 from rfl]
  change _ = 0
  have bound := addr.isLt
  simp only [LAST_END] at beyond
  omega

/-! ## The loops -/

/-- So many pages from a page on. -/
def pagesFrom : Nat → Addr → List Addr
  | 0, _ => []
  | count + 1, page => page :: pagesFrom count (page + 0x1000)

/-- How many pages the growing loop comes to. -/
def brkGrowCount (pml4 : Addr) : Nat → Addr → Vm → Nat
  | 0, _, _ => 0
  | count + 1, page, vm =>
      let (phys, taken) := pmmAllocPage.run vm
      if phys = 0 then 0
      else
        let mapped := ((vmmMapPage pml4 page phys VMM_USER_FLAGS).run taken).2
        brkGrowCount pml4 count (page + 0x1000) mapped + 1

theorem mem_pagesFrom {count : Nat} {page other : Addr} (member : other ∈ pagesFrom count page)
    (fits : page.toNat + count * 4096 ≤ 2 ^ 64) :
    ∃ k < count, other.toNat = page.toNat + k * 4096 := by
  induction count generalizing page with
  | zero => cases member
  | succ count ih =>
      rcases List.mem_cons.mp member with rfl | later
      · exact ⟨0, Nat.succ_pos _, by rw [Nat.zero_mul, Nat.add_zero]⟩
      · cases count with
        | zero => cases later
        | succ count =>
            have step : (0x1000 : Addr).toNat = 4096 := by decide
            have next : (page + 0x1000).toNat = page.toNat + 4096 := by
              rw [BitVec.toNat_add, step]
              omega
            have inside : (page + 0x1000).toNat + (count + 1) * 4096 ≤ 2 ^ 64 := by
              rw [next]
              omega
            obtain ⟨k, bound, place⟩ := ih later inside
            refine ⟨k + 1, Nat.succ_lt_succ bound, ?_⟩
            rw [place, next]
            omega

/-- Only the translations of some pages have changed. -/
structure Remaps (root : Addr) (pages : List Addr) (before after : Vm) : Prop where
  tree : PageTables after.toMemory root
  noGiant : ∀ virt, NoGiant before.tables root virt → NoGiant after.tables root virt
  outside : ∀ other, (∀ page ∈ pages, ¬ SamePage page other) →
    translation after.tables root other = translation before.tables root other
  bitmap : ∀ {i}, before.bitmap i = true → after.bitmap i = true

section

variable {root : Addr} {vm : Vm}

theorem Remaps.trans {before middle after : Vm} {pages pages' : List Addr}
    (first : Remaps root pages before middle) (second : Remaps root pages' middle after) :
    Remaps root (pages ++ pages') before after where
  tree := second.tree
  noGiant virt noGiant := second.noGiant virt (first.noGiant virt noGiant)
  outside other differ := by
    rw [second.outside other fun page member => differ page (List.mem_append_right _ member),
      first.outside other fun page member => differ page (List.mem_append_left _ member)]
  bitmap taken := second.bitmap (first.bitmap taken)

theorem Expands.remaps {before after : Vm} (expands : Expands root before after)
    (pages : List Addr) : Remaps root pages before after :=
  ⟨expands.tree, fun _ => expands.noGiant, fun other _ => expands.same other, expands.bitmap⟩

theorem Expands.remaps_write {grown : Vm} {pt virt entry : Addr} (expands : Expands root vm grown)
    (comes : LeadsTo grown.tables root (indexOf virt) 0 pt) :
    Remaps root [virt] vm (grown.write root pt virt entry) where
  tree := write_tree expands.tree comes
  noGiant _ noGiant := write_noGiant expands.tree comes (expands.noGiant noGiant)
  outside other differ := by
    rw [updates_write expands comes other, if_neg (differ virt List.mem_cons_self)]
  bitmap := expands.bitmap

variable (tree : PageTables vm.toMemory root)

include tree

theorem vmmMapPage_remaps {virt : Addr} (noGiant : NoGiant vm.tables root virt)
    (phys flags : Addr) :
    Leads (vmmMapPage root virt phys flags) (fun _ => Remaps root [virt] vm) vm := by
  apply (vmmMapPage_updates tree noGiant phys flags).mono
  intro _ after outcome
  rcases outcome with ⟨expands, -⟩ | ⟨grown, pt, expands, comes, rfl⟩
  · exact expands.remaps _
  · exact expands.remaps_write comes

theorem vmmUnmapPage_remaps {virt : Addr} (noGiant : NoGiant vm.tables root virt) :
    Leads (vmmUnmapPage root virt) (fun _ => Remaps root [virt] vm) vm := by
  apply (vmmUnmapPage_updates tree noGiant).mono
  intro _ after outcome
  cases outcome with
  | stuck _ _ expands _ => exact expands.remaps _
  | split grown pt i _ expands comes _ _ _ => exact expands.remaps_write comes
  | cleared pt _ comes => exact (Expands.refl tree).remaps_write comes
  | absent _ _ => exact (Expands.refl tree).remaps _

end

/-- Taking more frames leaves fewer. -/
theorem freeFrames_le {bitmap bitmap' : Nat → Bool}
    (taken : ∀ {i}, bitmap i = true → bitmap' i = true) :
    freeFrames bitmap' ≤ freeFrames bitmap := by
  apply Finset.card_le_card
  intro i member
  rw [Finset.mem_filter] at member ⊢
  refine ⟨member.1, ?_⟩
  by_contra already
  rw [taken (Bool.eq_true_of_not_eq_false already)] at member
  exact absurd member.2 (by decide)

theorem freeFrames_le_max (bitmap : Nat → Bool) : freeFrames bitmap ≤ MAX_PAGES := by
  have most := Finset.card_filter_le (Finset.range MAX_PAGES) fun i => bitmap i = false
  rwa [Finset.card_range] at most

theorem Remaps.free {root : Addr} {pages : List Addr} {before after : Vm}
    (remaps : Remaps root pages before after) :
    freeFrames after.bitmap ≤ freeFrames before.bitmap :=
  freeFrames_le remaps.bitmap

section Loops

variable {root : Addr} {vm : Vm} (tree : PageTables vm.toMemory root)
  (noGiant : ∀ virt, NoGiant vm.tables root virt)

include tree noGiant

/-- The growing loop takes a frame for every page it comes to. -/
theorem brkGrow_remaps (count : Nat) (page : Addr) :
    Leads (brkGrow root count page)
      (fun success after =>
        Remaps root (pagesFrom (brkGrowCount root count page vm) page) vm after ∧
        freeFrames after.bitmap + brkGrowCount root count page vm ≤ freeFrames vm.bitmap ∧
        (success = true → brkGrowCount root count page vm = count)) vm := by
  induction count generalizing page vm with
  | zero =>
      unfold brkGrow brkGrowCount
      rw [leads_pure, Nat.add_zero]
      exact ⟨(Expands.refl tree).remaps _, Nat.le_refl _, fun _ => rfl⟩
  | succ count ih =>
      unfold brkGrow brkGrowCount
      rw [leads_bind]
      have alloc := pmmAllocPage_spec vm
      unfold Leads at alloc ⊢
      generalize StateT.run pmmAllocPage vm = outcome at alloc ⊢
      obtain ⟨phys, taken⟩ := outcome
      dsimp only at alloc ⊢
      by_cases null : phys = 0
      · rw [if_pos null, if_pos null]
        rw [Nat.add_zero]
        rcases alloc with ⟨-, -, rfl⟩ | ⟨i, -, -, rfl⟩
        · exact ⟨(Expands.refl tree).remaps _, Nat.le_refl _, nofun⟩
        · exact ⟨(expands_take tree i).remaps _, freeFrames_le Vm.take_bitmap, nofun⟩
      · rw [if_neg null, if_neg null]
        rcases alloc with ⟨-, zero, -⟩ | ⟨i, search, -, rfl⟩
        · exact absurd zero null
        · have expands := expands_take tree i
          have fewer := freeFrames_pos search
          have mapped := vmmMapPage_remaps expands.tree (expands.noGiant (noGiant page)) phys
            VMM_USER_FLAGS
          unfold Leads at mapped
          have rest := ih mapped.tree (fun virt => mapped.noGiant virt (noGiant virt))
            (page + 0x1000)
          unfold Leads at rest
          obtain ⟨remaps, frees, done⟩ := rest
          have lost := mapped.free
          refine ⟨?_, ?_, fun success => congrArg Nat.succ (done success)⟩
          · exact ((expands.remaps []).trans mapped).trans remaps
          · change freeFrames (vm.take i).bitmap + 1 = freeFrames vm.bitmap at fewer
            apply Nat.le_trans (Nat.succ_le_succ frees)
            omega

theorem brkGrowCount_le (count : Nat) (page : Addr) :
    brkGrowCount root count page vm ≤ freeFrames vm.bitmap := by
  have grown := brkGrow_remaps tree noGiant count page
  exact Nat.le_trans (Nat.le_add_left _ _) grown.2.1

/-- The shrinking loop. -/
theorem brkShrink_remaps (count : Nat) (page : Addr) :
    Leads (brkShrink root count page)
      (fun _ after => Remaps root (pagesFrom count page) vm after) vm := by
  induction count generalizing page vm with
  | zero => exact (Expands.refl tree).remaps _
  | succ count ih =>
      unfold brkShrink
      rw [leads_bind]
      apply (vmmUnmapPage_remaps tree (noGiant page)).mono
      intro _ middle unmapped
      apply (ih unmapped.tree (fun virt => unmapped.noGiant virt (noGiant virt))
        (page + 0x1000)).mono
      intro _ after remaps
      exact unmapped.trans remaps

end Loops

/-! ## The call -/

/-- The machine with new page tables and new bounds of the heap of the current
process. -/
def Machine.withHeap (machine : Machine) (heapStart heapEnd : Addr) (vm : Vm) : Machine where
  vm := vm
  table := machine.table.modify machine.table.current fun process =>
    { process with heapStart := heapStart.toNat, heapEnd := heapEnd.toNat }

/-- The page tables of the current process. -/
def Machine.root (machine : Machine) : Addr := rootOf machine.table.currentProcess

/-- The bounds of the heap of the current process. -/
def Machine.heap (machine : Machine) : Addr × Addr := heapBounds machine.table.currentProcess

section

variable {machine : Machine} {heapStart heapEnd heapEnd' : Addr} {vm vm' : Vm}

theorem withHeap_current : (machine.withHeap heapStart heapEnd vm).table.currentProcess =
    { machine.table.currentProcess with
      heapStart := heapStart.toNat, heapEnd := heapEnd.toNat } := by
  unfold Machine.withHeap ProcTable.currentProcess ProcTable.modify
  exact Function.update_self ..

theorem withHeap_root : (machine.withHeap heapStart heapEnd vm).root = machine.root := by
  unfold Machine.root
  rw [withHeap_current]
  rfl

theorem withHeap_heap (nonzero : heapStart ≠ 0) :
    (machine.withHeap heapStart heapEnd vm).heap = (heapStart, heapEnd) := by
  have positive : heapStart.toNat ≠ 0 := fun zero => nonzero (BitVec.eq_of_toNat_eq zero)
  unfold Machine.heap heapBounds
  rw [withHeap_current]
  simp only [if_neg positive, BitVec.ofNat_toNat, BitVec.setWidth_eq]

theorem withHeap_withHeap :
    (machine.withHeap heapStart heapEnd vm).withHeap heapStart heapEnd' vm' =
      machine.withHeap heapStart heapEnd' vm' := by
  simp [Machine.withHeap, ProcTable.modify]

end

/-- The pages that the loops of `sys_brk` come to. -/
def brkPages (machine : Machine) (newBrk : Addr) : List Addr :=
  let (heapStart, heapEnd) := machine.heap
  if newBrk = 0 ∨ newBrk = heapEnd then []
  else if newBrk < heapStart then []
  else
    let currentPageEnd := pageAlignUp heapEnd
    let newPageEnd := pageAlignUp newBrk
    if currentPageEnd < newPageEnd then
      pagesFrom (brkGrowCount machine.root ((newPageEnd - currentPageEnd) >>> 12).toNat
        currentPageEnd machine.vm) currentPageEnd
    else pagesFrom ((currentPageEnd - newPageEnd) >>> 12).toNat newPageEnd

/-- What `sys_brk` comes to. -/
inductive BrkOutcome (machine : Machine) (newBrk : Addr) : Addr → Machine → Prop where
  | idle (stays : newBrk = 0 ∨ newBrk = machine.heap.2 ∨ newBrk < machine.heap.1) :
      BrkOutcome machine newBrk machine.heap.2
        (machine.withHeap machine.heap.1 machine.heap.2 machine.vm)
  | grown (success : Bool) (vm : Vm) (moves : newBrk ≠ 0 ∧ newBrk ≠ machine.heap.2)
      (above : ¬ newBrk < machine.heap.1)
      (grows : pageAlignUp machine.heap.2 < pageAlignUp newBrk)
      (loop : (brkGrow machine.root ((pageAlignUp newBrk - pageAlignUp machine.heap.2) >>> 12).toNat
        (pageAlignUp machine.heap.2)).run machine.vm = (success, vm)) :
      BrkOutcome machine newBrk (if success then newBrk else machine.heap.2)
        (machine.withHeap machine.heap.1 (if success then newBrk else machine.heap.2) vm)
  | shrunk (vm : Vm) (moves : newBrk ≠ 0 ∧ newBrk ≠ machine.heap.2)
      (above : ¬ newBrk < machine.heap.1)
      (shrinks : ¬ pageAlignUp machine.heap.2 < pageAlignUp newBrk)
      (loop : (brkShrink machine.root
        ((pageAlignUp machine.heap.2 - pageAlignUp newBrk) >>> 12).toNat
        (pageAlignUp newBrk)).run machine.vm = ((), vm)) :
      BrkOutcome machine newBrk newBrk (machine.withHeap machine.heap.1 newBrk vm)

theorem sysBrk_spec (machine : Machine) (newBrk : Addr) :
    Leads (sysBrk newBrk) (BrkOutcome machine newBrk) machine := by
  unfold sysBrk
  rw [leads_bind, leads_get]
  dsimp only
  rw [leads_bind]
  change Leads (if newBrk = 0 ∨ newBrk = machine.heap.2 then _ else _) (BrkOutcome machine newBrk)
    (machine.withHeap machine.heap.1 machine.heap.2 machine.vm)
  split
  · next stays =>
    exact .idle (stays.imp_right Or.inl)
  · next moves =>
    rw [not_or] at moves
    split
    · next below =>
      exact .idle (Or.inr (Or.inr below))
    · next above =>
      split
      · next grows =>
        rw [leads_bind, leads_onVm]
        apply leads_run.mono
        intro success vm loop
        have outcome := BrkOutcome.grown success vm moves above grows loop
        cases success with
        | true =>
            change BrkOutcome machine newBrk newBrk (machine.withHeap machine.heap.1 newBrk vm)
              at outcome
            rw [← @withHeap_withHeap _ _ machine.heap.2 _ vm _] at outcome
            exact outcome
        | false => exact outcome
      · next shrinks =>
        rw [leads_bind, leads_onVm]
        apply leads_run.mono
        intro _ vm loop
        have outcome := BrkOutcome.shrunk vm moves above shrinks loop
        rw [← @withHeap_withHeap _ _ machine.heap.2 _ vm _] at outcome
        exact outcome

/-! ## Runs of calls -/

/-- The page tables of the current process are a tree without pages of one gigabyte. -/
structure HasTables (machine : Machine) : Prop where
  tree : PageTables machine.vm.toMemory machine.root
  noGiant : ∀ virt, NoGiant machine.vm.tables machine.root virt

/-- Other code has taken frames. -/
def Machine.lend (machine : Machine) (lent : Nat → Bool) : Machine :=
  { machine with vm := { machine.vm with bitmap := fun i => lent i || machine.vm.bitmap i } }

/-- The calls of a process, while other code takes frames.  Every call returns, and it and the
pointers that it follows meet a condition. -/
inductive BrkRun (meets : Machine → Addr → List Use → Prop) (start : Machine) : Machine → Prop where
  | start : BrkRun meets start start
  | brk {machine after : Machine} {value : Addr} {used : List Use} (newBrk : Addr)
      (run : BrkRun meets start machine)
      (returns : (Paged.sysBrk newBrk).run machine = some (value, after, used))
      (met : meets machine newBrk used) : BrkRun meets start after
  | lend {machine : Machine} (lent : Nat → Bool) (run : BrkRun meets start machine) :
      BrkRun meets start (machine.lend lent)

/-- A call whose pointers are mapped onto themselves changes no translation outside of the heap,
and its loops stay in the heap. -/
structure OnlyHeap (newBrk : Addr) (machine : Machine) : Prop where
  outside : ∀ value after used, (Paged.sysBrk newBrk).run machine = some (value, after, used) →
    (∀ use ∈ used, use.Direct) →
      ∀ virt, Canonical virt → virt < machine.heap.1 ∨ 2 ^ 48 ≤ virt.toNat →
        translation after.vm.tables machine.root virt =
          translation machine.vm.tables machine.root virt
  loops : ∀ page ∈ brkPages machine newBrk, machine.heap.1 ≤ page

/-- The heap lies where the frames that have been taken allow it to lie. -/
structure HeapBounded (machine : Machine) : Prop extends HasTables machine where
  start : machine.heap.1 = HEAP_START
  above : HEAP_START.toNat ≤ machine.heap.2.toNat
  room : (machine.heap.2.toNat + 4095) / 4096 + freeFrames machine.vm.bitmap ≤
    HEAP_START.toNat / 4096 + MAX_PAGES

/-! ## One call -/

theorem Machine.lend_bounded {machine : Machine} (bounded : HeapBounded machine)
    (lent : Nat → Bool) : HeapBounded (machine.lend lent) where
  tree :=
    { unshared := bounded.tree.unshared
      nonnull := bounded.tree.nonnull
      inUse := fun comes i bound free =>
        bounded.tree.inUse comes i bound (Bool.or_eq_false_iff.mp free).2
      small := bounded.tree.small }
  noGiant := bounded.noGiant
  start := bounded.start
  above := bounded.above
  room := by
    apply Nat.le_trans _ bounded.room
    apply Nat.add_le_add_left
    apply freeFrames_le
    intro i taken
    change (lent i || machine.vm.bitmap i) = true
    rw [taken, Bool.or_true]

section

variable {machine : Machine} {newBrk : Addr}

theorem pages_toNat {first last : Addr} (below : first.toNat ≤ last.toNat) :
    ((last - first) >>> 12).toNat = (last.toNat - first.toNat) / 4096 := by
  rw [BitVec.toNat_ushiftRight, BitVec.toNat_sub_of_le below, Nat.shiftRight_eq_div_pow]

/-- The loops come to pages between the old and the new end of the heap, as long as the
frames last. -/
theorem brkPages_bounds (bounded : HeapBounded machine) (fits : newBrk.toNat ≤ LAST_END)
    {page : Addr} (member : page ∈ brkPages machine newBrk) :
    HEAP_START.toNat ≤ page.toNat ∧ page.toNat < 2 ^ 47 := by
  have base : HEAP_START.toNat = 0x700000000000 := rfl
  have above := bounded.above
  have room := bounded.room
  have most := freeFrames_le_max machine.vm.bitmap
  simp only [MAX_PAGES, PAGE_SIZE] at room most
  have endFits : machine.heap.2.toNat ≤ LAST_END := by
    simp only [LAST_END]
    omega
  have endPage := pageAlignUp_toNat endFits
  have newPage := pageAlignUp_toNat fits
  unfold brkPages at member
  dsimp only at member
  split at member
  · cases member
  · split at member
    · cases member
    · next reached =>
      rw [bounded.start, BitVec.lt_def, not_lt] at reached
      split at member
      · have counted := brkGrowCount_le bounded.tree bounded.noGiant
          ((pageAlignUp newBrk - pageAlignUp machine.heap.2) >>> 12).toNat
          (pageAlignUp machine.heap.2)
        obtain ⟨k, inside, place⟩ := mem_pagesFrom member (by omega)
        omega
      · next shrinks =>
        rw [BitVec.lt_def, not_lt] at shrinks
        have pages := pages_toNat shrinks
        obtain ⟨k, inside, place⟩ := mem_pagesFrom member (by omega)
        omega

/-- A call that returns, with all its pointers mapped onto themselves. -/
theorem BrkOutcome.of_run {value : Addr} {after : Machine} {used : List Use}
    (returns : (Paged.sysBrk newBrk).run machine = some (value, after, used))
    (direct : ∀ use ∈ used, use.Direct) : BrkOutcome machine newBrk value after := by
  have outcome := sysBrk_spec machine newBrk
  unfold Leads at outcome
  rwa [(Paged.sysBrk_follows newBrk).run_eq returns direct] at outcome

theorem BrkOutcome.remaps {value : Addr} {after : Machine} (tables : HasTables machine)
    (outcome : BrkOutcome machine newBrk value after) :
    Remaps machine.root (brkPages machine newBrk) machine.vm after.vm := by
  cases outcome with
  | idle => exact (Expands.refl tables.tree).remaps _
  | grown success vm moves above grows loop =>
      have leads := brkGrow_remaps tables.tree tables.noGiant
        ((pageAlignUp newBrk - pageAlignUp machine.heap.2) >>> 12).toNat (pageAlignUp machine.heap.2)
      unfold Leads at leads
      rw [loop] at leads
      unfold brkPages
      simp only [not_or.mpr moves, above, grows, if_true, if_false]
      exact leads.1
  | shrunk vm moves above shrinks loop =>
      have leads := brkShrink_remaps tables.tree tables.noGiant
        ((pageAlignUp machine.heap.2 - pageAlignUp newBrk) >>> 12).toNat (pageAlignUp newBrk)
      unfold Leads at leads
      rw [loop] at leads
      unfold brkPages
      simp only [not_or.mpr moves, above, shrinks, if_false]
      exact leads

/-- The heap keeps its bounds if the pages it grows by have taken frames. -/
theorem HeapBounded.withHeap {vm : Vm} {pages : List Addr} {heapEnd : Addr}
    (bounded : HeapBounded machine) (remaps : Remaps machine.root pages machine.vm vm)
    (above : HEAP_START.toNat ≤ heapEnd.toNat)
    (room : (heapEnd.toNat + 4095) / 4096 + freeFrames vm.bitmap ≤
      (machine.heap.2.toNat + 4095) / 4096 + freeFrames machine.vm.bitmap) :
    HeapBounded (machine.withHeap machine.heap.1 heapEnd vm) := by
  have bounds : (machine.withHeap machine.heap.1 heapEnd vm).heap = (machine.heap.1, heapEnd) := by
    apply withHeap_heap
    rw [bounded.start]
    decide
  constructor
  · constructor
    · rw [withHeap_root]
      exact remaps.tree
    · intro virt
      rw [withHeap_root]
      exact remaps.noGiant virt (bounded.noGiant virt)
  · rw [bounds]
    exact bounded.start
  · rw [bounds]
    exact above
  · rw [bounds]
    exact Nat.le_trans room bounded.room

theorem BrkOutcome.bounded {value : Addr} {after : Machine} (bounded : HeapBounded machine)
    (fits : newBrk.toNat ≤ LAST_END) (outcome : BrkOutcome machine newBrk value after) :
    HeapBounded after := by
  have remaps := outcome.remaps bounded.toHasTables
  have above := bounded.above
  have room := bounded.room
  have most := freeFrames_le_max machine.vm.bitmap
  have base : HEAP_START.toNat = 0x700000000000 := rfl
  simp only [MAX_PAGES, PAGE_SIZE] at room most
  have endPage := @pageAlignUp_toNat machine.heap.2 (by simp only [LAST_END]; omega)
  have newPage := pageAlignUp_toNat fits
  cases outcome with
  | idle => exact bounded.withHeap remaps above (Nat.le_refl _)
  | grown success vm moves reached grows loop =>
      cases success with
      | false => exact bounded.withHeap remaps above (Nat.add_le_add_left remaps.free _)
      | true =>
          have leads := brkGrow_remaps bounded.tree bounded.noGiant
            ((pageAlignUp newBrk - pageAlignUp machine.heap.2) >>> 12).toNat
            (pageAlignUp machine.heap.2)
          unfold Leads at leads
          rw [loop] at leads
          obtain ⟨-, frees, done⟩ := leads
          rw [done rfl, pages_toNat (Nat.le_of_lt (BitVec.lt_def.mp grows))] at frees
          rw [bounded.start, BitVec.lt_def, not_lt] at reached
          apply bounded.withHeap remaps reached
          change _ + freeFrames vm.bitmap ≤ _
          change freeFrames vm.bitmap + _ ≤ _ at frees
          omega
  | shrunk vm moves reached shrinks loop =>
      rw [bounded.start, BitVec.lt_def, not_lt] at reached
      rw [BitVec.lt_def, not_lt] at shrinks
      have fewer := remaps.free
      apply bounded.withHeap remaps reached
      omega

/-- Within its bounds a heap stays there, and only translations in the heap change. -/
theorem onlyHeap_of_fits (bounded : HeapBounded machine) (fits : newBrk.toNat ≤ LAST_END) :
    OnlyHeap newBrk machine where
  outside := by
    intro value after used returns direct virt canonical outside
    have remaps := (BrkOutcome.of_run returns direct).remaps bounded.toHasTables
    apply remaps.outside
    intro page member same
    have bounds := brkPages_bounds bounded fits member
    rw [samePage_iff] at same
    have base : HEAP_START.toNat = 0x700000000000 := rfl
    rw [bounded.start, BitVec.lt_def] at outside
    rcases canonical with low | high
    all_goals omega
  loops page member := by
    rw [bounded.start]
    exact (brkPages_bounds bounded fits member).1

/-- An end in the last page of the address space is rounded to zero, and the loop begins
there. -/
theorem zero_mem_brkPages (bounded : HeapBounded machine) (beyond : LAST_END < newBrk.toNat) :
    0 ∈ brkPages machine newBrk := by
  have above := bounded.above
  have room := bounded.room
  have base : HEAP_START.toNat = 0x700000000000 := rfl
  simp only [MAX_PAGES, PAGE_SIZE] at room
  simp only [LAST_END] at beyond
  have wraps := pageAlignUp_wraps beyond
  have endPage := @pageAlignUp_toNat machine.heap.2 (by simp only [LAST_END]; omega)
  have moves : ¬ (newBrk = 0 ∨ newBrk = machine.heap.2) := by
    rintro (rfl | rfl)
    · exact absurd beyond (by decide)
    · omega
  have reached : ¬ newBrk < machine.heap.1 := by
    rw [bounded.start, BitVec.lt_def]
    omega
  have shrinks : ¬ pageAlignUp machine.heap.2 < 0 := by
    rw [BitVec.lt_def]
    exact Nat.not_lt_zero _
  unfold brkPages
  simp only [moves, reached, if_false, wraps, shrinks]
  rw [pages_toNat (Nat.zero_le _)]
  obtain ⟨count, counted⟩ : ∃ count,
      ((pageAlignUp machine.heap.2).toNat - (0 : Addr).toNat) / 4096 = count + 1 := by
    refine ⟨(machine.heap.2.toNat + 4095) / 4096 - 1, ?_⟩
    change ((pageAlignUp machine.heap.2).toNat - 0) / 4096 = _
    omega
  rw [counted]
  exact List.mem_cons_self

theorem not_onlyHeap (bounded : HeapBounded machine) (beyond : LAST_END < newBrk.toNat) :
    ¬ OnlyHeap newBrk machine := by
  intro only
  have low := only.loops 0 (zero_mem_brkPages bounded beyond)
  rw [bounded.start] at low
  exact absurd low (by decide)

end

/-! ## Every run of calls -/

/-- The page tables of the processes of a machine that has booted. -/
theorem Safe.hasTables {machine : Machine} (safe : Safe machine) (nonnull : machine.root ≠ 0) :
    HasTables machine := by
  rcases safe with ⟨procs, ⟨place, checked⟩, inside⟩
  have placed := checked.watched.placed
  rcases inside machine.table.current with null | member
  · exact absurd null nonnull
  · have isRoot := checked.watched.areRoots machine.root (List.mem_cons_of_mem _ member)
    exact ⟨placed.pageTables isRoot, placed.noGiant isRoot⟩

theorem BrkRun.bounded {start machine : Machine} (tables : HasTables start)
    (unset : start.table.currentProcess.heapStart = 0)
    (run : BrkRun (fun _ newBrk used => newBrk.toNat ≤ LAST_END ∧ ∀ use ∈ used, use.Direct)
      start machine) : HeapBounded machine := by
  induction run with
  | start =>
      have bounds : start.heap = (HEAP_START, HEAP_START) := if_pos unset
      constructor
      · exact tables
      · rw [bounds]
      · rw [bounds]
      · rw [bounds]
        exact Nat.add_le_add_left (freeFrames_le_max _) _
  | brk newBrk _ returns met ih => exact (BrkOutcome.of_run returns met.2).bounded ih met.1
  | lend lent _ ih => exact Machine.lend_bounded ih lent

/-- As long as every pointer is mapped onto itself and no end lies in the last page of the address
space, calls change only translations in the heap, and their loops stay there; and a call with
such an end does not. -/
theorem brk_only_heap {start machine : Machine} (tables : HasTables start)
    (unset : start.table.currentProcess.heapStart = 0)
    (run : BrkRun (fun _ newBrk used => newBrk.toNat ≤ LAST_END ∧ ∀ use ∈ used, use.Direct)
      start machine) (newBrk : Addr) :
    OnlyHeap newBrk machine ↔ newBrk.toNat ≤ LAST_END := by
  have bounded := run.bounded tables unset
  constructor
  · intro only
    by_contra beyond
    exact not_onlyHeap bounded (Nat.lt_of_not_le beyond) only
  · exact onlyHeap_of_fits bounded

/-- The first process runs. -/
def runningMachine : Machine := (Event.timer 0).after textLayout pageBoot.2

theorem runningMachine_facts :
    runningMachine.root ≠ 0 ∧ runningMachine.table.currentProcess.heapStart = 0 ∧
      ((Paged.sysBrk (HEAP_START + 1)).run runningMachine).any
        (fun done => done.2.2.all fun use => use.Direct) = true ∧
      (translation runningMachine.vm.tables runningMachine.root 0).isSome = true ∧
      ((Paged.vmmUnmapPage runningMachine.root 0).run runningMachine.vm).any (fun done =>
        (done.2.2.all fun use => use.Direct) &&
          (translation done.2.1.tables runningMachine.root 0).isNone) = true := by
  decide +kernel

theorem runningMachine_hasTables : HasTables runningMachine := by
  have reaches : Reaches textLayout (fun _ _ => True) pageBoot.2 pageBoot.2 := .start
  have safe := (reaches.step (.timer 0) trivial trivial).safe pageBoot_booted.safe
  exact Safe.hasTables safe runningMachine_facts.1

/-- The machine after its first call. -/
def calledMachine : Machine := ((sysBrk (HEAP_START + 1)).run runningMachine).2

theorem calledMachine_run :
    BrkRun (fun _ newBrk used => newBrk.toNat ≤ LAST_END ∧ ∀ use ∈ used, use.Direct)
      runningMachine calledMachine := by
  obtain ⟨used, returns, direct⟩ := (Paged.sysBrk_follows (HEAP_START + 1)).exists_run
    (fun direct => direct) runningMachine_facts.2.2.1
  exact .brk (HEAP_START + 1) .start returns ⟨by decide, direct⟩

theorem brk_only_heap_of_calledMachine :
    OnlyHeap 0 calledMachine ↔ (0 : Addr).toNat ≤ LAST_END :=
  brk_only_heap runningMachine_hasTables runningMachine_facts.2.1 calledMachine_run 0

/-- With the last address as the end of the heap, the loop begins at the first page of the
address space, and unmaps it. -/
theorem brk_below_heap :
    0 ∈ brkPages runningMachine 0xFFFFFFFFFFFFFFFF ∧
      (translation runningMachine.vm.tables runningMachine.root 0).isSome = true ∧
      ((Paged.vmmUnmapPage runningMachine.root 0).run runningMachine.vm).any (fun done =>
        (done.2.2.all fun use => use.Direct) &&
          (translation done.2.1.tables runningMachine.root 0).isNone) = true ∧
      ¬ ∀ (start machine : Machine) (newBrk : Addr), HasTables start →
        start.table.currentProcess.heapStart = 0 → BrkRun (fun _ _ _ => True) start machine →
          OnlyHeap newBrk machine := by
  have tables := runningMachine_hasTables
  obtain ⟨-, unset, -, mapped, unmaps⟩ := runningMachine_facts
  have bounded := BrkRun.bounded tables unset .start
  have beyond : LAST_END < (0xFFFFFFFFFFFFFFFF : Addr).toNat := by decide
  refine ⟨zero_mem_brkPages bounded beyond, mapped, unmaps, fun only => ?_⟩
  exact not_onlyHeap bounded beyond (only _ _ _ tables unset .start)

end Notux.Vmm
