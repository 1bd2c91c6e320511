import Notux.Vmm.Heap
import Notux.Vmm.Loader

/-!
# What the loader leaves in memory

A page that was loaded shows the last segment that covers it: the bytes of the file, and zeros
around them.  Each has a frame that was free before.  No other address is mapped elsewhere.  What
was in use keeps its bytes, and its entries unless it is a page table of the process.  All this
unless the frames run out, which `vmm_map_page` does not tell.

Bytes and entries are kept apart, and both are written at physical addresses; so the result is
about runs in which the page tables of the caller map what the loader follows onto itself.
-/

namespace Notux.Vmm.Loader

open Notux.Store

/-! ## What is written -/

/-- Between two states the page tables and the bytes are the same. -/
structure Still (before after : LoadState) : Prop where
  vm : after.vm = before.vm
  bytes : after.bytes = before.bytes

/-- The byte that a segment shows at an address. -/
def segmentByte (file : Nat → BitVec 8) (ph : Phdr) (addr : Nat) : BitVec 8 :=
  if ph.pVaddr.toNat ≤ addr ∧ addr < ph.pVaddr.toNat + ph.pFilesz.toNat then
    file (ph.pOffset.toNat + (addr - ph.pVaddr.toNat))
  else 0

/-- The bytes from an address on have been written, and no others. -/
structure Wrote (before : LoadState) (base count : Nat) (value : Nat → BitVec 8)
    (after : LoadState) : Prop where
  vm : after.vm = before.vm
  bytes : ∀ addr : Addr, after.bytes addr =
    if base ≤ addr.toNat ∧ addr.toNat < base + count then value (addr.toNat - base)
    else before.bytes addr

section

variable {α β : Type} {program : LoaderM α} {P Q : α → LoadState → Prop}
  {state before middle after : LoadState}

theorem Ends.and (first : Ends program P state) (second : Ends program Q state) :
    Ends program (fun value after => P value after ∧ Q value after) state := by
  obtain ⟨value, after, run, holds⟩ := first.arrives.exists_some id
  refine ⟨?_⟩
  unfold Arrives
  rw [run]
  exact ⟨holds, second.arrives.of_some run⟩

theorem Still.refl : Still state state := ⟨rfl, rfl⟩

theorem Still.trans (first : Still before middle) (second : Still middle after) :
    Still before after :=
  ⟨second.vm.trans first.vm, second.bytes.trans first.bytes⟩

/-- A program that leaves the page tables and the bytes alone, and its value. -/
def Stays {α : Type} (program : LoaderM α) (P : α → Prop) (state : LoadState) : Prop :=
  Ends program (fun value after => P value ∧ Still state after) state

theorem Stays.bind {P : α → Prop} {next : α → LoaderM β} {Q : β → LoadState → Prop}
    (stays : Stays program P state)
    (goes : ∀ value after, P value → Still state after → Ends (next value) Q after) :
    Ends (program >>= next) Q state :=
  Ends.bind stays fun value after ⟨holds, still⟩ => goes value after holds still

theorem add_stays (first second : Addr) :
    Stays (add first second) (fun value => value = first + second) state :=
  ⟨rfl, rfl, rfl⟩

theorem sub_stays (first second : Addr) :
    Stays (sub first second) (fun value => value = first - second) state :=
  ⟨rfl, rfl, rfl⟩

theorem readByte_stays (file : Nat → BitVec 8) (index : Nat) :
    Stays (readByte file index) (fun value => value = file index) state :=
  ⟨rfl, rfl, rfl⟩

theorem field_stays (file : Nat → BitVec 8) (off count : Nat) :
    Stays (field file off count) (fun value => value = wordAt file off count) state := by
  induction count generalizing off state with
  | zero => exact .pure ⟨(wordAt_zero file off).symm, .refl⟩
  | succ count ih =>
      unfold field
      apply (readByte_stays file off).bind
      rintro _ first rfl still
      apply (ih (off + 1)).bind
      rintro _ rest rfl still'
      exact .pure ⟨(wordAt_succ file off count).symm, still.trans still'⟩

theorem readPhdr_stays (file : Nat → BitVec 8) (off : Nat) :
    Stays (readPhdr file off (wordAt file off 4)) (fun ph => ph = phdrAt file off) state := by
  unfold readPhdr
  apply (field_stays file _ 4).bind
  rintro _ _ rfl still₁
  apply (field_stays file _ 8).bind
  rintro _ _ rfl still₂
  apply (field_stays file _ 8).bind
  rintro _ _ rfl still₃
  apply (field_stays file _ 8).bind
  rintro _ _ rfl still₄
  apply (field_stays file _ 8).bind
  rintro _ _ rfl still₅
  exact .pure ⟨rfl, (((still₁.trans still₂).trans still₃).trans still₄).trans still₅⟩

/-- A byte is written. -/
theorem writeByte_writes (addr : Addr) (value : BitVec 8) :
    Ends (writeByte addr value)
      (fun _ after => after.vm = state.vm ∧ after.bytes = assign state.bytes addr value) state :=
  ⟨rfl, rfl⟩

/-- A counting loop that writes one byte after the other. -/
theorem forBelow_writes {rounds : Nat} {bound : Addr} {body : Addr → LoaderM Unit} {base : Nat}
    {value : Nat → BitVec 8} (enough : bound.toNat < rounds)
    (round : ∀ i < bound, ∀ before, Ends (body i) (fun _ after => after.vm = before.vm ∧
      ∃ addr : Addr, addr.toNat = base + i.toNat ∧
        after.bytes = assign before.bytes addr (value i.toNat)) before) :
    Ends (forBelow rounds bound body) (fun _ => Wrote state base bound.toNat value) state := by
  refine ⟨arrives_forBelow (I := fun count after => Wrote state base count value after) ?_ ?_ enough⟩
  · intro i below before wrote
    apply (round i below before).arrives.mono
    rintro _ after ⟨vm, place, isPlace, bytes⟩
    refine ⟨vm.trans wrote.vm, fun addr => ?_⟩
    rw [bytes]
    by_cases same : addr = place
    · subst same
      rw [assign_self, if_pos ⟨by omega, by omega⟩, isPlace, Nat.add_sub_cancel_left]
    · have differ : addr.toNat ≠ base + i.toNat := by
        intro equal
        exact same (BitVec.eq_of_toNat_eq (equal.trans isPlace.symm))
      rw [assign_of_ne same, wrote.bytes addr]
      congr 1
      exact propext ⟨fun inside => ⟨inside.1, by omega⟩, fun inside => ⟨inside.1, by omega⟩⟩
  · refine ⟨rfl, fun addr => ?_⟩
    rw [if_neg (by omega)]

end

section

variable {rounds : Nat} {root : Addr} {file : Nat → BitVec 8} {fileSize page phys : Addr}
  {ph : Phdr} {state : LoadState}

/-- The bytes of a page before and after the copy. -/
theorem copyPage_writes (fits : SegmentFits fileSize ph) (isPage : PageOf ph page)
    (enough : 2 ^ 64 ≤ rounds) (frame : phys.toNat + PAGE_SIZE < 2 ^ 64)
    (zeroed : ∀ addr : Addr, phys.toNat ≤ addr.toNat → addr.toNat < phys.toNat + PAGE_SIZE →
      state.bytes addr = 0) :
    Ends (copyPage rounds file fileSize ph phys page) (fun done after => done = true ∧
      Wrote state phys.toNat PAGE_SIZE (fun k => segmentByte file ph (page.toNat + k)) after)
      state := by
  have filesz := fits.filesz
  have source := fits.source
  have top := fits.top
  have start := isPage.start
  have pageTop := isPage.top
  have pageSize : (0x1000 : Addr).toNat = 4096 := rfl
  have fileEndAt : (ph.pVaddr + ph.pFilesz).toNat = ph.pVaddr.toNat + ph.pFilesz.toNat :=
    BitVec.toNat_add_of_lt (by omega)
  have limitAt : (page + 0x1000).toNat = page.toNat + 4096 := BitVec.toNat_add_of_lt (by omega)
  simp only [PAGE_SIZE] at frame zeroed
  unfold copyPage
  dsimp only
  generalize startIs : (if page < ph.pVaddr then ph.pVaddr else page) = copyStart
  have startAt : copyStart.toNat = max page.toNat ph.pVaddr.toNat := by
    rw [← startIs]
    split <;> bv_omega
  apply (add_stays ph.pVaddr ph.pFilesz).bind
  rintro _ s₁ rfl still₁
  apply (add_stays page 0x1000).bind
  rintro _ s₂ rfl still₂
  generalize endIs : (if page + 0x1000 > ph.pVaddr + ph.pFilesz then ph.pVaddr + ph.pFilesz
    else page + 0x1000) = copyEnd
  have endAt : copyEnd.toNat = min (page.toNat + 4096) (ph.pVaddr.toNat + ph.pFilesz.toNat) := by
    rw [← endIs]
    split <;> bv_omega
  have still := still₁.trans still₂
  by_cases empty : copyStart ≥ copyEnd
  · rw [if_pos empty]
    refine .pure ⟨rfl, still.vm, fun addr => ?_⟩
    rw [still.bytes]
    split
    · next inside =>
      rw [zeroed addr inside.1 inside.2, segmentByte, if_neg (by bv_omega)]
    · rfl
  · rw [if_neg empty]
    have nonempty : copyStart.toNat < copyEnd.toNat := by bv_omega
    have lenAt : (copyEnd - copyStart).toNat = copyEnd.toNat - copyStart.toNat :=
      BitVec.toNat_sub_of_le (by bv_omega)
    have inSegmentAt : (copyStart - ph.pVaddr).toNat = copyStart.toNat - ph.pVaddr.toNat :=
      BitVec.toNat_sub_of_le (by bv_omega)
    have srcOffAt : (ph.pOffset + (copyStart - ph.pVaddr)).toNat =
        ph.pOffset.toNat + (copyStart.toNat - ph.pVaddr.toNat) := by
      rw [BitVec.toNat_add_of_lt (by omega), inSegmentAt]
    have inPageAt : (copyStart - page).toNat = copyStart.toNat - page.toNat :=
      BitVec.toNat_sub_of_le (by bv_omega)
    apply (sub_stays copyEnd copyStart).bind
    rintro _ s₃ rfl still₃
    apply (sub_stays copyStart ph.pVaddr).bind
    rintro _ s₄ rfl still₄
    apply (add_stays ph.pOffset (copyStart - ph.pVaddr)).bind
    rintro _ s₅ rfl still₅
    rw [if_neg (by bv_omega)]
    apply (sub_stays fileSize (ph.pOffset + (copyStart - ph.pVaddr))).bind
    rintro _ s₆ rfl still₆
    rw [if_neg (by bv_omega)]
    apply (sub_stays copyStart page).bind
    rintro _ s₇ rfl still₇
    have before := ((((still.trans still₃).trans still₄).trans still₅).trans still₆).trans still₇
    have base : (phys + (copyStart - page)).toNat =
        phys.toNat + (copyStart.toNat - page.toNat) := by
      rw [BitVec.toNat_add_of_lt (by omega), inPageAt]
    have copies : Ends (forBelow rounds (copyEnd - copyStart) fun j => do
        let byte ← readByte file ((ph.pOffset + (copyStart - ph.pVaddr)).toNat + j.toNat)
        writeByte (phys + (copyStart - page) + j) byte)
        (fun _ => Wrote s₇ (phys + (copyStart - page)).toNat (copyEnd - copyStart).toNat fun j =>
          file ((ph.pOffset + (copyStart - ph.pVaddr)).toNat + j)) s₇ := by
      have short : (copyEnd - copyStart).toNat < rounds := by omega
      apply forBelow_writes short
      intro j below before
      have index : j.toNat < (copyEnd - copyStart).toNat := below
      apply (readByte_stays file _).bind
      rintro _ read rfl still
      apply (writeByte_writes _ _).mono
      rintro _ after ⟨vm, bytes⟩
      refine ⟨vm.trans still.vm, _, ?_, still.bytes ▸ bytes⟩
      rw [BitVec.toNat_add_of_lt (by omega)]
    apply copies.bind
    rintro _ after copied
    refine .pure ⟨rfl, copied.vm.trans before.vm, fun addr => ?_⟩
    rw [copied.bytes addr, before.bytes, base, lenAt, srcOffAt]
    simp only [PAGE_SIZE]
    by_cases inFile : phys.toNat + (copyStart.toNat - page.toNat) ≤ addr.toNat ∧
        addr.toNat < phys.toNat + (copyStart.toNat - page.toNat) +
          (copyEnd.toNat - copyStart.toNat)
    · rw [if_pos inFile, if_pos ⟨by omega, by omega⟩, segmentByte, if_pos ⟨by omega, by omega⟩]
      apply congrArg file
      omega
    · rw [if_neg inFile]
      split
      · next inside =>
        rw [zeroed addr inside.1 inside.2, segmentByte, if_neg (by omega)]
      · rfl

end

/-! ## The pages so far -/

/-- Whatever the loader does, frames in use stay in use and keep their bytes, and their entries
too if they are no tables of the root. -/
structure Spares (start : LoadState) (root : Addr) (after : LoadState) : Prop where
  bitmap : ∀ {i}, start.vm.bitmap i = true → after.vm.bitmap i = true
  bytes : ∀ addr : Addr, start.vm.bitmap (addr.toNat / PAGE_SIZE) = true →
    after.bytes addr = start.bytes addr
  entries : ∀ {table}, Foreign start.vm root table → after.vm.tables table = start.vm.tables table

/-- Frame `i` shows a page of a segment at an address.  It was free before, and it is no page
table. -/
structure ShownBy (start : LoadState) (root : Addr) (file : Nat → BitVec 8) (load : Phdr × Addr)
    (virt : Addr) (state : LoadState) (i : Nat) : Prop where
  bound : i < MAX_PAGES
  free : start.vm.bitmap i = false
  taken : state.vm.bitmap i = true
  noTable : ∀ {index level table}, LeadsTo state.vm.tables root index level table →
    table ≠ frameAddr i
  maps : translation state.vm.tables root virt =
    some ⟨frameAddr i ||| (virt &&& 0xFFF), load.1.pageFlags ||| PAGE_PRESENT⟩
  bytes : ∀ addr : Addr, addr.toNat / PAGE_SIZE = i →
    state.bytes addr = segmentByte file load.1 (load.2.toNat + addr.toNat % PAGE_SIZE)

/-- The pages that were loaded, the latest first, and what the last one at an address shows. -/
structure Laid (start : LoadState) (root : Addr) (file : Nat → BitVec 8)
    (done : List (Phdr × Addr)) (state : LoadState) : Prop where
  tree : PageTables state.vm.toMemory root
  noGiant : ∀ virt, NoGiant state.vm.tables root virt
  spares : Spares start root state
  added : ∀ {index level table}, LeadsTo state.vm.tables root index level table →
    LeadsTo start.vm.tables root index level table ∨
      ∃ i < MAX_PAGES, start.vm.bitmap i = false ∧ table = frameAddr i
  room : done.length + freeFrames state.vm.bitmap ≤ freeFrames start.vm.bitmap
  untouched : ∀ virt, (∀ load ∈ done, ¬ SamePage load.2 virt) →
    translation state.vm.tables root virt = translation start.vm.tables root virt
  shown : ∀ virt load, done.find? (fun load => SamePage load.2 virt) = some load →
    ∃ i, ShownBy start root file load virt state i

/-- The pages have been loaded, or the frames have run out on the way. -/
inductive Loads (start : LoadState) (root : Addr) (file : Nat → BitVec 8)
    (done : List (Phdr × Addr)) (state : LoadState) : Prop where
  | full (spares : Spares start root state) (none : nextFrame state.vm.bitmap = none) :
      Loads start root file done state
  | laid (laid : Laid start root file done state) : Loads start root file done state

section

variable {start state after : LoadState} {root : Addr} {file : Nat → BitVec 8}
  {done : List (Phdr × Addr)} {ph : Phdr} {page : Addr}

theorem Loads.spares (loads : Loads start root file done state) : Spares start root state := by
  cases loads with
  | full spares _ => exact spares
  | laid laid => exact laid.spares

theorem Loads.still (loads : Loads start root file done state) (still : Still state after) :
    Loads start root file done after := by
  obtain ⟨vm, bytes, frame, trace⟩ := state
  obtain ⟨vm', bytes', frame', trace'⟩ := after
  obtain ⟨sameVm, sameBytes⟩ := still
  dsimp only at sameVm sameBytes
  subst sameVm sameBytes
  cases loads with
  | full spares none => exact .full ⟨spares.bitmap, spares.bytes, spares.entries⟩ none
  | laid laid =>
      refine .laid ⟨laid.tree, laid.noGiant, ⟨laid.spares.bitmap, laid.spares.bytes, laid.spares.entries⟩,
        laid.added, laid.room, laid.untouched, ?_⟩
      intro virt load found
      obtain ⟨i, shown⟩ := laid.shown virt load found
      exact ⟨i, shown.bound, shown.free, shown.taken, shown.noTable, shown.maps, shown.bytes⟩

theorem pageFlags_flagsOnly (ph : Phdr) : FlagsOnly ph.pageFlags := by
  unfold Phdr.pageFlags
  split
  · decide
  · decide

/-- A frame that is taken was free from the start on, and what is written there is seen in no
frame that was in use. -/
theorem Laid.take {i : Nat} (laid : Laid start root file done state)
    (search : nextFrame state.vm.bitmap = some i)
    (bitmap : ∀ {j}, (state.vm.take i).bitmap j = true → after.vm.bitmap j = true)
    (entries : ∀ {table}, Foreign (state.vm.take i) root table →
      after.vm.tables table = state.vm.tables table)
    (bytes : ∀ addr : Addr, addr.toNat / PAGE_SIZE ≠ i → after.bytes addr = state.bytes addr) :
    start.vm.bitmap i = false ∧ Spares start root after := by
  have spares := laid.spares
  have free : start.vm.bitmap i = false := by
    by_contra taken
    have still := spares.bitmap (Bool.eq_true_of_not_eq_false taken)
    rw [(nextFrame_bound search).2] at still
    cases still
  refine ⟨free, fun taken => bitmap (Vm.take_bitmap (spares.bitmap taken)), ?_, ?_⟩
  · intro addr taken
    rw [bytes addr, spares.bytes addr taken]
    intro same
    rw [same, free] at taken
    cases taken
  · intro table foreign
    have now : Foreign state.vm root table := foreign.stays spares.bitmap laid.added
    have next : Foreign (state.vm.take i) root table := now.stays Vm.take_bitmap Or.inl
    exact (entries next).trans (spares.entries foreign)

/-- One more page: a frame is taken, the page is mapped to it, and it is filled. -/
theorem Laid.load (laid : Laid start root file done state) {i : Nat} {grown : Vm} {pt : Addr}
    (search : nextFrame state.vm.bitmap = some i) (expands : Expands root (state.vm.take i) grown)
    (comes : LeadsTo grown.tables root (indexOf page) 0 pt)
    (vm : after.vm = grown.write root pt page (leafEntry (frameAddr i) ph.pageFlags))
    (bytes : ∀ addr : Addr, after.bytes addr =
      if addr.toNat / PAGE_SIZE = i then segmentByte file ph (page.toNat + addr.toNat % PAGE_SIZE)
      else state.bytes addr) : Laid start root file ((ph, page) :: done) after := by
  obtain ⟨bound, free⟩ := nextFrame_bound search
  have bitmap : ∀ {j}, (state.vm.take i).bitmap j = true → after.vm.bitmap j = true := by
    intro j taken
    rw [vm]
    exact expands.bitmap taken
  have entries : ∀ {table}, Foreign (state.vm.take i) root table →
      after.vm.tables table = state.vm.tables table := by
    intro table foreign
    have apart : table ≠ pt := by
      rintro rfl
      exact (foreign.stays expands.bitmap expands.added).noTable comes
    have kept : (grown.write root pt page (leafEntry (frameAddr i) ph.pageFlags)).tables table =
        grown.tables table := assign_of_ne apart
    rw [vm, kept]
    exact expands.others foreign
  obtain ⟨freeBefore, spares⟩ := laid.take search bitmap entries fun addr differ =>
    (bytes addr).trans (if_neg differ)
  have update : ∀ other, translation after.vm.tables root other =
      if SamePage page other then
        some ⟨frameAddr i ||| (other &&& 0xFFF), ph.pageFlags ||| PAGE_PRESENT⟩
      else translation state.vm.tables root other := by
    intro other
    rw [vm, updates_write expands comes other]
    simp only [leafEntry_translates (aligned_frameAddr i) (pageFlags_flagsOnly ph)]
    rfl
  -- No frame that is in use becomes a page table.
  have noTable : ∀ {j}, (state.vm.take i).bitmap j = true → j < MAX_PAGES →
      (∀ {index level table}, LeadsTo state.vm.tables root index level table →
        table ≠ frameAddr j) →
      ∀ {index level table}, LeadsTo after.vm.tables root index level table →
        table ≠ frameAddr j := by
    intro j taken within before index level table leads
    rw [vm] at leads
    rcases expands.added ((write_comes_iff expands.tree comes).mp leads) with
      old | ⟨k, inside, unused, rfl⟩
    · exact before old
    · intro same
      rw [frameAddr_inj inside within same, taken] at unused
      cases unused
  have takenNow : (state.vm.take i).bitmap i = true := assign_self
  constructor
  · rw [vm]
    exact write_tree expands.tree comes
  · intro virt
    rw [vm]
    exact write_noGiant expands.tree comes (expands.noGiant (laid.noGiant virt))
  · exact spares
  · intro index level table leads
    rw [vm] at leads
    rcases expands.added ((write_comes_iff expands.tree comes).mp leads) with
      old | ⟨k, inside, unused, same⟩
    · exact laid.added old
    · refine .inr ⟨k, inside, ?_, same⟩
      by_contra taken
      have still := laid.spares.bitmap (Bool.eq_true_of_not_eq_false taken)
      rw [Vm.take_bitmap still] at unused
      cases unused
  · have fewer : freeFrames (state.vm.take i).bitmap + 1 = freeFrames state.vm.bitmap :=
      freeFrames_pos search
    have least : freeFrames after.vm.bitmap ≤ freeFrames (state.vm.take i).bitmap :=
      freeFrames_le bitmap
    have room := laid.room
    rw [List.length_cons]
    omega
  · intro virt differ
    rw [update, if_neg (differ _ List.mem_cons_self)]
    exact laid.untouched virt fun load member => differ load (List.mem_cons_of_mem _ member)
  · intro virt load found
    rw [List.find?_cons] at found
    by_cases same : SamePage page virt
    · rw [decide_eq_true same] at found
      obtain rfl := Option.some.inj found
      refine ⟨i, bound, freeBefore, bitmap takenNow, ?_, ?_, ?_⟩
      · exact noTable takenNow bound fun comes => laid.tree.inUse comes i bound free
      · rw [update, if_pos same]
      · intro addr inside
        rw [bytes addr, if_pos inside]
    · rw [decide_eq_false same] at found
      obtain ⟨j, shown⟩ := laid.shown virt load found
      have differ : j ≠ i := by
        rintro rfl
        rw [shown.taken] at free
        cases free
      have stays : (state.vm.take i).bitmap j = true := Vm.take_bitmap shown.taken
      refine ⟨j, shown.bound, shown.free, bitmap stays, ?_, ?_, ?_⟩
      · exact noTable stays shown.bound shown.noTable
      · rw [update, if_neg same]
        exact shown.maps
      · intro addr inside
        rw [bytes addr, if_neg fun equal => differ (inside.symm.trans equal)]
        exact shown.bytes addr inside

end

/-! ## The loops -/

/-- So many pages of a segment from a page on, the latest first. -/
def laidPages (ph : Phdr) (start : Addr) : Nat → List (Phdr × Addr)
  | 0 => []
  | count + 1 => (ph, start + BitVec.ofNat 64 (count * PAGE_SIZE)) :: laidPages ph start count

/-- The pages of a segment, the latest first. -/
def segmentPages (ph : Phdr) : List (Phdr × Addr) :=
  if ph.pMemsz = 0 then []
  else laidPages ph ph.pageStart ((ph.pageEnd - ph.pageStart) >>> 12).toNat

/-- The pages of the first program headers, the latest first. -/
def headerPages (headers : Nat → Phdr) : Nat → List (Phdr × Addr)
  | 0 => []
  | count + 1 =>
      (if (headers count).pType = 1 then segmentPages (headers count) else []) ++
        headerPages headers count

section

variable {rounds : Nat} {start state : LoadState} {root : Addr} {file : Nat → BitVec 8}
  {fileSize page : Addr} {done : List (Phdr × Addr)} {ph : Phdr}

/-- A frame is taken, if one is left, and no byte is written. -/
theorem allocPage_takes :
    Ends allocPage (fun phys after => after.bytes = state.bytes ∧
      ((nextFrame state.vm.bitmap = none ∧ phys = 0 ∧ after.vm = state.vm) ∨
        ∃ i, nextFrame state.vm.bitmap = some i ∧ phys = frameAddr i ∧
          after.vm = state.vm.take i)) state := by
  refine ⟨rfl, ?_⟩
  have takes := pmmAllocPage_spec state.vm
  rcases takes with ⟨none, null, same⟩ | taken
  · exact .inl ⟨nextFrame_eq_none_iff.mpr none, null, same⟩
  · exact .inr taken

/-- One round of the page loop. -/
theorem loadPage_loads (fits : SegmentFits fileSize ph) (isPage : PageOf ph page)
    (enough : 2 ^ 64 ≤ rounds) (reserved : start.vm.bitmap 0 = true)
    (loads : Loads start root file done state) :
    Ends (loadPage rounds root file fileSize ph page)
      (fun ok after => Spares start root after ∧
        (ok = true → Loads start root file ((ph, page) :: done) after)) state := by
  unfold loadPage
  apply allocPage_takes.bind
  rintro phys taken ⟨bytes, ⟨none, rfl, same⟩ | ⟨i, search, rfl, takes⟩⟩
  · rw [if_pos rfl]
    exact .pure ⟨(loads.still ⟨same, bytes⟩).spares, fun wrong => by cases wrong⟩
  cases loads with
  | full _ none =>
      rw [none] at search
      cases search
  | laid laid =>
      obtain ⟨bound, free⟩ := nextFrame_bound search
      have positive : i ≠ 0 := by
        rintro rfl
        rw [laid.spares.bitmap reserved] at free
        cases free
      have physAt := frameAddr_toNat bound
      simp only [MAX_PAGES, PAGE_SIZE] at bound physAt
      rw [if_neg (frameAddr_ne_zero bound positive)]
      have pageSize : (0x1000 : Addr).toNat = 4096 := rfl
      have zeroes : Ends (forBelow rounds 0x1000 fun k => writeByte (frameAddr i + k) 0)
          (fun _ => Wrote taken (frameAddr i).toNat (0x1000 : Addr).toNat fun _ => 0) taken := by
        apply forBelow_writes (by omega)
        intro k below before
        have index : k.toNat < 4096 := below
        apply (writeByte_writes _ _).mono
        rintro _ after ⟨vm, written⟩
        exact ⟨vm, _, BitVec.toNat_add_of_lt (by omega), written⟩
      apply zeroes.bind
      rintro _ cleared zeroed
      apply (ends_onVm (vmmMapPage root page (frameAddr i) ph.pageFlags)).bind
      rintro _ mapped ⟨maps, onlyVm⟩
      have sameBytes : mapped.bytes = cleared.bytes := by rw [onlyVm]
      have taking := expands_take laid.tree i
      have fills := vmmMapPage_fills taking.tree (taking.noGiant (laid.noGiant page)) (frameAddr i)
        ph.pageFlags
      unfold Leads at fills
      rw [← takes, ← zeroed.vm, maps, zeroed.vm, takes] at fills
      have frameFits : (frameAddr i).toNat + PAGE_SIZE < 2 ^ 64 := by
        simp only [PAGE_SIZE]
        omega
      have empty : ∀ addr : Addr, (frameAddr i).toNat ≤ addr.toNat →
          addr.toNat < (frameAddr i).toNat + PAGE_SIZE → mapped.bytes addr = 0 := by
        intro addr lower upper
        rw [sameBytes, zeroed.bytes addr, if_pos ⟨lower, upper⟩]
      apply (copyPage_writes fits isPage enough frameFits empty).mono
      rintro ok after ⟨-, copied⟩
      have written : ∀ addr : Addr, after.bytes addr =
          if addr.toNat / PAGE_SIZE = i then
            segmentByte file ph (page.toNat + addr.toNat % PAGE_SIZE)
          else state.bytes addr := by
        intro addr
        rw [copied.bytes addr, physAt]
        simp only [PAGE_SIZE]
        by_cases inside : addr.toNat / 4096 = i
        · rw [if_pos inside, if_pos ⟨by omega, by omega⟩]
          congr 2
          omega
        · rw [if_neg inside, if_neg (by omega), sameBytes, zeroed.bytes addr, physAt, pageSize,
            if_neg (by omega), bytes]
      have afterVm := copied.vm
      generalize mappedVm : mapped.vm = vm at fills afterVm
      cases fills with
      | stuck _ expands ranOut _ =>
          have spares : Spares start root after := by
            apply (laid.take search ?_ ?_ fun addr differ => ?_).2
            · intro j used
              rw [afterVm]
              exact expands.bitmap used
            · intro table foreign
              rw [afterVm]
              exact expands.others foreign
            · rw [written addr, if_neg differ]
          refine ⟨spares, fun _ => .full spares ?_⟩
          rw [afterVm]
          apply ranOut.resolve_right
          rw [Vm.take_bitmap (laid.spares.bitmap reserved)]
          decide
      | written grown pt expands comes _ =>
          have more : Laid start root file ((ph, page) :: done) after :=
            laid.load search expands comes afterVm written
          exact ⟨more.spares, fun _ => .laid more⟩

/-- The page loop. -/
theorem loadPages_loads (fits : SegmentFits fileSize ph) {first pageEnd : Addr}
    (endAligned : pageEnd.toNat % 4096 = 0) (endTop : pageEnd.toNat ≤ 0xFFFFFFFFFFFFF000)
    (aligned : first.toNat % 4096 = 0) (begins : ph.pVaddr.toNat < first.toNat + 4096)
    (within : first.toNat ≤ pageEnd.toNat) (enough : 2 ^ 64 ≤ rounds)
    (reserved : start.vm.bitmap 0 = true) (loads : Loads start root file done state) :
    Ends (loadPages rounds root file fileSize ph pageEnd first)
      (fun ok after => Spares start root after ∧ (ok = true → Loads start root file
        (laidPages ph first ((pageEnd - first) >>> 12).toNat ++ done) after)) state := by
  rw [pages_toNat within]
  apply Ends.loop (fun page before => ∃ count, page.toNat = first.toNat + count * 4096 ∧
      page.toNat ≤ pageEnd.toNat ∧ Loads start root file (laidPages ph first count ++ done) before)
    (fun page => pageEnd.toNat - page.toNat)
  · rintro page before ⟨count, place, below, loads⟩
    have pageSize : (0x1000 : Addr).toNat = 4096 := rfl
    by_cases more : page < pageEnd
    · rw [if_pos more]
      have less : page.toNat < pageEnd.toNat := more
      have isPage : PageOf ph page := ⟨by omega, by omega, le_trans (by omega) endTop⟩
      apply (loadPage_loads fits isPage enough reserved loads).bind
      rintro ok after ⟨spares, next⟩
      cases ok with
      | false => exact .pure ⟨spares, fun wrong => by cases wrong⟩
      | true =>
          rw [if_pos rfl]
          have nextAt : (page + 0x1000).toNat = page.toNat + 4096 :=
            BitVec.toNat_add_of_lt (by omega)
          have isThis : page = first + BitVec.ofNat 64 (count * PAGE_SIZE) := by
            apply BitVec.eq_of_toNat_eq
            rw [BitVec.toNat_add, BitVec.toNat_ofNat]
            simp only [PAGE_SIZE]
            omega
          apply (add_stays page 0x1000).bind
          rintro _ last rfl still
          refine .pure ⟨⟨count + 1, by omega, by omega, ?_⟩, by omega⟩
          rw [laidPages, ← isThis]
          exact (next rfl).still still
    · rw [if_neg more]
      have passed : pageEnd.toNat ≤ page.toNat := Nat.le_of_not_lt more
      have all : (pageEnd.toNat - first.toNat) / 4096 = count := by omega
      rw [all]
      exact .pure ⟨loads.spares, fun _ => loads⟩
  · exact ⟨0, by omega, within, loads⟩
  · have bound := pageEnd.isLt
    omega

/-- A segment is checked and loaded. -/
theorem loadSegment_loads (enough : 2 ^ 64 ≤ rounds) (reserved : start.vm.bitmap 0 = true)
    (loads : Loads start root file done state) :
    Ends (loadSegment rounds root file fileSize ph)
      (fun ok after => Spares start root after ∧
        (ok = true → Loads start root file (segmentPages ph ++ done) after)) state := by
  have refused : ∀ after, Still state after → Spares start root after ∧
      (false = true → Loads start root file (segmentPages ph ++ done) after) :=
    fun after still => ⟨(loads.still still).spares, fun wrong => by cases wrong⟩
  unfold loadSegment
  by_cases tooLong : ph.pFilesz > ph.pMemsz
  · rw [if_pos tooLong]
    exact .pure (refused _ .refl)
  rw [if_neg tooLong]
  by_cases outside : ph.pOffset > fileSize
  · rw [if_pos outside]
    exact .pure (refused _ .refl)
  rw [if_neg outside]
  apply (sub_stays fileSize ph.pOffset).bind
  rintro _ after₁ rfl still₁
  by_cases cut : ph.pFilesz > fileSize - ph.pOffset
  · rw [if_pos cut]
    exact .pure (refused _ still₁)
  rw [if_neg cut]
  by_cases wraps : ph.segEnd < ph.pVaddr
  · rw [if_pos wraps]
    exact .pure (refused _ still₁)
  rw [if_neg wraps]
  by_cases empty : ph.pMemsz = 0
  · rw [if_pos empty, segmentPages, if_pos empty]
    exact .pure ⟨(loads.still still₁).spares, fun _ => loads.still still₁⟩
  rw [if_neg empty, segmentPages, if_neg empty]
  apply (add_stays ph.pVaddr ph.pMemsz).bind
  rintro _ after₂ rfl still₂
  have still := still₁.trans still₂
  change Ends (if ph.segEnd > 0xFFFFFFFFFFFFF000 then _ else _) _ _
  by_cases tooHigh : ph.segEnd > 0xFFFFFFFFFFFFF000
  · rw [if_pos tooHigh]
    exact .pure ⟨(loads.still still).spares, fun wrong => by cases wrong⟩
  rw [if_neg tooHigh]
  apply (add_stays ph.segEnd 0xFFF).bind
  rintro _ after₃ rfl still₃
  change Ends (if ph.pageEnd < ph.segEnd then _ else _) _ _
  by_cases short : ph.pageEnd < ph.segEnd
  · rw [if_pos short]
    exact .pure ⟨(loads.still (still.trans still₃)).spares, fun wrong => by cases wrong⟩
  rw [if_neg short]
  have top : ph.segEnd.toNat ≤ 0xFFFFFFFFFFFFF000 := Nat.le_of_not_lt tooHigh
  have noWrap : ph.pVaddr.toNat ≤ ph.segEnd.toNat := Nat.le_of_not_lt wraps
  have segEndAt : ph.segEnd.toNat = ph.pVaddr.toNat + ph.pMemsz.toNat := by
    have vaddr := ph.pVaddr.isLt
    have memsz := ph.pMemsz.isLt
    rw [Phdr.segEnd, BitVec.toNat_add] at noWrap ⊢
    omega
  have inFile : ph.pOffset.toNat ≤ fileSize.toNat := Nat.le_of_not_lt outside
  have leftAt : (fileSize - ph.pOffset).toNat = fileSize.toNat - ph.pOffset.toNat :=
    BitVec.toNat_sub_of_le inFile
  have fits : SegmentFits fileSize ph := by
    have filesz : ph.pFilesz.toNat ≤ ph.pMemsz.toNat := Nat.le_of_not_lt tooLong
    have source : ph.pFilesz.toNat ≤ (fileSize - ph.pOffset).toNat := Nat.le_of_not_lt cut
    exact ⟨filesz, by omega, by omega⟩
  have pageEndAt : ph.pageEnd.toNat = (ph.segEnd.toNat + 4095) / 4096 * 4096 :=
    pageAlignUp_toNat (by simp only [LAST_END]; omega)
  have pageStartAt : ph.pageStart.toNat = ph.pVaddr.toNat / 4096 * 4096 := pageMask_toNat _
  have endAligned : ph.pageEnd.toNat % 4096 = 0 := by omega
  have endTop : ph.pageEnd.toNat ≤ 0xFFFFFFFFFFFFF000 := by omega
  have startAligned : ph.pageStart.toNat % 4096 = 0 := by omega
  have startBelow : ph.pVaddr.toNat < ph.pageStart.toNat + 4096 := by omega
  have within : ph.pageStart.toNat ≤ ph.pageEnd.toNat := by omega
  exact loadPages_loads fits endAligned endTop startAligned startBelow within enough reserved
    (loads.still (still.trans still₃))

/-- The loop over the program headers. -/
theorem loadSegments_loads (enough : 2 ^ 64 ≤ rounds) (reserved : start.vm.bitmap 0 = true)
    (loads : Loads start root file [] state) (ePhoff : Addr) (ePhnum : BitVec 16) :
    Ends (loadSegments rounds root file fileSize ePhoff ePhnum)
      (fun value after => Spares start root after ∧ (value ≠ none → Loads start root file
        (headerPages (fun i => phdrAt file (ePhoff.toNat + i * PHDR_SIZE)) ePhnum.toNat) after))
      state := by
  generalize isHeaders : (fun i => phdrAt file (ePhoff.toNat + i * PHDR_SIZE)) = headers
  apply Ends.loop (fun (place : BitVec 16 × Nat) before => place.1.toNat ≤ ePhnum.toNat ∧
      Loads start root file (headerPages headers place.1.toNat) before)
    (fun place => ePhnum.toNat - place.1.toNat)
  · rintro ⟨i, segments⟩ before ⟨within, loads⟩
    dsimp only at within loads ⊢
    by_cases more : i < ePhnum
    · rw [if_pos more]
      have below : i.toNat < ePhnum.toNat := more
      have nextAt : (i + 1).toNat = i.toNat + 1 := by bv_omega
      have header : headers i.toNat = phdrAt file (ePhoff.toNat + i.toNat * PHDR_SIZE) := by
        rw [← isHeaders]
      have less : ePhnum.toNat - (i + 1).toNat < ePhnum.toNat - i.toNat := by omega
      have nextWithin : (i + 1).toNat ≤ ePhnum.toNat := by omega
      apply (field_stays file _ 4).bind
      rintro _ read rfl still
      by_cases other : wordAt file (ePhoff.toNat + i.toNat * PHDR_SIZE) 4 ≠ 1
      · rw [if_pos other]
        have notLoad : (headers i.toNat).pType ≠ 1 := by rwa [header]
        refine .pure ⟨⟨nextWithin, ?_⟩, less⟩
        rw [nextAt, headerPages, if_neg notLoad]
        exact loads.still still
      · rw [if_neg other]
        have load : (headers i.toNat).pType = 1 := by
          rw [header]
          exact not_not.mp other
        apply (readPhdr_stays file _).bind
        rintro _ after rfl still'
        apply (loadSegment_loads enough reserved (loads.still (still.trans still'))).bind
        rintro ok last ⟨spares, next⟩
        cases ok with
        | false => exact .pure ⟨spares, fun wrong => absurd rfl wrong⟩
        | true =>
            refine .pure ⟨⟨nextWithin, ?_⟩, less⟩
            rw [nextAt, headerPages, if_pos load, header]
            exact next rfl
    · rw [if_neg more]
      have all : i.toNat = ePhnum.toNat := Nat.le_antisymm within (Nat.le_of_not_lt more)
      rw [all] at loads
      exact .pure ⟨loads.spares, fun _ => loads⟩
  · exact ⟨Nat.zero_le _, loads⟩
  · have bound := ePhnum.isLt
    dsimp only
    omega

end

/-! ## The last page at an address -/

/-- An address on a page of a segment that is loaded. -/
structure Covers (ph : Phdr) (virt : Addr) : Prop where
  load : ph.pType = 1
  memsz : ph.pMemsz ≠ 0
  lower : ph.pageStart.toNat ≤ virt.toNat
  upper : virt.toNat < ph.pageEnd.toNat

/-- A page of a segment is mapped where the address is; they may differ in the bits that are not
translated. -/
def Reaches (ph : Phdr) (virt : Addr) : Prop :=
  ph.pType = 1 ∧ ∃ load ∈ segmentPages ph, SamePage load.2 virt

section

variable {ph : Phdr} {first virt : Addr} {headers : Nat → Phdr}

theorem length_laidPages (count : Nat) : (laidPages ph first count).length = count := by
  induction count with
  | zero => rfl
  | succ count ih => rw [laidPages, List.length_cons, ih]

/-- The pages of a segment are apart. -/
theorem find_laidPages {count k : Nat} (aligned : first.toNat % 4096 = 0)
    (fits : first.toNat + count * 4096 < 2 ^ 64) (few : count ≤ 2 ^ 36) (below : k < count)
    (lower : first.toNat + k * 4096 ≤ virt.toNat)
    (upper : virt.toNat < first.toNat + k * 4096 + 4096) :
    (laidPages ph first count).find? (fun load => SamePage load.2 virt) =
      some (ph, first + BitVec.ofNat 64 (k * PAGE_SIZE)) := by
  induction count with
  | zero => exact absurd below (Nat.not_lt_zero k)
  | succ count ih =>
      have place : (first + BitVec.ofNat 64 (count * PAGE_SIZE)).toNat =
          first.toNat + count * 4096 := by
        rw [BitVec.toNat_add, BitVec.toNat_ofNat]
        simp only [PAGE_SIZE]
        omega
      rw [laidPages, List.find?_cons]
      by_cases last : k = count
      · have same : SamePage (first + BitVec.ofNat 64 (count * PAGE_SIZE)) virt := by
          rw [samePage_iff, place]
          omega
        rw [decide_eq_true same, last]
      · have differ : ¬ SamePage (first + BitVec.ofNat 64 (count * PAGE_SIZE)) virt := by
          rw [samePage_iff, place]
          omega
        rw [decide_eq_false differ]
        have less : count * 4096 ≤ (count + 1) * 4096 := Nat.mul_le_mul_right 4096 (Nat.le_succ count)
        exact ih (lt_of_le_of_lt (Nat.add_le_add_left less _) fits) (by omega) (by omega)

theorem segment_toNat (ph : Phdr) : ph.pageStart.toNat % 4096 = 0 ∧ ph.pageEnd.toNat % 4096 = 0 := by
  rw [Phdr.pageStart, Phdr.pageEnd, pageMask_toNat, pageMask_toNat]
  omega

/-- The page of a segment that shows an address. -/
theorem find_segmentPages (covers : Covers ph virt)
    (few : (segmentPages ph).length ≤ MAX_PAGES) :
    ∃ page : Addr, page.toNat = virt.toNat / 4096 * 4096 ∧
      (segmentPages ph).find? (fun load => SamePage load.2 virt) = some (ph, page) := by
  obtain ⟨startAligned, endAligned⟩ := segment_toNat ph
  have lower := covers.lower
  have upper := covers.upper
  have bound := ph.pageEnd.isLt
  rw [segmentPages, if_neg covers.memsz, pages_toNat (by omega)] at few ⊢
  rw [length_laidPages] at few
  replace few := few.trans (show MAX_PAGES ≤ 2 ^ 36 by decide)
  refine ⟨ph.pageStart + BitVec.ofNat 64 ((virt.toNat - ph.pageStart.toNat) / 4096 * PAGE_SIZE),
    ?_, ?_⟩
  · rw [BitVec.toNat_add, BitVec.toNat_ofNat]
    simp only [PAGE_SIZE]
    omega
  · apply find_laidPages startAligned _ few
    · omega
    · omega
    · omega
    · omega

/-- The last header whose segment is at an address decides. -/
theorem find_headerPages {count i : Nat} (below : i < count) (covers : Covers (headers i) virt)
    (last : ∀ j, i < j → j < count → ¬ Reaches (headers j) virt)
    (few : (headerPages headers count).length ≤ MAX_PAGES) :
    ∃ page : Addr, page.toNat = virt.toNat / 4096 * 4096 ∧
      (headerPages headers count).find? (fun load => SamePage load.2 virt) =
        some (headers i, page) := by
  induction count with
  | zero => exact absurd below (Nat.not_lt_zero i)
  | succ count ih =>
      rw [headerPages, List.length_append] at few
      rw [headerPages, List.find?_append]
      by_cases this : i = count
      · subst this
        rw [if_pos covers.load] at few ⊢
        obtain ⟨page, place, found⟩ := find_segmentPages covers (by omega)
        exact ⟨page, place, by rw [found, Option.some_or]⟩
      · have earlier : (if (headers count).pType = 1 then segmentPages (headers count)
            else []).find? (fun load => SamePage load.2 virt) = none := by
          have away := last count (by omega) (Nat.lt_succ_self count)
          rw [List.find?_eq_none]
          intro load member
          rw [decide_eq_true_iff]
          intro same
          by_cases isLoad : (headers count).pType = 1
          · rw [if_pos isLoad] at member
            exact away ⟨isLoad, load, member, same⟩
          · rw [if_neg isLoad] at member
            cases member
        rw [earlier, Option.none_or]
        apply ih (by omega)
        · intro j later within
          exact last j later (by omega)
        · omega

/-- No page is at an address that no segment reaches. -/
theorem headerPages_apart {count : Nat} (away : ∀ i < count, ¬ Reaches (headers i) virt) :
    ∀ load ∈ headerPages headers count, ¬ SamePage load.2 virt := by
  induction count with
  | zero =>
      intro load member
      cases member
  | succ count ih =>
      intro load member same
      rw [headerPages, List.mem_append] at member
      rcases member with here | earlier
      · by_cases isLoad : (headers count).pType = 1
        · rw [if_pos isLoad] at here
          exact away count (Nat.lt_succ_self count) ⟨isLoad, load, here, same⟩
        · rw [if_neg isLoad] at here
          cases here
      · exact ih (fun i below => away i (by omega)) load earlier same

end

/-! ## The whole image -/

/-- A page at an address has these flags and this byte, in a frame that was free and is no page
table. -/
structure Finds (before : Vm) (root virt flags : Addr) (byte : BitVec 8) (after : LoadState)
    (page : Page) : Prop where
  maps : translation after.vm.tables root virt = some page
  flags : page.flags = flags
  byte : after.bytes page.phys = byte
  fresh : before.bitmap (page.phys.toNat / PAGE_SIZE) = false
  noTable : ∀ {index level table}, LeadsTo after.vm.tables root index level table →
    table ≠ frameAddr (page.phys.toNat / PAGE_SIZE)

section

variable {start state after : LoadState} {root virt : Addr} {file : Nat → BitVec 8} {ph : Phdr}
  {page : Addr} {i : Nat}

/-- The address of a byte in a frame. -/
theorem frameAddr_or (bound : i < MAX_PAGES) (virt : Addr) :
    (frameAddr i ||| (virt &&& 0xFFF)).toNat = i * PAGE_SIZE + virt.toNat % PAGE_SIZE := by
  have low : (virt &&& 0xFFF).toNat = virt.toNat % 2 ^ 12 := by
    have mask : (0xFFF : Addr).toNat = 2 ^ 12 - 1 := rfl
    rw [BitVec.toNat_and, mask, Nat.and_two_pow_sub_one_eq_mod]
  have inPage : virt.toNat % 2 ^ 12 < 2 ^ 12 := Nat.mod_lt _ (by decide)
  rw [BitVec.toNat_or, frameAddr_toNat bound, low, show PAGE_SIZE = 2 ^ 12 from rfl,
    Nat.mul_comm i, ← Nat.two_pow_add_eq_or_of_lt inPage]

/-- What the frame holds is found at the address. -/
theorem ShownBy.finds (shown : ShownBy start root file (ph, page) virt state i)
    (place : page.toNat = virt.toNat / 4096 * 4096) :
    ∃ found, Finds start.vm root virt (ph.pageFlags ||| PAGE_PRESENT)
      (segmentByte file ph virt.toNat) state found := by
  have physAt := frameAddr_or shown.bound virt
  simp only [PAGE_SIZE] at physAt
  have isFrame : (frameAddr i ||| (virt &&& 0xFFF)).toNat / PAGE_SIZE = i := by
    simp only [PAGE_SIZE]
    omega
  refine ⟨_, shown.maps, rfl, ?_, ?_, ?_⟩
  · rw [shown.bytes _ isFrame]
    apply congrArg (segmentByte file ph)
    simp only [PAGE_SIZE]
    omega
  · rw [isFrame]
    exact shown.free
  · rw [isFrame]
    exact shown.noTable

/-- A program that leaves the page tables and the bytes alone, whatever it computes. -/
def LeavesMemory {α : Type} (program : LoaderM α) : Prop :=
  ∀ state, Stays program (fun _ => True) state

section

variable {α β : Type} {program other : LoaderM α}

theorem LeavesMemory.pure (value : α) : LeavesMemory (Pure.pure value : LoaderM α) :=
  fun _ => .pure ⟨trivial, .refl⟩

theorem LeavesMemory.bind {next : α → LoaderM β} (first : LeavesMemory program)
    (second : ∀ value, LeavesMemory (next value)) : LeavesMemory (program >>= next) := by
  intro state
  apply (first state).bind
  intro value after _ still
  exact (second value after).mono fun _ last ⟨_, still'⟩ => ⟨trivial, still.trans still'⟩

theorem LeavesMemory.ite {condition : Prop} [Decidable condition] (first : LeavesMemory program)
    (second : LeavesMemory other) : LeavesMemory (if condition then program else other) := by
  split
  · exact first
  · exact second

end

theorem readByte_leaves (file : Nat → BitVec 8) (index : Nat) : LeavesMemory (readByte file index) :=
  fun _ => (readByte_stays file index).mono fun _ _ ⟨_, still⟩ => ⟨trivial, still⟩

theorem field_leaves (file : Nat → BitVec 8) (off count : Nat) :
    LeavesMemory (field file off count) :=
  fun _ => (field_stays file off count).mono fun _ _ ⟨_, still⟩ => ⟨trivial, still⟩

theorem sub_leaves (first second : Addr) : LeavesMemory (sub first second) :=
  fun _ => (sub_stays first second).mono fun _ _ ⟨_, still⟩ => ⟨trivial, still⟩

theorem checkHeader_leaves (file : Nat → BitVec 8) (fileSize : Addr) :
    LeavesMemory (checkHeader file fileSize) := by
  unfold checkHeader
  apply (LeavesMemory.pure none).ite
  apply (readByte_leaves file 0).bind
  intro _
  apply (LeavesMemory.pure none).ite
  apply (readByte_leaves file 1).bind
  intro _
  apply (LeavesMemory.pure none).ite
  apply (readByte_leaves file 2).bind
  intro _
  apply (LeavesMemory.pure none).ite
  apply (readByte_leaves file 3).bind
  intro _
  apply (LeavesMemory.pure none).ite
  apply (readByte_leaves file 4).bind
  intro _
  apply (LeavesMemory.pure none).ite
  apply (readByte_leaves file 5).bind
  intro _
  apply (LeavesMemory.pure none).ite
  apply (field_leaves file 18 2).bind
  intro _
  apply (LeavesMemory.pure none).ite
  apply (field_leaves file 16 2).bind
  intro _
  apply (LeavesMemory.pure none).ite
  apply (field_leaves file 56 2).bind
  intro _
  apply (LeavesMemory.pure none).ite
  apply (field_leaves file 54 2).bind
  intro _
  apply (LeavesMemory.pure none).ite
  apply (field_leaves file 32 8).bind
  intro _
  apply (LeavesMemory.pure none).ite
  apply (sub_leaves _ _).bind
  intro _
  exact (LeavesMemory.pure none).ite (.pure _)

/-- The program headers that a file names. -/
def headersOf (file : Nat → BitVec 8) (i : Nat) : Phdr :=
  phdrAt file (wordAt file 32 8 + i * PHDR_SIZE)

/-- The loader loads the pages of all the program headers, unless it gives up or the frames run
out. -/
theorem loadElfIntoProcess_loads {vm : Vm} (tree : PageTables vm.toMemory root)
    (noGiant : ∀ virt, NoGiant vm.tables root virt) (reserved : vm.bitmap 0 = true)
    (file : Nat → BitVec 8) (fileSize : Addr) (bytes : Addr → BitVec 8) (frame : Addr)
    {rounds : Nat} (enough : 2 ^ 64 ≤ rounds) :
    Ends (loadElfIntoProcess rounds fileSize (some root) (some file))
      (fun result after => Spares ⟨vm, bytes, frame, []⟩ root after ∧
        (result = 0 → Loads ⟨vm, bytes, frame, []⟩ root file
          (headerPages (headersOf file) (wordAt file 56 2)) after)) ⟨vm, bytes, frame, []⟩ := by
  have begun : Loads ⟨vm, bytes, frame, []⟩ root file [] ⟨vm, bytes, frame, []⟩ := by
    refine .laid ⟨tree, noGiant, ⟨fun taken => taken, fun _ _ => rfl, fun _ => rfl⟩, Or.inl, ?_,
      fun _ _ => rfl, ?_⟩
    · rw [List.length_nil, Nat.zero_add]
    · intro virt load found
      cases found
  have gaveUp : ∀ after, Spares ⟨vm, bytes, frame, []⟩ root after →
      Spares ⟨vm, bytes, frame, []⟩ root after ∧ ((-1 : Int) = 0 → Loads ⟨vm, bytes, frame, []⟩ root
        file (headerPages (headersOf file) (wordAt file 56 2)) after) :=
    fun after spares => ⟨spares, fun wrong => absurd wrong (by decide)⟩
  have safe : Safe fileSize ⟨vm, bytes, frame, []⟩ := fun access member => by cases member
  have atRoot : LeadsTo vm.tables root (indexOf root) 3 root := .start
  unfold loadElfIntoProcess
  dsimp only
  rw [if_neg (tree.nonnull atRoot)]
  apply ((checkHeader_spec safe).and (checkHeader_leaves file fileSize _)).bind
  rintro _ checked ⟨⟨⟨rfl, -⟩ | ⟨-, rfl⟩, -⟩, -, still⟩
  · exact .pure (gaveUp _ (begun.still still).spares)
  · dsimp only
    apply (loadSegments_loads enough reserved (begun.still still) _ _).bind
    rintro value after ⟨spares, loads⟩
    cases value with
    | none => exact .pure (gaveUp _ spares)
    | some segments =>
        dsimp only
        split
        · exact .pure (gaveUp _ spares)
        · refine .pure ⟨spares, fun _ => ?_⟩
          have phoffAt : (BitVec.ofNat 64 (wordAt file 32 8)).toNat = wordAt file 32 8 :=
            (BitVec.toNat_ofNat _ _).trans (Nat.mod_eq_of_lt (wordAt_lt file 32 8))
          have phnumAt : (BitVec.ofNat 16 (wordAt file 56 2)).toNat = wordAt file 56 2 :=
            (BitVec.toNat_ofNat _ _).trans (Nat.mod_eq_of_lt (wordAt_lt file 56 2))
          have all := loads (Option.some_ne_none segments)
          rwa [phoffAt, phnumAt] at all

end

/-- A loaded image shows its file: on every page of a loadable segment that no later segment has
a page at, each address has the byte of the file, or zero around the part that comes from the file,
and the flags of the segment, in a frame that was free and is no page table.  Nothing else is mapped
anew, and what was in use keeps its bytes, and its entries if it is no page table of the process.
If no frame is left at the end, a page may be missing, which the loader does not tell.

The loader runs on the page tables of its caller.  All this holds as long as every table and every
frame that it follows a pointer to is mapped onto itself there. -/
theorem load_shows_file {vm after : Vm} {root : Addr} (tree : PageTables vm.toMemory root)
    (noGiant : ∀ virt, NoGiant vm.tables root virt) (reserved : vm.bitmap 0 = true)
    {file : ElfFile} {loaded : Bool} {used : List Use}
    (loads : (Paged.loadElfIntoProcess root file).run vm = some (loaded, after, used))
    (direct : ∀ use ∈ used, use.Direct) (bytes : Addr → BitVec 8) (frame : Addr) (rounds : Nat)
    (enough : 2 ^ 64 ≤ rounds) :
    ∃ result state,
      (loadElfIntoProcess rounds (BitVec.ofNat 64 file.size) (some root) (some file.bytes)).run
        ⟨vm, bytes, frame, []⟩ = some (result, state) ∧
      loaded = decide (result = 0) ∧ after = state.vm ∧
      Spares ⟨vm, bytes, frame, []⟩ root state ∧
      (loaded = true → nextFrame after.bitmap ≠ none →
        (∀ i < file.ePhnum, ∀ virt, Covers (file.phdr i) virt →
          (∀ j, i < j → j < file.ePhnum → ¬ Reaches (file.phdr j) virt) →
          ∃ page, Finds vm root virt ((file.phdr i).pageFlags ||| PAGE_PRESENT)
            (segmentByte file.bytes (file.phdr i) virt.toNat) state page) ∧
        ∀ virt, (∀ i < file.ePhnum, ¬ Reaches (file.phdr i) virt) →
          translation after.tables root virt = translation vm.tables root virt) := by
  have safe : Safe (BitVec.ofNat 64 file.size) ⟨vm, bytes, frame, []⟩ :=
    fun access member => by cases member
  obtain ⟨result, state, run, ⟨spares, shows⟩, refines⟩ :=
    ((loadElfIntoProcess_loads tree noGiant reserved file.bytes (BitVec.ofNat 64 file.size) bytes
      frame enough).and (loadElfIntoProcess_refines safe enough)).arrives.exists_some id
  have same : (loaded, after) = (decide (result = 0), state.vm) :=
    ((Paged.loadElfIntoProcess_follows root file).run_eq loads direct).symm.trans refines
  obtain ⟨rfl, rfl⟩ := Prod.mk.inj same
  refine ⟨result, state, run, rfl, rfl, spares, fun ok left => ?_⟩
  have phnum : file.ePhnum = wordAt file.bytes 56 2 := word_eq_wordAt 56 2
  have headers : headersOf file.bytes = file.phdr := by
    funext i
    rw [phdr_eq_phdrAt, ElfFile.ePhoff, word_eq_wordAt, headersOf]
  cases shows (of_decide_eq_true ok) with
  | full _ none => exact absurd none left
  | laid laid =>
      have few := (Nat.le_add_right _ _).trans (laid.room.trans (freeFrames_le_max vm.bitmap))
      rw [headers, ← phnum] at few laid
      constructor
      · intro i below virt covers last
        obtain ⟨page, place, found⟩ := find_headerPages below covers last few
        obtain ⟨frame, shown⟩ := laid.shown virt _ found
        exact shown.finds place
      · intro virt away
        exact laid.untouched virt (headerPages_apart away)

/-- A file of one segment, loaded by the first process: its first address shows the first byte. -/
theorem load_shows_file_text :
    ∃ state page,
      (loadElfIntoProcess (2 ^ 64) (BitVec.ofNat 64 textFile.size) (some firstRoot.1)
        (some textFile.bytes)).run ⟨firstRoot.2, fun _ => 0, 0, []⟩ = some (0, state) ∧
      translation state.vm.tables firstRoot.1 0x400000 = some page ∧
      state.bytes page.phys = 0x7F := by
  have booted : KernelRun smallImage [] (fun _ _ => 0) Use.Direct
      (bootVm smallImage [] fun _ _ => 0) := .boot
  have nothing : NothingAbove firstRoot.1 firstRoot.2 :=
    createUserPml4_nothingAbove booted.tables firstRoot_nonnull
  obtain ⟨used, loads, direct⟩ :=
    (Paged.loadElfIntoProcess_follows firstRoot.1 textFile).exists_run (fun direct => direct)
      textProcess_direct.2.1
  obtain ⟨result, state, run, same, -, -, shows⟩ := load_shows_file nothing.tree nothing.noGiant
    nothing.reserved loads direct (fun _ => 0) 0 (2 ^ 64) le_rfl
  have ends : ((Vmm.loadElfIntoProcess firstRoot.1 textFile).run firstRoot.2).1 = true ∧
      nextFrame ((Vmm.loadElfIntoProcess firstRoot.1 textFile).run firstRoot.2).2.bitmap ≠ none := by
    decide +kernel
  have ok : result = 0 := by
    rw [ends.1] at same
    exact of_decide_eq_true same.symm
  have one : textFile.ePhnum = 1 := by decide +kernel
  have covers : Covers (textFile.phdr 0) 0x400000 :=
    ⟨by decide +kernel, by decide +kernel, by decide +kernel, by decide +kernel⟩
  have only : ∀ j, 0 < j → j < textFile.ePhnum → ¬ Reaches (textFile.phdr j) 0x400000 := by
    intro j later below
    omega
  obtain ⟨page, finds⟩ := (shows ends.1 ends.2).1 0 (by rw [one]; exact Nat.one_pos) 0x400000
    covers only
  have byte : segmentByte textFile.bytes (textFile.phdr 0) 0x400000 = 0x7F := by
    decide +kernel
  subst ok
  exact ⟨state, page, run, finds.maps, finds.byte.trans byte⟩

end Notux.Vmm.Loader
