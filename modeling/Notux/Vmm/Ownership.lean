import Notux.Vmm.Pointers

/-!
# Frames and their owners

A frame that was handed out is a page table of a root, or a page that was mapped
in the tables of a root.  Tables and pages are only lost where an entry that
maps a page is overwritten, or a frame is taken and not mapped.
-/

namespace Notux.Vmm

open Notux.Store

/-! ## Owners -/

/-- A page that was mapped for a process leads to a frame. -/
def MapsFrame (memory : Memory) (root virt : Addr) (i : Nat) : Prop :=
  Overlaid memory root virt ∧ vmmVirtToPhys memory root virt &&& PAGE_MASK = frameAddr i

/-- A frame is a page table of a root, or a page mapped in its tables. -/
def OwnedBy (memory : Memory) (root : Addr) (i : Nat) : Prop :=
  TableOf memory.tables root (frameAddr i) ∨ ∃ virt, MapsFrame memory root virt i

/-- No page is mapped for a process at an address. -/
def PageFree (memory : Memory) (root virt : Addr) : Prop :=
  Overlaid memory root virt → vmmVirtToPhys memory root virt = 0

/-- There are frames for the tables a page needs, and for the page. -/
def RoomFor (memory : Memory) (root virt : Addr) : Prop :=
  missing memory.tables root (tablePath virt) < freeFrames memory.bitmap

/-- Every frame in use was reserved at the boot, belongs to the driver, or is
owned by a root in use. -/
structure Accounts (boot : Nat → Bool) (driver : Nat → Prop) (live : Addr → Prop) (vm : Vm) :
    Prop where
  reserved : ∀ i, boot i = true → vm.bitmap i = true
  handed : ∀ snapshot ∈ vm.handouts, ∀ i, boot i = true → snapshot.bitmap i = true
  owned : ∀ i < MAX_PAGES, vm.bitmap i = true →
    boot i = true ∨ driver i ∨ ∃ root, live root ∧ OwnedBy vm.toMemory root i

/-! ## Growing -/

theorem TableOf.grown {before after : Memory} {place place' : Places} {root table : Addr}
    (grown : Grown before after place place') (isRoot : place root = some [])
    (tableOf : TableOf before.tables root table) : TableOf after.tables root table := by
  rcases tableOf with ⟨path, short, inRange, leads, led⟩
  refine ⟨path, short, inRange, ?_⟩
  rw [grown.walks isRoot short leads]
  exact ⟨leads, led⟩

section

variable {vm after : Vm} {place place' : Places} {procs : List Addr} {boot : Nat → Bool}
  {driver : Nat → Prop} {live : Addr → Prop}

theorem OwnedBy.grown (watched : Watched vm.toMemory place procs)
    (grown : Grown vm.toMemory after.toMemory place place') {root : Addr}
    (isRoot : place root = some []) {i : Nat} (owned : OwnedBy vm.toMemory root i) :
    OwnedBy after.toMemory root i := by
  rcases owned with table | ⟨virt, overlaid, led⟩
  · exact Or.inl (table.grown grown isRoot)
  · refine Or.inr ⟨virt, ?_, ?_⟩
    · rwa [watched.overlaid_iff grown isRoot]
    · rwa [grown.same isRoot]

theorem PageFree.grown (watched : Watched vm.toMemory place procs)
    (grown : Grown vm.toMemory after.toMemory place place') {root : Addr}
    (isRoot : place root = some []) {virt : Addr} (free : PageFree vm.toMemory root virt) :
    PageFree after.toMemory root virt := by
  intro overlaid
  rw [watched.overlaid_iff grown isRoot] at overlaid
  rw [grown.same isRoot]
  exact free overlaid

/-- The roots in use have their place. -/
theorem Watched.live_isRoot (watched : Watched vm.toMemory place procs)
    (members : ∀ root, live root → root ∈ vm.kernelPml4 :: procs) {root : Addr}
    (isLive : live root) : place root = some [] :=
  watched.areRoots root (members root isLive)

/-- What was added are tables of a root in use. -/
theorem Accounts.grows (accounts : Accounts boot driver live vm)
    (watched : Watched vm.toMemory place procs)
    (members : ∀ root, live root → root ∈ vm.kernelPml4 :: procs)
    (grows : Grows vm after place place')
    (gains : ∀ i, after.bitmap i = true → vm.bitmap i = true ∨
      ∃ root, live root ∧ TableOf after.tables root (frameAddr i)) :
    Accounts boot driver live after := by
  constructor
  · exact fun i taken => grows.memory.bitmap (accounts.reserved i taken)
  · intro snapshot member i taken
    rcases grows.handed snapshot member with old | ⟨places, grown⟩
    · exact accounts.handed snapshot old i taken
    · exact grown.bitmap (accounts.reserved i taken)
  · intro i bound taken
    rcases gains i taken with old | ⟨root, isLive, table⟩
    · rcases accounts.owned i bound old with first | second | ⟨root, isLive, owned⟩
      · exact Or.inl first
      · exact Or.inr (Or.inl second)
      · have isRoot := watched.live_isRoot members isLive
        exact Or.inr (Or.inr ⟨root, isLive, owned.grown watched grows.memory isRoot⟩)
    · exact Or.inr (Or.inr ⟨root, isLive, Or.inl table⟩)

/-- A frame is taken, and has no owner yet. -/
theorem Accounts.take (accounts : Accounts boot driver live vm) (i : Nat) :
    Accounts boot (fun j => driver j ∨ j = i) live (vm.take i) := by
  constructor
  · exact fun j taken => Vm.take_bitmap (accounts.reserved j taken)
  · intro snapshot member j taken
    rcases List.mem_cons.mp member with rfl | old
    · exact accounts.reserved j taken
    · exact accounts.handed snapshot old j taken
  · intro j bound taken
    by_cases same : j = i
    · exact Or.inr (Or.inl (Or.inr same))
    · have old : vm.bitmap j = true := (assign_of_ne same).symm.trans taken
      exact (accounts.owned j bound old).imp_right (Or.imp_left Or.inl)

/-! ## Writing an entry -/

/-- The offset does not matter for the frame a page leads to. -/
theorem leafOf_and_mask (entry addr : Addr) :
    leafOf entry addr &&& PAGE_MASK =
      if entry &&& PAGE_PRESENT = 0 then 0 else entry &&& PAGE_MASK := by
  have offset : (0xFFF : Addr) &&& PAGE_MASK = 0 := by decide
  unfold leafOf
  split
  · exact BitVec.zero_and
  · rw [BitVec.and_or_distrib_right, BitVec.and_assoc, BitVec.and_self, BitVec.and_assoc, offset]
    simp

theorem leafOf_mask_leafEntry {phys flags : Addr} (low : flags &&& PAGE_MASK = 0) (addr : Addr) :
    leafOf (leafEntry phys flags) addr &&& PAGE_MASK = phys &&& PAGE_MASK := by
  have present : PAGE_PRESENT &&& PAGE_MASK = 0 := by decide
  rw [leafOf_and_mask, if_neg (leafEntry_present phys flags), leafEntry]
  simp only [BitVec.and_or_distrib_right, low, present, BitVec.and_assoc, BitVec.and_self]
  simp

/-- An entry that leads nowhere leads nowhere at every offset. -/
theorem leafOf_mask {entry addr : Addr} (zero : leafOf entry addr = 0) (other : Addr) :
    leafOf entry other &&& PAGE_MASK = 0 := by
  rw [leafOf_and_mask, ← leafOf_and_mask entry addr, zero]
  exact BitVec.zero_and

/-- An entry is written where no page is mapped: no owner loses a frame. -/
theorem OwnedBy.write (checked : Checked vm place procs) {root virt entry : Addr}
    (member : root ∈ procs)
    (isAt : place (follow vm.tables root (tablePath virt)) = some (tablePath virt))
    (free : PageFree vm.toMemory root virt) {other : Addr} (isOther : place other = some [])
    {i : Nat} (positive : i ≠ 0) (bound : i < MAX_PAGES) (owned : OwnedBy vm.toMemory other i) :
    OwnedBy (vm.write root (follow vm.tables root (tablePath virt)) virt entry).toMemory other i := by
  have watched := checked.watched
  have placed := watched.placed
  have isRoot := watched.areRoots root (List.mem_cons_of_mem _ member)
  rcases owned with ⟨path, short, inRange, leads, led⟩ | ⟨addr, overlaid, led⟩
  · left
    refine ⟨path, short, inRange, ?_⟩
    rw [placed.follow_write isAt rfl isOther (by simpa using short)]
    exact ⟨leads, led⟩
  · right
    refine ⟨addr, ?_, ?_⟩
    · rw [Overlaid.of_write placed isAt (watched.apart root member) isOther]
      exact Or.inr overlaid
    · rw [placed.translate_write isAt isOther]
      by_cases here : follow vm.tables other (tablePath addr) =
          follow vm.tables root (tablePath virt) ∧ ptIdx addr = ptIdx virt
      · exfalso
        have nonzero := placed.ne_zero isAt
        have covered : Overlaid vm.toMemory root virt := by
          rcases overlaid with ⟨record, old, process, atTable, atIdx⟩
          exact ⟨record, old, process, atTable.trans here.1, atIdx.trans here.2⟩
        have zero := free covered
        rw [vmmVirtToPhys_of_table (placed.ne_zero isRoot) nonzero] at zero
        rw [vmmVirtToPhys_of_table (placed.ne_zero isOther) (here.1 ▸ nonzero), here.1, here.2,
          leafOf_mask zero] at led
        exact frameAddr_ne_zero bound positive led.symm
      · rwa [if_neg here]

/-- A page is mapped onto the frame that was taken for it. -/
theorem OwnedBy.of_write (checked : Checked vm place procs) {root virt flags : Addr}
    (member : root ∈ procs)
    (isAt : place (follow vm.tables root (tablePath virt)) = some (tablePath virt))
    (low : flags &&& PAGE_MASK = 0) (i : Nat) :
    OwnedBy (vm.write root (follow vm.tables root (tablePath virt)) virt
      (leafEntry (frameAddr i) flags)).toMemory root i := by
  have watched := checked.watched
  have isRoot := watched.areRoots root (List.mem_cons_of_mem _ member)
  refine Or.inr ⟨virt, ?_, ?_⟩
  · rw [Overlaid.of_write watched.placed isAt (watched.apart root member) isRoot]
    exact Or.inl ⟨rfl, rfl⟩
  · rw [watched.placed.translate_write isAt isRoot, if_pos ⟨rfl, rfl⟩, leafOf_mask_leafEntry low]
    exact aligned_frameAddr i

/-- An entry is cleared: no page gets mapped. -/
theorem PageFree.write_zero (checked : Checked vm place procs) {root virt : Addr}
    (member : root ∈ procs)
    (isAt : place (follow vm.tables root (tablePath virt)) = some (tablePath virt)) {addr : Addr}
    (free : PageFree vm.toMemory root addr) :
    PageFree (vm.write root (follow vm.tables root (tablePath virt)) virt 0).toMemory root addr := by
  have watched := checked.watched
  have isRoot := watched.areRoots root (List.mem_cons_of_mem _ member)
  intro overlaid
  rw [Overlaid.of_write watched.placed isAt (watched.apart root member) isRoot] at overlaid
  rw [watched.placed.translate_write isAt isRoot]
  by_cases here : follow vm.tables root (tablePath addr) = follow vm.tables root (tablePath virt) ∧
      ptIdx addr = ptIdx virt
  · rw [if_pos here]
    simp [leafOf]
  · rw [if_neg here]
    exact free (overlaid.resolve_left here)

theorem Accounts.write (accounts : Accounts boot driver live vm)
    (checked : Checked vm place procs)
    (members : ∀ root, live root → root ∈ vm.kernelPml4 :: procs) {root virt : Addr}
    (member : root ∈ procs)
    (isAt : place (follow vm.tables root (tablePath virt)) = some (tablePath virt))
    (free : PageFree vm.toMemory root virt) (zero : boot 0 = true) (entry : Addr) :
    Accounts boot driver live
      (vm.write root (follow vm.tables root (tablePath virt)) virt entry) := by
  constructor
  · exact accounts.reserved
  · exact accounts.handed
  · intro i bound taken
    rcases accounts.owned i bound taken with first | second | ⟨other, isLive, owned⟩
    · exact Or.inl first
    · exact Or.inr (Or.inl second)
    · by_cases positive : i = 0
      · rw [positive]
        exact Or.inl zero
      · have isOther := checked.watched.live_isRoot members isLive
        exact Or.inr (Or.inr ⟨other, isLive,
          owned.write checked member isAt free isOther positive bound⟩)

end

/-! ## Programs that lose no frame -/

/-- The frames that need no owner, and the roots in use. -/
structure Owners where
  boot : Nat → Bool
  driver : Nat → Prop
  kernel : Addr
  live : Addr → Prop
  procs : List Addr
  zero : boot 0 = true
  members : ∀ root, live root → root ∈ kernel :: procs

/-- Every frame in use has an owner. -/
structure Held (owners : Owners) (vm : Vm) : Prop where
  kernel : vm.kernelPml4 = owners.kernel
  kept : Kept owners.procs vm
  accounts : Accounts owners.boot owners.driver owners.live vm

/-- A root in use, of a process. -/
structure Owners.Uses (owners : Owners) (root : Addr) : Prop where
  live : owners.live root
  member : root ∈ owners.procs

section

variable {owners : Owners} {vm after : Vm} {place : Places} {root : Addr}

theorem Held.members (held : Held owners vm) (other : Addr) (isLive : owners.live other) :
    other ∈ vm.kernelPml4 :: owners.procs := by
  rw [held.kernel]
  exact owners.members other isLive

/-- An entry is written where no page is mapped, after the tables for it were
added: nothing is lost. -/
theorem Accounts.maps {driver : Nat → Prop} (held : Accounts owners.boot driver owners.live vm)
    (checked : Checked vm place owners.procs) (kernel : vm.kernelPml4 = owners.kernel)
    (uses : owners.Uses root) {virt entry : Addr} (free : PageFree vm.toMemory root virt)
    (maps : Maps vm place root virt entry after) :
    Accounts owners.boot driver owners.live after ∧ after.kernelPml4 = owners.kernel := by
  have watched := checked.watched
  have isRoot := watched.areRoots root (List.mem_cons_of_mem _ uses.member)
  have members : ∀ other, owners.live other → other ∈ vm.kernelPml4 :: owners.procs := by
    rw [kernel]
    exact owners.members
  have grown : ∀ {path grown place'}, Reached vm place root path grown place' →
      Accounts owners.boot driver owners.live grown ∧ grown.kernelPml4 = owners.kernel := by
    intro path grown place' reached
    refine ⟨held.grows watched members reached.grows fun i taken => ?_, ?_⟩
    · exact (reached.gains i taken).imp_right fun table => ⟨root, uses.live, table⟩
    · rw [reached.grows.memory.kernelPml4, kernel]
  cases maps with
  | lacking path _ place' reached full => exact grown reached
  | written middle place' reached =>
      rcases grown reached with ⟨accounts, same⟩
      refine ⟨accounts.write (checked.grows reached.grows) ?_ uses.member ?_ ?_ owners.zero entry,
        same⟩
      · rw [same]
        exact owners.members
      · exact reached.isAt isRoot (by simp [tablePath])
      · exact free.grown watched reached.grows.memory isRoot

/-- A frame that has found an owner. -/
theorem Accounts.settle {boot : Nat → Bool} {driver : Nat → Prop} {live : Addr → Prop} {i : Nat}
    (accounts : Accounts boot (fun j => driver j ∨ j = i) live vm) (isLive : live root)
    (owned : OwnedBy vm.toMemory root i) : Accounts boot driver live vm := by
  refine ⟨accounts.reserved, accounts.handed, fun j bound taken => ?_⟩
  rcases accounts.owned j bound taken with first | (second | rfl) | third
  · exact Or.inl first
  · exact Or.inr (Or.inl second)
  · exact Or.inr (Or.inr ⟨root, isLive, owned⟩)
  · exact Or.inr (Or.inr third)

/-- A frame is taken for a page that is free, and mapped. -/
theorem Held.mapTaken (held : Held owners vm) (uses : owners.Uses root) {flags page : Addr}
    (low : flags &&& PAGE_MASK = 0) (free : PageFree vm.toMemory root page)
    (room : RoomFor vm.toMemory root page) {i : Nat} (search : nextFrame vm.bitmap = some i) :
    Leads (vmmMapPage root page (frameAddr i) flags) (fun _ => Held owners) (vm.take i) := by
  rcases held with ⟨kernel, ⟨place, checked⟩, accounts⟩
  have watched := checked.watched
  have isRoot := watched.areRoots root (List.mem_cons_of_mem _ uses.member)
  have takes := watched.placed.grows_take i
  have taken := checked.grows takes
  have kept := vmmMapPage_kept ⟨place, taken⟩ (Or.inr uses.member) (nextFrame_bound search).1
    (assign_self : (vm.take i).bitmap i = true) low page
  apply (kept.and (vmmMapPage_spec taken.watched.placed isRoot page (frameAddr i) flags)).mono
  rintro _ after ⟨kept, maps⟩
  have stillFree := free.grown watched takes.memory isRoot
  rcases (accounts.take i).maps taken kernel uses stillFree maps with ⟨accounts, same⟩
  refine ⟨same, kept, ?_⟩
  cases maps with
  | lacking path _ place' reached full =>
      have less := freeFrames_pos search
      have full' : freeFrames (assign vm.bitmap i true) <
          missing vm.tables root (tablePath page) := full
      unfold RoomFor at room
      omega
  | written middle place' reached =>
      have grown := taken.grows reached.grows
      exact accounts.settle uses.live
        (OwnedBy.of_write grown uses.member (reached.isAt isRoot (by simp [tablePath])) low i)

end

/-! ## The loops -/

/-- A loop that takes a frame for each page and maps it, and gives up where a
check fails. -/
def mapLoop (root flags : Addr) (check : Addr → Bool) : Nat → Addr → VmM Bool
  | 0, _ => return true
  | count + 1, page => do
      let phys ← pmmAllocPage
      if phys = 0 then return false
      else
        vmmMapPage root page phys flags
        if check page then mapLoop root flags check count (page + 0x1000)
        else return false

theorem loadPages_eq (pml4 fileSize : Addr) (ph : Phdr) (count : Nat) (page : Addr) :
    loadPages pml4 fileSize ph count page =
      mapLoop pml4 ph.pageFlags (ph.copyOk fileSize) count page := by
  induction count generalizing page with
  | zero => rfl
  | succ count ih => simp only [loadPages, mapLoop, ih]

theorem brkGrow_eq (pml4 : Addr) (count : Nat) (page : Addr) :
    brkGrow pml4 count page = mapLoop pml4 VMM_USER_FLAGS (fun _ => true) count page := by
  induction count generalizing page with
  | zero => rfl
  | succ count ih => simp only [brkGrow, mapLoop, ih, if_true]

/-- The machine after a frame was taken for a page and mapped. -/
def Vm.mapNext (vm : Vm) (root flags page : Addr) : Vm :=
  ((do vmmMapPage root page (← pmmAllocPage) flags).run vm).2

/-- A loop finds every page free and frames for it and its tables, or takes
nothing for it; it gives up only where that is allowed. -/
def LoopClean (givesUp : Prop) (root flags : Addr) (check : Addr → Bool) : Nat → Addr → Vm → Prop
  | 0, _, _ => True
  | count + 1, page, vm =>
      (freeFrames vm.bitmap = 0 → givesUp) ∧
        (freeFrames vm.bitmap ≠ 0 → PageFree vm.toMemory root page ∧ RoomFor vm.toMemory root page ∧
          (check page = false → givesUp) ∧
          (check page = true →
            LoopClean givesUp root flags check count (page + 0x1000) (vm.mapNext root flags page)))

/-- A segment is loaded, or given up where that is allowed. -/
def SegmentClean (givesUp : Prop) (root fileSize : Addr) (ph : Phdr) (vm : Vm) : Prop :=
  (ph.sizesOk fileSize = false → givesUp) ∧
    (ph.sizesOk fileSize = true → ph.pMemsz ≠ 0 → (ph.rangeOk = false → givesUp) ∧
      (ph.rangeOk = true → LoopClean givesUp root ph.pageFlags (ph.copyOk fileSize)
        ((ph.pageEnd - ph.pageStart) >>> 12).toNat ph.pageStart vm))

/-- All segments are loaded. -/
def SegmentsClean (givesUp : Prop) (root fileSize : Addr) : List Phdr → Vm → Prop
  | [], _ => True
  | ph :: rest, vm =>
      if ph.pType = 1 then
        SegmentClean givesUp root fileSize ph vm ∧
          Leads (loadSegment root fileSize ph)
            (fun loaded after => loaded = true → SegmentsClean givesUp root fileSize rest after) vm
      else SegmentsClean givesUp root fileSize rest vm

/-- An image is loaded, or given up where that is allowed. -/
def LoadClean (givesUp : Prop) (root : Addr) (file : ElfFile) (vm : Vm) : Prop :=
  (file.headerOk = false → givesUp) ∧
    (file.headerOk = true →
      SegmentsClean givesUp root (BitVec.ofNat 64 file.size)
          ((List.range file.ePhnum).map file.phdr) vm ∧
        (((List.range file.ePhnum).map file.phdr).any (fun ph => ph.pType = 1) = false → givesUp))

section

variable {owners : Owners} {root : Addr} {givesUp : Prop}

theorem mapLoop_held (uses : owners.Uses root) {flags : Addr} (low : flags &&& PAGE_MASK = 0)
    (check : Addr → Bool) (count : Nat) (page : Addr) {vm : Vm} (held : Held owners vm)
    (clean : LoopClean givesUp root flags check count page vm) :
    Leads (mapLoop root flags check count page)
      (fun done after => Held owners after ∧ (done = false → givesUp)) vm := by
  induction count generalizing page vm with
  | zero => exact ⟨held, fun wrong : true = false => by cases wrong⟩
  | succ count ih =>
      rw [LoopClean] at clean
      unfold mapLoop
      rw [leads_bind]
      have goes : Leads pmmAllocPage (fun addr after =>
          vm.mapNext root flags page = ((vmmMapPage root page addr flags).run after).2) vm := rfl
      apply ((pmmAllocPage_spec vm).and goes).mono
      rintro addr after ⟨⟨full, rfl, rfl⟩ | ⟨i, search, rfl, rfl⟩, nextVm⟩
      · rw [if_pos rfl]
        exact ⟨held, fun _ => clean.1 full⟩
      · rcases held.kept with ⟨place, checked⟩
        have placed := checked.watched.placed
        have nonzero := frameAddr_ne_zero (nextFrame_bound search).1 (placed.next_ne_zero search)
        have some : freeFrames vm.bitmap ≠ 0 := by
          have less := freeFrames_pos search
          omega
        rcases clean.2 some with ⟨free, room, stops, goesOn⟩
        rw [nextVm] at goesOn
        rw [if_neg nonzero, leads_bind]
        have maps := held.mapTaken uses low free room search
        by_cases passes : check page = true
        · rw [if_pos passes]
          exact ih (page + 0x1000) maps (goesOn passes)
        · rw [if_neg passes]
          exact ⟨maps, fun _ => stops (by simpa using passes)⟩

theorem loadSegment_held (uses : owners.Uses root) (fileSize : Addr) (ph : Phdr) {vm : Vm}
    (held : Held owners vm) (clean : SegmentClean givesUp root fileSize ph vm) :
    Leads (loadSegment root fileSize ph)
      (fun loaded after => Held owners after ∧ (loaded = false → givesUp)) vm := by
  have low : ph.pageFlags &&& PAGE_MASK = 0 := by
    unfold Phdr.pageFlags
    split <;> decide
  unfold loadSegment
  by_cases sizes : ph.sizesOk fileSize = true
  · rw [if_pos sizes]
    by_cases empty : ph.pMemsz = 0
    · rw [if_pos empty]
      exact ⟨held, fun wrong : true = false => by cases wrong⟩
    · rw [if_neg empty]
      rcases clean.2 sizes empty with ⟨stops, goesOn⟩
      by_cases range : ph.rangeOk = true
      · rw [if_pos range, loadPages_eq]
        exact mapLoop_held uses low _ _ _ held (goesOn range)
      · rw [if_neg range]
        exact ⟨held, fun _ => stops (by simpa using range)⟩
  · rw [if_neg sizes]
    exact ⟨held, fun _ => clean.1 (by simpa using sizes)⟩

theorem loadSegments_held (uses : owners.Uses root) (fileSize : Addr) (phdrs : List Phdr) {vm : Vm}
    (held : Held owners vm) (clean : SegmentsClean givesUp root fileSize phdrs vm) :
    Leads (loadSegments root fileSize phdrs)
      (fun loaded after => Held owners after ∧ (loaded = false → givesUp)) vm := by
  induction phdrs generalizing vm with
  | nil => exact ⟨held, fun wrong : true = false => by cases wrong⟩
  | cons ph rest ih =>
      unfold loadSegments
      rw [SegmentsClean] at clean
      by_cases load : ph.pType = 1
      · rw [if_pos load] at clean ⊢
        rw [leads_bind]
        apply ((loadSegment_held uses fileSize ph held clean.1).and clean.2).mono
        rintro loaded after ⟨⟨held, stops⟩, goesOn⟩
        cases loaded with
        | true => exact ih held (goesOn rfl)
        | false => exact ⟨held, fun _ => stops rfl⟩
      · rw [if_neg load] at clean ⊢
        exact ih held clean

theorem loadElfIntoProcess_held (uses : owners.Uses root) (file : ElfFile) {vm : Vm}
    (held : Held owners vm) (clean : LoadClean givesUp root file vm) :
    Leads (loadElfIntoProcess root file)
      (fun loaded after => Held owners after ∧ (loaded = false → givesUp)) vm := by
  have nonzero : root ≠ 0 := by
    rcases held.kept with ⟨place, checked⟩
    have isRoot := checked.watched.areRoots root (List.mem_cons_of_mem _ uses.member)
    exact checked.watched.placed.ne_zero isRoot
  unfold loadElfIntoProcess
  rw [if_neg nonzero]
  by_cases header : file.headerOk = true
  · rw [if_pos header]
    rcases clean.2 header with ⟨segments, none⟩
    dsimp only
    rw [leads_bind]
    apply (loadSegments_held uses _ _ held segments).mono
    rintro loaded after ⟨held, stops⟩
    cases loaded with
    | true => exact ⟨held, none⟩
    | false => exact ⟨held, fun _ => stops rfl⟩
  · rw [if_neg header]
    exact ⟨held, fun _ => clean.1 (by simpa using header)⟩

/-- Unmapping a page that is free. -/
theorem vmmUnmapPage_held (uses : owners.Uses root) (virt : Addr) {vm : Vm} (held : Held owners vm)
    (free : PageFree vm.toMemory root virt) :
    Leads (vmmUnmapPage root virt)
      (fun _ after => Held owners after ∧ ∀ page, PageFree vm.toMemory root page →
        PageFree after.toMemory root page) vm := by
  have keeps := vmmUnmapPage_keeps (Or.inr uses.member) virt vm held.kept
  rcases held with ⟨kernel, ⟨place, checked⟩, accounts⟩
  have watched := checked.watched
  have isRoot := watched.areRoots root (List.mem_cons_of_mem _ uses.member)
  apply (keeps.and (vmmUnmapPage_spec watched.placed isRoot virt)).mono
  rintro _ after ⟨kept, maps | ⟨rfl, -⟩⟩
  · rcases accounts.maps checked kernel uses free maps with ⟨accounts, same⟩
    refine ⟨⟨same, kept, accounts⟩, fun page free => ?_⟩
    cases maps with
    | lacking path _ place' reached full =>
        exact free.grown watched reached.grows.memory isRoot
    | written middle place' reached =>
        have grown := checked.grows reached.grows
        apply PageFree.write_zero grown uses.member (reached.isAt isRoot (by simp [tablePath]))
        exact free.grown watched reached.grows.memory isRoot
  · exact ⟨⟨kernel, kept, accounts⟩, fun _ free => free⟩

theorem brkShrink_held (uses : owners.Uses root) (count : Nat) (page : Addr) {vm : Vm}
    (held : Held owners vm)
    (free : ∀ k < count, PageFree vm.toMemory root (page + BitVec.ofNat 64 (k * 0x1000))) :
    Leads (brkShrink root count page) (fun _ => Held owners) vm := by
  induction count generalizing page vm with
  | zero => exact held
  | succ count ih =>
      unfold brkShrink
      rw [leads_bind]
      have first := free 0 (Nat.succ_pos count)
      rw [Nat.zero_mul, BitVec.add_zero] at first
      apply (vmmUnmapPage_held uses page held first).mono
      rintro _ after ⟨held, keeps⟩
      apply ih (page + 0x1000) held
      intro k bound
      have next := keeps _ (free (k + 1) (Nat.succ_lt_succ bound))
      have same : page + 0x1000 + BitVec.ofNat 64 (k * 0x1000) =
          page + BitVec.ofNat 64 ((k + 1) * 0x1000) := by
        apply BitVec.eq_of_toNat_eq
        have size : (0x1000 : Addr).toNat = 4096 := rfl
        simp only [BitVec.toNat_add, BitVec.toNat_ofNat, size]
        omega
      rwa [same]

end

/-! ## New roots -/

/-- A root that may come into use. -/
def Owners.add (owners : Owners) (root : Addr) : Owners where
  boot := owners.boot
  driver := owners.driver
  kernel := owners.kernel
  live other := owners.live other ∨ other = root
  procs := root :: owners.procs
  zero := owners.zero
  members := by
    rintro other (old | rfl)
    · rcases List.mem_cons.mp (owners.members other old) with kernel | process
      · exact kernel ▸ List.mem_cons_self
      · exact List.mem_cons_of_mem _ (List.mem_cons_of_mem _ process)
    · exact List.mem_cons_of_mem _ List.mem_cons_self

/-- Without memory `create_user_pml4` changes nothing. -/
theorem createUserPml4_full {vm : Vm} (full : freeFrames vm.bitmap = 0) :
    createUserPml4.run vm = (0, vm) := by
  have spec : Leads createUserPml4 (fun root after => (root, after) = ((0 : Addr), vm)) vm := by
    unfold createUserPml4
    rw [leads_bind]
    apply (pmmAllocPage_spec vm).mono
    rintro root after (⟨-, rfl, rfl⟩ | ⟨i, search, -, -⟩)
    · rw [if_pos rfl]
      exact rfl
    · rw [nextFrame_eq_none_iff.mpr full] at search
      cases search
  exact spec

/-- A new root owns the frames that were taken for it. -/
theorem createUserPml4_held {owners : Owners} {vm : Vm} (held : Held owners vm)
    (enough : freeFrames vm.bitmap = 0 ∨ 6 ≤ freeFrames vm.bitmap) :
    Leads createUserPml4
      (fun root after => (root = 0 ∧ after = vm) ∨ (root ≠ 0 ∧ Held (owners.add root) after)) vm := by
  rcases enough with full | enough
  · unfold Leads
    rw [createUserPml4_full full]
    exact Or.inl ⟨rfl, rfl⟩
  · rcases held with ⟨kernel, ⟨place, checked⟩, accounts⟩
    have watched := checked.watched
    apply (createUserPml4_spec watched.placed watched.directories).mono
    rintro root after (⟨-, full, -⟩ | ⟨place', made⟩)
    · omega
    · refine Or.inr ⟨made.grows.memory.placed.ne_zero made.isRoot, ?_, ⟨place', made.kept checked⟩,
        ?_⟩
      · rw [made.grows.memory.kernelPml4]
        exact kernel
      · have members : ∀ other, owners.live other → other ∈ vm.kernelPml4 :: owners.procs := by
          rw [kernel]
          exact owners.members
        constructor
        · exact fun i taken => made.grows.memory.bitmap (accounts.reserved i taken)
        · intro snapshot member i taken
          rcases made.grows.handed snapshot member with old | ⟨places, grown⟩
          · exact accounts.handed snapshot old i taken
          · exact grown.bitmap (accounts.reserved i taken)
        · intro i bound taken
          rcases made.gains i taken with old | table
          · rcases accounts.owned i bound old with first | second | ⟨other, isLive, owned⟩
            · exact Or.inl first
            · exact Or.inr (Or.inl second)
            · have isOther := watched.live_isRoot members isLive
              exact Or.inr (Or.inr ⟨other, Or.inl isLive,
                owned.grown watched made.grows.memory isOther⟩)
          · exact Or.inr (Or.inr ⟨root, Or.inr rfl, Or.inl table⟩)

end Notux.Vmm
