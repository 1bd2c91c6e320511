import Notux.Vmm.Machine

/-!
# Addresses of frames as pointers

The kernel runs on the page tables of the current process and uses the address
of a frame as a pointer to it.  That is right as long as the entry that the
current tables hold for that address is still the one of the identity map.  What
`load_elf_into_process` and `sys_brk` map lies over the identity map, and never
leads back to a free frame.
-/

namespace Notux.Vmm

open Notux.Store Notux.Proc

/-! ## The statement -/

/-- The entry that a root's tables hold for an address was written for a
process. -/
def Overlaid (memory : Memory) (root addr : Addr) : Prop :=
  ∃ entry ∈ memory.written, entry.pml4 ≠ memory.kernelPml4 ∧
    entry.table = follow memory.tables root (tablePath addr) ∧ entry.idx = ptIdx addr

/-- In the current tables, the frame that is handed out next is mapped onto itself. -/
def NextMapped (memory : Memory) : Prop :=
  ∀ i, nextFrame memory.bitmap = some i →
    vmmVirtToPhys memory memory.cr3 (frameAddr i) = frameAddr i

/-- A page of a process lies over the frame that is handed out next. -/
def NextOverlaid (memory : Memory) : Prop :=
  ∃ i, nextFrame memory.bitmap = some i ∧ Overlaid memory memory.cr3 (frameAddr i)

/-! ## The invariant -/

/-- The roots of the kernel and of the processes map every frame onto itself,
except where a page of a process lies over it; there they lead to a frame in use
or nowhere. -/
structure Watched (memory : Memory) (place : Places) (procs : List Addr) : Prop where
  placed : Placed memory place
  areRoots : ∀ root ∈ memory.kernelPml4 :: procs, place root = some []
  apart : ∀ root ∈ procs, root ≠ memory.kernelPml4
  cr3 : memory.cr3 ∈ memory.kernelPml4 :: procs
  directories : KernelDirectories memory
  writtenAt : ∀ entry ∈ memory.written, ∃ path, place entry.table = some path ∧ path.length = 3
  direct : ∀ root ∈ memory.kernelPml4 :: procs, ∀ i < MAX_PAGES,
    ¬ Overlaid memory root (frameAddr i) →
      vmmVirtToPhys memory root (frameAddr i) = frameAddr i
  moved : ∀ root ∈ memory.kernelPml4 :: procs, ∀ i < MAX_PAGES,
    Overlaid memory root (frameAddr i) →
      vmmVirtToPhys memory root (frameAddr i) = 0 ∨ ∃ j < MAX_PAGES, memory.bitmap j = true ∧
        vmmVirtToPhys memory root (frameAddr i) = frameAddr j

namespace Watched

variable {memory : Memory} {place : Places} {procs : List Addr}

/-- The next frame is mapped onto itself exactly if nothing lies over it. -/
theorem nextMapped_iff (watched : Watched memory place procs) :
    NextMapped memory ↔ ¬ NextOverlaid memory := by
  constructor
  · rintro valid ⟨i, search, overlaid⟩
    rcases nextFrame_bound search with ⟨bound, clear⟩
    have same := valid i search
    have positive : i ≠ 0 := by
      intro zero
      rw [zero, watched.placed.reserved] at clear
      cases clear
    rcases watched.moved memory.cr3 watched.cr3 i bound overlaid with none | ⟨j, bound', taken, led⟩
    · rw [none] at same
      exact frameAddr_ne_zero bound positive same.symm
    · rw [led] at same
      rw [frameAddr_inj bound' bound same, clear] at taken
      cases taken
  · intro clear i search
    apply watched.direct memory.cr3 watched.cr3 i (nextFrame_bound search).1
    exact fun overlaid => clear ⟨i, search, overlaid⟩

/-- Growing lays nothing over anything. -/
theorem overlaid_iff (watched : Watched memory place procs) {after : Memory} {place' : Places}
    (grown : Grown memory after place place') {root : Addr}
    (isRoot : place root = some []) (addr : Addr) :
    Overlaid after root addr ↔ Overlaid memory root addr := by
  have short : (tablePath addr).length ≤ 3 := by simp [tablePath]
  unfold Overlaid
  rw [grown.written, grown.kernelPml4]
  by_cases stops : follow memory.tables root (tablePath addr) = 0
  · constructor
    · rintro ⟨entry, member, process, atTable, -⟩
      rcases watched.writtenAt entry member with ⟨path, isAt, -⟩
      by_cases still : follow after.tables root (tablePath addr) = 0
      · rw [atTable, still] at isAt
        exact absurd rfl (watched.placed.ne_zero isAt)
      · rw [atTable, grown.fresh isRoot short stops still] at isAt
        cases isAt
    · rintro ⟨entry, member, process, atTable, -⟩
      rcases watched.writtenAt entry member with ⟨path, isAt, -⟩
      rw [atTable, stops] at isAt
      exact absurd rfl (watched.placed.ne_zero isAt)
  · rw [grown.walks isRoot short stops]

theorem grown (watched : Watched memory place procs) {after : Memory} {place' : Places}
    (grown : Grown memory after place place') : Watched after place' procs := by
  have isRoot := watched.areRoots
  constructor
  · exact grown.placed
  · rw [grown.kernelPml4]
    exact fun root member => grown.keeps (isRoot root member)
  · rw [grown.kernelPml4]
    exact watched.apart
  · rw [grown.kernelPml4, grown.cr3]
    exact watched.cr3
  · exact watched.directories.grown watched.placed grown
  · rw [grown.written]
    intro entry member
    rcases watched.writtenAt entry member with ⟨path, isAt, level⟩
    exact ⟨path, grown.keeps isAt, level⟩
  · rw [grown.kernelPml4]
    intro root member i bound clear
    rw [watched.overlaid_iff grown (isRoot root member)] at clear
    rw [grown.same (isRoot root member)]
    exact watched.direct root member i bound clear
  · rw [grown.kernelPml4]
    intro root member i bound overlaid
    rw [watched.overlaid_iff grown (isRoot root member)] at overlaid
    rw [grown.same (isRoot root member)]
    rcases watched.moved root member i bound overlaid with none | ⟨j, bound', taken, led⟩
    · exact Or.inl none
    · exact Or.inr ⟨j, bound', grown.bitmap taken, led⟩

end Watched

/-- The invariant, which also held whenever a frame was handed out. -/
structure Checked (vm : Vm) (place : Places) (procs : List Addr) : Prop where
  watched : Watched vm.toMemory place procs
  handouts : ∀ snapshot ∈ vm.handouts, ∃ place procs, Watched snapshot place procs

theorem Checked.grows {before after : Vm} {place place' : Places} {procs : List Addr}
    (checked : Checked before place procs) (grows : Grows before after place place') :
    Checked after place' procs := by
  constructor
  · exact checked.watched.grown grows.memory
  · intro snapshot member
    rcases grows.handed snapshot member with old | ⟨places, grown⟩
    · exact checked.handouts snapshot old
    · exact ⟨places, procs, checked.watched.grown grown⟩

/-! ## Writing an entry -/

theorem frameAddr_offset (i : Nat) : frameAddr i &&& 0xFFF = 0 :=
  (aligned_frameAddr i).and_low (by decide)

theorem leafOf_leafEntry {phys flags addr : Addr} (low : flags &&& PAGE_MASK = 0)
    (start : addr &&& 0xFFF = 0) : leafOf (leafEntry phys flags) addr = phys &&& PAGE_MASK := by
  have present : PAGE_PRESENT &&& PAGE_MASK = 0 := by decide
  rw [leafOf, if_neg (leafEntry_present phys flags), leafEntry, start]
  simp only [BitVec.and_or_distrib_right, low, present]
  rw [BitVec.and_assoc, BitVec.and_self]
  simp

/-- An entry that leads to a frame in use, or nowhere. -/
def Harmless (bitmap : Nat → Bool) (entry : Addr) : Prop :=
  ∀ i, leafOf entry (frameAddr i) = 0 ∨ ∃ j < MAX_PAGES, bitmap j = true ∧
    leafOf entry (frameAddr i) = frameAddr j

theorem harmless_zero (bitmap : Nat → Bool) : Harmless bitmap 0 := fun _ => Or.inl (by simp [leafOf])

theorem harmless_leafEntry {bitmap : Nat → Bool} {j : Nat} (bound : j < MAX_PAGES)
    (taken : bitmap j = true) {flags : Addr} (low : flags &&& PAGE_MASK = 0) :
    Harmless bitmap (leafEntry (frameAddr j) flags) := fun i =>
  Or.inr ⟨j, bound, taken, (leafOf_leafEntry low (frameAddr_offset i)).trans (aligned_frameAddr j)⟩

/-- Where an entry was written for a process, a page lies over the address. -/
theorem Overlaid.of_write {vm : Vm} {place : Places} (placed : Placed vm.toMemory place)
    {root pt virt entry : Addr} (isAt : place pt = some (tablePath virt))
    (process : root ≠ vm.kernelPml4) {other : Addr} (isRoot : place other = some []) (addr : Addr) :
    Overlaid (vm.write root pt virt entry).toMemory other addr ↔
      (follow vm.tables other (tablePath addr) = pt ∧ ptIdx addr = ptIdx virt) ∨
        Overlaid vm.toMemory other addr := by
  have walk : follow (vm.write root pt virt entry).tables other (tablePath addr) =
      follow vm.tables other (tablePath addr) :=
    placed.follow_write isAt rfl isRoot (by simp [tablePath])
  unfold Overlaid
  rw [walk]
  constructor
  · rintro ⟨record, member, process', atTable, atIdx⟩
    rcases List.mem_cons.mp member with rfl | old
    · exact Or.inl ⟨atTable.symm, atIdx.symm⟩
    · exact Or.inr ⟨record, old, process', atTable, atIdx⟩
  · rintro (⟨atTable, atIdx⟩ | ⟨record, member, process', atTable, atIdx⟩)
    · exact ⟨⟨root, pt, ptIdx virt⟩, List.mem_cons_self, process, atTable.symm, atIdx.symm⟩
    · exact ⟨record, List.mem_cons_of_mem _ member, process', atTable, atIdx⟩

/-- A harmless entry is written for a process. -/
theorem Checked.write {vm : Vm} {place : Places} {procs : List Addr}
    (checked : Checked vm place procs) {root pt virt entry : Addr}
    (isAt : place pt = some (tablePath virt)) (process : root ≠ vm.kernelPml4)
    (harmless : Harmless vm.bitmap entry) :
    Checked (vm.write root pt virt entry) place procs := by
  have watched := checked.watched
  have placed := watched.placed
  have areRoots := watched.areRoots
  constructor
  · constructor
    · exact placed.write root isAt rfl virt entry
    · exact areRoots
    · exact watched.apart
    · exact watched.cr3
    · intro idx small
      show follow (vm.write root pt virt entry).tables vm.kernelPml4 [0, idx] ≠ 0
      rw [placed.follow_write isAt rfl placed.kernel (by simp)]
      exact watched.directories idx small
    · intro record member
      rcases List.mem_cons.mp member with rfl | old
      · exact ⟨_, isAt, rfl⟩
      · exact watched.writtenAt record old
    · intro other member i bound clear
      rw [Overlaid.of_write placed isAt process (areRoots other member), not_or] at clear
      rw [placed.translate_write isAt (areRoots other member), if_neg clear.1]
      exact watched.direct other member i bound clear.2
    · intro other member i bound overlaid
      rw [placed.translate_write isAt (areRoots other member)]
      by_cases here : follow vm.tables other (tablePath (frameAddr i)) = pt ∧
          ptIdx (frameAddr i) = ptIdx virt
      · rw [if_pos here]
        exact harmless i
      · rw [if_neg here]
        rw [Overlaid.of_write placed isAt process (areRoots other member)] at overlaid
        exact watched.moved other member i bound (overlaid.resolve_left here)
  · exact checked.handouts

/-! ## Programs that keep the invariant -/

/-- The invariant holds for some places. -/
def Kept (procs : List Addr) (vm : Vm) : Prop := ∃ place, Checked vm place procs

/-- A program keeps the invariant. -/
def Keeps {α : Type} (procs : List Addr) (program : VmM α) : Prop :=
  ∀ vm, Kept procs vm → Leads program (fun _ => Kept procs) vm

section

variable {α β : Type} {procs : List Addr}

theorem Keeps.pure (value : α) : Keeps procs (Pure.pure value : VmM α) := fun _ kept => kept

theorem Keeps.bind {program : VmM α} {next : α → VmM β} (first : Keeps procs program)
    (second : ∀ value, Keeps procs (next value)) : Keeps procs (program >>= next) := by
  intro vm kept
  rw [leads_bind]
  exact (first vm kept).mono fun value after kept => second value after kept

theorem Keeps.ite {condition : Prop} [Decidable condition] {first second : VmM α}
    (yes : Keeps procs first) (no : Keeps procs second) :
    Keeps procs (if condition then first else second) := by
  split
  · exact yes
  · exact no

/-- The outcome of a call on the tables of a process. -/
theorem Maps.kept {vm after : Vm} {place : Places} {root virt entry : Addr}
    (checked : Checked vm place procs) (member : root ∈ procs)
    (harmless : Harmless vm.bitmap entry) (maps : Maps vm place root virt entry after) :
    Kept procs after := by
  have watched := checked.watched
  have isRoot := watched.areRoots root (List.mem_cons_of_mem _ member)
  cases maps with
  | lacking path _ place' reached _ => exact ⟨place', checked.grows reached.grows⟩
  | written grown place' reached =>
      have grows := reached.grows.memory
      refine ⟨place', (checked.grows reached.grows).write
        (reached.isAt isRoot (by simp [tablePath])) ?_ ?_⟩
      · rw [grows.kernelPml4]
        exact watched.apart root member
      · intro i
        rcases harmless i with none | ⟨j, bound, taken, led⟩
        · exact Or.inl none
        · exact Or.inr ⟨j, bound, grows.bitmap taken, led⟩

theorem pmmAllocPage_kept {vm : Vm} (kept : Kept procs vm) :
    Leads pmmAllocPage (fun addr after => Kept procs after ∧
      (addr = 0 ∨ ∃ j < MAX_PAGES, addr = frameAddr j ∧ after.bitmap j = true)) vm := by
  rcases kept with ⟨place, checked⟩
  apply (pmmAllocPage_spec vm).mono
  rintro addr after (⟨-, rfl, rfl⟩ | ⟨i, search, rfl, rfl⟩)
  · exact ⟨⟨place, checked⟩, Or.inl rfl⟩
  · refine ⟨⟨place, checked.grows (checked.watched.placed.grows_take i)⟩, Or.inr ⟨i, ?_, rfl, ?_⟩⟩
    · exact (nextFrame_bound search).1
    · exact assign_self

/-- A frame in use is mapped for a process. -/
theorem vmmMapPage_kept {vm : Vm} (kept : Kept procs vm) {root : Addr}
    (member : root = 0 ∨ root ∈ procs) {j : Nat} (bound : j < MAX_PAGES)
    (taken : vm.bitmap j = true) {flags : Addr} (low : flags &&& PAGE_MASK = 0) (virt : Addr) :
    Leads (vmmMapPage root virt (frameAddr j) flags) (fun _ => Kept procs) vm := by
  rcases member with rfl | member
  · exact kept
  · rcases kept with ⟨place, checked⟩
    have isRoot := checked.watched.areRoots root (List.mem_cons_of_mem _ member)
    apply (vmmMapPage_spec checked.watched.placed isRoot virt _ flags).mono
    intro _ after maps
    exact maps.kept checked member (harmless_leafEntry bound taken low)

theorem vmmUnmapPage_keeps {root : Addr} (member : root = 0 ∨ root ∈ procs) (virt : Addr) :
    Keeps procs (vmmUnmapPage root virt) := by
  intro vm kept
  rcases member with rfl | member
  · exact kept
  · rcases kept with ⟨place, checked⟩
    have isRoot := checked.watched.areRoots root (List.mem_cons_of_mem _ member)
    apply (vmmUnmapPage_spec checked.watched.placed isRoot virt).mono
    rintro _ after (maps | ⟨rfl, -⟩)
    · exact maps.kept checked member (harmless_zero vm.bitmap)
    · exact ⟨place, checked⟩

/-- A frame is taken and mapped for a process. -/
theorem mapTaken_keeps {root : Addr} (member : root = 0 ∨ root ∈ procs) {flags : Addr}
    (low : flags &&& PAGE_MASK = 0) (page : Addr) {next : VmM Bool} (rest : Keeps procs next) :
    Keeps procs (do
      let phys ← pmmAllocPage
      if phys = 0 then return false
      else
        vmmMapPage root page phys flags
        next) := by
  intro vm kept
  rw [leads_bind]
  apply (pmmAllocPage_kept kept).mono
  rintro addr after ⟨kept, rfl | ⟨j, bound, rfl, taken⟩⟩
  · exact kept
  · split
    · exact kept
    · rw [leads_bind]
      exact (vmmMapPage_kept kept member bound taken low page).mono fun _ after kept =>
        rest after kept

theorem loadPages_keeps {root : Addr} (member : root = 0 ∨ root ∈ procs) (fileSize : Addr)
    (ph : Phdr) (count : Nat) (page : Addr) :
    Keeps procs (loadPages root fileSize ph count page) := by
  have low : ph.pageFlags &&& PAGE_MASK = 0 := by
    unfold Phdr.pageFlags
    split <;> decide
  induction count generalizing page with
  | zero => exact Keeps.pure true
  | succ count ih => exact mapTaken_keeps member low page ((ih _).ite (Keeps.pure false))

theorem loadSegments_keeps {root : Addr} (member : root = 0 ∨ root ∈ procs) (fileSize : Addr)
    (phdrs : List Phdr) : Keeps procs (loadSegments root fileSize phdrs) := by
  induction phdrs with
  | nil => exact Keeps.pure true
  | cons ph rest ih =>
      have segment : Keeps procs (loadSegment root fileSize ph) := by
        apply Keeps.ite
        · apply (Keeps.pure true).ite
          exact (loadPages_keeps member fileSize ph _ _).ite (Keeps.pure false)
        · exact Keeps.pure false
      exact (segment.bind fun _ => ih.ite (Keeps.pure false)).ite ih

theorem loadElfIntoProcess_keeps {root : Addr} (member : root = 0 ∨ root ∈ procs)
    (file : ElfFile) : Keeps procs (loadElfIntoProcess root file) := by
  apply (Keeps.pure false).ite
  apply Keeps.ite
  · exact (loadSegments_keeps member _ _).bind fun _ => (Keeps.pure _).ite (Keeps.pure false)
  · exact Keeps.pure false

theorem brkGrow_keeps {root : Addr} (member : root = 0 ∨ root ∈ procs) (count : Nat)
    (page : Addr) : Keeps procs (brkGrow root count page) := by
  induction count generalizing page with
  | zero => exact Keeps.pure true
  | succ count ih => exact mapTaken_keeps member (by decide) page (ih _)

theorem brkShrink_keeps {root : Addr} (member : root = 0 ∨ root ∈ procs) (count : Nat)
    (page : Addr) : Keeps procs (brkShrink root count page) := by
  induction count generalizing page with
  | zero => exact Keeps.pure ()
  | succ count ih => exact (vmmUnmapPage_keeps member page).bind fun _ => ih _

/-- Loading the tables of a process. -/
theorem vmmSwitchPml4_keeps {root : Addr} (member : root = 0 ∨ root ∈ procs) :
    Keeps procs (vmmSwitchPml4 root) := by
  rintro vm ⟨place, checked⟩
  unfold vmmSwitchPml4
  rcases member with rfl | member
  · exact ⟨place, checked⟩
  · split
    · exact ⟨place, checked⟩
    · have watched := checked.watched
      refine ⟨place, ⟨?_, watched.areRoots, watched.apart, List.mem_cons_of_mem _ member,
        watched.directories, watched.writtenAt, watched.direct, watched.moved⟩, checked.handouts⟩
      have placed := watched.placed
      exact ⟨placed.used, placed.child, placed.small, placed.kernel, placed.reserved⟩

end

/-! ## New roots -/

/-- A new root maps what the kernel maps. -/
theorem NewRoot.inherits {before after : Vm} {place place' : Places} {root : Addr}
    (made : NewRoot before after place place' root) (placed : Placed before.toMemory place)
    {virt : Addr} (inherited : Inherited virt) :
    vmmVirtToPhys after.toMemory root virt =
        vmmVirtToPhys before.toMemory before.kernelPml4 virt ∧
      follow after.tables root (tablePath virt) =
        follow before.tables before.kernelPml4 (tablePath virt) := by
  have rootNonzero := made.grows.memory.placed.ne_zero made.isRoot
  have kernelNonzero := placed.ne_zero placed.kernel
  rcases made.directory virt inherited with ⟨zero, table⟩
  have split : tablePath virt = directoryPath virt ++ [pdIdx virt] := rfl
  rw [vmmVirtToPhys_eq _ rootNonzero, vmmVirtToPhys_eq _ kernelNonzero, split]
  by_cases stops : follow before.tables before.kernelPml4 (directoryPath virt) = 0
  · have stops' := zero.mpr stops
    rw [if_pos stops', if_pos stops, follow_append_of_zero stops' rootNonzero,
      follow_append_of_zero stops kernelNonzero]
    exact ⟨rfl, rfl⟩
  · have leads := zero.not.mpr stops
    have isPd := placed.follow_place placed.kernel (by simp [directoryPath]) stops
    rw [if_neg leads, if_neg stops, follow_concat leads, follow_concat stops, table leads]
    refine ⟨?_, rfl⟩
    have same : translateIn after.tables (follow after.tables root (directoryPath virt)) virt =
        translateIn after.tables (follow before.tables before.kernelPml4 (directoryPath virt))
          virt := by
      unfold translateIn
      rw [table leads, made.agree isPd]
    rw [same]
    apply translateIn_agree placed isPd rfl
    · rw [made.agree isPd]
    · intro pt isPt _
      rw [made.agree isPt]

theorem pml4Idx_frameAddr {i : Nat} (bound : i < MAX_PAGES) : pml4Idx (frameAddr i) = 0 := by
  have value := frameAddr_toNat bound
  have zero : (frameAddr i >>> 39).toNat = 0 := by
    rw [BitVec.toNat_ushiftRight, value, Nat.shiftRight_eq_div_pow]
    simp only [MAX_PAGES, PAGE_SIZE] at *
    omega
  rw [pml4Idx, BitVec.toNat_and, zero, Nat.zero_and]

theorem pdpIdx_frameAddr {i : Nat} (bound : i < MAX_PAGES) : pdpIdx (frameAddr i) = 0 := by
  have value := frameAddr_toNat bound
  have zero : (frameAddr i >>> 30).toNat = 0 := by
    rw [BitVec.toNat_ushiftRight, value, Nat.shiftRight_eq_div_pow]
    simp only [MAX_PAGES, PAGE_SIZE] at *
    omega
  rw [pdpIdx, BitVec.toNat_and, zero, Nat.zero_and]

theorem inherited_frameAddr {i : Nat} (bound : i < MAX_PAGES) : Inherited (frameAddr i) := by
  right
  rw [pdpIdx_frameAddr bound]
  decide

/-- A new root maps the frames as the kernel does. -/
theorem NewRoot.kept {before after : Vm} {place place' : Places} {root : Addr}
    {procs : List Addr} (checked : Checked before place procs)
    (made : NewRoot before after place place' root) : Checked after place' (root :: procs) := by
  have old := checked.grows made.grows
  have watched := checked.watched
  have kernelPml4 := made.grows.memory.kernelPml4
  have sameOverlaid : ∀ i < MAX_PAGES, (Overlaid after.toMemory root (frameAddr i) ↔
      Overlaid before.toMemory before.kernelPml4 (frameAddr i)) := by
    intro i bound
    unfold Overlaid
    rw [(made.inherits watched.placed (inherited_frameAddr bound)).2, made.grows.memory.written,
      kernelPml4]
  have subset : ∀ {other : Addr}, other ∈ after.kernelPml4 :: root :: procs →
      other = root ∨ other ∈ after.kernelPml4 :: procs := by
    intro other member
    rcases List.mem_cons.mp member with first | rest
    · exact Or.inr (first ▸ List.mem_cons_self)
    · rcases List.mem_cons.mp rest with second | third
      · exact Or.inl second
      · exact Or.inr (List.mem_cons_of_mem _ third)
  have inside : before.kernelPml4 ∈ before.kernelPml4 :: procs := List.mem_cons_self
  constructor
  · constructor
    · exact old.watched.placed
    · intro other member
      rcases subset member with rfl | member
      · exact made.isRoot
      · exact old.watched.areRoots other member
    · intro other member
      rcases List.mem_cons.mp member with rfl | member
      · intro same
        have isKernel := watched.placed.kernel
        rw [← kernelPml4, ← same, made.fresh] at isKernel
        cases isKernel
      · exact old.watched.apart other member
    · rcases List.mem_cons.mp old.watched.cr3 with kernel | process
      · rw [kernel]
        exact List.mem_cons_self
      · exact List.mem_cons_of_mem _ (List.mem_cons_of_mem _ process)
    · exact old.watched.directories
    · exact old.watched.writtenAt
    · intro other member i bound clear
      rcases subset member with rfl | member
      · rw [sameOverlaid i bound] at clear
        rw [(made.inherits watched.placed (inherited_frameAddr bound)).1]
        exact watched.direct _ inside i bound clear
      · exact old.watched.direct other member i bound clear
    · intro other member i bound overlaid
      rcases subset member with rfl | member
      · rw [sameOverlaid i bound] at overlaid
        rw [(made.inherits watched.placed (inherited_frameAddr bound)).1]
        rcases watched.moved _ inside i bound overlaid with none | ⟨j, bound', taken, led⟩
        · exact Or.inl none
        · exact Or.inr ⟨j, bound', made.grows.memory.bitmap taken, led⟩
      · exact old.watched.moved other member i bound overlaid
  · exact old.handouts

/-- `create_user_pml4` adds a root, or keeps the ones there are. -/
theorem createUserPml4_kept {procs : List Addr} {vm : Vm} (kept : Kept procs vm) :
    Leads createUserPml4
      (fun root after => (root = 0 ∧ Kept procs after) ∨ Kept (root :: procs) after) vm := by
  rcases kept with ⟨place, checked⟩
  apply (createUserPml4_spec checked.watched.placed checked.watched.directories).mono
  rintro root after (⟨zero, -, place', builds⟩ | ⟨place', made⟩)
  · exact Or.inl ⟨zero, place', checked.grows builds.finish⟩
  · exact Or.inr ⟨place', made.kept checked⟩

/-! ## Before the first process -/

/-- Only the kernel has written entries, and its tables map every frame onto
itself. -/
def KernelOnly (vm : Vm) : Prop :=
  Kept [] vm ∧ ∀ entry ∈ vm.written, entry.pml4 = vm.kernelPml4

/-- Equal indices mean equal bits. -/
theorem getLsbD_of_idx {a b : Addr} {shift k : Nat}
    (same : ((a >>> shift) &&& 0x1FF).toNat = ((b >>> shift) &&& 0x1FF).toNat) (small : k < 9) :
    a.getLsbD (shift + k) = b.getLsbD (shift + k) := by
  have bits : ∀ k < 9, (0x1FF : Addr).getLsbD k = true := by decide
  have equal := congrArg (fun word => word.getLsbD k) (BitVec.eq_of_toNat_eq same)
  simpa only [BitVec.getLsbD_and, BitVec.getLsbD_ushiftRight, bits k small, Bool.and_true] using equal

/-- Below 2^48 an address is determined by its page and offset. -/
theorem SamePage.mask_eq {a b : Addr} (page : SamePage a b) (first : a.toNat < 2 ^ 48)
    (second : b.toNat < 2 ^ 48) : a &&& PAGE_MASK = b &&& PAGE_MASK := by
  rcases page with ⟨path, pt⟩
  simp only [tablePath, List.cons.injEq, and_true] at path
  rcases path with ⟨pml4, pdp, pd⟩
  apply BitVec.eq_of_getLsbD_eq
  intro k bound
  rw [BitVec.getLsbD_and, BitVec.getLsbD_and]
  have high : ∀ {word : Addr}, word.toNat < 2 ^ 48 → 48 ≤ k → word.getLsbD k = false := by
    intro word small above
    apply Nat.testBit_lt_two_pow
    exact lt_of_lt_of_le small (Nat.pow_le_pow_right (by decide) above)
  rcases Nat.lt_or_ge k 12 with low | above
  · rw [getLsbD_pageMask bound]
    simp [Nat.not_le.mpr low]
  · rcases Nat.lt_or_ge k 48 with inside | outside
    · have split : a.getLsbD k = b.getLsbD k := by
        rcases Nat.lt_or_ge k 21 with one | one
        · have bits := getLsbD_of_idx (k := k - 12) pt (by omega)
          rwa [Nat.add_sub_cancel' above] at bits
        · rcases Nat.lt_or_ge k 30 with two | two
          · have bits := getLsbD_of_idx (k := k - 21) pd (by omega)
            rwa [Nat.add_sub_cancel' one] at bits
          · rcases Nat.lt_or_ge k 39 with three | three
            · have bits := getLsbD_of_idx (k := k - 30) pdp (by omega)
              rwa [Nat.add_sub_cancel' two] at bits
            · have bits := getLsbD_of_idx (k := k - 39) pml4 (by omega)
              rwa [Nat.add_sub_cancel' three] at bits
      rw [split]
    · rw [high first outside, high second outside]

theorem frameAddr_lt {i : Nat} (bound : i < MAX_PAGES) : (frameAddr i).toNat < 2 ^ 48 := by
  rw [frameAddr_toNat bound]
  simp only [MAX_PAGES, PAGE_SIZE] at *
  omega

/-- The kernel maps a page onto itself. -/
theorem vmmMapPage_kernelOnly {vm : Vm} (kernelOnly : KernelOnly vm) {virt flags : Addr}
    (small : virt.toNat < 2 ^ 48) (low : flags &&& PAGE_MASK = 0) :
    Leads (vmmMapPage vm.kernelPml4 virt virt flags) (fun _ => KernelOnly) vm := by
  rcases kernelOnly with ⟨⟨place, checked⟩, kernelWrote⟩
  have watched := checked.watched
  apply (vmmMapPage_spec watched.placed watched.placed.kernel virt virt flags).mono
  intro _ after maps
  cases maps with
  | lacking path _ place' reached _ =>
      refine ⟨⟨place', checked.grows reached.grows⟩, ?_⟩
      rw [reached.grows.memory.written, reached.grows.memory.kernelPml4]
      exact kernelWrote
  | written grown place' reached =>
      have grew := checked.grows reached.grows
      have placed := grew.watched.placed
      have isAt := reached.isAt watched.placed.kernel (by simp [tablePath])
      have kernelPml4 := reached.grows.memory.kernelPml4
      have wrote : ∀ entry ∈ (grown.write vm.kernelPml4
          (follow grown.tables vm.kernelPml4 (tablePath virt)) virt
            (leafEntry virt flags)).written, entry.pml4 = grown.kernelPml4 := by
        intro entry member
        rcases List.mem_cons.mp member with rfl | old
        · exact kernelPml4.symm
        · rw [reached.grows.memory.written] at old
          rw [kernelPml4]
          exact kernelWrote entry old
      have clear : ∀ root addr, ¬ Overlaid (grown.write vm.kernelPml4
          (follow grown.tables vm.kernelPml4 (tablePath virt)) virt
            (leafEntry virt flags)).toMemory root addr := by
        rintro root addr ⟨entry, member, process, -⟩
        exact process (wrote entry member)
      refine ⟨⟨place', ⟨?_, grew.handouts⟩⟩, wrote⟩
      constructor
      · exact placed.write _ isAt rfl virt _
      · exact grew.watched.areRoots
      · exact grew.watched.apart
      · exact grew.watched.cr3
      · intro idx inside
        show follow (grown.write _ _ virt _).tables grown.kernelPml4 [0, idx] ≠ 0
        rw [placed.follow_write isAt rfl placed.kernel (by simp)]
        exact grew.watched.directories idx inside
      · intro record member
        rcases List.mem_cons.mp member with rfl | old
        · exact ⟨_, isAt, rfl⟩
        · exact grew.watched.writtenAt record old
      · intro root member i bound _
        have isRoot := grew.watched.areRoots root member
        rw [placed.translate_write isAt isRoot]
        by_cases here : follow grown.tables root (tablePath (frameAddr i)) =
            follow grown.tables vm.kernelPml4 (tablePath virt) ∧ ptIdx (frameAddr i) = ptIdx virt
        · have leads : follow grown.tables root (tablePath (frameAddr i)) ≠ 0 := by
            rw [here.1]
            exact reached.leads
          have addrAt := placed.follow_place isRoot (by simp [tablePath]) leads
          rw [here.1, isAt, List.nil_append] at addrAt
          have page : SamePage virt (frameAddr i) := ⟨Option.some.inj addrAt, here.2.symm⟩
          rw [if_pos here, leafOf_leafEntry low (frameAddr_offset i),
            page.mask_eq small (frameAddr_lt bound)]
          exact aligned_frameAddr i
        · rw [if_neg here]
          apply grew.watched.direct root member i bound
          rintro ⟨entry, old, process, -⟩
          apply process
          rw [reached.grows.memory.written] at old
          rw [kernelPml4]
          exact kernelWrote entry old
      · intro root _ i _ overlaid
        exact absurd overlaid (clear root _)

/-- The driver's calls. -/
theorem DriverCall.kernelOnly (call : DriverCall) {vm : Vm} (kernelOnly : KernelOnly vm) :
    Leads call.run (fun _ => KernelOnly) vm := by
  cases call with
  | allocMappedPage =>
      unfold DriverCall.run
      rw [leads_bind]
      rcases kernelOnly with ⟨⟨place, checked⟩, kernelWrote⟩
      apply (pmmAllocPage_spec vm).mono
      rintro phys after (⟨-, rfl, rfl⟩ | ⟨i, search, rfl, rfl⟩)
      · exact ⟨⟨place, checked⟩, kernelWrote⟩
      · have taken : KernelOnly (vm.take i) :=
          ⟨⟨place, checked.grows (checked.watched.placed.grows_take i)⟩, kernelWrote⟩
        split
        · exact taken
        · rw [leads_bind, leads_get]
          exact vmmMapPage_kernelOnly taken (frameAddr_lt (nextFrame_bound search).1) (by decide)
  | mapRegisters bar5 =>
      unfold DriverCall.run
      rw [leads_bind, leads_get]
      apply vmmMapPage_kernelOnly kernelOnly _ (by decide)
      rw [BitVec.toNat_setWidth]
      have bound := bar5.isLt
      exact lt_of_le_of_lt (Nat.mod_le _ _) (bound.trans (by decide))

theorem driverVm_kernelOnly {vm : Vm} (kernelOnly : KernelOnly vm) (calls : List DriverCall) :
    KernelOnly (driverVm calls vm) := by
  have leads : Leads (calls.forM DriverCall.run) (fun _ => KernelOnly) vm :=
    leads_forM (fun call _ _ before => call.kernelOnly before) kernelOnly
  exact leads

/-- A huge page of the identity map. -/
theorem identityPde_mask {i : Nat} (bound : i < MAX_PAGES) :
    identityPde 0 (pdIdx (frameAddr i)) &&& HUGE_MASK = frameAddr i &&& HUGE_MASK := by
  have flags : (PAGE_PRESENT ||| (PAGE_WRITE ||| (PAGE_USER ||| PAGE_HUGE))) &&& HUGE_MASK = 0 := by
    decide
  rw [identityPde, BitVec.or_assoc, BitVec.or_assoc, BitVec.or_assoc, BitVec.and_or_distrib_right,
    flags, Nat.zero_mul, Nat.zero_add]
  simp only [BitVec.ofNat_eq_ofNat, BitVec.or_zero]
  apply BitVec.eq_of_getLsbD_eq
  intro k small
  rw [BitVec.getLsbD_and, BitVec.getLsbD_and]
  have mask : ∀ k < 64, HUGE_MASK.getLsbD k = decide (21 ≤ k) := by decide
  rw [mask k small]
  by_cases above : 21 ≤ k
  · have value : (BitVec.ofNat 64 (pdIdx (frameAddr i) * 0x200000)).getLsbD k =
        (pdIdx (frameAddr i)).testBit (k - 21) := by
      rw [BitVec.getLsbD_ofNat, show (0x200000 : Nat) = 2 ^ 21 from rfl, Nat.testBit_mul_two_pow]
      simp only [small, decide_true, Bool.true_and, above]
    rw [value, pdIdx, BitVec.testBit_toNat, BitVec.getLsbD_and, BitVec.getLsbD_ushiftRight,
      Nat.add_sub_cancel' above]
    rcases Nat.lt_or_ge k 30 with inside | outside
    · have bits : ∀ k < 9, (0x1FF : Addr).getLsbD k = true := by decide
      rw [bits (k - 21) (by omega), Bool.and_true]
    · have high : (frameAddr i).getLsbD k = false := by
        apply Nat.testBit_lt_two_pow
        rw [frameAddr_toNat bound]
        have power : 2 ^ 30 ≤ 2 ^ k := Nat.pow_le_pow_right (by decide) outside
        simp only [MAX_PAGES, PAGE_SIZE] at *
        omega
      rw [high, Bool.false_and]
  · simp [above]

/-- The kernel starts with every frame mapped onto itself. -/
theorem Started.kernelOnly {image : KernelImage} {vm : Vm} (started : Started image vm) :
    KernelOnly vm := by
  have placed := started.placed
  have none : ∀ entry, entry ∉ vm.written := by
    rw [started.written]
    exact fun _ => List.not_mem_nil
  refine ⟨⟨image.place, ?_, ?_⟩, fun entry member => absurd member (none entry)⟩
  · constructor
    · exact placed
    · intro root member
      rw [List.mem_singleton.mp member]
      exact placed.kernel
    · exact fun _ member => absurd member List.not_mem_nil
    · rw [started.cr3, started.kernelPml4]
      exact List.mem_cons_self
    · exact started.directories
    · exact fun entry member => absurd member (none entry)
    · intro root member i bound _
      rw [List.mem_singleton.mp member, vmmVirtToPhys_eq _ (placed.ne_zero placed.kernel),
        directoryPath, pml4Idx_frameAddr bound, pdpIdx_frameAddr bound, started.kernelPml4,
        started.follow_pd (by decide),
        if_neg (placed.ne_zero (image.place_pd (i := 0) (by decide)))]
      unfold translateIn
      simp only [started.maps.pd 0 (by decide), if_neg (identityPde_present _ _),
        if_pos (identityPde_huge _ _), identityPde_mask bound]
      have whole : HUGE_MASK ||| (0x1FFFFF : Addr) = BitVec.allOnes 64 := by decide
      rw [← BitVec.and_or_distrib_left, whole, BitVec.and_allOnes]
    · rintro root _ i _ ⟨entry, member, -⟩
      exact absurd member (none entry)
  · rw [started.handouts]
    exact fun _ member => absurd member List.not_mem_nil

end Notux.Vmm
