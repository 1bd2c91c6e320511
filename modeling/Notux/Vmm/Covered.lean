import Notux.Vmm.PagedRuns
import Notux.Vmm.Update

/-!
# Pages over page tables

Kernel code follows the addresses of page tables and frames under the tables of the current
process.  A pointer is mapped onto itself unless a page of a process lies over it, so in
runs where none lies over a pointer that is followed, the code does what it would do on
physical addresses, and the address of a frame that is handed out is a pointer to it unless
a page lies over that frame.
-/

namespace Notux.Vmm

open Notux.Store Notux.Proc

/-- No page of a process lies over the pointer. -/
def Use.Clear (use : Use) : Prop := ¬ Overlaid use.memory use.memory.cr3 use.pointer

instance (memory : Memory) (root addr : Addr) : Decidable (Overlaid memory root addr) :=
  inferInstanceAs (Decidable (∃ entry ∈ memory.written, _))

instance : DecidablePred Use.Clear := fun _ => inferInstanceAs (Decidable (¬ _))

/-- The address of a frame that may be handed out. -/
def IsFrame (addr : Addr) : Prop := ∃ i < MAX_PAGES, i ≠ 0 ∧ addr = frameAddr i

theorem Placed.isFrame {memory : Memory} {place : Places} (placed : Placed memory place)
    {table : Addr} {path : List Nat} (isAt : place table = some path) : IsFrame table := by
  obtain ⟨i, bound, positive, -, same⟩ := placed.used isAt
  exact ⟨i, bound, positive, same⟩

namespace Checked

variable {vm : Vm} {place : Places} {procs : List Addr} (checked : Checked vm place procs)

include checked

/-- What is clear is mapped onto itself. -/
theorem direct {pointer : Addr} (isFrame : IsFrame pointer)
    (clear : Use.Clear ⟨vm.toMemory, pointer⟩) : Use.Direct ⟨vm.toMemory, pointer⟩ := by
  obtain ⟨i, bound, positive, rfl⟩ := isFrame
  have watched := checked.watched
  have isRoot := watched.areRoots vm.cr3 watched.cr3
  have same := watched.direct vm.cr3 watched.cr3 i bound clear
  rw [vmmVirtToPhys_translation (watched.placed.pageTables isRoot)
    (watched.placed.noGiant isRoot _)] at same
  show (translation vm.tables vm.cr3 (frameAddr i)).map Page.phys = some (frameAddr i)
  cases led : (translation vm.tables vm.cr3 (frameAddr i)).map Page.phys with
  | none =>
      rw [led] at same
      exact absurd same.symm (frameAddr_ne_zero bound positive)
  | some phys =>
      rw [led] at same
      exact congrArg some same

theorem take (i : Nat) : Checked (vm.take i) place procs :=
  checked.grows (checked.watched.placed.grows_take i)

/-- A table without a place is written. -/
theorem fill {table : Addr} (fresh : place table = none) (entries : Nat → Addr) :
    Checked (vm.fill table entries) place procs := by
  refine checked.grows ⟨?_, fun _ member => Or.inl member⟩
  refine Grown.of_agree checked.watched.placed ?_ rfl rfl rfl fun taken => taken
  intro other path isAt
  apply vm.fill_of_ne
  rintro rfl
  rw [fresh] at isAt
  cases isAt

end Checked

/-- Where the invariant holds, clear pointers are mapped onto themselves. -/
abbrev Covers {α : Type} (procs : List Addr) (traced : Paged.PagedM α) (program : VmM α) : Prop :=
  Within (Kept procs) Use.Clear Use.Direct traced program

namespace Paged

section

variable {vm : Vm} {place : Places} {procs : List Addr} {table : Addr} {path : List Nat}

/-- A frame is taken, filled, and put behind an entry. -/
theorem attach_traces (checked : Checked vm place procs) (isAt : place table = some path)
    (idx : Nat) (entries : Nat → Addr) :
    Traces Use.Clear Use.Direct
      (do
        let newTable ← .ofState pmmAllocPage
        if newTable = 0 then return 0
        else
          storeTable newTable entries
          store table idx (tableEntry newTable)
          return newTable)
      (do
        let newTable ← pmmAllocPage
        if newTable = 0 then return 0
        else
          fillTable newTable entries
          setEntry table idx (tableEntry newTable)
          return newTable)
      (fun _ _ => True) vm := by
  have placed := checked.watched.placed
  apply (Traces.ofState (pmmAllocPage_spec vm)).bind
  rintro newTable taken (⟨-, rfl, rfl⟩ | ⟨i, search, rfl, rfl⟩)
  · rw [if_pos rfl, if_pos rfl]
    exact .pure trivial
  · apply Traces.ite
    · exact fun _ => .pure trivial
    · intro _
      have isFrame : IsFrame (frameAddr i) :=
        ⟨i, (nextFrame_bound search).1, placed.next_ne_zero search, rfl⟩
      apply (storeTable_traces ((checked.take i).direct isFrame)).bind
      rintro _ _ rfl
      have filled := (checked.take i).fill (placed.next_fresh search) entries
      apply (store_traces (filled.direct (placed.isFrame isAt))).bind
      exact fun _ _ _ => .pure trivial

theorem newLevel_traces (checked : Checked vm place procs) (isAt : place table = some path)
    (idx : Nat) :
    Traces Use.Clear Use.Direct (newLevel table idx) (Vmm.newLevel table idx) (fun _ _ => True)
      vm :=
  attach_traces checked isAt idx fun _ => 0

theorem getNextLevel_traces (checked : Checked vm place procs) (isAt : place table = some path)
    (idx : Nat) :
    Traces Use.Clear Use.Direct (getNextLevel table idx) (Vmm.getNextLevel table idx)
      (fun _ _ => True) vm := by
  apply load_traces (checked.direct (checked.watched.placed.isFrame isAt))
  apply Traces.get
  apply Traces.ite
  · exact fun _ => .pure trivial
  · exact fun _ => newLevel_traces checked isAt idx

theorem splitHugePde_traces (checked : Checked vm place procs) (isAt : place table = some path)
    (idx : Nat) :
    Traces Use.Clear Use.Direct (splitHugePde table idx) (Vmm.splitHugePde table idx)
      (fun _ _ => True) vm := by
  apply load_traces (checked.direct (checked.watched.placed.isFrame isAt))
  apply Traces.get
  apply Traces.ite
  · exact fun _ => .pure trivial
  · intro _
    apply Traces.ite
    · exact fun _ => .pure trivial
    · exact fun _ => attach_traces checked isAt idx (smallPages (vm.tables table idx))

theorem mapTable_traces (checked : Checked vm place procs) (isAt : place table = some path)
    (idx : Nat) :
    Traces Use.Clear Use.Direct (mapTable table idx) (Vmm.mapTable table idx) (fun _ _ => True)
      vm := by
  apply load_traces (checked.direct (checked.watched.placed.isFrame isAt))
  apply Traces.get
  apply Traces.ite
  · intro _
    apply Traces.ite
    · exact fun _ => splitHugePde_traces checked isAt idx
    · exact fun _ => .pure trivial
  · exact fun _ => newLevel_traces checked isAt idx

theorem unmapTable_traces (checked : Checked vm place procs) (isAt : place table = some path)
    (idx : Nat) :
    Traces Use.Clear Use.Direct (unmapTable table idx) (Vmm.unmapTable table idx)
      (fun _ _ => True) vm := by
  apply load_traces (checked.direct (checked.watched.placed.isFrame isAt))
  apply Traces.get
  apply Traces.ite
  · exact fun _ => splitHugePde_traces checked isAt idx
  · intro _
    apply Traces.ite
    · exact fun _ => .pure trivial
    · exact fun _ => .pure trivial

/-- A level that has been come to: its table has a place, or there is none. -/
def Level (procs : List Addr) (path : List Nat) (next : Addr) (after : Vm) : Prop :=
  next ≠ 0 → ∃ place, Checked after place procs ∧ place next = some path

theorem Level.of_descends (checked : Checked vm place procs) (isAt : place table = some path)
    (short : path.length < 3) {idx : Nat} {next : Addr} {after : Vm}
    (descends : Descends vm place table path.length idx next after) :
    Level procs (path ++ [idx]) next after := by
  intro nonzero
  cases descends with
  | found leads => exact ⟨place, checked, checked.watched.placed.nextLevel_eq isAt short leads⟩
  | added _ _ place' _ _ grows leads _ _ _ =>
      have atNext := grows.memory.placed.nextLevel_eq (grows.memory.keeps isAt) short (i := idx)
        (by rwa [leads])
      rw [leads] at atNext
      exact ⟨place', checked.grows grows, atNext⟩
  | failed => exact absurd rfl nonzero

theorem getNextLevel_level (checked : Checked vm place procs) (isAt : place table = some path)
    (upper : path.length < 2) (idx : Nat) :
    Leads (Vmm.getNextLevel table idx) (Level procs (path ++ [idx])) vm :=
  (getNextLevel_spec checked.watched.placed isAt upper).mono fun _ _ descends =>
    .of_descends checked isAt (by omega) descends

theorem mapTable_level (checked : Checked vm place procs) (isAt : place table = some path)
    (level : path.length = 2) (idx : Nat) :
    Leads (Vmm.mapTable table idx) (Level procs (path ++ [idx])) vm :=
  (mapTable_spec checked.watched.placed isAt level).mono fun _ _ descends =>
    .of_descends checked isAt (by omega) descends

theorem unmapTable_level (checked : Checked vm place procs) (isAt : place table = some path)
    (level : path.length = 2) (idx : Nat) :
    Leads (Vmm.unmapTable table idx) (Level procs (path ++ [idx])) vm := by
  have placed := checked.watched.placed
  have nowhere : Level procs (path ++ [idx]) 0 vm := fun nonzero => absurd rfl nonzero
  unfold Vmm.unmapTable
  rw [leads_bind, leads_get]
  dsimp only
  split
  · next huge =>
    by_cases absent : vm.tables table idx &&& PAGE_PRESENT = 0
    · unfold Vmm.splitHugePde
      rw [leads_bind, leads_get]
      dsimp only
      rw [if_pos absent]
      exact nowhere
    · apply (splitHugePde_spec placed isAt (by omega) level absent huge).mono
      exact fun _ _ descends => .of_descends checked isAt (by omega) descends
  · next small =>
    split
    · exact nowhere
    · next present =>
      exact fun _ => ⟨place, checked, placed.child isAt (by omega) idx present (not_not.mp small)⟩

/-- The entry of a page table is written. -/
theorem writePte_traces (root virt entry : Addr) {pt : Addr} (level : Level procs path pt vm) :
    Traces Use.Clear Use.Direct (if pt = 0 then pure () else writePte root pt virt entry)
      (if pt = 0 then pure () else Vmm.writePte root pt virt entry) (fun _ _ => True) vm := by
  apply Traces.ite
  · exact fun _ => .pure trivial
  · intro nonzero
    obtain ⟨place, checked, isAt⟩ := level nonzero
    apply (store_traces (checked.direct (checked.watched.placed.isFrame isAt))).bind
    exact fun _ _ _ => .ofState trivial

theorem vmmMapPage_traces {root : Addr} (checked : Checked vm place procs)
    (isRoot : place root = some []) (virt phys flags : Addr) :
    Traces Use.Clear Use.Direct (vmmMapPage root virt phys flags)
      (Vmm.vmmMapPage root virt phys flags) (fun _ _ => True) vm := by
  apply Traces.ite
  · exact fun _ => .pure trivial
  · intro _
    apply ((getNextLevel_traces checked isRoot _).leads
      (getNextLevel_level checked isRoot (by decide) (pml4Idx virt))).bind
    intro pdp atPdp level
    apply Traces.ite
    · exact fun _ => .pure trivial
    · intro nonzero
      obtain ⟨place, checked, isPdp⟩ := level nonzero
      apply ((getNextLevel_traces checked isPdp _).leads
        (getNextLevel_level checked isPdp (by simp) (pdpIdx virt))).bind
      intro pd atPd level
      apply Traces.ite
      · exact fun _ => .pure trivial
      · intro nonzero
        obtain ⟨place, checked, isPd⟩ := level nonzero
        apply ((mapTable_traces checked isPd _).leads
          (mapTable_level checked isPd rfl (pdIdx virt))).bind
        exact fun pt atPt level => writePte_traces root virt _ level

theorem vmmUnmapPage_traces {root : Addr} (checked : Checked vm place procs)
    (isRoot : place root = some []) (virt : Addr) :
    Traces Use.Clear Use.Direct (vmmUnmapPage root virt) (Vmm.vmmUnmapPage root virt)
      (fun _ _ => True) vm := by
  have placed := checked.watched.placed
  apply Traces.ite
  · exact fun _ => .pure trivial
  · intro _
    apply load_traces (checked.direct (placed.isFrame isRoot))
    apply Traces.get
    apply Traces.ite
    · exact fun _ => .pure trivial
    · intro leads
      have isPdp := placed.nextLevel_eq isRoot (by decide) leads
      apply load_traces (checked.direct (placed.isFrame isPdp))
      apply Traces.ite
      · exact fun _ => .pure trivial
      · intro leads
        have isPd := placed.nextLevel_eq isPdp (by simp) leads
        apply ((unmapTable_traces checked isPd _).leads
          (unmapTable_level checked isPd rfl (pdIdx virt))).bind
        exact fun pt after level => writePte_traces root virt 0 level

/-! ## New roots -/

/-- A page directory of the kernel is copied into a frame of its own. -/
theorem copyDirectory_traces (checked : Checked vm place procs) {userPdp kernelPdp : Addr}
    (isFrame : IsFrame userPdp) (mine : place userPdp = none)
    (kernelAt : place kernelPdp = some [0]) (idx : Nat) :
    Traces Use.Clear Use.Direct (copyDirectory userPdp kernelPdp idx)
      (Vmm.copyDirectory userPdp kernelPdp idx) (fun _ after => Checked after place procs) vm := by
  have placed := checked.watched.placed
  apply load_traces (checked.direct (placed.isFrame kernelAt))
  apply Traces.get
  apply Traces.ite
  · exact fun _ => .pure checked
  · intro present
    apply Traces.ite
    · exact fun _ => .pure checked
    · intro _
      have kernelPd := placed.child kernelAt (by decide) idx present
        (placed.small kernelAt (by decide) idx present)
      apply (Traces.ofState (pmmAllocPage_spec vm)).bind
      rintro userPd taken (⟨-, rfl, rfl⟩ | ⟨i, search, rfl, rfl⟩)
      · exact .pure checked
      · apply Traces.ite
        · exact fun _ => .pure (checked.take i)
        · intro _
          have fresh := placed.next_fresh search
          have userFrame : IsFrame (frameAddr i) :=
            ⟨i, (nextFrame_bound search).1, placed.next_ne_zero search, rfl⟩
          apply (storeTable_traces ((checked.take i).direct userFrame)).bind
          rintro _ _ rfl
          have zeroed := (checked.take i).fill fresh fun _ => 0
          apply (store_traces (zeroed.direct isFrame)).bind
          rintro _ _ rfl
          have linked := zeroed.fill mine
            (assign (((vm.take i).fill (frameAddr i) fun _ => 0).tables userPdp) idx
              (tableEntry (frameAddr i)))
          apply loadTable_traces (linked.direct (placed.isFrame kernelPd))
          apply Traces.get
          apply (storeTable_traces (linked.direct userFrame)).bind
          rintro _ _ rfl
          exact .pure (linked.fill fresh _)

theorem copyDirectories_traces (checked : Checked vm place procs) {userPdp kernelPdp : Addr}
    (isFrame : IsFrame userPdp) (mine : place userPdp = none)
    (kernelAt : place kernelPdp = some [0]) (indices : List Nat) :
    Traces Use.Clear Use.Direct (copyDirectories userPdp kernelPdp indices)
      (Vmm.copyDirectories userPdp kernelPdp indices) (fun _ after => Checked after place procs)
      vm := by
  induction indices generalizing vm with
  | nil => exact .pure checked
  | cons idx rest ih =>
      apply (copyDirectory_traces checked isFrame mine kernelAt idx).bind
      intro copied after checked
      apply Traces.ite
      · exact fun _ => ih checked
      · exact fun _ => .pure checked

/-- The rest of `create_user_pml4`: the pointer table and the directories of a new root. -/
theorem fillRoot_traces (checked : Checked vm place procs) {userPml4 kernelPdp : Addr}
    (isFrame : IsFrame userPml4) (mine : place userPml4 = none)
    (kernelAt : place kernelPdp = some [0]) :
    Traces Use.Clear Use.Direct
      (do
        let userPdp ← .ofState pmmAllocPage
        if userPdp = 0 then return 0
        else
          zeroTable userPdp
          store userPml4 0 (tableEntry userPdp)
          if ← copyDirectories userPdp kernelPdp (List.range 4) then
            let vm ← .ofState get
            let others ← loadTable vm.kernelPml4
            let mine ← load userPml4 0
            storeTable userPml4 fun i => if i = 0 then mine else others i
            return userPml4
          else return 0)
      (do
        let userPdp ← pmmAllocPage
        if userPdp = 0 then return 0
        else
          Vmm.zeroTable userPdp
          setEntry userPml4 0 (tableEntry userPdp)
          if ← Vmm.copyDirectories userPdp kernelPdp (List.range 4) then
            let vm ← get
            let mine := vm.tables userPml4 0
            let others := vm.tables vm.kernelPml4
            fillTable userPml4 fun i => if i = 0 then mine else others i
            return userPml4
          else return 0)
      (fun _ _ => True) vm := by
  have placed := checked.watched.placed
  apply (Traces.ofState (pmmAllocPage_spec vm)).bind
  rintro userPdp taken (⟨-, rfl, rfl⟩ | ⟨i, search, rfl, rfl⟩)
  · exact .pure trivial
  · apply Traces.ite
    · exact fun _ => .pure trivial
    · intro _
      have fresh := placed.next_fresh search
      have pdpFrame : IsFrame (frameAddr i) :=
        ⟨i, (nextFrame_bound search).1, placed.next_ne_zero search, rfl⟩
      apply (storeTable_traces ((checked.take i).direct pdpFrame)).bind
      rintro _ _ rfl
      have zeroed := (checked.take i).fill fresh fun _ => 0
      apply (store_traces (zeroed.direct isFrame)).bind
      rintro _ _ rfl
      apply (copyDirectories_traces (zeroed.fill mine _) pdpFrame fresh kernelAt _).bind
      intro copied after checked
      apply Traces.ite
      · intro _
        have placed := checked.watched.placed
        apply Traces.peek
        apply loadTable_traces (checked.direct (placed.isFrame placed.kernel))
        apply load_traces (checked.direct isFrame)
        apply Traces.get
        apply (storeTable_traces (checked.direct isFrame)).bind
        exact fun _ _ _ => .pure trivial
      · exact fun _ => .pure trivial

theorem createUserPml4_traces (checked : Checked vm place procs) :
    Traces Use.Clear Use.Direct createUserPml4 Vmm.createUserPml4 (fun _ _ => True) vm := by
  have placed := checked.watched.placed
  apply (Traces.ofState (pmmAllocPage_spec vm)).bind
  rintro userPml4 taken (⟨-, rfl, rfl⟩ | ⟨i, search, rfl, rfl⟩)
  · exact .pure trivial
  · apply Traces.ite
    · exact fun _ => .pure trivial
    · intro _
      have fresh := placed.next_fresh search
      have rootFrame : IsFrame (frameAddr i) :=
        ⟨i, (nextFrame_bound search).1, placed.next_ne_zero search, rfl⟩
      apply (storeTable_traces ((checked.take i).direct rootFrame)).bind
      rintro _ _ rfl
      have cleared := (checked.take i).fill fresh fun _ => 0
      generalize (vm.take i).fill (frameAddr i) (fun _ => 0) = zeroed at cleared ⊢
      have placed := cleared.watched.placed
      apply Traces.peek
      apply Traces.get
      apply Traces.ite
      · exact fun _ => .pure trivial
      · intro _
        apply load_traces (cleared.direct (placed.isFrame placed.kernel))
        apply Traces.ite
        · exact fun _ => .pure trivial
        · intro present
          apply Traces.ite
          · exact fun _ => .pure trivial
          · intro _
            have kernelPdp := placed.child placed.kernel (by decide) 0 present
              (placed.small placed.kernel (by decide) 0 present)
            exact fillRoot_traces cleared rootFrame fresh kernelPdp

end

/-! ## The loader and the heap -/

section

variable {procs : List Addr} {root : Addr} (member : root = 0 ∨ root ∈ procs)

include member

/-- A frame in use is mapped for a process. -/
theorem mapFrame_traces {vm : Vm} (kept : Kept procs vm) {j : Nat} (bound : j < MAX_PAGES)
    (taken : vm.bitmap j = true) {flags : Addr} (low : flags &&& PAGE_MASK = 0) (virt : Addr) :
    Traces Use.Clear Use.Direct (vmmMapPage root virt (frameAddr j) flags)
      (Vmm.vmmMapPage root virt (frameAddr j) flags) (fun _ => Kept procs) vm := by
  have keeps := vmmMapPage_kept kept member bound taken low virt
  rcases member with rfl | member
  · exact .pure kept
  · obtain ⟨place, checked⟩ := kept
    have isRoot := checked.watched.areRoots root (List.mem_cons_of_mem _ member)
    exact (vmmMapPage_traces checked isRoot virt (frameAddr j) flags).leads keeps

theorem vmmUnmapPage_covers (virt : Addr) :
    Covers procs (vmmUnmapPage root virt) (Vmm.vmmUnmapPage root virt) := by
  refine .of_leads ?_ (vmmUnmapPage_keeps member virt)
  rintro vm ⟨place, checked⟩
  rcases member with rfl | member
  · exact .pure trivial
  · exact vmmUnmapPage_traces checked
      (checked.watched.areRoots root (List.mem_cons_of_mem _ member)) virt

omit member in
/-- A frame is taken; the rest of the program may use it. -/
theorem takeFrame_covers {traced : Addr → PagedM Bool} {program : Addr → VmM Bool}
    (rest : ∀ vm, Kept procs vm → ∀ j < MAX_PAGES, j ≠ 0 → vm.bitmap j = true →
      Traces Use.Clear Use.Direct (traced (frameAddr j)) (program (frameAddr j))
        (fun _ => Kept procs) vm) :
    Covers procs
      (do
        let phys ← .ofState pmmAllocPage
        if phys = 0 then return false else traced phys)
      (do
        let phys ← pmmAllocPage
        if phys = 0 then return false else program phys) := by
  rintro vm ⟨place, checked⟩
  apply (Traces.ofState (pmmAllocPage_spec vm)).bind
  rintro phys taken (⟨-, rfl, rfl⟩ | ⟨j, search, rfl, rfl⟩)
  · exact .pure ⟨place, checked⟩
  · apply Traces.ite
    · exact fun _ => .pure ⟨place, checked.take j⟩
    · intro _
      exact rest _ ⟨place, checked.take j⟩ j (nextFrame_bound search).1
        (checked.watched.placed.next_ne_zero search) assign_self

theorem loadPages_covers (fileSize : Addr) (ph : Phdr) (count : Nat) (page : Addr) :
    Covers procs (loadPages root fileSize ph count page)
      (Vmm.loadPages root fileSize ph count page) := by
  have low : ph.pageFlags &&& PAGE_MASK = 0 := by
    unfold Phdr.pageFlags
    split <;> decide
  induction count generalizing page with
  | zero => exact .pure true
  | succ count ih =>
      apply takeFrame_covers
      intro vm kept j bound positive taken
      have isFrame : IsFrame (frameAddr j) := ⟨j, bound, positive, rfl⟩
      have direct : ∀ {vm}, Kept procs vm → Use.Clear ⟨vm.toMemory, frameAddr j⟩ →
          Use.Direct ⟨vm.toMemory, frameAddr j⟩ := by
        rintro vm ⟨place, checked⟩
        exact checked.direct isFrame
      apply (deref_traces (direct kept)).look
      apply (mapFrame_traces member kept bound taken low page).bind
      intro _ mapped kept
      apply Traces.ite
      · intro _
        exact (copyPage_traces (direct kept)).look (ih (page + 0x1000) mapped kept)
      · exact fun _ => .pure kept

theorem loadElfIntoProcess_covers (file : ElfFile) :
    Covers procs (loadElfIntoProcess root file) (Vmm.loadElfIntoProcess root file) := by
  have segment : ∀ fileSize ph, Covers procs (loadSegment root fileSize ph)
      (Vmm.loadSegment root fileSize ph) := by
    intro fileSize ph
    apply Within.ite
    · apply (Within.pure true).ite
      exact (loadPages_covers member fileSize ph _ _).ite (.pure false)
    · exact .pure false
  have segments : ∀ fileSize phdrs, Covers procs (loadSegments root fileSize phdrs)
      (Vmm.loadSegments root fileSize phdrs) := by
    intro fileSize phdrs
    induction phdrs with
    | nil => exact .pure true
    | cons ph rest ih =>
        exact ((segment fileSize ph).bind fun _ => ih.ite (.pure false)).ite ih
  apply (Within.pure false).ite
  apply Within.ite
  · exact (segments _ _).bind fun _ => (Within.pure _).ite (.pure false)
  · exact .pure false

theorem brkGrow_covers (count : Nat) (page : Addr) :
    Covers procs (brkGrow root count page) (Vmm.brkGrow root count page) := by
  induction count generalizing page with
  | zero => exact .pure true
  | succ count ih =>
      apply takeFrame_covers
      intro vm kept j bound _ taken
      apply (mapFrame_traces member kept bound taken (by decide) page).bind
      exact fun _ => ih (page + 0x1000)

theorem brkShrink_covers (count : Nat) (page : Addr) :
    Covers procs (brkShrink root count page) (Vmm.brkShrink root count page) := by
  induction count generalizing page with
  | zero => exact .pure ()
  | succ count ih =>
      exact (vmmUnmapPage_covers member page).bind fun _ => ih (page + 0x1000)

end

/-! ## The machine -/

/-- Where the page tables are as they should be, clear pointers are mapped onto themselves. -/
abbrev CoversAll {α : Type} (traced : PagedMachineM α) (program : MachineM α) : Prop :=
  Within Safe Use.Clear Use.Direct traced program

theorem onVm_traces {α : Type} {program : PagedM α} {after : VmM α} {machine : Machine}
    {P : α → Vm → Prop} (traces : Traces Use.Clear Use.Direct program after P machine.vm) :
    Traces Use.Clear Use.Direct (onVm program) (Vmm.onVm after) (fun _ _ => True) machine :=
  traces.onPart rfl fun _ _ _ => trivial

theorem createProcess_covers (layout : StackLayout) :
    CoversAll (createProcess layout) (Vmm.createProcess layout) := by
  refine .of_leads ?_ (createProcess_safe layout)
  rintro machine ⟨procs, ⟨place, checked⟩, -⟩
  apply Traces.peek
  apply Traces.get
  cases ProcTable.firstSlot fun i => (machine.table.processes i).state = .terminated with
  | none => exact .pure trivial
  | some _ =>
      apply (onVm_traces (createUserPml4_traces checked)).bind
      exact fun _ _ _ => .ofState trivial

/-- The image is loaded for the process that has been created; what comes then looks at no
table. -/
theorem loadChild_traces {α : Type} (layout : StackLayout) (file : ElfFile) {failed : α}
    {traced : Int → Machine → ProcIdx → Bool → PagedMachineM α}
    {program : Int → Machine → ProcIdx → Bool → MachineM α}
    (rest : ∀ pid machine child loaded after, Traces Use.Clear Use.Direct
      (traced pid machine child loaded) (program pid machine child loaded) (fun _ _ => True) after)
    {start : Machine} (safe : Safe start) :
    Traces Use.Clear Use.Direct
      (do
        let pid ← createProcess layout
        if pid < 0 then return failed
        else
          let machine ← .ofState get
          match machine.table.getProcessByPid pid.toNat with
          | none => return failed
          | some child => do
              let loaded ← onVm
                (loadElfIntoProcess (rootOf (machine.table.processes child)) file)
              traced pid machine child loaded)
      (do
        let pid ← Vmm.createProcess layout
        if pid < 0 then return failed
        else
          let machine ← get
          match machine.table.getProcessByPid pid.toNat with
          | none => return failed
          | some child => do
              let loaded ← Vmm.onVm
                (Vmm.loadElfIntoProcess (rootOf (machine.table.processes child)) file)
              program pid machine child loaded)
      (fun _ _ => True) start := by
  apply (createProcess_covers layout start safe).bind
  intro pid machine safe
  apply Traces.ite
  · exact fun _ => .pure trivial
  · intro _
    apply Traces.peek
    apply Traces.get
    cases machine.table.getProcessByPid pid.toNat with
    | none => exact .pure trivial
    | some child =>
        obtain ⟨procs, kept, inside⟩ := safe
        apply (onVm_traces (loadElfIntoProcess_covers (inside child) file machine.vm kept)).bind
        exact fun loaded after _ => rest pid machine child loaded after

theorem spawnFromXv6fs_covers (layout : StackLayout) (file : Option ElfFile) :
    CoversAll (spawnFromXv6fs layout file) (Vmm.spawnFromXv6fs layout file) := by
  cases file with
  | none => exact .pure (-1)
  | some file =>
      refine .of_leads (fun start safe => ?_) (spawnFromXv6fs_safe layout (some file))
      refine loadChild_traces layout file (fun pid machine child loaded after => ?_) safe
      apply Traces.ite
      · exact fun _ => Traces.ofState_true.bind fun _ _ _ => .pure trivial
      · exact fun _ => Traces.ofState_true.bind fun _ _ _ => .pure trivial

theorem spawnFromRamfs_covers (layout : StackLayout) (file : Option ElfFile) :
    CoversAll (spawnFromRamfs layout file) (Vmm.spawnFromRamfs layout file) := by
  cases file with
  | none => exact .pure (-1)
  | some file =>
      refine .of_leads (fun start safe => ?_) (spawnFromRamfs_safe layout (some file))
      refine loadChild_traces layout file (fun pid machine child loaded after => ?_) safe
      apply Traces.ite
      · exact fun _ => Traces.ofState_true.bind fun _ _ _ => .pure trivial
      · exact fun _ => .pure trivial

theorem startInit_covers (layout : StackLayout) (file : ElfFile) :
    CoversAll (startInit layout file) (Vmm.startInit layout file) := by
  refine .of_leads (fun start safe => ?_) (startInit_safe layout file)
  refine loadChild_traces layout file (fun pid machine child loaded after => ?_) safe
  apply Traces.ite
  · intro _
    apply Traces.ofState_true.bind
    exact fun _ _ _ => Traces.ofState_true.bind fun _ _ _ => .pure trivial
  · exact fun _ => .pure trivial

theorem sysBrk_covers (newBrk : Addr) : CoversAll (sysBrk newBrk) (Vmm.sysBrk newBrk) := by
  refine .of_leads (fun machine safe => ?_) (sysBrk_safe newBrk)
  apply Traces.peek
  apply Traces.get
  have kept : Leads (setHeap (heapBounds machine.table.currentProcess).1
      (heapBounds machine.table.currentProcess).2) (fun _ after => after.vm = machine.vm) machine :=
    rfl
  obtain ⟨procs, isKept, inside⟩ := safe
  have member := inside machine.table.current
  apply (Traces.ofState kept).bind
  intro _ after same
  rw [← same] at isKept
  apply Traces.ite
  · exact fun _ => .pure trivial
  · intro _
    apply Traces.ite
    · exact fun _ => .pure trivial
    · intro _
      apply Traces.ite
      · intro _
        apply (onVm_traces (brkGrow_covers member _ _ after.vm isKept)).bind
        intro grown _ _
        apply Traces.ite
        · exact fun _ => Traces.ofState_true.bind fun _ _ _ => .pure trivial
        · exact fun _ => .pure trivial
      · intro _
        apply (onVm_traces (brkShrink_covers member _ _ after.vm isKept)).bind
        exact fun _ _ _ => Traces.ofState_true.bind fun _ _ _ => .pure trivial

/-- As long as no page lies over a pointer that is followed, an event does what `Machine` says,
and every pointer is mapped onto itself. -/
theorem runEvent_covers (layout : StackLayout) (event : Event) :
    CoversAll (runEvent layout event) (event.run layout) := by
  cases event with
  | execve onDisk inRamfs =>
      apply Within.bind
      · apply (spawnFromXv6fs_covers layout onDisk).bind
        exact fun res => (spawnFromRamfs_covers layout inRamfs).ite (.pure res)
      · exact fun _ => .pure ()
  | brk newBrk => exact (sysBrk_covers newBrk).bind fun _ => .pure ()
  | exit exitCode => exact .ofState (Event.safe layout (.exit exitCode))
  | wait4 => exact .ofState (Event.safe layout .wait4)
  | timer currentEsp => exact .ofState (Event.safe layout (.timer currentEsp))

/-! ## The boot -/

theorem driverCall_covers (call : DriverCall) :
    Within KernelOnly Use.Clear Use.Direct (driverCall call) call.run := by
  refine .of_leads ?_ fun vm kernelOnly => call.kernelOnly kernelOnly
  rintro vm ⟨⟨place, checked⟩, wrote⟩
  have placed := checked.watched.placed
  cases call with
  | allocMappedPage =>
      apply (Traces.ofState (pmmAllocPage_spec vm)).bind
      rintro phys taken (⟨-, rfl, rfl⟩ | ⟨i, search, rfl, rfl⟩)
      · exact .pure trivial
      · apply Traces.ite
        · exact fun _ => .pure trivial
        · intro _
          have took := checked.take i
          have isFrame : IsFrame (frameAddr i) :=
            ⟨i, (nextFrame_bound search).1, placed.next_ne_zero search, rfl⟩
          have kernelOnly : KernelOnly (vm.take i) := ⟨⟨place, took⟩, wrote⟩
          have maps : Leads (Vmm.vmmMapPage vm.kernelPml4 (frameAddr i) (frameAddr i)
              (PAGE_PRESENT ||| PAGE_WRITE)) (fun _ => KernelOnly) (vm.take i) :=
            vmmMapPage_kernelOnly kernelOnly (frameAddr_lt (nextFrame_bound search).1) (by decide)
          have cleared : ∀ mapped, KernelOnly mapped → Traces Use.Clear Use.Direct
              (deref (frameAddr i) >>= fun _ => return ()) (pure ()) (fun _ _ => True) mapped := by
            rintro mapped ⟨⟨place, checked⟩, -⟩
            exact (deref_traces (checked.direct isFrame)).look (.pure trivial)
          apply Traces.peek
          apply Traces.get
          exact ((vmmMapPage_traces took took.watched.placed.kernel _ _ _).leads maps).bind
            fun _ mapped kernelOnly => cleared mapped kernelOnly
  | mapRegisters bar5 =>
      apply Traces.peek
      apply Traces.get
      exact vmmMapPage_traces checked placed.kernel _ _ _

theorem driverCalls_covers (calls : List DriverCall) :
    Within KernelOnly Use.Clear Use.Direct (driverCalls calls) (calls.forM DriverCall.run) := by
  induction calls with
  | nil => exact .pure ()
  | cons call rest ih => exact (driverCall_covers call).bind fun _ => ih

theorem boot_covers (layout : StackLayout) (image : KernelImage) (regions : List (Nat × Nat))
    (junk : Addr → Nat → Addr) (calls : List DriverCall) (stack : Nat → Word) (init : ElfFile) :
    Traces Use.Clear Use.Direct (boot layout calls init)
      (do
        Vmm.onVm (calls.forM DriverCall.run)
        Vmm.startInit layout init)
      (fun _ => Safe) (bootMachine image regions junk stack) := by
  have kernelOnly := (bootVm_started image regions junk).kernelOnly
  have covers : Traces Use.Clear Use.Direct (driverCalls calls) (calls.forM DriverCall.run)
      (fun _ => KernelOnly) (bootMachine image regions junk stack).vm :=
    driverCalls_covers calls _ kernelOnly
  have driven : Traces Use.Clear Use.Direct (onVm (driverCalls calls))
      (Vmm.onVm (calls.forM DriverCall.run)) (fun _ => Safe)
      (bootMachine image regions junk stack) :=
    covers.onPart rfl fun _ vm kernelOnly => ⟨[], kernelOnly.1, fun _ => Or.inl rfl⟩
  exact driven.bind fun _ machine safe => startInit_covers layout init machine safe

theorem Booted.safe {layout : StackLayout} {machine : Machine}
    (booted : Booted layout Use.Clear machine) :
    Safe machine ∧ Booted layout Use.Direct machine := by
  obtain ⟨image, regions, junk, calls, stack, init, used, boots, clear⟩ := booted.boots
  obtain ⟨direct, -, safe⟩ :=
    boot_covers layout image regions junk calls stack init _ _ _ boots clear
  exact ⟨safe, image, regions, junk, calls, stack, init, used, boots, direct⟩

/-! ## Every run -/

/-- In a run in which no page lies over a pointer that is followed, every pointer is mapped onto
itself. -/
theorem Reaches.safe {layout : StackLayout} {start machine : Machine} (safe : Safe start)
    (reaches : Reaches layout (fun _ _ used => ∀ use ∈ used, use.Clear) start machine) :
    Safe machine ∧ Reaches layout (fun _ _ used => ∀ use ∈ used, use.Direct) start machine := by
  induction reaches with
  | start => exact ⟨safe, .start⟩
  | step event _ enabled ends clear ih =>
      obtain ⟨safe, reaches⟩ := ih
      obtain ⟨direct, -, after⟩ := runEvent_covers layout event _ safe _ _ _ ends clear
      exact ⟨after, reaches.step event enabled ends direct⟩

end Paged

/-! ## The address of every frame -/

/-- `vmm_virt_to_phys` finds the frame that is handed out next at its own address. -/
def PointerValid (memory : Memory) : Prop :=
  ∀ i, nextFrame memory.bitmap = some i →
    lookup memory memory.cr3 (frameAddr i) = some (frameAddr i)

/-- No page of a process lies over a page table of the current process. -/
def TablesClear (memory : Memory) : Prop :=
  ∀ table, TableOf memory.tables memory.cr3 table → ¬ Overlaid memory memory.cr3 table

/-- Where no page lies over the tables, looking up the address of a frame is reading them. -/
theorem Watched.lookup_eq {memory : Memory} {place : Places} {procs : List Addr}
    (watched : Watched memory place procs) (clear : TablesClear memory) (virt : Addr) :
    lookup memory memory.cr3 virt = some (vmmVirtToPhys memory memory.cr3 virt) := by
  apply Vmm.lookup_eq
  intro table isTable
  have checked : Checked ⟨memory, []⟩ place procs :=
    ⟨watched, fun _ member => absurd member List.not_mem_nil⟩
  have free := clear table isTable
  obtain ⟨path, short, -, leads, rfl⟩ := isTable
  have isAt := watched.placed.follow_place (watched.areRoots _ watched.cr3) (by simpa using short)
    leads
  exact checked.direct (watched.placed.isFrame isAt) free

/-- In a run in which no page of a process lies over a pointer that the kernel follows, every
pointer is mapped onto itself; and as long as no page lies over a table of the current process,
the address of a frame that is handed out is a pointer to it exactly if no page lies over that
frame, as are the addresses of the frames the kernel works on later. -/
theorem frame_pointer_iff {layout : StackLayout} {start machine : Machine}
    (booted : Paged.Booted layout Use.Clear start)
    (reaches : Paged.Reaches layout (fun _ _ used => ∀ use ∈ used, use.Clear) start machine) :
    (Paged.Booted layout Use.Direct start ∧
      Paged.Reaches layout (fun _ _ used => ∀ use ∈ used, use.Direct) start machine) ∧
    (∀ snapshot ∈ machine.vm.handouts, snapshot.cr3 ≠ snapshot.kernelPml4 →
      TablesClear snapshot → (PointerValid snapshot ↔ ¬ NextOverlaid snapshot)) ∧
    (TablesClear machine.vm.toMemory → ∀ i < MAX_PAGES,
      ¬ Overlaid machine.vm.toMemory machine.vm.cr3 (frameAddr i) →
        lookup machine.vm.toMemory machine.vm.cr3 (frameAddr i) = some (frameAddr i)) := by
  obtain ⟨safe, boots⟩ := booted.safe
  obtain ⟨⟨procs, ⟨place, checked⟩, -⟩, direct⟩ := reaches.safe safe
  refine ⟨⟨boots, direct⟩, ?_, ?_⟩
  · intro snapshot member _ clear
    obtain ⟨place, procs, watched⟩ := checked.handouts snapshot member
    rw [← watched.nextMapped_iff]
    unfold PointerValid NextMapped
    simp only [watched.lookup_eq clear, Option.some.injEq]
  · intro clear i bound free
    rw [checked.watched.lookup_eq clear,
      checked.watched.direct machine.vm.cr3 checked.watched.cr3 i bound free]

/-- The first process is created from `pageFile`, runs, and grows its heap by a page. -/
def grownEvents : List Event := [.timer 0, .brk (HEAP_START + 1)]

def grownMachine : Machine := runEvents textLayout grownEvents pageBoot.2

theorem grownMachine_facts :
    pageBoot.1 = true ∧ AllEnabled textLayout grownEvents pageBoot.2 ∧
      ((Paged.boot textLayout [] pageFile).run (Paged.bootMachine smallImage
        [(300 * PAGE_SIZE, 301 * PAGE_SIZE)] (fun _ _ => 0) fun _ => 0)).any
          (fun done => done.2.2.all fun use => use.Clear ∧ use.Direct) = true ∧
      Paged.allUses textLayout (fun use => use.Clear ∧ use.Direct) grownEvents pageBoot.2 = true := by
  decide +kernel

theorem pageBoot_clear : Paged.Booted textLayout Use.Clear pageBoot.2 := by
  obtain ⟨succeeds, -, ends, -⟩ := grownMachine_facts
  obtain ⟨used, boots, met⟩ := Paged.exists_boot succeeds ends And.right
  exact ⟨_, _, _, _, _, _, used, boots, fun use member => (met use member).1⟩

theorem grownMachine_reaches :
    Paged.Reaches textLayout (fun _ _ used => ∀ use ∈ used, use.Clear) pageBoot.2
      grownMachine := by
  obtain ⟨-, enabled, -, ends⟩ := grownMachine_facts
  have reaches := Paged.reaches_runEvents .start enabled (fun _ _ => trivial) ends And.right
  exact reaches.mono fun met use member => (met.2 use member).1

theorem frame_pointer_iff_of_grownMachine :
    (Paged.Booted textLayout Use.Direct pageBoot.2 ∧
      Paged.Reaches textLayout (fun _ _ used => ∀ use ∈ used, use.Direct) pageBoot.2
        grownMachine) ∧
    (∀ snapshot ∈ grownMachine.vm.handouts, snapshot.cr3 ≠ snapshot.kernelPml4 →
      TablesClear snapshot → (PointerValid snapshot ↔ ¬ NextOverlaid snapshot)) ∧
    (TablesClear grownMachine.vm.toMemory → ∀ i < MAX_PAGES,
      ¬ Overlaid grownMachine.vm.toMemory grownMachine.vm.cr3 (frameAddr i) →
        lookup grownMachine.vm.toMemory grownMachine.vm.cr3 (frameAddr i) = some (frameAddr i)) :=
  frame_pointer_iff pageBoot_clear grownMachine_reaches

/-! ## A frame below a page of text -/

/-- The first process runs and grows its heap. -/
def textMachine : Machine := runEvents textLayout grownEvents textBoot.2

/-- The frame that the process gets is not found at its address. -/
theorem textMachine_facts :
    AllEnabled textLayout grownEvents textBoot.2 ∧
      ((Paged.boot textLayout [] textFile).run (Paged.bootMachine smallImage
        [(300 * PAGE_SIZE, 1016 * PAGE_SIZE)] (fun _ _ => 0) fun _ => 0)).any
          (fun done => done.2.2.all fun use => use.Direct) = true ∧
      Paged.allUses textLayout Use.Direct grownEvents textBoot.2 = true ∧
      textMachine.vm.handouts.any (fun snapshot =>
        snapshot.cr3 ≠ snapshot.kernelPml4 ∧ nextFrame snapshot.bitmap = some 1024 ∧
          lookup snapshot snapshot.cr3 (frameAddr 1024) ≠ some (frameAddr 1024)) = true := by
  decide +kernel

theorem textBoot_ends :
    ∃ used, (Paged.boot textLayout [] textFile).run (Paged.bootMachine smallImage
      [(300 * PAGE_SIZE, 1016 * PAGE_SIZE)] (fun _ _ => 0) fun _ => 0) =
        some (true, textBoot.2, used) ∧ ∀ use ∈ used, use.Direct :=
  Paged.exists_boot textBoot_facts.1 textMachine_facts.2.1 fun direct => direct

theorem textMachine_reaches :
    Paged.Reaches textLayout (fun _ event used => event.LinkedAt USER_BASE ∧
      ∀ use ∈ used, use.Direct) textBoot.2 textMachine := by
  have linked : ∀ event ∈ grownEvents, event.LinkedAt USER_BASE := by
    intro event member
    obtain rfl | rfl := List.mem_pair.mp member
    all_goals trivial
  exact Paged.reaches_runEvents .start textMachine_facts.1 linked textMachine_facts.2.2.1
    fun direct => direct

/-- The heap gets the frame at `USER_BASE`, below the text of the process. -/
theorem frame_pointer_invalid :
    ¬ ∀ (layout : StackLayout) (image : KernelImage) (regions : List (Nat × Nat))
      (junk : Addr → Nat → Addr) (calls : List DriverCall) (stack : Nat → Word) (init : ElfFile)
      (used : List Use) (start machine : Machine), init.LinkedAt USER_BASE →
        (Paged.boot layout calls init).run (Paged.bootMachine image regions junk stack) =
          some (true, start, used) →
        Paged.Reaches layout (fun _ event _ => event.LinkedAt USER_BASE) start machine →
          ∀ snapshot ∈ machine.vm.handouts, snapshot.cr3 ≠ snapshot.kernelPml4 →
            PointerValid snapshot := by
  intro valid
  obtain ⟨used, boots, -⟩ := textBoot_ends
  obtain ⟨snapshot, member, facts⟩ := List.any_eq_true.mp textMachine_facts.2.2.2
  obtain ⟨process, search, elsewhere⟩ := of_decide_eq_true facts
  exact elsewhere (valid _ _ _ _ _ _ _ _ _ _ textFile_linkedAt boots
    (textMachine_reaches.mono And.left) snapshot member process 1024 search)

end Notux.Vmm
