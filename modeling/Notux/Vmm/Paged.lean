import Notux.Store.Traced
import Notux.Vmm.Machine
import Notux.Vmm.Translation

/-!
# The kernel under the loaded page tables

The code of `vmm.c`, `load_elf_into_process` and `sys_brk` once more, now with every
pointer to a table or a frame followed by the processor: through the page tables that
`cr3` points to, wherever they lead.  A pointer that leads nowhere is a page fault, at
which the kernel stops.  A loop over one table uses one translation, which the processor
keeps.  Supervisor code may write to pages that are not writable, since `CR0.WP` is clear.

Each pointer is noted with the memory in which it was followed.  As long as every one of
them is mapped onto itself, the code does what `Frames` and `Machine` say, where a table
is reached through its physical address.

The kernel's own image (its code, the bitmap, the process table, the load buffer) is not
looked at through the tables, and neither is what the loader copies: of a page that it
clears and fills, the pointer is noted.
-/

namespace Notux.Vmm

open Notux.Store Notux.Proc

/-- A pointer that was followed, and the memory at that time. -/
structure Use where
  memory : Memory
  pointer : Addr

namespace Use

/-- Where the processor finds the page of the pointer. -/
def place (use : Use) : Option Addr :=
  (translation use.memory.tables use.memory.cr3 use.pointer).map Page.phys

/-- The loaded tables map the page of the pointer onto itself. -/
def Direct (use : Use) : Prop := use.place = some use.pointer

instance (use : Use) : Decidable use.Direct := inferInstanceAs (Decidable (_ = _))

end Use

namespace Paged

/-- Code that works on the page tables through pointers. -/
abbrev PagedM := Traced Vm Use

/-- The physical address that a pointer leads to. -/
def deref (pointer : Addr) : PagedM Addr := .access (fun vm => ⟨vm.toMemory, pointer⟩) Use.place

/-- Read one entry of a table. -/
def load (table : Addr) (idx : Nat) : PagedM Addr := do
  let place ← deref table
  let vm ← .ofState get
  return vm.tables place idx

/-- Read a whole table. -/
def loadTable (table : Addr) : PagedM (Nat → Addr) := do
  let place ← deref table
  let vm ← .ofState get
  return vm.tables place

/-- Write one entry of a table. -/
def store (table : Addr) (idx : Nat) (entry : Addr) : PagedM Unit := do
  let place ← deref table
  .ofState (setEntry place idx entry)

/-- Write a whole table. -/
def storeTable (table : Addr) (entries : Nat → Addr) : PagedM Unit := do
  let place ← deref table
  .ofState (fillTable place entries)

/-! ## `vmm.c` -/

/-- `zero_table`. -/
def zeroTable (table : Addr) : PagedM Unit := storeTable table fun _ => 0

/-- Put a new empty table behind an entry: its address, null if there is no memory. -/
def newLevel (table : Addr) (idx : Nat) : PagedM Addr := do
  let newTable ← .ofState pmmAllocPage
  if newTable = 0 then return 0
  else
    zeroTable newTable
    store table idx (tableEntry newTable)
    return newTable

/-- `get_next_level` with `allocate`. -/
def getNextLevel (table : Addr) (idx : Nat) : PagedM Addr := do
  let entry ← load table idx
  if entry &&& PAGE_PRESENT ≠ 0 then return nextLevel entry
  else newLevel table idx

/-- `split_huge_pde`. -/
def splitHugePde (table : Addr) (idx : Nat) : PagedM Addr := do
  let pde ← load table idx
  if pde &&& PAGE_PRESENT = 0 then return 0
  else if pde &&& PAGE_HUGE = 0 then return pde &&& PAGE_MASK
  else
    let pt ← .ofState pmmAllocPage
    if pt = 0 then return 0
    else
      storeTable pt (smallPages pde)
      store table idx (tableEntry pt)
      return pt

/-- Write a page-table entry in the tables of `pml4`. -/
def writePte (pml4 pt virt entry : Addr) : PagedM Unit := do
  store pt (ptIdx virt) entry
  .ofState (modify fun vm => { vm with written := ⟨pml4, pt, ptIdx virt⟩ :: vm.written })

/-- The page table `vmm_map_page` writes to, found or made. -/
def mapTable (pd : Addr) (idx : Nat) : PagedM Addr := do
  let pde ← load pd idx
  if pde &&& PAGE_PRESENT ≠ 0 then
    if pde &&& PAGE_HUGE ≠ 0 then splitHugePde pd idx
    else return pde &&& PAGE_MASK
  else newLevel pd idx

/-- `vmm_map_page`. -/
def vmmMapPage (pml4 virt phys flags : Addr) : PagedM Unit := do
  if pml4 = 0 then return ()
  else
    let pdp ← getNextLevel pml4 (pml4Idx virt)
    if pdp = 0 then return ()
    else
      let pd ← getNextLevel pdp (pdpIdx virt)
      if pd = 0 then return ()
      else
        let pt ← mapTable pd (pdIdx virt)
        if pt = 0 then return ()
        else writePte pml4 pt virt (leafEntry phys flags)

/-- The page table `vmm_unmap_page` writes to. -/
def unmapTable (pd : Addr) (idx : Nat) : PagedM Addr := do
  let pde ← load pd idx
  if pde &&& PAGE_HUGE ≠ 0 then splitHugePde pd idx
  else if pde &&& PAGE_PRESENT = 0 then return 0
  else return pde &&& PAGE_MASK

/-- `vmm_unmap_page`. -/
def vmmUnmapPage (pml4 virt : Addr) : PagedM Unit := do
  if pml4 = 0 then return ()
  else
    let pdp := nextLevel (← load pml4 (pml4Idx virt))
    if pdp = 0 then return ()
    else
      let pd := nextLevel (← load pdp (pdpIdx virt))
      if pd = 0 then return ()
      else
        let pt ← unmapTable pd (pdIdx virt)
        if pt = 0 then return ()
        else writePte pml4 pt virt 0

/-- `vmm_virt_to_phys`. -/
def vmmVirtToPhys (pml4 virt : Addr) : PagedM Addr := do
  if pml4 = 0 then return 0
  else
    let pdp := nextLevel (← load pml4 (pml4Idx virt))
    if pdp = 0 then return 0
    else
      let pd := nextLevel (← load pdp (pdpIdx virt))
      if pd = 0 then return 0
      else
        let pde ← load pd (pdIdx virt)
        if pde &&& PAGE_PRESENT = 0 then return 0
        else if pde &&& PAGE_HUGE ≠ 0 then return (pde &&& HUGE_MASK) ||| (virt &&& 0x1FFFFF)
        else
          let pt := pde &&& PAGE_MASK
          if pt = 0 then return 0
          else
            let pte ← load pt (ptIdx virt)
            if pte &&& PAGE_PRESENT = 0 then return 0
            else return (pte &&& PAGE_MASK) ||| (virt &&& 0xFFF)

/-- Give a new root private copies of one page directory of the kernel; false if there is
no memory. -/
def copyDirectory (userPdp kernelPdp : Addr) (idx : Nat) : PagedM Bool := do
  let entry ← load kernelPdp idx
  if entry &&& PAGE_PRESENT = 0 then return true
  else if entry &&& PAGE_MASK = 0 then return true
  else
    let userPd ← .ofState pmmAllocPage
    if userPd = 0 then return false
    else
      zeroTable userPd
      store userPdp idx (tableEntry userPd)
      let entries ← loadTable (entry &&& PAGE_MASK)
      storeTable userPd entries
      return true

/-- The loop over the four page directories. -/
def copyDirectories (userPdp kernelPdp : Addr) : List Nat → PagedM Bool
  | [] => return true
  | idx :: rest => do
      if ← copyDirectory userPdp kernelPdp idx then copyDirectories userPdp kernelPdp rest
      else return false

/-- `create_user_pml4`. -/
def createUserPml4 : PagedM Addr := do
  let userPml4 ← .ofState pmmAllocPage
  if userPml4 = 0 then return 0
  else
    zeroTable userPml4
    let vm ← .ofState get
    if vm.kernelPml4 = 0 then return 0
    else
      let first ← load vm.kernelPml4 0
      if first &&& PAGE_PRESENT = 0 then return userPml4
      else if first &&& PAGE_MASK = 0 then return userPml4
      else
        let userPdp ← .ofState pmmAllocPage
        if userPdp = 0 then return 0
        else
          zeroTable userPdp
          store userPml4 0 (tableEntry userPdp)
          if ← copyDirectories userPdp (first &&& PAGE_MASK) (List.range 4) then
            let vm ← .ofState get
            let others ← loadTable vm.kernelPml4
            let mine ← load userPml4 0
            storeTable userPml4 fun i => if i = 0 then mine else others i
            return userPml4
          else return 0

/-! ## The loader and the heap -/

/-- Whether a page gets any byte of the file. -/
def copies (ph : Phdr) (page : Addr) : Bool :=
  let copyStart := if page < ph.pVaddr then ph.pVaddr else page
  let fileEnd := ph.pVaddr + ph.pFilesz
  let copyEnd := if page + 0x1000 > fileEnd then fileEnd else page + 0x1000
  copyStart < copyEnd

/-- Copy the part of a page that comes from the file. -/
def copyPage (ph : Phdr) (phys page : Addr) : PagedM Unit := do
  if copies ph page then
    let _ ← deref phys
    return ()
  else return ()

/-- The page loop of `load_elf_into_process`, which clears and fills each page through the
address of its frame. -/
def loadPages (pml4 fileSize : Addr) (ph : Phdr) : Nat → Addr → PagedM Bool
  | 0, _ => return true
  | count + 1, page => do
      let phys ← .ofState pmmAllocPage
      if phys = 0 then return false
      else
        let _ ← deref phys
        vmmMapPage pml4 page phys ph.pageFlags
        if ph.copyOk fileSize page then
          copyPage ph phys page
          loadPages pml4 fileSize ph count (page + 0x1000)
        else return false

/-- One `PT_LOAD` segment. -/
def loadSegment (pml4 fileSize : Addr) (ph : Phdr) : PagedM Bool := do
  if ph.sizesOk fileSize then
    if ph.pMemsz = 0 then return true
    else if ph.rangeOk then
      loadPages pml4 fileSize ph ((ph.pageEnd - ph.pageStart) >>> 12).toNat ph.pageStart
    else return false
  else return false

/-- The loop over the program headers. -/
def loadSegments (pml4 fileSize : Addr) : List Phdr → PagedM Bool
  | [] => return true
  | ph :: rest => do
      if ph.pType = 1 then
        if ← loadSegment pml4 fileSize ph then loadSegments pml4 fileSize rest
        else return false
      else loadSegments pml4 fileSize rest

/-- `load_elf_into_process`: whether it returns 0. -/
def loadElfIntoProcess (pml4 : Addr) (file : ElfFile) : PagedM Bool := do
  if pml4 = 0 then return false
  else if file.headerOk then
    let phdrs := (List.range file.ePhnum).map file.phdr
    if ← loadSegments pml4 (BitVec.ofNat 64 file.size) phdrs then
      return phdrs.any fun ph => ph.pType = 1
    else return false
  else return false

/-- The loop of `sys_brk` that grows the heap: false if memory runs out. -/
def brkGrow (pml4 : Addr) : Nat → Addr → PagedM Bool
  | 0, _ => return true
  | count + 1, page => do
      let phys ← .ofState pmmAllocPage
      if phys = 0 then return false
      else
        vmmMapPage pml4 page phys VMM_USER_FLAGS
        brkGrow pml4 count (page + 0x1000)

/-- The loop of `sys_brk` that shrinks the heap. -/
def brkShrink (pml4 : Addr) : Nat → Addr → PagedM Unit
  | 0, _ => return ()
  | count + 1, page => do
      vmmUnmapPage pml4 page
      brkShrink pml4 count (page + 0x1000)

/-! ## The machine -/

/-- Code that works on the page tables through pointers, and on the process table. -/
abbrev PagedMachineM := Traced Machine Use

/-- Run code that works on the page tables. -/
def onVm {α : Type} (program : PagedM α) : PagedMachineM α :=
  .onPart Machine.vm (fun vm machine => { machine with vm }) program

/-- `create_process`. -/
def createProcess (layout : StackLayout) : PagedMachineM Int := do
  let machine ← .ofState get
  match ProcTable.firstSlot fun i => (machine.table.processes i).state = .terminated with
  | none => return -1
  | some _ =>
      let pml4 ← onVm createUserPml4
      .ofState (onTable (·.createProcess layout 0 pml4.toNat))

/-- `spawn_from_xv6fs`, once it has read an image that passes its checks. -/
def spawnFromXv6fs (layout : StackLayout) (file : Option ElfFile) : PagedMachineM Int := do
  match file with
  | none => return -1
  | some file =>
      let pid ← createProcess layout
      if pid < 0 then return -1
      else
        let machine ← .ofState get
        match machine.table.getProcessByPid pid.toNat with
        | none => return -1
        | some child =>
            if ← onVm (loadElfIntoProcess (rootOf (machine.table.processes child)) file) then
              .ofState (onTable fun table => ((), table.setProcessEntry child file.eEntry))
              return pid
            else
              .ofState (onTable fun table => ((), table.terminate child))
              return -1

/-- `spawn_from_ramfs`, once it has found a file. -/
def spawnFromRamfs (layout : StackLayout) (file : Option ElfFile) : PagedMachineM Int := do
  match file with
  | none => return -1
  | some file =>
      let pid ← createProcess layout
      if pid < 0 then return -1
      else
        let machine ← .ofState get
        match machine.table.getProcessByPid pid.toNat with
        | none => return -1
        | some child =>
            if ← onVm (loadElfIntoProcess (rootOf (machine.table.processes child)) file) then
              .ofState (onTable fun table => ((), table.setProcessEntry child file.eEntry))
              return 0
            else return -1

/-- System call 59. -/
def sysExecve (layout : StackLayout) (onDisk inRamfs : Option ElfFile) : PagedMachineM Int := do
  let res ← spawnFromXv6fs layout onDisk
  if res < 0 then spawnFromRamfs layout inRamfs else return res

/-- `sys_brk`. -/
def sysBrk (newBrk : Addr) : PagedMachineM Addr := do
  let machine ← .ofState get
  let process := machine.table.currentProcess
  let (heapStart, heapEnd) := heapBounds process
  .ofState (setHeap heapStart heapEnd)
  if newBrk = 0 ∨ newBrk = heapEnd then return heapEnd
  else if newBrk < heapStart then return heapEnd
  else
    let currentPageEnd := pageAlignUp heapEnd
    let newPageEnd := pageAlignUp newBrk
    if currentPageEnd < newPageEnd then
      if ← onVm (brkGrow (rootOf process) ((newPageEnd - currentPageEnd) >>> 12).toNat
          currentPageEnd) then
        .ofState (setHeap heapStart newBrk)
        return newBrk
      else return heapEnd
    else
      onVm (brkShrink (rootOf process) ((currentPageEnd - newPageEnd) >>> 12).toNat newPageEnd)
      .ofState (setHeap heapStart newBrk)
      return newBrk

/-- The effect of an event.  Only `execve` and `brk` follow pointers. -/
def runEvent (layout : StackLayout) (event : Event) : PagedMachineM Unit :=
  match event with
  | .execve onDisk inRamfs => do
      let _ ← sysExecve layout onDisk inRamfs
  | .brk newBrk => do
      let _ ← sysBrk newBrk
  | _ => .ofState (event.run layout)

/-- The rest of `kernel()`: the first process, whose image is the first module, is created,
loaded and switched to; false if the kernel panics instead. -/
def startInit (layout : StackLayout) (file : ElfFile) : PagedMachineM Bool := do
  let pid ← createProcess layout
  if pid < 0 then return false
  else
    let machine ← .ofState get
    match machine.table.getProcessByPid pid.toNat with
    | none => return false
    | some child =>
        if ← onVm (loadElfIntoProcess (rootOf (machine.table.processes child)) file) then
          .ofState (onTable fun table => ((), table.setProcessEntry child file.eEntry))
          .ofState (Vmm.onVm (vmmSwitchPml4 (rootOf (machine.table.processes child))))
          return true
        else return false

/-! ## Pointers that are mapped onto themselves -/

section Follows

variable {α : Type}

section

variable {assumed : Use → Prop} {vm : Vm} {Q : α → Vm → Prop}

theorem deref_traces {pointer : Addr}
    (direct : assumed ⟨vm.toMemory, pointer⟩ → Use.Direct ⟨vm.toMemory, pointer⟩) :
    Traces assumed Use.Direct (deref pointer) (pure pointer)
      (fun value after => value = pointer ∧ after = vm) vm :=
  .access (fun met => ⟨direct met, Or.inl (direct met)⟩) ⟨rfl, rfl⟩

/-- A pointer that is mapped onto itself leads to the entry. -/
theorem load_traces {table : Addr} {idx : Nat} {next : Addr → PagedM α} {program : VmM α}
    (direct : assumed ⟨vm.toMemory, table⟩ → Use.Direct ⟨vm.toMemory, table⟩)
    (rest : Traces assumed Use.Direct (next (vm.tables table idx)) program Q vm) :
    Traces assumed Use.Direct (load table idx >>= next) program Q vm := by
  have loads : Traces assumed Use.Direct (load table idx) (pure (vm.tables table idx))
      (fun value after => value = vm.tables table idx ∧ after = vm) vm := by
    apply (deref_traces direct).look
    apply Traces.peek
    exact .pure ⟨rfl, rfl⟩
  exact loads.look rest

theorem loadTable_traces {table : Addr} {next : (Nat → Addr) → PagedM α} {program : VmM α}
    (direct : assumed ⟨vm.toMemory, table⟩ → Use.Direct ⟨vm.toMemory, table⟩)
    (rest : Traces assumed Use.Direct (next (vm.tables table)) program Q vm) :
    Traces assumed Use.Direct (loadTable table >>= next) program Q vm := by
  have loads : Traces assumed Use.Direct (loadTable table) (pure (vm.tables table))
      (fun value after => value = vm.tables table ∧ after = vm) vm := by
    apply (deref_traces direct).look
    apply Traces.peek
    exact .pure ⟨rfl, rfl⟩
  exact loads.look rest

theorem store_traces {table : Addr} {idx : Nat} {entry : Addr}
    (direct : assumed ⟨vm.toMemory, table⟩ → Use.Direct ⟨vm.toMemory, table⟩) :
    Traces assumed Use.Direct (store table idx entry) (setEntry table idx entry)
      (fun _ after => after = vm.fill table (assign (vm.tables table) idx entry)) vm := by
  apply (deref_traces direct).look
  exact .ofState rfl

theorem storeTable_traces {table : Addr} {entries : Nat → Addr}
    (direct : assumed ⟨vm.toMemory, table⟩ → Use.Direct ⟨vm.toMemory, table⟩) :
    Traces assumed Use.Direct (storeTable table entries) (fillTable table entries)
      (fun _ after => after = vm.fill table entries) vm := by
  apply (deref_traces direct).look
  exact .ofState rfl

end

theorem load_follows {table : Addr} {idx : Nat} {next : Addr → PagedM α} (after : Addr → VmM α)
    (rest : ∀ entry, Follows Use.Direct (next entry) (after entry)) :
    Follows Use.Direct (load table idx >>= next) (do
      let vm ← get
      after (vm.tables table idx)) := fun vm =>
  load_traces (fun direct => direct) (rest (vm.tables table idx) vm)

theorem store_follows (table : Addr) (idx : Nat) (entry : Addr) :
    Follows Use.Direct (store table idx entry) (setEntry table idx entry) := fun _ =>
  (store_traces fun direct => direct).mono fun _ _ _ => trivial

theorem storeTable_follows (table : Addr) (entries : Nat → Addr) :
    Follows Use.Direct (storeTable table entries) (fillTable table entries) := fun _ =>
  (storeTable_traces fun direct => direct).mono fun _ _ _ => trivial

theorem zeroTable_follows (table : Addr) :
    Follows Use.Direct (zeroTable table) (Vmm.zeroTable table) :=
  storeTable_follows table fun _ => 0

theorem newLevel_follows (table : Addr) (idx : Nat) :
    Follows Use.Direct (newLevel table idx) (Vmm.newLevel table idx) := by
  apply (Follows.ofState pmmAllocPage).bind
  intro newTable
  apply (Follows.pure 0).ite
  apply (zeroTable_follows newTable).bind
  intro _
  apply (store_follows table idx (tableEntry newTable)).bind
  exact fun _ => .pure newTable

theorem getNextLevel_follows (table : Addr) (idx : Nat) :
    Follows Use.Direct (getNextLevel table idx) (Vmm.getNextLevel table idx) := by
  apply load_follows fun entry =>
    if entry &&& PAGE_PRESENT ≠ 0 then return nextLevel entry else Vmm.newLevel table idx
  intro entry
  exact (Follows.pure (nextLevel entry)).ite (newLevel_follows table idx)

theorem splitHugePde_follows (table : Addr) (idx : Nat) :
    Follows Use.Direct (splitHugePde table idx) (Vmm.splitHugePde table idx) := by
  apply load_follows fun pde =>
    if pde &&& PAGE_PRESENT = 0 then return 0
    else if pde &&& PAGE_HUGE = 0 then return pde &&& PAGE_MASK
    else do
      let pt ← pmmAllocPage
      if pt = 0 then return 0
      else
        fillTable pt (smallPages pde)
        setEntry table idx (tableEntry pt)
        return pt
  intro pde
  apply (Follows.pure 0).ite
  apply (Follows.pure (pde &&& PAGE_MASK)).ite
  apply (Follows.ofState pmmAllocPage).bind
  intro pt
  apply (Follows.pure 0).ite
  apply (storeTable_follows pt (smallPages pde)).bind
  intro _
  apply (store_follows table idx (tableEntry pt)).bind
  exact fun _ => .pure pt

theorem writePte_follows (pml4 pt virt entry : Addr) :
    Follows Use.Direct (writePte pml4 pt virt entry) (Vmm.writePte pml4 pt virt entry) := by
  apply (store_follows pt (ptIdx virt) entry).bind
  exact fun _ => .ofState _

theorem mapTable_follows (pd : Addr) (idx : Nat) :
    Follows Use.Direct (mapTable pd idx) (Vmm.mapTable pd idx) := by
  apply load_follows fun pde =>
    if pde &&& PAGE_PRESENT ≠ 0 then
      if pde &&& PAGE_HUGE ≠ 0 then Vmm.splitHugePde pd idx else return pde &&& PAGE_MASK
    else Vmm.newLevel pd idx
  intro pde
  apply Follows.ite
  · exact (splitHugePde_follows pd idx).ite (.pure (pde &&& PAGE_MASK))
  · exact newLevel_follows pd idx

/-- A call that gives up at a null table. -/
theorem null_follows {table : Addr} {next : PagedM Unit} {after : VmM Unit}
    (rest : Follows Use.Direct next after) :
    Follows Use.Direct (if table = 0 then return () else next)
      (if table = 0 then return () else after) :=
  (Follows.pure ()).ite rest

theorem vmmMapPage_follows (pml4 virt phys flags : Addr) :
    Follows Use.Direct (vmmMapPage pml4 virt phys flags) (Vmm.vmmMapPage pml4 virt phys flags) := by
  apply null_follows
  apply (getNextLevel_follows pml4 (pml4Idx virt)).bind
  intro pdp
  apply null_follows
  apply (getNextLevel_follows pdp (pdpIdx virt)).bind
  intro pd
  apply null_follows
  apply (mapTable_follows pd (pdIdx virt)).bind
  intro pt
  exact null_follows (writePte_follows pml4 pt virt (leafEntry phys flags))

theorem unmapTable_follows (pd : Addr) (idx : Nat) :
    Follows Use.Direct (unmapTable pd idx) (Vmm.unmapTable pd idx) := by
  apply load_follows fun pde =>
    if pde &&& PAGE_HUGE ≠ 0 then Vmm.splitHugePde pd idx
    else if pde &&& PAGE_PRESENT = 0 then return 0
    else return pde &&& PAGE_MASK
  intro pde
  apply (splitHugePde_follows pd idx).ite
  exact (Follows.pure 0).ite (.pure (pde &&& PAGE_MASK))

theorem vmmUnmapPage_follows (pml4 virt : Addr) :
    Follows Use.Direct (vmmUnmapPage pml4 virt) (Vmm.vmmUnmapPage pml4 virt) := by
  apply null_follows
  intro vm
  apply load_traces fun direct => direct
  apply Traces.get
  apply Traces.ite
  · exact fun _ => .pure trivial
  · intro _
    apply load_traces fun direct => direct
    apply Traces.ite
    · exact fun _ => .pure trivial
    · intro _
      apply (unmapTable_follows _ (pdIdx virt)).bind
      exact fun pt => null_follows (writePte_follows pml4 pt virt 0)

theorem copyDirectory_follows (userPdp kernelPdp : Addr) (idx : Nat) :
    Follows Use.Direct (copyDirectory userPdp kernelPdp idx)
      (Vmm.copyDirectory userPdp kernelPdp idx) := by
  intro vm
  apply load_traces fun direct => direct
  apply Traces.get
  apply Traces.ite
  · exact fun _ => .pure trivial
  · intro _
    apply Traces.ite
    · exact fun _ => .pure trivial
    · intro _
      apply (Follows.ofState pmmAllocPage vm).bind
      intro userPd after _
      apply (Follows.pure false).ite
      apply (zeroTable_follows userPd).bind
      intro _
      apply (store_follows userPdp idx (tableEntry userPd)).bind
      intro _ linked
      apply loadTable_traces fun direct => direct
      apply Traces.get
      exact (storeTable_follows userPd _).bind (fun _ => .pure true) linked

theorem copyDirectories_follows (userPdp kernelPdp : Addr) (indices : List Nat) :
    Follows Use.Direct (copyDirectories userPdp kernelPdp indices)
      (Vmm.copyDirectories userPdp kernelPdp indices) := by
  induction indices with
  | nil => exact .pure true
  | cons idx rest ih =>
      apply (copyDirectory_follows userPdp kernelPdp idx).bind
      exact fun copied => ih.ite (.pure false)

theorem createUserPml4_follows : Follows Use.Direct createUserPml4 Vmm.createUserPml4 := by
  apply (Follows.ofState pmmAllocPage).bind
  intro userPml4
  apply (Follows.pure 0).ite
  apply (zeroTable_follows userPml4).bind
  intro _ vm
  apply Traces.peek
  apply Traces.get
  apply Traces.ite
  · exact fun _ => .pure trivial
  · intro _
    apply load_traces fun direct => direct
    refine Follows.ite (.pure userPml4) (Follows.ite (.pure userPml4) ?_) vm
    apply (Follows.ofState pmmAllocPage).bind
    intro userPdp
    apply (Follows.pure 0).ite
    apply (zeroTable_follows userPdp).bind
    intro _
    apply (store_follows userPml4 0 (tableEntry userPdp)).bind
    intro _
    apply (copyDirectories_follows userPdp _ (List.range 4)).bind
    intro copied
    apply Follows.ite
    · intro copied
      apply Traces.peek
      apply loadTable_traces fun direct => direct
      apply load_traces fun direct => direct
      apply Traces.get
      exact (storeTable_follows userPml4 _).bind (fun _ => .pure userPml4) copied
    · exact .pure 0

/-- What is copied is not looked at. -/
theorem copyPage_traces {assumed : Use → Prop} {ph : Phdr} {phys page : Addr} {vm : Vm}
    (direct : assumed ⟨vm.toMemory, phys⟩ → Use.Direct ⟨vm.toMemory, phys⟩) :
    Traces assumed Use.Direct (copyPage ph phys page) (pure ())
      (fun value after => value = () ∧ after = vm) vm := by
  unfold copyPage
  split
  · apply (deref_traces direct).look
    exact .pure ⟨rfl, rfl⟩
  · exact .pure ⟨rfl, rfl⟩

theorem loadPages_follows (pml4 fileSize : Addr) (ph : Phdr) (count : Nat) (page : Addr) :
    Follows Use.Direct (loadPages pml4 fileSize ph count page)
      (Vmm.loadPages pml4 fileSize ph count page) := by
  induction count generalizing page with
  | zero => exact .pure true
  | succ count ih =>
      apply (Follows.ofState pmmAllocPage).bind
      intro phys
      apply (Follows.pure false).ite
      intro vm
      apply (deref_traces fun direct => direct).look
      apply (vmmMapPage_follows pml4 page phys ph.pageFlags vm).bind
      intro _ mapped _
      apply Traces.ite
      · intro _
        exact (copyPage_traces fun direct => direct).look (ih (page + 0x1000) mapped)
      · exact fun _ => .pure trivial

theorem loadSegment_follows (pml4 fileSize : Addr) (ph : Phdr) :
    Follows Use.Direct (loadSegment pml4 fileSize ph) (Vmm.loadSegment pml4 fileSize ph) := by
  apply Follows.ite
  · apply (Follows.pure true).ite
    exact (loadPages_follows pml4 fileSize ph _ ph.pageStart).ite (.pure false)
  · exact .pure false

theorem loadSegments_follows (pml4 fileSize : Addr) (phdrs : List Phdr) :
    Follows Use.Direct (loadSegments pml4 fileSize phdrs) (Vmm.loadSegments pml4 fileSize phdrs) := by
  induction phdrs with
  | nil => exact .pure true
  | cons ph rest ih =>
      apply Follows.ite
      · apply (loadSegment_follows pml4 fileSize ph).bind
        exact fun loaded => ih.ite (.pure false)
      · exact ih

theorem loadElfIntoProcess_follows (pml4 : Addr) (file : ElfFile) :
    Follows Use.Direct (loadElfIntoProcess pml4 file) (Vmm.loadElfIntoProcess pml4 file) := by
  apply (Follows.pure false).ite
  apply Follows.ite
  · apply (loadSegments_follows pml4 _ _).bind
    exact fun loaded => (Follows.pure _).ite (.pure false)
  · exact .pure false

theorem brkGrow_follows (pml4 : Addr) (count : Nat) (page : Addr) :
    Follows Use.Direct (brkGrow pml4 count page) (Vmm.brkGrow pml4 count page) := by
  induction count generalizing page with
  | zero => exact .pure true
  | succ count ih =>
      apply (Follows.ofState pmmAllocPage).bind
      intro phys
      apply (Follows.pure false).ite
      apply (vmmMapPage_follows pml4 page phys VMM_USER_FLAGS).bind
      exact fun _ => ih (page + 0x1000)

theorem brkShrink_follows (pml4 : Addr) (count : Nat) (page : Addr) :
    Follows Use.Direct (brkShrink pml4 count page) (Vmm.brkShrink pml4 count page) := by
  induction count generalizing page with
  | zero => exact .pure ()
  | succ count ih =>
      apply (vmmUnmapPage_follows pml4 page).bind
      exact fun _ => ih (page + 0x1000)

/-! ## Calls -/

theorem onVm_follows {program : PagedM α} {after : VmM α}
    (follows : Follows Use.Direct program after) :
    Follows Use.Direct (onVm program) (Vmm.onVm after) := fun machine =>
  (follows machine.vm).onPart rfl fun _ _ _ => trivial

theorem createProcess_follows (layout : StackLayout) :
    Follows Use.Direct (createProcess layout) (Vmm.createProcess layout) := by
  apply Follows.get
  intro machine
  cases ProcTable.firstSlot fun i => (machine.table.processes i).state = .terminated with
  | none => exact .pure (-1)
  | some _ =>
      apply (onVm_follows createUserPml4_follows).bind
      exact fun pml4 => .ofState _

/-- The image is loaded for the process that has been created, and what comes then. -/
theorem loadChild_follows (layout : StackLayout)
    (file : ElfFile) {failed : α} {traced : Int → Machine → ProcIdx → Bool → PagedMachineM α}
    {program : Int → Machine → ProcIdx → Bool → MachineM α}
    (rest : ∀ pid machine child loaded,
      Follows Use.Direct (traced pid machine child loaded) (program pid machine child loaded)) :
    Follows Use.Direct
      (do
        let pid ← createProcess layout
        if pid < 0 then return failed
        else
          let machine ← .ofState get
          match machine.table.getProcessByPid pid.toNat with
          | none => return failed
          | some child => do
              let loaded ← onVm
                (loadElfIntoProcess (rootOf (machine.table.processes child)) file)
              traced pid machine child loaded)
      (do
        let pid ← Vmm.createProcess layout
        if pid < 0 then return failed
        else
          let machine ← get
          match machine.table.getProcessByPid pid.toNat with
          | none => return failed
          | some child => do
              let loaded ← Vmm.onVm
                (Vmm.loadElfIntoProcess (rootOf (machine.table.processes child)) file)
              program pid machine child loaded) := by
  apply (createProcess_follows layout).bind
  intro pid
  apply (Follows.pure failed).ite
  apply Follows.get
  intro machine
  cases machine.table.getProcessByPid pid.toNat with
  | none => exact .pure failed
  | some child =>
      apply (onVm_follows (loadElfIntoProcess_follows _ file)).bind
      exact fun loaded => rest pid machine child loaded

theorem spawnFromXv6fs_follows (layout : StackLayout) (file : Option ElfFile) :
    Follows Use.Direct (spawnFromXv6fs layout file) (Vmm.spawnFromXv6fs layout file) := by
  cases file with
  | none => exact .pure (-1)
  | some file =>
      apply loadChild_follows layout file
      intro pid machine child loaded
      apply Follows.ite
      · exact (Follows.ofState _).bind fun _ => .pure pid
      · exact (Follows.ofState _).bind fun _ => .pure (-1)

theorem spawnFromRamfs_follows (layout : StackLayout) (file : Option ElfFile) :
    Follows Use.Direct (spawnFromRamfs layout file) (Vmm.spawnFromRamfs layout file) := by
  cases file with
  | none => exact .pure (-1)
  | some file =>
      apply loadChild_follows layout file
      intro pid machine child loaded
      exact ((Follows.ofState _).bind fun _ => .pure 0).ite (.pure (-1))

theorem sysExecve_follows (layout : StackLayout) (onDisk inRamfs : Option ElfFile) :
    Follows Use.Direct (sysExecve layout onDisk inRamfs)
      (Vmm.sysExecve layout onDisk inRamfs) := by
  apply (spawnFromXv6fs_follows layout onDisk).bind
  exact fun res => (spawnFromRamfs_follows layout inRamfs).ite (.pure res)

theorem sysBrk_follows (newBrk : Addr) :
    Follows Use.Direct (sysBrk newBrk) (Vmm.sysBrk newBrk) := by
  apply Follows.get
  intro machine
  apply (Follows.ofState _).bind
  intro _
  apply (Follows.pure _).ite
  apply (Follows.pure _).ite
  apply Follows.ite
  · apply (onVm_follows (brkGrow_follows _ _ _)).bind
    intro grown
    exact ((Follows.ofState _).bind fun _ => .pure newBrk).ite (.pure _)
  · apply (onVm_follows (brkShrink_follows _ _ _)).bind
    exact fun _ => (Follows.ofState _).bind fun _ => .pure newBrk

/-- An event does what `Machine` says, as long as every pointer that is followed is mapped onto
itself. -/
theorem runEvent_follows (layout : StackLayout) (event : Event) :
    Follows Use.Direct (runEvent layout event) (event.run layout) := by
  cases event with
  | execve onDisk inRamfs =>
      exact (sysExecve_follows layout onDisk inRamfs).bind fun _ => .pure ()
  | brk newBrk => exact (sysBrk_follows newBrk).bind fun _ => .pure ()
  | exit exitCode => exact .ofState _
  | wait4 => exact .ofState _
  | timer currentEsp => exact .ofState _

theorem startInit_follows (layout : StackLayout) (file : ElfFile) :
    Follows Use.Direct (startInit layout file) (Vmm.startInit layout file) := by
  apply loadChild_follows layout file
  intro pid machine child loaded
  apply Follows.ite
  · apply (Follows.ofState _).bind
    exact fun _ => (Follows.ofState _).bind fun _ => .pure true
  · exact .pure false

end Follows

end Paged

/-! ## Looking up an address -/

/-- What `vmm_virt_to_phys` answers, unless it meets a page fault. -/
def lookup (memory : Memory) (root virt : Addr) : Option Addr :=
  ((Paged.vmmVirtToPhys root virt).run ⟨memory, []⟩).map Prod.fst

section

variable {memory : Memory} {root virt : Addr}

theorem load_fst {table : Addr} {idx : Nat} {next : Addr → Paged.PagedM Addr}
    (direct : Use.Direct ⟨memory, table⟩) :
    ((Paged.load table idx >>= next).run ⟨memory, []⟩).map Prod.fst =
      ((next (memory.tables table idx)).run ⟨memory, []⟩).map Prod.fst := by
  have found : (Paged.deref table).run ⟨memory, []⟩ = some (table, ⟨memory, []⟩, [⟨memory, table⟩]) :=
    congrArg (Option.map fun place => (place, _, _)) direct
  have loads : (Paged.load table idx).run ⟨memory, []⟩ =
      some (memory.tables table idx, ⟨memory, []⟩, [⟨memory, table⟩]) := by
    show ((Paged.deref table).run ⟨memory, []⟩).bind _ = _
    rw [found]
    rfl
  exact Traced.run_bind_fst loads

/-- Where the tables of a root are mapped onto themselves, looking up an address is reading
them. -/
theorem lookup_eq (direct : ∀ table, TableOf memory.tables root table → Use.Direct ⟨memory, table⟩) :
    lookup memory root virt = some (vmmVirtToPhys memory root virt) := by
  have inside : ∀ i ∈ tablePath virt, i < 512 := by
    intro i member
    simp only [tablePath, List.mem_cons, List.not_mem_nil, or_false] at member
    rcases member with rfl | rfl | rfl
    all_goals exact idx_lt _
  -- a table that the walk comes to
  have isTable : ∀ count table, count ≤ 3 → table ≠ 0 →
      follow memory.tables root ((tablePath virt).take count) = table →
        Use.Direct ⟨memory, table⟩ := by
    rintro count table small nonzero rfl
    refine direct _ ⟨_, ?_, fun i member => inside i (List.mem_of_mem_take member), nonzero, rfl⟩
    exact List.length_take_le' count (tablePath virt)
  have final : ∀ value : Addr,
      ((pure value : Paged.PagedM Addr).run ⟨memory, []⟩).map Prod.fst = some value := fun _ => rfl
  unfold lookup Paged.vmmVirtToPhys vmmVirtToPhys
  split
  · exact final 0
  · next null =>
    rw [load_fst (isTable 0 root (by decide) null rfl)]
    dsimp only
    split
    · exact final 0
    · next noPdp =>
      have isPdp : follow memory.tables root [pml4Idx virt] =
          nextLevel (memory.tables root (pml4Idx virt)) := follow_singleton _ _ _
      rw [load_fst (isTable 1 _ (by decide) noPdp isPdp)]
      split
      · exact final 0
      · next noPd =>
        have isPd : follow memory.tables root [pml4Idx virt, pdpIdx virt] =
            nextLevel (memory.tables (nextLevel (memory.tables root (pml4Idx virt)))
              (pdpIdx virt)) := by
          rw [follow, if_neg noPdp, follow_singleton]
        rw [load_fst (isTable 2 _ (by decide) noPd isPd)]
        split
        · exact final 0
        · next present =>
          split
          · exact final _
          · next small =>
            split
            · exact final 0
            · next noPt =>
              have isPt : follow memory.tables root (tablePath virt) =
                  memory.tables (nextLevel (memory.tables
                    (nextLevel (memory.tables root (pml4Idx virt))) (pdpIdx virt))) (pdIdx virt) &&&
                    PAGE_MASK := by
                rw [tablePath, follow, if_neg noPdp, follow, if_neg noPd, follow_singleton, nextLevel,
                  if_pos present, if_neg small]
              rw [load_fst (isTable 3 _ (by decide) noPt isPt)]
              split
              · exact final 0
              · exact final _

end

end Notux.Vmm
