import Notux.Vmm.Boot
import Notux.Proc.Table

/-!
# Processes and their memory

`load_elf_into_process`, `sys_brk` and the calls that create and end processes,
on the process table and the page tables together.  Pages of processes are only
taken and mapped; what is copied into them is left out.  Where a file comes from
is left open: an image is found on the disk, in the ramfs, in both or in
neither.

Page tables are reached through their physical addresses, as in `Frames`; `Paged` has
the same code with pointers.
-/

namespace Notux.Vmm

open Notux.Store Notux.Proc

/-! ## The ELF loader -/

/-- A file in memory. -/
structure ElfFile where
  bytes : Nat → BitVec 8
  size : Nat
  size_lt : size < 2 ^ 32

namespace ElfFile

variable (file : ElfFile)

/-- A little-endian number of `count` bytes at an offset. -/
def word (off count : Nat) : Nat :=
  (List.range count).foldr (fun i value => (file.bytes (off + i)).toNat + 256 * value) 0

def eType : Nat := file.word 16 2

def eMachine : Nat := file.word 18 2

def eEntry : Nat := file.word 24 8

def ePhoff : Nat := file.word 32 8

def ePhentsize : Nat := file.word 54 2

def ePhnum : Nat := file.word 56 2

end ElfFile

/-- `sizeof(elf64_ehdr_t)`. -/
abbrev EHDR_SIZE : Nat := 64

/-- `sizeof(elf64_phdr_t)`. -/
abbrev PHDR_SIZE : Nat := 56

/-- `elf64_phdr_t`, without the fields the loader does not read. -/
structure Phdr where
  pType : Nat
  pFlags : Nat
  pOffset : Addr
  pVaddr : Addr
  pFilesz : Addr
  pMemsz : Addr

/-- Program header `i`. -/
def ElfFile.phdr (file : ElfFile) (i : Nat) : Phdr :=
  let off := file.ePhoff + i * PHDR_SIZE
  { pType := file.word off 4
    pFlags := file.word (off + 4) 4
    pOffset := BitVec.ofNat 64 (file.word (off + 8) 8)
    pVaddr := BitVec.ofNat 64 (file.word (off + 16) 8)
    pFilesz := BitVec.ofNat 64 (file.word (off + 32) 8)
    pMemsz := BitVec.ofNat 64 (file.word (off + 40) 8) }

/-- The checks of `load_elf_into_process` on the header. -/
def ElfFile.headerOk (file : ElfFile) : Bool :=
  EHDR_SIZE ≤ file.size ∧ file.bytes 0 = 0x7F ∧ file.bytes 1 = 0x45 ∧ file.bytes 2 = 0x4C ∧
    file.bytes 3 = 0x46 ∧ file.bytes 4 = 2 ∧ file.bytes 5 = 1 ∧ file.eMachine = 62 ∧
    (file.eType = 2 ∨ file.eType = 3) ∧ file.ePhnum ≠ 0 ∧ file.ePhentsize = PHDR_SIZE ∧
    file.ePhoff ≤ file.size ∧ file.ePhnum * file.ePhentsize ≤ file.size - file.ePhoff

namespace Phdr

variable (ph : Phdr)

/-- `seg_end`. -/
def segEnd : Addr := ph.pVaddr + ph.pMemsz

def pageStart : Addr := ph.pVaddr &&& PAGE_MASK

def pageEnd : Addr := (ph.segEnd + 0xFFF) &&& PAGE_MASK

/-- The checks on a segment before any page is taken. -/
def sizesOk (fileSize : Addr) : Bool :=
  ph.pFilesz ≤ ph.pMemsz ∧ ph.pOffset ≤ fileSize ∧ ph.pFilesz ≤ fileSize - ph.pOffset ∧
    ph.pVaddr ≤ ph.segEnd

/-- The checks on a segment that is not empty. -/
def rangeOk : Bool := ph.segEnd ≤ 0xFFFFFFFFFFFFF000 ∧ ph.segEnd ≤ ph.pageEnd

/-- The flags its pages are mapped with. -/
def pageFlags : Addr := if ph.pFlags &&& 2 ≠ 0 then PAGE_USER ||| PAGE_WRITE else PAGE_USER

/-- The checks before bytes are copied into a page. -/
def copyOk (fileSize page : Addr) : Bool :=
  let copyStart := if page < ph.pVaddr then ph.pVaddr else page
  let fileEnd := ph.pVaddr + ph.pFilesz
  let copyEnd := if page + 0x1000 > fileEnd then fileEnd else page + 0x1000
  let srcOff := ph.pOffset + (copyStart - ph.pVaddr)
  copyStart ≥ copyEnd ∨ (srcOff ≤ fileSize ∧ copyEnd - copyStart ≤ fileSize - srcOff)

end Phdr

/-- The page loop of `load_elf_into_process`: false if it gives up. -/
def loadPages (pml4 fileSize : Addr) (ph : Phdr) : Nat → Addr → VmM Bool
  | 0, _ => return true
  | count + 1, page => do
      let phys ← pmmAllocPage
      if phys = 0 then return false
      else
        vmmMapPage pml4 page phys ph.pageFlags
        if ph.copyOk fileSize page then loadPages pml4 fileSize ph count (page + 0x1000)
        else return false

/-- One `PT_LOAD` segment. -/
def loadSegment (pml4 fileSize : Addr) (ph : Phdr) : VmM Bool := do
  if ph.sizesOk fileSize then
    if ph.pMemsz = 0 then return true
    else if ph.rangeOk then
      loadPages pml4 fileSize ph ((ph.pageEnd - ph.pageStart) >>> 12).toNat ph.pageStart
    else return false
  else return false

/-- The loop over the program headers. -/
def loadSegments (pml4 fileSize : Addr) : List Phdr → VmM Bool
  | [] => return true
  | ph :: rest => do
      if ph.pType = 1 then
        if ← loadSegment pml4 fileSize ph then loadSegments pml4 fileSize rest
        else return false
      else loadSegments pml4 fileSize rest

/-- `load_elf_into_process`: whether it returns 0. -/
def loadElfIntoProcess (pml4 : Addr) (file : ElfFile) : VmM Bool := do
  if pml4 = 0 then return false
  else if file.headerOk then
    let phdrs := (List.range file.ePhnum).map file.phdr
    if ← loadSegments pml4 (BitVec.ofNat 64 file.size) phdrs then
      return phdrs.any fun ph => ph.pType = 1
    else return false
  else return false

/-! ## The machine -/

/-- The page tables and the process table. -/
structure Machine where
  vm : Vm
  table : ProcTable

abbrev MachineM := StateM Machine

/-- Run code that works on the page tables. -/
def onVm {α : Type} (program : VmM α) : MachineM α := do
  let machine ← get
  let (value, vm) := program.run machine.vm
  set { machine with vm }
  return value

/-- Run a function of `process.c`. -/
def onTable {α : Type} (step : ProcTable → α × ProcTable) : MachineM α := do
  let machine ← get
  let (value, table) := step machine.table
  set { machine with table }
  return value

/-- The page tables of a process. -/
def rootOf (process : Process) : Addr := BitVec.ofNat 64 process.pml4

/-- `create_process`. -/
def createProcess (layout : StackLayout) : MachineM Int := do
  let machine ← get
  match ProcTable.firstSlot fun i => (machine.table.processes i).state = .terminated with
  | none => return -1
  | some _ =>
      let pml4 ← onVm createUserPml4
      onTable (·.createProcess layout 0 pml4.toNat)

/-- `spawn_from_xv6fs`, once it has read an image that passes its checks. -/
def spawnFromXv6fs (layout : StackLayout) (file : Option ElfFile) : MachineM Int := do
  match file with
  | none => return -1
  | some file =>
      let pid ← createProcess layout
      if pid < 0 then return -1
      else
        let machine ← get
        match machine.table.getProcessByPid pid.toNat with
        | none => return -1
        | some child =>
            if ← onVm (loadElfIntoProcess (rootOf (machine.table.processes child)) file) then
              onTable fun table => ((), table.setProcessEntry child file.eEntry)
              return pid
            else
              onTable fun table => ((), table.terminate child)
              return -1

/-- `spawn_from_ramfs`, once it has found a file. -/
def spawnFromRamfs (layout : StackLayout) (file : Option ElfFile) : MachineM Int := do
  match file with
  | none => return -1
  | some file =>
      let pid ← createProcess layout
      if pid < 0 then return -1
      else
        let machine ← get
        match machine.table.getProcessByPid pid.toNat with
        | none => return -1
        | some child =>
            if ← onVm (loadElfIntoProcess (rootOf (machine.table.processes child)) file) then
              onTable fun table => ((), table.setProcessEntry child file.eEntry)
              return 0
            else return -1

/-- System call 59. -/
def sysExecve (layout : StackLayout) (onDisk inRamfs : Option ElfFile) : MachineM Int := do
  let res ← spawnFromXv6fs layout onDisk
  if res < 0 then spawnFromRamfs layout inRamfs else return res

/-! ## The heap -/

/-- The base of every heap. -/
abbrev HEAP_START : Addr := 0x700000000000

/-- `PAGE_ALIGN_UP`. -/
def pageAlignUp (addr : Addr) : Addr := (addr + 0xFFF) &&& PAGE_MASK

abbrev VMM_USER_FLAGS : Addr := 7

/-- The loop of `sys_brk` that grows the heap: false if memory runs out. -/
def brkGrow (pml4 : Addr) : Nat → Addr → VmM Bool
  | 0, _ => return true
  | count + 1, page => do
      let phys ← pmmAllocPage
      if phys = 0 then return false
      else
        vmmMapPage pml4 page phys VMM_USER_FLAGS
        brkGrow pml4 count (page + 0x1000)

/-- The loop of `sys_brk` that shrinks the heap. -/
def brkShrink (pml4 : Addr) : Nat → Addr → VmM Unit
  | 0, _ => return ()
  | count + 1, page => do
      vmmUnmapPage pml4 page
      brkShrink pml4 count (page + 0x1000)

/-- Change the heap bounds of the current process. -/
def setHeap (heapStart heapEnd : Addr) : MachineM Unit :=
  onTable fun table => ((), table.modify table.current fun process =>
    { process with heapStart := heapStart.toNat, heapEnd := heapEnd.toNat })

/-- The heap bounds of the current process, once they are set up. -/
def heapBounds (process : Process) : Addr × Addr :=
  if process.heapStart = 0 then (HEAP_START, HEAP_START)
  else (BitVec.ofNat 64 process.heapStart, BitVec.ofNat 64 process.heapEnd)

/-- `sys_brk`. -/
def sysBrk (newBrk : Addr) : MachineM Addr := do
  let machine ← get
  let process := machine.table.currentProcess
  let (heapStart, heapEnd) := heapBounds process
  setHeap heapStart heapEnd
  if newBrk = 0 ∨ newBrk = heapEnd then return heapEnd
  else if newBrk < heapStart then return heapEnd
  else
    let currentPageEnd := pageAlignUp heapEnd
    let newPageEnd := pageAlignUp newBrk
    if currentPageEnd < newPageEnd then
      if ← onVm (brkGrow (rootOf process) ((newPageEnd - currentPageEnd) >>> 12).toNat
          currentPageEnd) then
        setHeap heapStart newBrk
        return newBrk
      else return heapEnd
    else
      onVm (brkShrink (rootOf process) ((currentPageEnd - newPageEnd) >>> 12).toNat newPageEnd)
      setHeap heapStart newBrk
      return newBrk

/-! ## Events -/

/-- What the running process calls, or a timer interrupt. -/
inductive Event where
  | execve (onDisk inRamfs : Option ElfFile)
  | brk (newBrk : Addr)
  | exit (exitCode : Int)
  | wait4
  | timer (currentEsp : Nat)

/-- `schedule`, which loads the page tables of the process it activates. -/
def schedule (currentEsp : Nat) : MachineM Unit := do
  let before ← get
  let _ ← onTable (·.schedule currentEsp)
  let after ← get
  if after.table.current = before.table.current then return ()
  else onVm (vmmSwitchPml4 (rootOf after.table.currentProcess))

/-- The effect of an event. -/
def Event.run (layout : StackLayout) : Event → MachineM Unit
  | execve onDisk inRamfs => do
      let _ ← sysExecve layout onDisk inRamfs
  | brk newBrk => do
      let _ ← sysBrk newBrk
  | exit exitCode => onTable fun table => ((), table.exitCurrentProcess exitCode)
  | wait4 => do
      let _ ← onTable (·.wait4)
  | timer currentEsp => schedule currentEsp

/-- The machine after an event. -/
def Event.after (layout : StackLayout) (event : Event) (machine : Machine) : Machine :=
  ((event.run layout).run machine).2

/-! ## The boot -/

/-- What the AHCI driver does to the kernel's tables. -/
inductive DriverCall where
  | allocMappedPage
  | mapRegisters (bar5 : BitVec 32)

/-- `alloc_mapped_page(PAGE_PRESENT | PAGE_WRITE)`, and the mapping of the
registers. -/
def DriverCall.run : DriverCall → VmM Unit
  | allocMappedPage => do
      let phys ← pmmAllocPage
      if phys = 0 then return ()
      else
        let vm ← get
        vmmMapPage vm.kernelPml4 phys phys (PAGE_PRESENT ||| PAGE_WRITE)
  | mapRegisters bar5 => do
      let vm ← get
      vmmMapPage vm.kernelPml4 (bar5.setWidth 64) (bar5.setWidth 64) (PAGE_PRESENT ||| PAGE_WRITE)

/-- The page tables after the driver is initialised. -/
def driverVm (calls : List DriverCall) (vm : Vm) : Vm :=
  ((calls.forM DriverCall.run).run vm).2

/-- The rest of `kernel()`: the first process, whose image is the first module,
is created, loaded and switched to; false if the kernel panics instead. -/
def startInit (layout : StackLayout) (file : ElfFile) : MachineM Bool := do
  let pid ← createProcess layout
  if pid < 0 then return false
  else
    let machine ← get
    match machine.table.getProcessByPid pid.toNat with
    | none => return false
    | some child =>
        if ← onVm (loadElfIntoProcess (rootOf (machine.table.processes child)) file) then
          onTable fun table => ((), table.setProcessEntry child file.eEntry)
          onVm (vmmSwitchPml4 (rootOf (machine.table.processes child)))
          return true
        else return false

end Notux.Vmm
