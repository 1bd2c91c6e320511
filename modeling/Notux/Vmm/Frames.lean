import Notux.Store.State
import Mathlib.Data.BitVec
import Mathlib.Logic.Function.Basic

/-!
# Page frames and page tables

The bitmap of `pmm.c`, the four levels of page tables of `vmm.c`, and the tables
that `paging_init` builds.  A table is reached through its physical address here.
The kernel follows pointers through the loaded page tables, so this is what it does
as long as they map each table it goes through onto itself.  `Paged` has the pointers,
and whatever runs on the page tables of a process is stated with them.

The state also keeps what the statements look back at: the memory before each
frame that was handed out, and the entries written by `vmm_map_page` and
`vmm_unmap_page`.
-/

namespace Notux.Vmm

open Notux.Store

/-- A 64-bit address, or a page-table entry. -/
abbrev Addr := BitVec 64

abbrev PAGE_SIZE : Nat := 4096
abbrev MAX_PAGES : Nat := 128 * 1024 * 1024 / PAGE_SIZE

abbrev PAGE_PRESENT : Addr := 1
abbrev PAGE_WRITE : Addr := 2
abbrev PAGE_USER : Addr := 4
abbrev PAGE_HUGE : Addr := 128

/-- `~0xFFFULL`. -/
abbrev PAGE_MASK : Addr := ~~~0xFFF

/-- `~0x1FFFFFULL`. -/
abbrev HUGE_MASK : Addr := ~~~0x1FFFFF

/-- `PML4_IDX`. -/
def pml4Idx (addr : Addr) : Nat := ((addr >>> 39) &&& 0x1FF).toNat

/-- `PDP_IDX`. -/
def pdpIdx (addr : Addr) : Nat := ((addr >>> 30) &&& 0x1FF).toNat

/-- `PD_IDX`. -/
def pdIdx (addr : Addr) : Nat := ((addr >>> 21) &&& 0x1FF).toNat

/-- `PT_IDX`. -/
def ptIdx (addr : Addr) : Nat := ((addr >>> 12) &&& 0x1FF).toNat

/-- An entry that a call on the tables of `pml4` has written. -/
structure Written where
  pml4 : Addr
  table : Addr
  idx : Nat
deriving DecidableEq

/-- The bitmap, the page tables by their address, and the registers and globals
that point to them. -/
structure Memory where
  bitmap : Nat → Bool
  tables : Addr → Nat → Addr
  kernelPml4 : Addr
  cr3 : Addr
  written : List Written

/-- The memory, and the memory before each frame that was handed out. -/
structure Vm extends Memory where
  handouts : List Memory

abbrev VmM := StateM Vm

/-! ## The frame allocator -/

/-- The address of a frame. -/
def frameAddr (i : Nat) : Addr := BitVec.ofNat 64 (i * PAGE_SIZE)

/-- `pmm_init`. -/
def pmmInit (reservedPages : Nat) : Nat → Bool := fun i => i < min reservedPages MAX_PAGES

/-- `pmm_reserve_region`. -/
def pmmReserveRegion (physStart physEnd : Nat) (bitmap : Nat → Bool) : Nat → Bool := fun i =>
  if physStart < physEnd ∧ physStart / PAGE_SIZE ≤ i ∧
      i < min ((physEnd + PAGE_SIZE - 1) / PAGE_SIZE) MAX_PAGES then true
  else bitmap i

/-- The first clear bit among the `count` bits from `i` on. -/
def clearBitFrom (bitmap : Nat → Bool) : Nat → Nat → Option Nat
  | 0, _ => none
  | count + 1, i => if bitmap i then clearBitFrom bitmap count (i + 1) else some i

/-- The frame `pmm_alloc_page` hands out next. -/
def nextFrame (bitmap : Nat → Bool) : Option Nat := clearBitFrom bitmap MAX_PAGES 0

/-- `pmm_alloc_page`. -/
def pmmAllocPage : VmM Addr := do
  let vm ← get
  match nextFrame vm.bitmap with
  | none => return 0
  | some i =>
      set { vm with
        bitmap := assign vm.bitmap i true
        handouts := vm.toMemory :: vm.handouts }
      return frameAddr i

/-! ## Page tables -/

/-- Write one entry of a table that is mapped onto itself. -/
def setEntry (table : Addr) (idx : Nat) (entry : Addr) : VmM Unit :=
  modify fun vm =>
    { vm with
      tables := assign vm.tables table (assign (vm.tables table) idx entry) }

/-- Fill a table that is mapped onto itself. -/
def fillTable (table : Addr) (entries : Nat → Addr) : VmM Unit :=
  modify fun vm => { vm with tables := assign vm.tables table entries }

/-- `zero_table`. -/
def zeroTable (table : Addr) : VmM Unit := fillTable table fun _ => 0

/-- `get_next_level` of an entry, allocating nothing. -/
def nextLevel (entry : Addr) : Addr :=
  if entry &&& PAGE_PRESENT ≠ 0 then
    if entry &&& PAGE_HUGE ≠ 0 then 0 else entry &&& PAGE_MASK
  else 0

/-- The entry that points to a table. -/
def tableEntry (table : Addr) : Addr := table ||| PAGE_PRESENT ||| PAGE_WRITE ||| PAGE_USER

/-- Put a new empty table behind an entry: its address, null if there is no
memory. -/
def newLevel (table : Addr) (idx : Nat) : VmM Addr := do
  let newTable ← pmmAllocPage
  if newTable = 0 then return 0
  else
    zeroTable newTable
    setEntry table idx (tableEntry newTable)
    return newTable

/-- `get_next_level` with `allocate`, in a table that is mapped onto itself. -/
def getNextLevel (table : Addr) (idx : Nat) : VmM Addr := do
  let vm ← get
  if vm.tables table idx &&& PAGE_PRESENT ≠ 0 then return nextLevel (vm.tables table idx)
  else newLevel table idx

/-- The 512 small pages of a huge page. -/
def smallPages (pde : Addr) (i : Nat) : Addr :=
  ((pde &&& HUGE_MASK) + BitVec.ofNat 64 (i * PAGE_SIZE)) |||
    (pde &&& (PAGE_PRESENT ||| PAGE_WRITE ||| PAGE_USER))

/-- `split_huge_pde`. -/
def splitHugePde (table : Addr) (idx : Nat) : VmM Addr := do
  let vm ← get
  let pde := vm.tables table idx
  if pde &&& PAGE_PRESENT = 0 then return 0
  else if pde &&& PAGE_HUGE = 0 then return pde &&& PAGE_MASK
  else
    let pt ← pmmAllocPage
    if pt = 0 then return 0
    else
      fillTable pt (smallPages pde)
      setEntry table idx (tableEntry pt)
      return pt

/-- Write a page-table entry in the tables of `pml4`. -/
def writePte (pml4 pt virt entry : Addr) : VmM Unit := do
  setEntry pt (ptIdx virt) entry
  modify fun vm => { vm with written := ⟨pml4, pt, ptIdx virt⟩ :: vm.written }

/-- The entry that maps a page. -/
def leafEntry (phys flags : Addr) : Addr := (phys &&& PAGE_MASK) ||| flags ||| PAGE_PRESENT

/-- The page table `vmm_map_page` writes to, found or made. -/
def mapTable (pd : Addr) (idx : Nat) : VmM Addr := do
  let vm ← get
  let pde := vm.tables pd idx
  if pde &&& PAGE_PRESENT ≠ 0 then
    if pde &&& PAGE_HUGE ≠ 0 then splitHugePde pd idx
    else return pde &&& PAGE_MASK
  else newLevel pd idx

/-- `vmm_map_page`. -/
def vmmMapPage (pml4 virt phys flags : Addr) : VmM Unit := do
  if pml4 = 0 then return ()
  else
    let pdp ← getNextLevel pml4 (pml4Idx virt)
    if pdp = 0 then return ()
    else
      let pd ← getNextLevel pdp (pdpIdx virt)
      if pd = 0 then return ()
      else
        let pt ← mapTable pd (pdIdx virt)
        if pt = 0 then return ()
        else writePte pml4 pt virt (leafEntry phys flags)

/-- The page table `vmm_unmap_page` writes to. -/
def unmapTable (pd : Addr) (idx : Nat) : VmM Addr := do
  let vm ← get
  let pde := vm.tables pd idx
  if pde &&& PAGE_HUGE ≠ 0 then splitHugePde pd idx
  else if pde &&& PAGE_PRESENT = 0 then return 0
  else return pde &&& PAGE_MASK

/-- `vmm_unmap_page`. -/
def vmmUnmapPage (pml4 virt : Addr) : VmM Unit := do
  if pml4 = 0 then return ()
  else
    let vm ← get
    let pdp := nextLevel (vm.tables pml4 (pml4Idx virt))
    if pdp = 0 then return ()
    else
      let pd := nextLevel (vm.tables pdp (pdpIdx virt))
      if pd = 0 then return ()
      else
        let pt ← unmapTable pd (pdIdx virt)
        if pt = 0 then return ()
        else writePte pml4 pt virt 0

/-- `vmm_virt_to_phys`, where every table on the way is mapped onto itself. -/
def vmmVirtToPhys (memory : Memory) (pml4 virt : Addr) : Addr :=
  if pml4 = 0 then 0
  else
    let pdp := nextLevel (memory.tables pml4 (pml4Idx virt))
    if pdp = 0 then 0
    else
      let pd := nextLevel (memory.tables pdp (pdpIdx virt))
      if pd = 0 then 0
      else
        let pde := memory.tables pd (pdIdx virt)
        if pde &&& PAGE_PRESENT = 0 then 0
        else if pde &&& PAGE_HUGE ≠ 0 then (pde &&& HUGE_MASK) ||| (virt &&& 0x1FFFFF)
        else
          let pt := pde &&& PAGE_MASK
          if pt = 0 then 0
          else
            let pte := memory.tables pt (ptIdx virt)
            if pte &&& PAGE_PRESENT = 0 then 0
            else (pte &&& PAGE_MASK) ||| (virt &&& 0xFFF)

/-- Give a new root private copies of one page directory of the kernel; false
if there is no memory. -/
def copyDirectory (userPdp kernelPdp : Addr) (idx : Nat) : VmM Bool := do
  let vm ← get
  let entry := vm.tables kernelPdp idx
  if entry &&& PAGE_PRESENT = 0 then return true
  else if entry &&& PAGE_MASK = 0 then return true
  else
    let userPd ← pmmAllocPage
    if userPd = 0 then return false
    else
      zeroTable userPd
      setEntry userPdp idx (tableEntry userPd)
      let vm ← get
      fillTable userPd (vm.tables (entry &&& PAGE_MASK))
      return true

/-- The loop over the four page directories. -/
def copyDirectories (userPdp kernelPdp : Addr) : List Nat → VmM Bool
  | [] => return true
  | idx :: rest => do
      if ← copyDirectory userPdp kernelPdp idx then copyDirectories userPdp kernelPdp rest
      else return false

/-- `create_user_pml4`. -/
def createUserPml4 : VmM Addr := do
  let userPml4 ← pmmAllocPage
  if userPml4 = 0 then return 0
  else
    zeroTable userPml4
    let vm ← get
    if vm.kernelPml4 = 0 then return 0
    else
      let first := vm.tables vm.kernelPml4 0
      if first &&& PAGE_PRESENT = 0 then return userPml4
      else if first &&& PAGE_MASK = 0 then return userPml4
      else
        let userPdp ← pmmAllocPage
        if userPdp = 0 then return 0
        else
          zeroTable userPdp
          setEntry userPml4 0 (tableEntry userPdp)
          if ← copyDirectories userPdp (first &&& PAGE_MASK) (List.range 4) then
            let vm ← get
            let mine := vm.tables userPml4 0
            let others := vm.tables vm.kernelPml4
            fillTable userPml4 fun i => if i = 0 then mine else others i
            return userPml4
          else return 0

/-- `vmm_switch_pml4`. -/
def vmmSwitchPml4 (pml4 : Addr) : VmM Unit :=
  if pml4 = 0 then pure () else modify fun vm => { vm with cr3 := pml4 }

end Notux.Vmm
