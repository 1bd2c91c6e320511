import Notux.Vmm.Boot

/-!
# What a process sees of another one's mappings

`create_user_pml4` copies the entries of the kernel's directories as they are.
A huge page is thereby the process's own, and is split in its own directory; but
a page table that stands behind an entry already, and everything behind the
other entries of the root, is shared.  A call on one root is seen by another one
exactly where both walk through one table and the call changes the page.
-/

namespace Notux.Vmm

open Notux.Store

/-! ## Calls and roots -/

/-- A call that changes the mapping of an address. -/
inductive MapCall where
  | map (virt phys flags : Addr)
  | unmap (virt : Addr)

namespace MapCall

def virt : MapCall → Addr
  | map virt _ _ => virt
  | unmap virt => virt

/-- The entry the call writes. -/
def entry : MapCall → Addr
  | map _ phys flags => leafEntry phys flags
  | unmap _ => 0

def perform (root : Addr) : MapCall → VmM Unit
  | map virt phys flags => vmmMapPage root virt phys flags
  | unmap virt => vmmUnmapPage root virt

/-- The machine after the call. -/
def after (call : MapCall) (root : Addr) (vm : Vm) : Vm := ((call.perform root).run vm).2

end MapCall

/-- The machines and process roots that arise after the boot: the kernel maps
pages in its own tables, frames are taken, roots are created, and pages of the
processes are mapped and unmapped. -/
inductive Built (image : KernelImage) (regions : List (Nat × Nat)) (junk : Addr → Nat → Addr) :
    Vm → List Addr → Prop where
  | boot : Built image regions junk (bootVm image regions junk) []
  | alloc {vm : Vm} {roots : List Addr} (built : Built image regions junk vm roots) :
      Built image regions junk (pmmAllocPage.run vm).2 roots
  | kernel {vm : Vm} {roots : List Addr} (virt phys flags : Addr)
      (built : Built image regions junk vm roots) :
      Built image regions junk ((vmmMapPage vm.kernelPml4 virt phys flags).run vm).2 roots
  | create {vm : Vm} {roots : List Addr} (built : Built image regions junk vm roots) :
      Built image regions junk (createUserPml4.run vm).2
        (if (createUserPml4.run vm).1 = 0 then roots else (createUserPml4.run vm).1 :: roots)
  | call {vm : Vm} {roots : List Addr} (call : MapCall) (root : Addr) (member : root ∈ roots)
      (built : Built image regions junk vm roots) :
      Built image regions junk (call.after root vm) roots

/-- The tables of the kernel and of the processes are in place. -/
def Rooted (vm : Vm) (roots : List Addr) : Prop :=
  ∃ place, Placed vm.toMemory place ∧ (∀ root ∈ roots, place root = some []) ∧
    KernelDirectories vm.toMemory

/-- What a call does to the tables it is made on. -/
theorem MapCall.spec (call : MapCall) {vm : Vm} {place : Places} {root : Addr}
    (placed : Placed vm.toMemory place) (isRoot : place root = some []) :
    Maps vm place root call.virt call.entry (call.after root vm) ∨
      (call.after root vm = vm ∧ ∀ other, SamePage call.virt other →
        vmmVirtToPhys vm.toMemory root other = leafOf call.entry other) := by
  cases call with
  | map virt phys flags => exact Or.inl (vmmMapPage_spec placed isRoot virt phys flags)
  | unmap virt =>
      rcases vmmUnmapPage_spec placed isRoot virt with maps | ⟨same, absent⟩
      · exact Or.inl maps
      · refine Or.inr ⟨same, fun other page => ?_⟩
        rw [absent other page]
        have absent : (0 : Addr) &&& PAGE_PRESENT = 0 := by decide
        exact (if_pos absent).symm

/-- Tables stay in place under a call. -/
theorem Maps.rooted {vm after : Vm} {place : Places} {root virt entry : Addr} {roots : List Addr}
    (maps : Maps vm place root virt entry after) (placed : Placed vm.toMemory place)
    (isRoot : place root = some []) (areRoots : ∀ root ∈ roots, place root = some [])
    (directories : KernelDirectories vm.toMemory) : Rooted after roots := by
  cases maps with
  | lacking path _ place' reached _ =>
      have grown := reached.grows.memory
      exact ⟨place', grown.placed, fun root member => grown.keeps (areRoots root member),
        directories.grown placed grown⟩
  | written grownVm place' reached =>
      have grown := reached.grows.memory
      have tableAt := reached.isAt isRoot (by simp [tablePath])
      refine ⟨place', grown.placed.write root tableAt rfl virt entry,
        fun root member => grown.keeps (areRoots root member), ?_⟩
      intro idx small
      have leads := directories.grown placed grown idx small
      show follow (grownVm.write root (follow grownVm.tables root (tablePath virt)) virt entry).tables
        grownVm.kernelPml4 [0, idx] ≠ 0
      rwa [grown.placed.follow_write tableAt rfl grown.placed.kernel (by simp)]

/-- The tables of the kernel and of the processes are always in place. -/
theorem Built.rooted {image : KernelImage} {regions : List (Nat × Nat)} {junk : Addr → Nat → Addr}
    {vm : Vm} {roots : List Addr} (built : Built image regions junk vm roots) : Rooted vm roots := by
  induction built with
  | boot =>
      have started := bootVm_started image regions junk
      exact ⟨image.place, started.placed, fun _ none => absurd none (List.not_mem_nil), started.directories⟩
  | @alloc vm roots _ ih =>
      rcases ih with ⟨place, placed, areRoots, directories⟩
      rcases pmmAllocPage_spec vm with ⟨-, -, same⟩ | ⟨i, -, -, same⟩
      · rw [same]
        exact ⟨place, placed, areRoots, directories⟩
      · rw [same]
        exact ⟨place, (placed.grows_take i).memory.placed, areRoots, directories⟩
  | @kernel vm roots virt phys flags _ ih =>
      rcases ih with ⟨place, placed, areRoots, directories⟩
      exact (vmmMapPage_spec placed placed.kernel virt phys flags).rooted placed placed.kernel areRoots
        directories
  | @create vm roots _ ih =>
      rcases ih with ⟨place, placed, areRoots, directories⟩
      rcases createUserPml4_spec placed directories with ⟨zero, -, place', builds⟩ | ⟨place', made⟩
      · rw [if_pos zero]
        exact ⟨place', builds.placed, fun root member => builds.keeps (areRoots root member),
          directories.grown placed builds.finish.memory⟩
      · have grown := made.grows.memory
        rw [if_neg (grown.placed.ne_zero made.isRoot)]
        refine ⟨place', grown.placed, ?_, directories.grown placed grown⟩
        intro root member
        rcases List.mem_cons.mp member with rfl | old
        · exact made.isRoot
        · exact grown.keeps (areRoots root old)
  | @call vm roots call root member _ ih =>
      rcases ih with ⟨place, placed, areRoots, directories⟩
      rcases call.spec placed (areRoots root member) with maps | ⟨same, -⟩
      · exact maps.rooted placed (areRoots root member) areRoots directories
      · rw [same]
        exact ⟨place, placed, areRoots, directories⟩

/-! ## Isolation -/

/-- A call on one root leaves every translation of every other root alone, the
kernel's included. -/
def Isolated (vm : Vm) (roots : List Addr) (root : Addr) (call : MapCall) : Prop :=
  ∀ other ∈ vm.kernelPml4 :: roots, other ≠ root → ∀ addr,
    vmmVirtToPhys (call.after root vm).toMemory other addr = vmmVirtToPhys vm.toMemory other addr

/-- The walks of two roots for an address pass through one table. -/
def SharesTable (vm : Vm) (root other virt : Addr) : Prop :=
  ∃ count, 0 < count ∧ follow vm.tables root ((tablePath virt).take count) ≠ 0 ∧
    follow vm.tables root ((tablePath virt).take count) =
      follow vm.tables other ((tablePath virt).take count)

/-- The call does not change the page: memory does not suffice for the tables
that are missing, or the page translates that way already. -/
def Idle (vm : Vm) (root : Addr) (call : MapCall) : Prop :=
  freeFrames vm.bitmap < missing vm.tables root (tablePath call.virt) ∨
    ∀ addr, SamePage call.virt addr →
      vmmVirtToPhys vm.toMemory root addr = leafOf call.entry addr

/-- Two roots that share a table on the way end in the same page table. -/
theorem SharesTable.follow_eq {vm : Vm} {place : Places} {root other virt : Addr}
    (shares : SharesTable vm root other virt) {grown : Vm} {place' : Places}
    (grows : Grown vm.toMemory grown.toMemory place place') (isRoot : place root = some [])
    (isOther : place other = some []) :
    follow grown.tables other (tablePath virt) = follow grown.tables root (tablePath virt) := by
  rcases shares with ⟨count, -, leads, meet⟩
  have short : ((tablePath virt).take count).length ≤ 3 :=
    le_trans (List.length_take_le' _ _) (by simp [tablePath])
  have mine := grows.walks isRoot short leads
  have theirs := grows.walks isOther short (by rwa [← meet])
  rw [← List.take_append_drop count (tablePath virt), follow_append (by rw [theirs, ← meet]; exact leads),
    follow_append (by rwa [mine]), theirs, mine, meet]

/-- Roots that end in one page table translate its pages alike. -/
theorem translate_of_follow_eq {memory : Memory} {root other virt addr : Addr}
    (rootNonzero : root ≠ 0) (otherNonzero : other ≠ 0)
    (leads : follow memory.tables root (tablePath virt) ≠ 0)
    (meet : follow memory.tables other (tablePath virt) = follow memory.tables root (tablePath virt))
    (page : SamePage virt addr) :
    vmmVirtToPhys memory other addr = vmmVirtToPhys memory root addr := by
  rw [vmmVirtToPhys_of_table rootNonzero (by rwa [← page.1]),
    vmmVirtToPhys_of_table otherNonzero (by rwa [← page.1, meet]), ← page.1, meet]

/-- What another root sees of a write: nothing, or the new entry of the page in
a table that both share. -/
theorem translate_written {vm grown : Vm} {place place' : Places} {root other virt : Addr}
    (isRoot : place root = some [])
    (isOther : place other = some []) (differ : other ≠ root)
    (reached : Reached vm place root (tablePath virt) grown place') (entry addr : Addr) :
    (SharesTable vm root other virt ∧ SamePage virt addr ∧
        vmmVirtToPhys (grown.write root (follow grown.tables root (tablePath virt)) virt
          entry).toMemory other addr = leafOf entry addr) ∨
      (¬ (SharesTable vm root other virt ∧ SamePage virt addr) ∧
        vmmVirtToPhys (grown.write root (follow grown.tables root (tablePath virt)) virt
          entry).toMemory other addr = vmmVirtToPhys vm.toMemory other addr) := by
  have grows := reached.grows.memory
  have tableAt := reached.isAt isRoot (by simp [tablePath])
  rw [grows.placed.translate_write tableAt (grows.keeps isOther) addr]
  by_cases here : follow grown.tables other (tablePath addr) =
      follow grown.tables root (tablePath virt) ∧ ptIdx addr = ptIdx virt
  · have leads : follow grown.tables other (tablePath addr) ≠ 0 := by
      rw [here.1]
      exact reached.leads
    have addrAt := grows.placed.follow_place (grows.keeps isOther) (by simp [tablePath]) leads
    rw [here.1, tableAt, List.nil_append] at addrAt
    have page : SamePage virt addr := ⟨Option.some.inj addrAt, here.2.symm⟩
    have meet := here.1
    rw [← page.1] at meet
    have shares : SharesTable vm root other virt :=
      grows.apart isRoot isOther differ.symm (by simp [tablePath]) reached.leads meet.symm
    rw [if_pos here]
    exact Or.inl ⟨shares, page, rfl⟩
  · rw [if_neg here]
    refine Or.inr ⟨fun both => here ?_, grows.same isOther addr⟩
    refine ⟨?_, both.2.2.symm⟩
    rw [← both.2.1]
    exact both.1.follow_eq grows isRoot isOther

/-- A call is seen by no other root, exactly if no other root shares a table
with it at the address or the call does not change the page.  Here the kernel's
root is loaded and maps every page table onto itself. -/
theorem mapping_isolated_iff {image : KernelImage} {regions : List (Nat × Nat)}
    {junk : Addr → Nat → Addr} {vm : Vm} {roots : List Addr}
    (built : Built image regions junk vm roots) {root : Addr} (member : root ∈ roots)
    (call : MapCall) :
    Isolated vm roots root call ↔
      ((∃ other ∈ vm.kernelPml4 :: roots, other ≠ root ∧ SharesTable vm root other call.virt) →
        Idle vm root call) := by
  rcases built.rooted with ⟨place, placed, areRoots, -⟩
  have isRoot := areRoots root member
  have isOther : ∀ other ∈ vm.kernelPml4 :: roots, place other = some [] := by
    intro other inside
    rcases List.mem_cons.mp inside with rfl | process
    · exact placed.kernel
    · exact areRoots other process
  rcases call.spec placed isRoot with maps | ⟨same, already⟩
  · unfold Isolated Idle
    generalize call.after root vm = after at maps
    cases maps with
    | lacking path _ place' reached full =>
        constructor
        · exact fun _ _ => Or.inl full
        · exact fun _ other inside _ addr => reached.grows.memory.same (isOther other inside) addr
    | written grown place' reached =>
        have enough := reached.free
        have grows := reached.grows.memory
        have nonzero := placed.ne_zero isRoot
        constructor
        · rintro isolated ⟨other, inside, differ, shares⟩
          right
          intro addr page
          have kept := isolated other inside differ addr
          have meet := shares.follow_eq grows isRoot (isOther other inside)
          have alike := translate_of_follow_eq nonzero (placed.ne_zero (isOther other inside))
            reached.leads meet page
          rcases translate_written isRoot (isOther other inside) differ
            reached call.entry addr with ⟨-, -, shown⟩ | ⟨unseen, -⟩
          · rw [← grows.same isRoot addr, ← alike, grows.same (isOther other inside) addr, ← kept,
              shown]
          · exact absurd ⟨shares, page⟩ unseen
        · intro idle other inside differ addr
          rcases translate_written isRoot (isOther other inside) differ
            reached call.entry addr with ⟨shares, page, shown⟩ | ⟨-, unseen⟩
          · rcases idle ⟨other, inside, differ, shares⟩ with lacking | already
            · omega
            · have meet := shares.follow_eq grows isRoot (isOther other inside)
              have alike := translate_of_follow_eq nonzero
                (placed.ne_zero (isOther other inside)) reached.leads meet page
              rw [shown, ← already addr page, ← grows.same isRoot addr, ← alike,
                grows.same (isOther other inside) addr]
          · exact unseen
  · rw [Isolated, same]
    exact ⟨fun _ _ => Or.inr already, fun _ _ _ _ _ => rfl⟩

/-! ## A page that is not isolated -/

/-- A kernel image of 300 frames. -/
def smallImage : KernelImage where
  pml4Table := 256
  pdpTable := 257
  pdTables := 258
  reservedPages := 300
  pml4_pos := by decide
  pdp_pos := by decide
  pd_pos := by decide
  pml4_lt := by decide
  pdp_lt := by decide
  pd_lt := by decide
  reserved_le := by decide
  pml4_ne := by decide
  pml4_apart := by decide
  pdp_apart := by decide

/-- The machine after the boot, with one frame taken. -/
def takenVm : Vm := (pmmAllocPage.run (bootVm smallImage [] fun _ _ => 0)).2

/-- The kernel maps the frame it has taken, as `alloc_mapped_page` does. -/
def splitVm : Vm :=
  ((vmmMapPage takenVm.kernelPml4 (frameAddr 300) (frameAddr 300)
    (PAGE_PRESENT ||| PAGE_WRITE)).run takenVm).2

/-- A process root created after that. -/
def sharingRoot : Addr := (createUserPml4.run splitVm).1

def sharingVm : Vm := (createUserPml4.run splitVm).2

theorem sharingVm_built : Built smallImage [] (fun _ _ => 0) sharingVm [sharingRoot] := by
  have booted : Built smallImage [] (fun _ _ => 0) (bootVm smallImage [] fun _ _ => 0) [] := .boot
  have taken : Built smallImage [] (fun _ _ => 0) takenVm [] := booted.alloc
  have driver : Built smallImage [] (fun _ _ => 0) splitVm [] := taken.kernel _ _ _
  have created := driver.create
  rwa [if_neg (show (createUserPml4.run splitVm).1 ≠ 0 by decide +kernel)] at created

/-- A page in the two megabytes of the driver's frame. -/
def sharedPage : MapCall := .map 0x1000 0x200000 (PAGE_WRITE ||| PAGE_USER)

theorem mapping_isolated_iff_of_sharedPage :
    Isolated sharingVm [sharingRoot] sharingRoot sharedPage ↔
      ((∃ other ∈ [sharingVm.kernelPml4, sharingRoot], other ≠ sharingRoot ∧
        SharesTable sharingVm sharingRoot other 0x1000) → Idle sharingVm sharingRoot sharedPage) :=
  mapping_isolated_iff sharingVm_built List.mem_cons_self sharedPage

/-- The kernel sees the process's page. -/
theorem mapping_not_isolated :
    ¬ ∀ (image : KernelImage) (regions : List (Nat × Nat)) (junk : Addr → Nat → Addr) (vm : Vm)
      (roots : List Addr), Built image regions junk vm roots →
        ∀ root ∈ roots, ∀ call, Isolated vm roots root call := by
  intro isolated
  have kept := isolated smallImage [] (fun _ _ => 0) sharingVm [sharingRoot] sharingVm_built
    sharingRoot List.mem_cons_self sharedPage sharingVm.kernelPml4 List.mem_cons_self
    (by decide +kernel) 0x1000
  revert kept
  decide +kernel

end Notux.Vmm
