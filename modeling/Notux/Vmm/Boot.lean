import Notux.Vmm.Roots

/-!
# The kernel's own tables

`paging_init` maps the first four gigabytes onto themselves with huge pages.
The linker places the tables in the image of the kernel, which `kernel()` keeps
from the allocator.
-/

namespace Notux.Vmm

open Notux.Store

/-- Where the linker put `pml4_table`, `pdp_table` and `pd_tables`, as frame
numbers, and the number of frames of the kernel image. -/
structure KernelImage where
  pml4Table : Nat
  pdpTable : Nat
  pdTables : Nat
  reservedPages : Nat
  pml4_pos : 0 < pml4Table
  pdp_pos : 0 < pdpTable
  pd_pos : 0 < pdTables
  pml4_lt : pml4Table < reservedPages
  pdp_lt : pdpTable < reservedPages
  pd_lt : pdTables + 3 < reservedPages
  reserved_le : reservedPages ≤ MAX_PAGES
  pml4_ne : pml4Table ≠ pdpTable
  pml4_apart : pml4Table < pdTables ∨ pdTables + 3 < pml4Table
  pdp_apart : pdpTable < pdTables ∨ pdTables + 3 < pdpTable

namespace KernelImage

variable (image : KernelImage)

def pml4 : Addr := frameAddr image.pml4Table

def pdp : Addr := frameAddr image.pdpTable

def pd (i : Nat) : Addr := frameAddr (image.pdTables + i)

end KernelImage

/-- The huge page that maps an address onto itself. -/
def identityPde (i j : Nat) : Addr :=
  BitVec.ofNat 64 (i * 0x40000000 + j * 0x200000) ||| PAGE_PRESENT ||| PAGE_WRITE ||| PAGE_USER |||
    PAGE_HUGE

/-- The first `count` rounds of the loop of `paging_init`. -/
def identityDirectories (image : KernelImage) : Nat → VmM Unit
  | 0 => return ()
  | count + 1 => do
      identityDirectories image count
      setEntry image.pdp count (tableEntry (image.pd count))
      fillTable (image.pd count) (identityPde count)

/-- `paging_init`. -/
def pagingInit (image : KernelImage) : VmM Unit := do
  zeroTable image.pml4
  zeroTable image.pdp
  setEntry image.pml4 0 (tableEntry image.pdp)
  identityDirectories image 4
  modify fun vm => { vm with cr3 := image.pml4 }

/-- `vmm_init`. -/
def vmmInit : VmM Unit := modify fun vm => { vm with kernelPml4 := vm.cr3 &&& PAGE_MASK }

/-- The memory that `kernel()` hands to `paging_init`: the frames of the image
and of the Multiboot structures and modules are reserved. -/
def initialVm (image : KernelImage) (regions : List (Nat × Nat)) (junk : Addr → Nat → Addr) : Vm where
  bitmap := regions.foldl (fun bitmap (start, stop) => pmmReserveRegion start stop bitmap)
    (pmmInit image.reservedPages)
  tables := junk
  kernelPml4 := 0
  cr3 := 0
  written := []
  handouts := []

/-- The machine after `vmm_init`. -/
def bootVm (image : KernelImage) (regions : List (Nat × Nat)) (junk : Addr → Nat → Addr) : Vm :=
  ((do pagingInit image; vmmInit).run (initialVm image regions junk)).2

/-- The places of the kernel's tables. -/
def KernelImage.place (image : KernelImage) : Places := fun addr =>
  if addr = image.pml4 then some []
  else if addr = image.pdp then some [0]
  else ((List.range 4).find? fun i => addr = image.pd i).map fun i => [0, i]

namespace KernelImage

variable (image : KernelImage)

theorem pml4_ne_pdp : image.pml4 ≠ image.pdp := by
  intro same
  have := image.pml4_lt
  have := image.pdp_lt
  have := image.reserved_le
  exact image.pml4_ne (frameAddr_inj (by omega) (by omega) same)

theorem pd_ne_pml4 {i : Nat} (small : i < 4) : image.pd i ≠ image.pml4 := by
  intro same
  have := image.pml4_lt
  have := image.pd_lt
  have := image.reserved_le
  have equal := frameAddr_inj (by omega) (by omega) same
  rcases image.pml4_apart with below | above <;> omega

theorem pd_ne_pdp {i : Nat} (small : i < 4) : image.pd i ≠ image.pdp := by
  intro same
  have := image.pdp_lt
  have := image.pd_lt
  have := image.reserved_le
  have equal := frameAddr_inj (by omega) (by omega) same
  rcases image.pdp_apart with below | above <;> omega

theorem pd_inj {i j : Nat} (first : i < 4) (second : j < 4) (same : image.pd i = image.pd j) :
    i = j := by
  have := image.pd_lt
  have := image.reserved_le
  have equal := frameAddr_inj (by omega) (by omega) same
  omega

end KernelImage

/-- The kernel's tables after some rounds of `paging_init`. -/
structure IdentityMap (image : KernelImage) (count : Nat) (vm : Vm) : Prop where
  pml4 : vm.tables image.pml4 = assign (fun _ => 0) 0 (tableEntry image.pdp)
  pdp : vm.tables image.pdp = fun i => if i < count then tableEntry (image.pd i) else 0
  pd : ∀ i < count, vm.tables (image.pd i) = identityPde i

/-- One round more. -/
theorem IdentityMap.next {image : KernelImage} {count : Nat} {vm : Vm}
    (maps : IdentityMap image count vm) (small : count < 4) :
    IdentityMap image (count + 1)
      ((vm.fill image.pdp
        (assign (vm.tables image.pdp) count (tableEntry (image.pd count)))).fill
          (image.pd count) (identityPde count)) := by
  have neTop := image.pml4_ne_pdp
  have nePml4 := image.pd_ne_pml4 small
  have nePdp := image.pd_ne_pdp small
  constructor
  · rw [Vm.fill_of_ne _ nePml4.symm, Vm.fill_of_ne _ neTop, maps.pml4]
  · rw [Vm.fill_of_ne _ nePdp.symm, Vm.fill_self, maps.pdp]
    funext i
    by_cases same : i = count
    · simp [same]
    · have order : i < count + 1 ↔ i < count := by omega
      simp only [assign_of_ne same, order]
  · intro i bound
    by_cases same : i = count
    · rw [same, Vm.fill_self]
    · have differ : image.pd i ≠ image.pd count := by
        intro equal
        exact same (image.pd_inj (by omega) small equal)
      rw [Vm.fill_of_ne _ differ, Vm.fill_of_ne _ (image.pd_ne_pdp (by omega))]
      exact maps.pd i (by omega)

/-- The registers, the bitmap and the records are as they were. -/
def OnlyTables (before after : Vm) : Prop := after = { before with tables := after.tables }

theorem identityDirectories_spec {image : KernelImage} {count : Nat} {vm : Vm} (small : count ≤ 4)
    (maps : IdentityMap image 0 vm) :
    Leads (identityDirectories image count)
      (fun _ after => IdentityMap image count after ∧ OnlyTables vm after) vm := by
  induction count with
  | zero => exact ⟨maps, rfl⟩
  | succ count ih =>
      unfold identityDirectories
      rw [leads_bind]
      apply (ih (by omega)).mono
      intro _ after ⟨maps, same⟩
      rw [leads_bind, leads_setEntry, leads_fillTable]
      refine ⟨maps.next (by omega), ?_⟩
      unfold OnlyTables at same ⊢
      rw [same]
      rfl

/-- What the kernel starts from. -/
structure Started (image : KernelImage) (vm : Vm) : Prop where
  maps : IdentityMap image 4 vm
  kernelPml4 : vm.kernelPml4 = image.pml4
  cr3 : vm.cr3 = image.pml4
  written : vm.written = []
  handouts : vm.handouts = []
  reserved : ∀ i < image.reservedPages, vm.bitmap i = true

theorem pmmReserveRegion_keeps {bitmap : Nat → Bool} {i : Nat} (taken : bitmap i = true)
    (start stop : Nat) : pmmReserveRegion start stop bitmap i = true := by
  unfold pmmReserveRegion
  split
  · rfl
  · exact taken

theorem bootVm_started (image : KernelImage) (regions : List (Nat × Nat))
    (junk : Addr → Nat → Addr) : Started image (bootVm image regions junk) := by
  have reserved : ∀ i < image.reservedPages, (initialVm image regions junk).bitmap i = true := by
    intro i bound
    have first : pmmInit image.reservedPages i = true := by
      have := image.reserved_le
      simp [pmmInit, bound]
      omega
    show regions.foldl (fun bitmap (start, stop) => pmmReserveRegion start stop bitmap)
      (pmmInit image.reservedPages) i = true
    generalize pmmInit image.reservedPages = bitmap at first ⊢
    induction regions generalizing bitmap with
    | nil => exact first
    | cons region rest ih => exact ih _ (pmmReserveRegion_keeps first region.1 region.2)
  have ne := image.pml4_ne_pdp
  have leads : Leads (do pagingInit image; vmmInit) (fun _ after => Started image after)
      (initialVm image regions junk) := by
    unfold pagingInit vmmInit
    simp only [leads_bind, leads_zeroTable, leads_setEntry, leads_modify]
    generalize isStart : Vm.fill (((initialVm image regions junk).fill image.pml4 fun _ => 0).fill
      image.pdp fun _ => 0) image.pml4 _ = start
    have maps : IdentityMap image 0 start := by
      rw [← isStart]
      constructor
      · rw [Vm.fill_self, Vm.fill_of_ne _ ne, Vm.fill_self]
      · rw [Vm.fill_of_ne _ ne.symm, Vm.fill_self]
        rfl
      · intro i none
        omega
    apply (identityDirectories_spec (by decide) maps).mono
    intro _ after ⟨maps, same⟩
    have written : after.written = [] := by
      rw [same, ← isStart]
      rfl
    have handouts : after.handouts = [] := by
      rw [same, ← isStart]
      rfl
    have bitmap : after.bitmap = (initialVm image regions junk).bitmap := by
      rw [same, ← isStart]
      rfl
    constructor
    · exact ⟨maps.pml4, maps.pdp, maps.pd⟩
    · exact aligned_frameAddr image.pml4Table
    · rfl
    · exact written
    · exact handouts
    · intro i bound
      show after.bitmap i = true
      rw [bitmap]
      exact reserved i bound
  exact leads

/-! ## The places of the kernel's tables -/

theorem identityPde_huge (i j : Nat) : identityPde i j &&& PAGE_HUGE ≠ 0 := by
  intro small
  have bit := congrArg (fun entry => entry.getLsbD 7) small
  simp [identityPde] at bit

theorem identityPde_present (i j : Nat) : identityPde i j &&& PAGE_PRESENT ≠ 0 := by
  intro absent
  have bit := congrArg (fun entry => entry.getLsbD 0) absent
  simp [identityPde] at bit

namespace KernelImage

variable (image : KernelImage)

theorem aligned_pdp : Aligned image.pdp := aligned_frameAddr _

theorem aligned_pd (i : Nat) : Aligned (image.pd i) := aligned_frameAddr _

theorem place_pml4 : image.place image.pml4 = some [] := if_pos rfl

theorem place_pdp : image.place image.pdp = some [0] := by
  rw [place, if_neg image.pml4_ne_pdp.symm, if_pos rfl]

theorem place_pd {i : Nat} (small : i < 4) : image.place (image.pd i) = some [0, i] := by
  rw [place, if_neg (image.pd_ne_pml4 small), if_neg (image.pd_ne_pdp small)]
  cases found : (List.range 4).find? fun j => image.pd i = image.pd j with
  | none =>
      have missed := List.find?_eq_none.mp found i (List.mem_range.mpr small)
      simp at missed
  | some j =>
      have same := List.find?_some found
      have member := List.mem_range.mp (List.mem_of_find?_eq_some found)
      rw [image.pd_inj small member (by simpa using same)]
      rfl

/-- The tables with a place are the root, its pointer table and four
directories. -/
theorem place_cases {table : Addr} {path : List Nat} (isAt : image.place table = some path) :
    (table = image.pml4 ∧ path = []) ∨ (table = image.pdp ∧ path = [0]) ∨
      ∃ i < 4, table = image.pd i ∧ path = [0, i] := by
  by_cases first : table = image.pml4
  · rw [first, place_pml4] at isAt
    exact Or.inl ⟨first, (Option.some.inj isAt).symm⟩
  · by_cases second : table = image.pdp
    · rw [second, place_pdp] at isAt
      exact Or.inr (Or.inl ⟨second, (Option.some.inj isAt).symm⟩)
    · rw [place, if_neg first, if_neg second] at isAt
      rcases Option.map_eq_some_iff.mp isAt with ⟨i, found, spelled⟩
      have same := List.find?_some found
      exact Or.inr (Or.inr ⟨i, List.mem_range.mp (List.mem_of_find?_eq_some found),
        by simpa using same, spelled.symm⟩)

end KernelImage

namespace Started

variable {image : KernelImage} {vm : Vm} (started : Started image vm)

include started

theorem placed : Placed vm.toMemory image.place := by
  have positive := image.pml4_pos
  have := image.pml4_lt
  have := image.pdp_pos
  have := image.pdp_lt
  have := image.pd_pos
  have := image.pd_lt
  have := image.reserved_le
  constructor
  · intro table path isAt
    rcases image.place_cases isAt with ⟨rfl, -⟩ | ⟨rfl, -⟩ | ⟨i, small, rfl, -⟩
    · exact ⟨image.pml4Table, by omega, by omega, started.reserved _ (by omega), rfl⟩
    · exact ⟨image.pdpTable, by omega, by omega, started.reserved _ (by omega), rfl⟩
    · exact ⟨image.pdTables + i, by omega, by omega, started.reserved _ (by omega), rfl⟩
  · intro table path isAt _ i present small
    rcases image.place_cases isAt with ⟨rfl, rfl⟩ | ⟨rfl, rfl⟩ | ⟨j, bound, rfl, rfl⟩
    · rw [started.maps.pml4] at present ⊢
      by_cases zero : i = 0
      · rw [zero, assign_self, tableEntry_mask image.aligned_pdp]
        exact image.place_pdp
      · rw [assign_of_ne zero] at present
        exact absurd (by decide) present
    · rw [started.maps.pdp] at present ⊢
      dsimp only at present ⊢
      by_cases inside : i < 4
      · rw [if_pos inside, tableEntry_mask (image.aligned_pd i)]
        exact image.place_pd inside
      · rw [if_neg inside] at present
        exact absurd (by decide) present
    · rw [started.maps.pd j bound] at small
      exact absurd small (identityPde_huge j i)
  · intro table path isAt upper i present
    rcases image.place_cases isAt with ⟨rfl, rfl⟩ | ⟨rfl, rfl⟩ | ⟨j, bound, rfl, rfl⟩
    · rw [started.maps.pml4] at present ⊢
      by_cases zero : i = 0
      · rw [zero, assign_self]
        exact tableEntry_not_huge (aligned_frameAddr _)
      · rw [assign_of_ne zero] at present
        exact absurd (by decide) present
    · rw [started.maps.pdp] at present ⊢
      dsimp only at present ⊢
      by_cases inside : i < 4
      · rw [if_pos inside]
        exact tableEntry_not_huge (aligned_frameAddr _)
      · rw [if_neg inside] at present
        exact absurd (by decide) present
    · exact absurd upper (by simp)
  · rw [started.kernelPml4]
    exact image.place_pml4
  · exact started.reserved 0 (by omega)

theorem follow_pd {i : Nat} (small : i < 4) :
    follow vm.tables image.pml4 [0, i] = image.pd i := by
  have placed := started.placed
  have first : nextLevel (vm.tables image.pml4 0) = image.pdp := by
    rw [started.maps.pml4, assign_self]
    exact nextLevel_tableEntry (aligned_frameAddr _)
  rw [follow, first, if_neg (placed.ne_zero image.place_pdp), follow_singleton, started.maps.pdp]
  simp only [if_pos small]
  exact nextLevel_tableEntry (aligned_frameAddr _)

theorem directories : KernelDirectories vm.toMemory := by
  intro i small
  rw [started.kernelPml4, started.follow_pd small]
  exact started.placed.ne_zero (image.place_pd small)

end Started

end Notux.Vmm
