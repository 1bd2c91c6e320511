import Notux.Vmm.Isolation
import Notux.Vmm.Paged
import Notux.Vmm.Pointers
import Notux.Vmm.Update

/-!
# A new address space

`create_user_pml4` gives a process the translation of the kernel.  The kernel itself
only maps addresses below 4 GB, which lie in the directories that are copied; the
page tables below them are shared, and so are the other entries of the kernel's root.
-/

namespace Notux.Vmm

open Notux.Store

/-! ## The kernel's own mappings -/

/-- A call, with its pointers followed by the processor. -/
def MapCall.paged (root : Addr) : MapCall → Paged.PagedM Unit
  | map virt phys flags => Paged.vmmMapPage root virt phys flags
  | unmap virt => Paged.vmmUnmapPage root virt

/-- The machines that arise from the boot when the kernel maps and unmaps pages below 4 GB, with
all pointers as allowed. -/
inductive KernelRun (image : KernelImage) (regions : List (Nat × Nat))
    (junk : Addr → Nat → Addr) (allows : Use → Prop) : Vm → Prop where
  | boot : KernelRun image regions junk allows (bootVm image regions junk)
  | alloc {vm : Vm} (run : KernelRun image regions junk allows vm) :
      KernelRun image regions junk allows (pmmAllocPage.run vm).2
  | call {vm after : Vm} {used : List Use} (call : MapCall) (low : call.virt.toNat < 2 ^ 32)
      (run : KernelRun image regions junk allows vm)
      (returns : (call.paged vm.kernelPml4).run vm = some ((), after, used))
      (allowed : ∀ use ∈ used, allows use) : KernelRun image regions junk allows after

theorem MapCall.paged_follows (call : MapCall) (root : Addr) :
    Follows Use.Direct (call.paged root) (call.perform root) := by
  cases call with
  | map virt phys flags => exact Paged.vmmMapPage_follows root virt phys flags
  | unmap virt => exact Paged.vmmUnmapPage_follows root virt

/-- The kernel's tables are in place, and it maps nothing beyond its directories. -/
structure KernelTables (vm : Vm) : Prop where
  rooted : ∃ place, Placed vm.toMemory place ∧ KernelDirectories vm.toMemory
  beyond : ∀ virt, (pml4Idx virt = 0 → 4 ≤ pdpIdx virt) →
    translation vm.tables vm.kernelPml4 virt = none

theorem idx_of_low {virt : Addr} (low : virt.toNat < 2 ^ 32) :
    pml4Idx virt = 0 ∧ pdpIdx virt < 4 := by
  constructor
  · have zero : (virt >>> 39).toNat = 0 := by
      rw [BitVec.toNat_ushiftRight, Nat.shiftRight_eq_div_pow]
      omega
    rw [pml4Idx, BitVec.toNat_and, zero, Nat.zero_and]
  · have small : (virt >>> 30).toNat < 4 := by
      rw [BitVec.toNat_ushiftRight, Nat.shiftRight_eq_div_pow]
      omega
    rw [pdpIdx, BitVec.toNat_and]
    exact Nat.lt_of_le_of_lt Nat.and_le_left small

/-- The outcome of a call, as a change of the translation. -/
theorem MapCall.translation_after (call : MapCall) {vm : Vm} {root : Addr}
    (tree : PageTables vm.toMemory root) (noGiant : NoGiant vm.tables root call.virt)
    {other : Addr} (differ : ¬ SamePage call.virt other) :
    translation (call.after root vm).tables root other = translation vm.tables root other := by
  cases call with
  | map virt phys flags =>
      change NoGiant vm.tables root virt at noGiant
      rcases vmmMapPage_updates tree noGiant phys flags with
        ⟨expands, -⟩ | ⟨grown, pt, expands, comes, isAfter⟩
      · exact expands.same other
      · change translation ((vmmMapPage root virt phys flags).run vm).2.tables root other = _
        rw [isAfter]
        exact (updates_write expands comes other).trans (if_neg differ)
  | unmap virt =>
      have unmaps := vmmUnmapPage_updates tree noGiant
      change Unmaps vm root virt ((MapCall.unmap virt).after root vm) at unmaps
      generalize (MapCall.unmap virt).after root vm = after at unmaps ⊢
      cases unmaps with
      | stuck _ _ expands _ => exact expands.same other
      | split grown pt i _ expands comes _ _ _ =>
          exact (updates_write expands comes other).trans (if_neg differ)
      | cleared pt _ comes =>
          exact (updates_write (.refl tree) comes other).trans (if_neg differ)
      | absent _ _ => rfl

theorem Maps.kernelPml4 {vm after : Vm} {place : Places} {root virt entry : Addr}
    (maps : Maps vm place root virt entry after) : after.kernelPml4 = vm.kernelPml4 := by
  cases maps with
  | lacking _ _ _ reached _ => exact reached.grows.memory.kernelPml4
  | written _ _ reached => exact reached.grows.memory.kernelPml4

theorem MapCall.kernelPml4 (call : MapCall) {vm : Vm} {place : Places} {root : Addr}
    (placed : Placed vm.toMemory place) (isRoot : place root = some []) :
    (call.after root vm).kernelPml4 = vm.kernelPml4 := by
  rcases call.spec placed isRoot with maps | ⟨same, -⟩
  · exact maps.kernelPml4
  · rw [same]

/-- After the boot nothing is mapped beyond the four directories. -/
theorem Started.beyond {image : KernelImage} {vm : Vm} (started : Started image vm) {virt : Addr}
    (beyond : pml4Idx virt = 0 → 4 ≤ pdpIdx virt) :
    translation vm.tables vm.kernelPml4 virt = none := by
  have atRoot : LeadsTo vm.tables image.pml4 (indexOf virt) 3 image.pml4 := .start
  have aligned : Aligned image.pdp := aligned_frameAddr _
  rw [started.kernelPml4]
  by_cases first : pml4Idx virt = 0
  · have entry : vm.tables image.pml4 (indexOf virt 3) = tableEntry image.pdp := by
      rw [indexOf_three, first, started.maps.pml4, assign_self]
    have atPdp := comes_next atRoot (by rw [entry]; exact tableEntry_present _)
      (by rw [entry]; exact tableEntry_not_huge aligned)
    rw [entry, tableEntry_mask aligned] at atPdp
    apply translation_of_empty atPdp _ ⟨rfl, rfl⟩
    rw [indexOf_two, started.maps.pdp]
    simp only [if_neg (Nat.not_lt.mpr (beyond first))]
    decide
  · apply translation_of_empty atRoot _ ⟨rfl, rfl⟩
    rw [indexOf_three, started.maps.pml4, assign_of_ne first]
    decide

theorem KernelRun.tables {image : KernelImage} {regions : List (Nat × Nat)}
    {junk : Addr → Nat → Addr} {vm : Vm} (run : KernelRun image regions junk Use.Direct vm) :
    KernelTables vm := by
  induction run with
  | boot =>
      have started := bootVm_started image regions junk
      exact ⟨⟨image.place, started.placed, started.directories⟩, fun _ => started.beyond⟩
  | @alloc vm _ ih =>
      rcases pmmAllocPage_spec vm with ⟨-, -, same⟩ | ⟨i, -, -, same⟩
      · rw [same]
        exact ih
      · rw [same]
        obtain ⟨place, placed, directories⟩ := ih.rooted
        exact ⟨⟨place, (placed.grows_take i).memory.placed, directories⟩, ih.beyond⟩
  | @call vm after used call low _ returns direct ih =>
      have same : after = call.after vm.kernelPml4 vm :=
        (congrArg Prod.snd ((call.paged_follows vm.kernelPml4).run_eq returns direct)).symm
      subst same
      obtain ⟨place, placed, directories⟩ := ih.rooted
      have rooted : Rooted (call.after vm.kernelPml4 vm) [] := by
        rcases call.spec placed placed.kernel with maps | ⟨same, -⟩
        · exact maps.rooted placed placed.kernel nofun directories
        · rw [same]
          exact ⟨place, placed, nofun, directories⟩
      obtain ⟨place', placed', -, directories'⟩ := rooted
      refine ⟨⟨place', placed', directories'⟩, fun virt beyond => ?_⟩
      have tree := placed.pageTables placed.kernel
      have noGiant := placed.noGiant placed.kernel call.virt
      have differ : ¬ SamePage call.virt virt := by
        intro same
        have indices := same.1
        simp only [tablePath, List.cons.injEq, and_true] at indices
        have below := idx_of_low low
        have far := beyond (indices.1.symm.trans below.1)
        omega
      rw [call.kernelPml4 placed placed.kernel, call.translation_after tree noGiant differ]
      exact ih.beyond virt beyond

/-! ## The frames of a new root -/

/-- Frames that were free and have been taken, each once. -/
structure Fresh (before current : Vm) (frames : List Addr) : Prop where
  nodup : frames.Nodup
  taken : ∀ table ∈ frames, ∃ i < MAX_PAGES, before.bitmap i = false ∧
    current.bitmap i = true ∧ table = frameAddr i
  bitmap : ∀ {i}, before.bitmap i = true → current.bitmap i = true

theorem Fresh.start (vm : Vm) : Fresh vm vm [] :=
  ⟨List.nodup_nil, nofun, fun taken => taken⟩

theorem Fresh.take {before current : Vm} {frames : List Addr}
    (fresh : Fresh before current frames) {i : Nat} (search : nextFrame current.bitmap = some i) :
    Fresh before (current.take i) (frameAddr i :: frames) := by
  obtain ⟨bound, free⟩ := nextFrame_bound search
  refine ⟨List.nodup_cons.mpr ⟨fun member => ?_, fresh.nodup⟩, fun table member => ?_,
    fun taken => Vm.take_bitmap (fresh.bitmap taken)⟩
  · obtain ⟨j, bound', -, marked, same⟩ := fresh.taken _ member
    rw [frameAddr_inj bound bound' same, marked] at free
    cases free
  · rcases List.mem_cons.mp member with rfl | old
    · refine ⟨i, bound, ?_, assign_self, rfl⟩
      by_contra taken
      rw [fresh.bitmap (Bool.eq_true_of_not_eq_false taken)] at free
      cases free
    · obtain ⟨j, bound', free', marked, same⟩ := fresh.taken _ old
      exact ⟨j, bound', free', Vm.take_bitmap marked, same⟩

theorem Fresh.perm {before current : Vm} {frames frames' : List Addr}
    (fresh : Fresh before current frames) (perm : frames.Perm frames') :
    Fresh before current frames' :=
  ⟨perm.nodup_iff.mp fresh.nodup, fun table member => fresh.taken table (perm.mem_iff.mpr member),
    fresh.bitmap⟩

/-- The root and its pointer table have been taken, and some directories have. -/
structure Laying (before current : Vm) (root pdp : Addr) (done : List Nat) (pd : Nat → Addr) :
    Prop where
  fresh : Fresh before current (root :: pdp :: done.map pd)
  first : current.tables root 0 = tableEntry pdp
  entries : ∀ k ∈ done, current.tables pdp k = tableEntry (pd k)
  same : ∀ table, (∀ i < MAX_PAGES, before.bitmap i = false → table ≠ frameAddr i) →
    current.tables table = before.tables table
  kernelPml4 : current.kernelPml4 = before.kernelPml4

/-- One directory of the kernel is copied. -/
theorem copyDirectory_lays {before current : Vm} {root pdp kernelPdp : Addr} {done : List Nat}
    {pd : Nat → Addr} (laying : Laying before current root pdp done pd)
    (old : ∀ i < MAX_PAGES, before.bitmap i = false → kernelPdp ≠ frameAddr i) {idx : Nat}
    (new : idx ∉ done) (leads : nextLevel (before.tables kernelPdp idx) ≠ 0) :
    Leads (copyDirectory pdp kernelPdp idx)
      (fun success after => success = true →
        ∃ pd', Laying before after root pdp (idx :: done) pd') current := by
  obtain ⟨present, small, masked⟩ := of_nextLevel_ne_zero leads
  unfold copyDirectory
  rw [leads_bind, leads_get]
  dsimp only
  rw [laying.same kernelPdp old, if_neg present, if_neg (by rwa [← masked]), leads_bind]
  apply (pmmAllocPage_spec current).mono
  intro addr after outcome
  rcases outcome with ⟨-, rfl, -⟩ | ⟨i, search, rfl, rfl⟩
  · rw [if_pos rfl]
    exact nofun
  · by_cases null : frameAddr i = 0
    · rw [if_pos null]
      exact nofun
    · rw [if_neg null, leads_bind, leads_zeroTable, leads_bind, leads_setEntry, leads_bind,
        leads_get, leads_bind, leads_fillTable, leads_pure]
      rintro -
      have taken := laying.fresh.take search
      obtain ⟨outside, nodup⟩ := List.nodup_cons.mp taken.nodup
      have neRoot : root ≠ frameAddr i := fun same => outside (same ▸ List.mem_cons_self)
      have nePdp : pdp ≠ frameAddr i := fun same =>
        outside (same ▸ List.mem_cons_of_mem _ List.mem_cons_self)
      have apart : root ≠ pdp := fun same =>
        (List.nodup_cons.mp nodup).1 (same ▸ List.mem_cons_self)
      have others : done.map (assign pd idx (frameAddr i)) = done.map pd := by
        apply List.map_congr_left
        intro k member
        exact assign_of_ne fun same => new (same ▸ member)
      refine ⟨assign pd idx (frameAddr i), ?_, ?_, ?_, ?_, ?_⟩
      · rw [List.map_cons, assign_self, others]
        have perm : (frameAddr i :: root :: pdp :: done.map pd).Perm
            (root :: pdp :: frameAddr i :: done.map pd) :=
          (List.Perm.swap _ _ _).trans ((List.Perm.swap _ _ _).cons root)
        have moved := taken.perm perm
        exact ⟨moved.nodup, moved.taken, moved.bitmap⟩
      · rw [Vm.fill_of_ne _ neRoot, Vm.fill_of_ne _ apart, Vm.fill_of_ne _ neRoot]
        exact laying.first
      · intro k member
        rw [Vm.fill_of_ne _ nePdp, Vm.fill_self]
        by_cases last : k = idx
        · rw [last, assign_self, assign_self]
        · rw [assign_of_ne last, assign_of_ne last, Vm.fill_of_ne _ nePdp]
          exact laying.entries k ((List.mem_cons.mp member).resolve_left last)
      · intro table kept
        have isOld : ∀ t ∈ frameAddr i :: root :: pdp :: done.map pd, table ≠ t := by
          rintro t member rfl
          obtain ⟨j, bound, free, -, same⟩ := taken.taken _ member
          exact kept j bound free same
        have neNew := isOld (frameAddr i) List.mem_cons_self
        have neTable := isOld pdp
          (List.mem_cons_of_mem _ (List.mem_cons_of_mem _ List.mem_cons_self))
        rw [Vm.fill_of_ne _ neNew, Vm.fill_of_ne _ neTable, Vm.fill_of_ne _ neNew]
        exact laying.same table kept
      · exact laying.kernelPml4

/-- The loop over the directories. -/
theorem copyDirectories_lays {before current : Vm} {root pdp kernelPdp : Addr}
    {done rest : List Nat} {pd : Nat → Addr} (laying : Laying before current root pdp done pd)
    (old : ∀ i < MAX_PAGES, before.bitmap i = false → kernelPdp ≠ frameAddr i)
    (distinct : (rest.reverse ++ done).Nodup)
    (leads : ∀ idx ∈ rest, nextLevel (before.tables kernelPdp idx) ≠ 0) :
    Leads (copyDirectories pdp kernelPdp rest)
      (fun success after => success = true →
        ∃ pd', Laying before after root pdp (rest.reverse ++ done) pd') current := by
  induction rest generalizing current done pd with
  | nil => exact fun _ => ⟨pd, laying⟩
  | cons idx rest ih =>
      rw [List.reverse_cons, List.append_assoc, List.singleton_append] at distinct
      have new : idx ∉ done := by
        have tail := (List.nodup_append.mp distinct).2.1
        exact (List.nodup_cons.mp tail).1
      unfold copyDirectories
      rw [leads_bind]
      apply (copyDirectory_lays laying old new (leads idx List.mem_cons_self)).mono
      intro success after copied
      cases success with
      | false => rintro ⟨⟩
      | true =>
          obtain ⟨pd', laid⟩ := copied rfl
          rw [if_pos rfl, List.reverse_cons, List.append_assoc, List.singleton_append]
          exact ih laid distinct fun other member => leads other (List.mem_cons_of_mem idx member)

/-- A root with its pointer table and four directories, all on frames of their own. -/
def FreshRoot (before after : Vm) (root : Addr) : Prop :=
  ∃ (pdp : Addr) (pd : Nat → Addr), Fresh before after [root, pdp, pd 0, pd 1, pd 2, pd 3] ∧
    nextLevel (after.tables root 0) = pdp ∧ ∀ k < 4, nextLevel (after.tables pdp k) = pd k

/-- The four directories stand behind the first entry of the kernel's root. -/
theorem KernelDirectories.entries {vm : Vm} (directories : KernelDirectories vm.toMemory)
    {idx : Nat} (small : idx < 4) : nextLevel (vm.tables vm.kernelPml4 0) ≠ 0 ∧
      nextLevel (vm.tables (nextLevel (vm.tables vm.kernelPml4 0)) idx) ≠ 0 := by
  have leads := directories idx small
  rw [follow] at leads
  by_cases stops : nextLevel (vm.tables vm.kernelPml4 0) = 0
  · rw [if_pos stops] at leads
    exact absurd rfl leads
  · rw [if_neg stops, follow_singleton] at leads
    exact ⟨stops, leads⟩

/-- The root and its pointer table, before any directory is copied. -/
theorem laying_start {vm : Vm} {i j : Nat} (first : nextFrame vm.bitmap = some i)
    (second : nextFrame (vm.take i).bitmap = some j) :
    Laying vm ((((vm.take i).fill (frameAddr i) fun _ => 0).take j).fill (frameAddr j)
        (fun _ => 0) |>.fill (frameAddr i)
          (assign (((((vm.take i).fill (frameAddr i) fun _ => 0).take j).fill (frameAddr j)
            fun _ => 0).tables (frameAddr i)) 0 (tableEntry (frameAddr j))))
      (frameAddr i) (frameAddr j) [] fun _ => 0 := by
  have taken := ((Fresh.start vm).take first).take second
  have perm : [frameAddr j, frameAddr i].Perm [frameAddr i, frameAddr j] := List.Perm.swap _ _ _
  refine ⟨?_, ?_, nofun, ?_, rfl⟩
  · have moved := taken.perm perm
    exact ⟨moved.nodup, moved.taken, moved.bitmap⟩
  · rw [Vm.fill_self, assign_self]
  · intro table kept
    have isOld : ∀ t ∈ [frameAddr j, frameAddr i], table ≠ t := by
      rintro t member rfl
      obtain ⟨k, bound, free, -, same⟩ := taken.taken _ member
      exact kept k bound free same
    have nePdp := isOld (frameAddr j) List.mem_cons_self
    have neRoot := isOld (frameAddr i) (List.mem_cons_of_mem _ List.mem_cons_self)
    rw [Vm.fill_of_ne _ neRoot, Vm.fill_of_ne _ nePdp]
    exact Vm.fill_of_ne _ neRoot _

/-- `create_user_pml4` takes six frames for a root. -/
theorem createUserPml4_fresh {vm : Vm} (tree : PageTables vm.toMemory vm.kernelPml4)
    (directories : KernelDirectories vm.toMemory) :
    Leads createUserPml4 (fun root after => root ≠ 0 →
      FreshRoot vm after root ∧ after.kernelPml4 = vm.kernelPml4 ∧
        (∀ table, (∀ i < MAX_PAGES, vm.bitmap i = false → table ≠ frameAddr i) →
          after.tables table = vm.tables table) ∧
        ∀ i, i ≠ 0 → after.tables root i = vm.tables vm.kernelPml4 i) vm := by
  have atRoot : LeadsTo vm.tables vm.kernelPml4 (fun _ => 0) 3 vm.kernelPml4 := .start
  have entry := (directories.entries (by decide : 0 < 4)).1
  obtain ⟨present, small, masked⟩ := of_nextLevel_ne_zero entry
  have atPdp : LeadsTo vm.tables vm.kernelPml4 (indexOf 0) 2
      (nextLevel (vm.tables vm.kernelPml4 0)) := by
    rw [masked]
    exact comes_next .start present small
  unfold createUserPml4
  rw [leads_bind]
  apply (pmmAllocPage_spec vm).mono
  intro root one outcome
  rcases outcome with ⟨-, rfl, -⟩ | ⟨i, search, rfl, rfl⟩
  · rw [if_pos rfl]
    exact fun nonzero => absurd rfl nonzero
  by_cases null : frameAddr i = 0
  · rw [if_pos null]
    exact fun nonzero => absurd rfl nonzero
  obtain ⟨bound, free⟩ := nextFrame_bound search
  have kernelOld : vm.kernelPml4 ≠ frameAddr i := tree.inUse atRoot i bound free
  have kernelTable : ((vm.take i).fill (frameAddr i) fun _ => 0).tables vm.kernelPml4 =
      vm.tables vm.kernelPml4 := Vm.fill_of_ne _ kernelOld _
  rw [if_neg null, leads_bind, leads_zeroTable, leads_bind, leads_get]
  dsimp only
  rw [show ((vm.take i).fill (frameAddr i) fun _ => 0).kernelPml4 = vm.kernelPml4 from rfl,
    if_neg (tree.nonnull atRoot), kernelTable, if_neg present, if_neg (by rwa [← masked]),
    leads_bind]
  apply (pmmAllocPage_spec _).mono
  intro pdp two outcome
  rcases outcome with ⟨-, rfl, -⟩ | ⟨j, search', rfl, rfl⟩
  · rw [if_pos rfl]
    exact fun nonzero => absurd rfl nonzero
  by_cases null' : frameAddr j = 0
  · rw [if_pos null']
    exact fun nonzero => absurd rfl nonzero
  rw [if_neg null', leads_bind, leads_zeroTable, leads_bind, leads_setEntry, leads_bind,
    ← masked]
  have start := laying_start search search'
  apply (copyDirectories_lays start (tree.inUse atPdp) (by decide) ?_).mono
  · intro success last copied
    cases success with
    | false => exact fun nonzero => absurd rfl nonzero
    | true =>
        obtain ⟨pd, laid⟩ := copied rfl
        rw [if_pos rfl, leads_bind, leads_get, leads_bind, leads_fillTable, leads_pure]
        rintro -
        have frames : Fresh vm last [frameAddr i, frameAddr j, pd 0, pd 1, pd 2, pd 3] :=
          laid.fresh.perm (((List.reverse_perm [pd 0, pd 1, pd 2, pd 3]).cons _).cons _)
        have rootAlone : frameAddr j ≠ frameAddr i := fun same =>
          (List.nodup_cons.mp frames.nodup).1 (by rw [← same]; exact List.mem_cons_self)
        refine ⟨⟨frameAddr j, pd, ⟨frames.nodup, frames.taken, frames.bitmap⟩, ?_, ?_⟩,
          laid.kernelPml4, ?_, ?_⟩
        · rw [Vm.fill_self, if_pos rfl, laid.first]
          exact nextLevel_tableEntry (aligned_frameAddr j)
        · intro k small
          have member : k ∈ (List.range 4).reverse ++ [] := by
            rw [List.append_nil, List.mem_reverse]
            exact List.mem_range.mpr small
          have isFrame : pd k ∈ frameAddr i :: frameAddr j ::
              ((List.range 4).reverse ++ []).map pd :=
            List.mem_cons_of_mem _ (List.mem_cons_of_mem _ (List.mem_map_of_mem member))
          obtain ⟨l, -, -, -, same⟩ := laid.fresh.taken _ isFrame
          rw [Vm.fill_of_ne _ rootAlone, laid.entries k member, same]
          exact nextLevel_tableEntry (aligned_frameAddr l)
        · intro table kept
          rw [Vm.fill_of_ne _ (kept i bound free)]
          exact laid.same table kept
        · intro k other
          rw [Vm.fill_self, if_neg other, laid.kernelPml4]
          exact congrFun (laid.same _ (tree.inUse atRoot)) k
  · intro idx member
    exact (directories.entries (List.mem_range.mp member)).2

/-! ## The translation of a new root -/

/-- A new root translates every address as the kernel does, whose tables stay as they are. -/
structure CopiesKernel (vm after : Vm) (root : Addr) : Prop where
  translates : ∀ virt, vmmVirtToPhys after.toMemory root virt =
    vmmVirtToPhys after.toMemory after.kernelPml4 virt
  kernelPml4 : after.kernelPml4 = vm.kernelPml4
  unchanged : ∀ table, TableOf vm.tables vm.kernelPml4 table →
    after.tables table = vm.tables table
  fresh : FreshRoot vm after root

/-- A new address space translates every address as the kernel does, whose tables stay as
they are, if every pointer of the kernel is mapped onto itself.  Looking up an address gives the
same answer then, if the tables of both roots are mapped onto themselves. -/
theorem new_root_copies_kernel {image : KernelImage} {regions : List (Nat × Nat)}
    {junk : Addr → Nat → Addr} {vm after : Vm} {root : Addr} {used : List Use}
    (run : KernelRun image regions junk Use.Direct vm)
    (returns : Paged.createUserPml4.run vm = some (root, after, used))
    (direct : ∀ use ∈ used, use.Direct) (nonnull : root ≠ 0) :
    CopiesKernel vm after root ∧
      ((∀ table, TableOf after.tables root table ∨ TableOf after.tables after.kernelPml4 table →
          Use.Direct ⟨after.toMemory, table⟩) →
        ∀ virt, lookup after.toMemory root virt =
          lookup after.toMemory after.kernelPml4 virt) := by
  obtain ⟨⟨place, placed, directories⟩, beyond⟩ := run.tables
  have tree := placed.pageTables placed.kernel
  have both := (createUserPml4_spec placed directories).and (createUserPml4_fresh tree directories)
  unfold Leads at both
  rw [Paged.createUserPml4_follows.run_eq returns direct] at both
  obtain ⟨outcome, fresh⟩ := both
  rcases outcome with ⟨null, -⟩ | ⟨place', made⟩
  · exact absurd null nonnull
  obtain ⟨freshRoot, kernelPml4, same, -⟩ := fresh nonnull
  have grown := made.grows.memory
  have translates : ∀ virt, vmmVirtToPhys after.toMemory root virt =
      vmmVirtToPhys after.toMemory after.kernelPml4 virt := by
    intro virt
    have kernelSame : vmmVirtToPhys after.toMemory after.kernelPml4 virt =
        vmmVirtToPhys vm.toMemory vm.kernelPml4 virt := by
      rw [kernelPml4]
      exact grown.same placed.kernel virt
    rw [kernelSame]
    by_cases inherited : Inherited virt
    · exact (made.inherits placed inherited).1
    · obtain ⟨-, far⟩ := not_or.mp inherited
      rw [vmmVirtToPhys_eq _ nonnull, if_pos (made.beyond virt inherited),
        vmmVirtToPhys_translation tree (placed.noGiant placed.kernel virt),
        beyond virt fun _ => Nat.le_of_not_lt far]
      rfl
  refine ⟨⟨translates, kernelPml4, ?_, freshRoot⟩, fun mapped virt => ?_⟩
  · rintro table ⟨path, short, -, leads, rfl⟩
    apply same
    intro i bound free used
    obtain ⟨j, bound', -, taken, equal⟩ :=
      placed.used (placed.follow_place placed.kernel (by simpa using short) leads)
    rw [frameAddr_inj bound bound' (used.symm.trans equal), taken] at free
    cases free
  · rw [lookup_eq fun table isTable => mapped table (Or.inl isTable),
      lookup_eq fun table isTable => mapped table (Or.inr isTable), translates virt]

/-- The kernel maps another address onto a frame of the pool. -/
def poolCall : MapCall := .map 0x800000 (frameAddr 2000) (PAGE_PRESENT ||| PAGE_WRITE)

theorem poolCall_facts :
    ((poolCall.paged smallImage.pml4).run (bootVm smallImage [] fun _ _ => 0)).any (fun mapped =>
      (mapped.2.2.all fun use => use.Direct) = true ∧
        (Paged.createUserPml4.run mapped.2.1).any (fun made =>
          made.1 ≠ 0 ∧ (made.2.2.all fun use => use.Direct) = true) = true) = true := by
  decide +kernel

theorem new_root_copies_kernel_mapped :
    ∃ vm after root used, KernelRun smallImage [] (fun _ _ => 0) Use.Direct vm ∧
      Paged.createUserPml4.run vm = some (root, after, used) ∧ root ≠ 0 ∧
      CopiesKernel vm after root ∧
      ((∀ table, TableOf after.tables root table ∨ TableOf after.tables after.kernelPml4 table →
          Use.Direct ⟨after.toMemory, table⟩) →
        ∀ virt, lookup after.toMemory root virt =
          lookup after.toMemory after.kernelPml4 virt) := by
  obtain ⟨⟨_, vm, used⟩, maps, facts⟩ := (Option.any_eq_true _ _).mp poolCall_facts
  obtain ⟨direct, makes⟩ := of_decide_eq_true facts
  obtain ⟨⟨root, after, used'⟩, creates, facts⟩ := (Option.any_eq_true _ _).mp makes
  obtain ⟨nonnull, direct'⟩ := of_decide_eq_true facts
  have all : ∀ {used : List Use}, (used.all fun use => use.Direct) = true →
      ∀ use ∈ used, use.Direct := fun direct use member =>
    of_decide_eq_true (List.all_eq_true.mp direct use member)
  have run : KernelRun smallImage [] (fun _ _ => 0) Use.Direct vm := by
    rw [← (bootVm_started smallImage [] fun _ _ => 0).kernelPml4] at maps
    exact .call poolCall (by decide) .boot maps (all direct)
  exact ⟨vm, after, root, used', run, creates, nonnull,
    new_root_copies_kernel run creates (all direct') nonnull⟩

/-! ## A frame that is mapped onto a table -/

/-- The kernel maps the address of a frame that it is about to take onto its fourth page
directory. -/
def aliasCall : MapCall := .map (frameAddr 303) (frameAddr 261) (PAGE_PRESENT ||| PAGE_WRITE)

/-- The directory is cleared through that address. -/
theorem aliasCall_facts :
    ((aliasCall.paged smallImage.pml4).run (bootVm smallImage [] fun _ _ => 0)).any (fun mapped =>
      follow mapped.2.1.tables mapped.2.1.kernelPml4 [0, 3] = frameAddr 261 ∧
        (Paged.createUserPml4.run mapped.2.1).any (fun made => made.1 ≠ 0 ∧
          made.2.1.tables (frameAddr 261) 0 ≠ mapped.2.1.tables (frameAddr 261) 0) = true) =
      true := by
  decide +kernel

/-- A page directory of the kernel is overwritten. -/
theorem kernel_not_copied :
    ¬ ∀ (image : KernelImage) (regions : List (Nat × Nat)) (junk : Addr → Nat → Addr)
      (vm after : Vm) (root : Addr) (used : List Use),
        KernelRun image regions junk (fun _ => True) vm →
          Paged.createUserPml4.run vm = some (root, after, used) → root ≠ 0 →
            CopiesKernel vm after root := by
  intro copies
  obtain ⟨⟨_, vm, used⟩, maps, facts⟩ := (Option.any_eq_true _ _).mp aliasCall_facts
  obtain ⟨leads, makes⟩ := of_decide_eq_true facts
  obtain ⟨⟨root, after, used'⟩, creates, facts⟩ := (Option.any_eq_true _ _).mp makes
  obtain ⟨nonnull, differs⟩ := of_decide_eq_true facts
  have run : KernelRun smallImage [] (fun _ _ => 0) (fun _ => True) vm := by
    rw [← (bootVm_started smallImage [] fun _ _ => 0).kernelPml4] at maps
    exact .call aliasCall (by decide) .boot maps fun _ _ => trivial
  have isTable : TableOf vm.tables vm.kernelPml4 (frameAddr 261) :=
    ⟨[0, 3], by decide, by decide, by rw [leads]; decide, leads⟩
  have same := (copies _ _ _ vm after root used' run creates nonnull).unchanged _ isTable
  exact differs (congrFun same 0)

/-- The first address space after the boot. -/
def firstRoot : Addr × Vm := createUserPml4.run (bootVm smallImage [] fun _ _ => 0)

theorem firstRoot_nonnull : firstRoot.1 ≠ 0 := by
  decide +kernel

end Notux.Vmm
