import Notux.Vmm.Isolation
import Notux.Vmm.Translation

/-!
# Mapping is a point update

`vmm_map_page` and `vmm_unmap_page` change the translation of one page, whatever the
tree of the root looks like, and the tables they add on the way change none.
`vmm_virt_to_phys` computes the translation.
-/

namespace Notux.Vmm

open Notux.Store

/-! ## Going down -/

/-- A place in memory that is no table of the root, and is not free. -/
structure Foreign (vm : Vm) (root table : Addr) : Prop where
  noTable : ∀ {index level}, ¬ LeadsTo vm.tables root index level table
  inUse : ∀ i < MAX_PAGES, vm.bitmap i = false → table ≠ frameAddr i

/-- Tables may have been added to the tree, and no translation has changed. -/
structure Expands (root : Addr) (before after : Vm) : Prop where
  tree : PageTables after.toMemory root
  same : ∀ virt, translation after.tables root virt = translation before.tables root virt
  bitmap : ∀ {i}, before.bitmap i = true → after.bitmap i = true
  noGiant : ∀ {virt}, NoGiant before.tables root virt → NoGiant after.tables root virt
  added : ∀ {index level table}, LeadsTo after.tables root index level table →
    LeadsTo before.tables root index level table ∨
      ∃ i < MAX_PAGES, before.bitmap i = false ∧ table = frameAddr i
  kept : ∀ {index level table}, LeadsTo before.tables root index level table →
    LeadsTo after.tables root index level table
  others : ∀ {table}, Foreign before root table → after.tables table = before.tables table
  kernelPml4 : after.kernelPml4 = before.kernelPml4

theorem Expands.refl {root : Addr} {vm : Vm} (tree : PageTables vm.toMemory root) :
    Expands root vm vm :=
  ⟨tree, fun _ => rfl, fun taken => taken, fun noGiant => noGiant, fun comes => Or.inl comes,
    fun comes => comes, fun _ => rfl, rfl⟩

/-- What is foreign stays foreign. -/
theorem Foreign.stays {root table : Addr} {before after : Vm} (foreign : Foreign before root table)
    (bitmap : ∀ {i}, before.bitmap i = true → after.bitmap i = true)
    (added : ∀ {index level}, LeadsTo after.tables root index level table →
      LeadsTo before.tables root index level table ∨
        ∃ i < MAX_PAGES, before.bitmap i = false ∧ table = frameAddr i) :
    Foreign after root table := by
  constructor
  · intro index level comes
    rcases added comes with old | ⟨i, bound, free, same⟩
    · exact foreign.noTable old
    · exact foreign.inUse i bound free same
  · intro i bound free
    apply foreign.inUse i bound
    by_contra taken
    rw [bitmap (Bool.eq_true_of_not_eq_false taken)] at free
    cases free

theorem Expands.trans {root : Addr} {before middle after : Vm}
    (first : Expands root before middle) (second : Expands root middle after) :
    Expands root before after where
  tree := second.tree
  same virt := (second.same virt).trans (first.same virt)
  bitmap taken := second.bitmap (first.bitmap taken)
  noGiant noGiant := second.noGiant (first.noGiant noGiant)
  added comes := by
    rcases second.added comes with old | ⟨i, bound, free, rfl⟩
    · exact first.added old
    · refine Or.inr ⟨i, bound, ?_, rfl⟩
      by_contra taken
      rw [first.bitmap (Bool.eq_true_of_not_eq_false taken)] at free
      cases free
  kept comes := second.kept (first.kept comes)
  others foreign :=
    (second.others (foreign.stays first.bitmap first.added)).trans (first.others foreign)
  kernelPml4 := second.kernelPml4.trans first.kernelPml4

/-- `pmm_alloc_page` has returned null: no frame is left, or the frame at address 0 was
among the free ones. -/
def RanOut (before after : Vm) : Prop :=
  nextFrame after.bitmap = none ∨ before.bitmap 0 = false

theorem Expands.ranOut {root : Addr} {before middle after : Vm}
    (expands : Expands root before middle) (ranOut : RanOut middle after) :
    RanOut before after := by
  rcases ranOut with none | zero
  · exact Or.inl none
  · right
    by_contra taken
    rw [expands.bitmap (Bool.eq_true_of_not_eq_false taken)] at zero
    cases zero

/-- Every frame that has been taken is a table that some addresses lacked. -/
def Spends (root : Addr) (virts : List Addr) (before after : Vm) : Prop :=
  freeFrames after.bitmap + (lacking before.tables root virts).card =
    freeFrames before.bitmap + (lacking after.tables root virts).card

/-- More tables are lacking than there are frames. -/
def Short (root : Addr) (virts : List Addr) (vm : Vm) : Prop :=
  freeFrames vm.bitmap < (lacking vm.tables root virts).card

/-- The frames have been spent on tables, and there were too few. -/
def Drained (root : Addr) (virts : List Addr) (before after : Vm) : Prop :=
  Short root virts before ∧ freeFrames after.bitmap = 0

theorem Spends.trans {root : Addr} {virts : List Addr} {before middle after : Vm}
    (first : Spends root virts before middle) (second : Spends root virts middle after) :
    Spends root virts before after := by
  unfold Spends at *
  omega

theorem Spends.drained {root : Addr} {virts : List Addr} {before middle after : Vm}
    (spends : Spends root virts before middle) (drained : Drained root virts middle after) :
    Drained root virts before after := by
  unfold Spends at spends
  unfold Drained Short at *
  omega

/-- The outcome of going one level down: a table of the address, or null when there is
no memory. -/
inductive Arrived (before : Vm) (root virt : Addr) (level : Nat) : Addr → Vm → Prop where
  | table (next : Addr) (after : Vm) (expands : Expands root before after)
      (comes : LeadsTo after.tables root (indexOf virt) level next)
      (spends : ∀ virts, virt ∈ virts → Spends root virts before after) :
      Arrived before root virt level next after
  | stuck (after : Vm) (expands : Expands root before after) (ranOut : RanOut before after)
      (drained : before.bitmap 0 = true → ∀ virts, virt ∈ virts → Drained root virts before after) :
      Arrived before root virt level 0 after

/-- Taking a frame adds no table. -/
theorem expands_take {root : Addr} {vm : Vm} (tree : PageTables vm.toMemory root) (i : Nat) :
    Expands root vm (vm.take i) where
  tree :=
    { unshared := tree.unshared
      nonnull := tree.nonnull
      inUse := fun comes j bound free => by
        apply tree.inUse comes j bound
        by_contra taken
        have still : (vm.take i).bitmap j = true :=
          Vm.take_bitmap (Bool.eq_true_of_not_eq_false taken)
        change (vm.take i).bitmap j = false at free
        rw [free] at still
        cases still
      small := tree.small }
  same _ := rfl
  bitmap := Vm.take_bitmap
  noGiant noGiant := noGiant
  added comes := Or.inl comes
  kept comes := comes
  others _ := rfl
  kernelPml4 := rfl

theorem nextLevel_eq {entry : Addr} (present : entry &&& PAGE_PRESENT ≠ 0)
    (small : entry &&& PAGE_HUGE = 0) : nextLevel entry = entry &&& PAGE_MASK := by
  rw [nextLevel, if_pos present, if_neg (not_not.mpr small)]

section Descent

variable {vm : Vm} {root virt table : Addr} {level i : Nat} {entries : Nat → Addr}

/-- A frame was hung behind the entry. -/
theorem Adds.arrived (adds : Adds vm root virt level table i entries) :
    Expands root vm (vm.add table (indexOf virt (level + 1)) i entries) ∧
      LeadsTo (vm.add table (indexOf virt (level + 1)) i entries).tables root (indexOf virt)
        level (frameAddr i) ∧
      ∀ virts, virt ∈ virts →
        Spends root virts vm (vm.add table (indexOf virt (level + 1)) i entries) := by
  obtain ⟨bound, free⟩ := nextFrame_bound adds.search
  refine ⟨?_, adds.comes_new, fun virts member => ?_⟩
  · exact
      { tree := adds.tree_after
        same := adds.translation_after
        bitmap := Vm.take_bitmap
        noGiant := adds.noGiant_after
        added := fun comes => by
          rcases adds.comes_after comes with old | ⟨new, -⟩
          · exact Or.inl old
          · exact Or.inr ⟨i, bound, free, new⟩
        kept := adds.comes_kept
        others := fun foreign => funext fun j =>
          adds.after_of_ne (foreign.inUse i bound free) (.inl fun same =>
            foreign.noTable (same ▸ adds.comes))
        kernelPml4 := rfl }
  · obtain ⟨lacked, erased⟩ := adds.lacking_after member
    have fewer := Finset.card_erase_add_one lacked
    have spent := freeFrames_pos adds.search
    change freeFrames (vm.add table (indexOf virt (level + 1)) i entries).bitmap + 1 = _ at spent
    unfold Spends
    rw [erased]
    omega

variable (tree : PageTables vm.toMemory root)
  (comes : LeadsTo vm.tables root (indexOf virt) (level + 1) table)

include tree comes

omit tree in
/-- An entry that points to a table leads to a table of the address. -/
theorem comes_next (present : vm.tables table (indexOf virt (level + 1)) &&& PAGE_PRESENT ≠ 0)
    (small : vm.tables table (indexOf virt (level + 1)) &&& PAGE_HUGE = 0) :
    LeadsTo vm.tables root (indexOf virt) level
      (vm.tables table (indexOf virt (level + 1)) &&& PAGE_MASK) :=
  comes.next (slotAt_next present small)

omit tree in
/-- Behind a blank entry there is no table. -/
theorem lacking_of_blank
    (blank : vm.tables table (indexOf virt (level + 1)) &&& PAGE_PRESENT = 0 ∨
      vm.tables table (indexOf virt (level + 1)) &&& PAGE_HUGE ≠ 0) {virts : List Addr}
    (member : virt ∈ virts) :
    indicesTo (indexOf virt) level ∈ lacking vm.tables root virts := by
  apply mem_lacking.mpr
  refine ⟨virt, member, level, comes.le, fun t arrives => ?_, rfl⟩
  cases arrives with
  | start => exact absurd comes.le (by decide)
  | next above leads =>
      rw [above.unique comes] at leads
      unfold slotsOf slotAt at leads
      by_cases absent : vm.tables table (indexOf virt (level + 1)) &&& PAGE_PRESENT = 0
      · rw [if_pos absent] at leads
        cases leads
      · rw [if_neg absent, if_neg (Nat.succ_ne_zero level),
          if_pos (blank.resolve_left absent)] at leads
        split at leads <;> cases leads

/-- A frame is taken, filled and hung behind the entry, or there is none. -/
theorem addTable_spec (entries : Nat → Addr)
    (blank : (vm.tables table (indexOf virt (level + 1)) &&& PAGE_PRESENT = 0 ∧
        ∀ j, entries j = 0) ∨
      (level = 0 ∧ vm.tables table (indexOf virt (level + 1)) &&& PAGE_PRESENT ≠ 0 ∧
        vm.tables table (indexOf virt (level + 1)) &&& PAGE_HUGE ≠ 0 ∧
        entries = smallPages (vm.tables table (indexOf virt (level + 1))))) :
    Leads (do
        let new ← pmmAllocPage
        if new = 0 then return 0
        else
          fillTable new entries
          setEntry table (indexOf virt (level + 1)) (tableEntry new)
          return new)
      (fun next after => Arrived vm root virt level next after ∧
        ((next = 0 ∧ ∀ i, nextFrame vm.bitmap = some i → frameAddr i = 0) ∨
          ∃ i, nextFrame vm.bitmap = some i ∧ next = frameAddr i ∧
            after.bitmap = assign vm.bitmap i true)) vm := by
  rw [leads_bind]
  apply (pmmAllocPage_spec vm).mono
  intro addr after outcome
  rcases outcome with ⟨full, rfl, same⟩ | ⟨i, search, rfl, rfl⟩
  · have ranOut : RanOut vm vm := Or.inl (nextFrame_eq_none_iff.mpr full)
    have drained : ∀ virts, virt ∈ virts → Drained root virts vm vm := by
      intro virts member
      have lacked := lacking_of_blank comes (blank.imp And.left fun huge => huge.2.2.1) member
      refine ⟨?_, full⟩
      unfold Short
      rw [full]
      exact Finset.card_pos.mpr ⟨_, lacked⟩
    rw [if_pos rfl, same]
    refine ⟨.stuck vm (.refl tree) ranOut fun _ => drained, Or.inl ⟨rfl, fun i search => ?_⟩⟩
    rw [nextFrame_eq_none_iff.mpr full] at search
    cases search
  · by_cases null : frameAddr i = 0
    · have free := (nextFrame_bound search).2
      have zero : i = 0 := by
        by_contra positive
        exact frameAddr_ne_zero (nextFrame_bound search).1 positive null
      rw [zero] at free
      have ranOut : RanOut vm (vm.take i) := Or.inr free
      rw [if_pos null]
      refine ⟨.stuck _ (expands_take tree i) ranOut fun reserved => ?_,
        Or.inl ⟨rfl, fun j search' => ?_⟩⟩
      · rw [reserved] at free
        cases free
      rw [search] at search'
      cases search'
      exact null
    · have adds : Adds vm root virt level table i entries := ⟨tree, comes, search, null, blank⟩
      obtain ⟨expands, arrives, spends⟩ := adds.arrived
      rw [if_neg null]
      exact ⟨.table _ _ expands arrives spends, Or.inr ⟨i, search, rfl, rfl⟩⟩

theorem newLevel_arrives (absent : vm.tables table (indexOf virt (level + 1)) &&& PAGE_PRESENT = 0) :
    Leads (newLevel table (indexOf virt (level + 1))) (Arrived vm root virt level) vm :=
  (addTable_spec tree comes (fun _ => 0) (Or.inl ⟨absent, fun _ => rfl⟩)).mono
    fun _ _ outcome => outcome.1

/-- `get_next_level` at an entry that is no huge page. -/
theorem getNextLevel_arrives
    (small : vm.tables table (indexOf virt (level + 1)) &&& PAGE_PRESENT ≠ 0 →
      vm.tables table (indexOf virt (level + 1)) &&& PAGE_HUGE = 0) :
    Leads (getNextLevel table (indexOf virt (level + 1))) (Arrived vm root virt level) vm := by
  unfold getNextLevel
  rw [leads_bind, leads_get]
  by_cases absent : vm.tables table (indexOf virt (level + 1)) &&& PAGE_PRESENT = 0
  · rw [if_neg (not_not.mpr absent)]
    exact newLevel_arrives tree comes absent
  · rw [if_pos absent, leads_pure, nextLevel_eq absent (small absent)]
    exact .table _ _ (.refl tree) (comes_next comes absent (small absent)) fun _ _ => rfl

end Descent

section PageTable

variable {vm : Vm} {root virt table : Addr} (tree : PageTables vm.toMemory root)
  (comes : LeadsTo vm.tables root (indexOf virt) 1 table)

include tree comes

theorem splitHugePde_arrives (present : vm.tables table (pdIdx virt) &&& PAGE_PRESENT ≠ 0)
    (huge : vm.tables table (pdIdx virt) &&& PAGE_HUGE ≠ 0) :
    Leads (splitHugePde table (pdIdx virt))
      (fun next after => Arrived vm root virt 0 next after ∧
        ((next = 0 ∧ ∀ i, nextFrame vm.bitmap = some i → frameAddr i = 0) ∨
          ∃ i, nextFrame vm.bitmap = some i ∧ next = frameAddr i ∧
            after.bitmap = assign vm.bitmap i true)) vm := by
  rw [← indexOf_one] at present huge ⊢
  unfold splitHugePde
  rw [leads_bind, leads_get]
  dsimp only
  rw [if_neg present, if_neg huge]
  exact addTable_spec tree comes _ (Or.inr ⟨rfl, present, huge, rfl⟩)

theorem mapTable_arrives : Leads (mapTable table (pdIdx virt)) (Arrived vm root virt 0) vm := by
  rw [← indexOf_one]
  unfold mapTable
  rw [leads_bind, leads_get]
  dsimp only
  by_cases absent : vm.tables table (indexOf virt 1) &&& PAGE_PRESENT = 0
  · rw [if_neg (not_not.mpr absent)]
    exact newLevel_arrives tree comes absent
  · rw [if_pos absent]
    by_cases small : vm.tables table (indexOf virt 1) &&& PAGE_HUGE = 0
    · rw [if_neg (not_not.mpr small), leads_pure]
      exact .table _ _ (.refl tree) (comes_next comes absent small) fun _ _ => rfl
    · rw [if_pos small]
      exact (splitHugePde_arrives tree comes absent small).mono fun _ _ outcome => outcome.1

end PageTable

/-! ## The calls -/

/-- A 2 MB entry maps the address. -/
def MapsHuge (tables : Addr → Nat → Addr) (root virt : Addr) : Prop :=
  ∃ entry, walk (slotsOf tables) 3 root (indexOf virt) = some (1, entry)

/-- Every address of the page is given a new translation, and no other address. -/
def Updates (before after : Addr → Option Page) (virt : Addr) (page : Addr → Option Page) : Prop :=
  ∀ other, after other = if SamePage virt other then page other else before other

section Calls

variable {vm : Vm} {root virt : Addr}

/-- An entry of the address was written in a tree that has expanded. -/
theorem updates_write {grown : Vm} {pt entry : Addr} (expands : Expands root vm grown)
    (comes : LeadsTo grown.tables root (indexOf virt) 0 pt) :
    Updates (translation vm.tables root) (translation (grown.write root pt virt entry).tables root)
      virt fun other => if entry &&& PAGE_PRESENT = 0 then none else some (pageAt 0 entry other) := by
  intro other
  rw [write_translation expands.tree comes, expands.same]

/-- Where a slot is empty, none of the page is mapped. -/
theorem translation_of_empty {level : Nat} {table other : Addr}
    (comes : LeadsTo vm.tables root (indexOf virt) level table)
    (absent : vm.tables table (indexOf virt level) &&& PAGE_PRESENT = 0)
    (same : SamePage virt other) : translation vm.tables root other = none := by
  have agree := (samePage_iff_agree virt other).mp same
  have comes' := comes.transport fun j above bound => agree j (Nat.zero_le j) bound
  have empty : slotsOf vm.tables level table (indexOf other level) = .empty := by
    unfold slotsOf
    rw [agree level (Nat.zero_le level) comes.le, slotAt_absent absent]
  unfold translation
  rw [comes'.walk_eq, walk_of_empty empty]
  rfl

/-- A slot that is empty on the way, or a page table at its end, is no huge page. -/
theorem not_mapsHuge_of_empty {level : Nat} {table : Addr}
    (comes : LeadsTo vm.tables root (indexOf virt) level table)
    (absent : vm.tables table (indexOf virt level) &&& PAGE_PRESENT = 0) :
    ¬ MapsHuge vm.tables root virt := by
  rintro ⟨entry, found⟩
  have empty : slotsOf vm.tables level table (indexOf virt level) = .empty := slotAt_absent absent
  rw [comes.walk_eq, walk_of_empty empty] at found
  cases found

theorem not_mapsHuge_of_table {pt : Addr} (comes : LeadsTo vm.tables root (indexOf virt) 0 pt) :
    ¬ MapsHuge vm.tables root virt := by
  rintro ⟨entry, found⟩
  rw [comes.walk_eq, walk] at found
  split at found
  · cases found
  · cases found

/-- What `vmm_map_page` comes to: the entry is written, or there is no memory for all the
tables that are lacking. -/
inductive Fills (vm : Vm) (root virt entry : Addr) : Vm → Prop where
  | stuck (after : Vm) (expands : Expands root vm after) (ranOut : RanOut vm after)
      (drained : vm.bitmap 0 = true → ∀ virts, virt ∈ virts → Drained root virts vm after) :
      Fills vm root virt entry after
  | written (grown : Vm) (pt : Addr) (expands : Expands root vm grown)
      (comes : LeadsTo grown.tables root (indexOf virt) 0 pt)
      (spends : ∀ virts, virt ∈ virts → Spends root virts vm grown) :
      Fills vm root virt entry (grown.write root pt virt entry)

variable (tree : PageTables vm.toMemory root) (noGiant : NoGiant vm.tables root virt)

include tree noGiant

/-- `vmm_map_page` adds what is missing and writes the entry, or there is no memory. -/
theorem vmmMapPage_fills (phys flags : Addr) :
    Leads (vmmMapPage root virt phys flags)
      (fun _ => Fills vm root virt (leafEntry phys flags)) vm := by
  have atRoot : LeadsTo vm.tables root (indexOf virt) 3 root := .start
  unfold vmmMapPage
  rw [if_neg (tree.nonnull atRoot), leads_bind, ← indexOf_three]
  apply (getNextLevel_arrives tree atRoot (tree.small (indexOf virt 3))).mono
  intro pdp first arrived
  cases arrived with
  | stuck _ expands ranOut drained =>
      rw [if_pos rfl]
      exact .stuck first expands ranOut drained
  | table _ _ toPdp atPdp spends =>
      rw [if_neg (toPdp.tree.nonnull atPdp), leads_bind, ← indexOf_two]
      apply (getNextLevel_arrives toPdp.tree atPdp (toPdp.noGiant noGiant pdp atPdp)).mono
      intro pd second arrived
      cases arrived with
      | stuck _ expands ranOut drained =>
          rw [if_pos rfl]
          exact .stuck second (toPdp.trans expands) (toPdp.ranOut ranOut) fun reserved virts member =>
            (spends virts member).drained (drained (toPdp.bitmap reserved) virts member)
      | table _ _ toPd atPd spends' =>
          have expands := toPdp.trans toPd
          have spent := fun virts member => (spends virts member).trans (spends' virts member)
          rw [if_neg (toPd.tree.nonnull atPd), leads_bind]
          apply (mapTable_arrives toPd.tree atPd).mono
          intro pt third arrived
          cases arrived with
          | stuck _ last ranOut drained =>
              rw [if_pos rfl]
              exact .stuck third (expands.trans last) (expands.ranOut ranOut)
                fun reserved virts member =>
                  (spent virts member).drained (drained (expands.bitmap reserved) virts member)
          | table _ _ toPt atPt last =>
              rw [if_neg (toPt.tree.nonnull atPt)]
              exact .written third pt (expands.trans toPt) atPt
                fun virts member => (spent virts member).trans (last virts member)

/-- A call that fills in an entry writes it, or there is no memory. -/
theorem vmmMapPage_updates (phys flags : Addr) :
    Leads (vmmMapPage root virt phys flags)
      (fun _ after => (Expands root vm after ∧ RanOut vm after) ∨
        ∃ grown pt, Expands root vm grown ∧ LeadsTo grown.tables root (indexOf virt) 0 pt ∧
          after = grown.write root pt virt (leafEntry phys flags)) vm := by
  apply (vmmMapPage_fills tree noGiant phys flags).mono
  intro _ after outcome
  cases outcome with
  | stuck _ expands ranOut _ => exact Or.inl ⟨expands, ranOut⟩
  | written grown pt expands comes _ => exact Or.inr ⟨grown, pt, expands, comes, rfl⟩

/-- What `vmm_unmap_page` comes to. -/
inductive Unmaps (vm : Vm) (root virt : Addr) : Vm → Prop where
  /-- A 2 MB page cannot be split. -/
  | stuck (after : Vm) (huge : MapsHuge vm.tables root virt) (expands : Expands root vm after)
      (full : ∀ i, nextFrame vm.bitmap = some i → frameAddr i = 0) : Unmaps vm root virt after
  /-- A 2 MB page is split, and the entry cleared. -/
  | split (grown : Vm) (pt : Addr) (i : Nat) (huge : MapsHuge vm.tables root virt)
      (expands : Expands root vm grown) (comes : LeadsTo grown.tables root (indexOf virt) 0 pt)
      (search : nextFrame vm.bitmap = some i) (nonzero : frameAddr i ≠ 0)
      (taken : grown.bitmap = assign vm.bitmap i true) :
      Unmaps vm root virt (grown.write root pt virt 0)
  /-- The entry is cleared. -/
  | cleared (pt : Addr) (small : ¬ MapsHuge vm.tables root virt)
      (comes : LeadsTo vm.tables root (indexOf virt) 0 pt) :
      Unmaps vm root virt (vm.write root pt virt 0)
  /-- Nothing is mapped there. -/
  | absent (small : ¬ MapsHuge vm.tables root virt)
      (unmapped : ∀ other, SamePage virt other → translation vm.tables root other = none) :
      Unmaps vm root virt vm

/-- `vmm_unmap_page`. -/
theorem vmmUnmapPage_updates : Leads (vmmUnmapPage root virt) (fun _ => Unmaps vm root virt) vm := by
  have atRoot : LeadsTo vm.tables root (indexOf virt) 3 root := .start
  have stop : ∀ {level table}, LeadsTo vm.tables root (indexOf virt) level table →
      vm.tables table (indexOf virt level) &&& PAGE_PRESENT = 0 → Unmaps vm root virt vm :=
    fun comes absent => .absent (not_mapsHuge_of_empty comes absent)
      fun _ => translation_of_empty comes absent
  unfold vmmUnmapPage
  rw [if_neg (tree.nonnull atRoot), leads_bind, leads_get]
  dsimp only
  rw [← indexOf_three]
  by_cases noPdp : vm.tables root (indexOf virt 3) &&& PAGE_PRESENT = 0
  · rw [nextLevel_absent noPdp, if_pos rfl]
    exact stop atRoot noPdp
  · have small := tree.small (indexOf virt 3) noPdp
    have atPdp := comes_next atRoot noPdp small
    rw [nextLevel_eq noPdp small, if_neg (tree.nonnull atPdp), ← indexOf_two]
    generalize vm.tables root (indexOf virt 3) &&& PAGE_MASK = pdp at atPdp ⊢
    by_cases noPd : vm.tables pdp (indexOf virt 2) &&& PAGE_PRESENT = 0
    · rw [nextLevel_absent noPd, if_pos rfl]
      exact stop atPdp noPd
    · have small := noGiant pdp atPdp noPd
      rw [← indexOf_two] at small
      have atPd := comes_next atPdp noPd small
      rw [nextLevel_eq noPd small, if_neg (tree.nonnull atPd), leads_bind]
      generalize vm.tables pdp (indexOf virt 2) &&& PAGE_MASK = pd at atPd ⊢
      unfold unmapTable
      rw [leads_bind, leads_get]
      dsimp only
      by_cases absent : vm.tables pd (pdIdx virt) &&& PAGE_PRESENT = 0
      · by_cases huge : vm.tables pd (pdIdx virt) &&& PAGE_HUGE = 0
        · rw [if_neg (not_not.mpr huge), if_pos absent, leads_pure, if_pos rfl]
          exact stop atPd absent
        · unfold splitHugePde
          rw [if_pos huge, leads_bind, leads_get]
          dsimp only
          rw [if_pos absent, leads_pure, if_pos rfl]
          exact stop atPd absent
      · by_cases huge : vm.tables pd (pdIdx virt) &&& PAGE_HUGE = 0
        · rw [if_neg (not_not.mpr huge), if_neg absent, leads_pure]
          have atPt := comes_next atPd absent huge
          rw [indexOf_one] at atPt
          rw [if_neg (tree.nonnull atPt)]
          exact .cleared _ (not_mapsHuge_of_table atPt) atPt
        · rw [if_pos huge]
          have maps : MapsHuge vm.tables root virt :=
            ⟨_, atPd.walk_eq.trans (walk_of_leaf (slotAt_huge absent huge))⟩
          apply (splitHugePde_arrives tree atPd absent huge).mono
          rintro pt after ⟨arrived, outcome⟩
          cases arrived with
          | stuck _ expands _ _ =>
              rw [if_pos rfl]
              refine .stuck after maps expands ?_
              rcases outcome with ⟨-, full⟩ | ⟨i, search, null, -⟩
              · exact full
              · intro j search'
                rw [search] at search'
                cases search'
                exact null.symm
          | table _ _ expands atPt _ =>
              have nonzero := expands.tree.nonnull atPt
              rw [if_neg nonzero]
              rcases outcome with ⟨null, -⟩ | ⟨i, search, isFrame, taken⟩
              · exact absurd null nonzero
              · subst isFrame
                exact .split after _ i maps expands atPt search nonzero taken

end Calls

/-! ## The translation, computed and updated -/

/-- Some of the bits present, write and user. -/
def FlagsOnly (flags : Addr) : Prop :=
  flags &&& (PAGE_PRESENT ||| PAGE_WRITE ||| PAGE_USER) = flags

instance (flags : Addr) : Decidable (FlagsOnly flags) := inferInstanceAs (Decidable (_ = _))

instance (addr : Addr) : Decidable (Aligned addr) := inferInstanceAs (Decidable (_ = _))

theorem pageAt_leafEntry {phys flags : Addr} (aligned : Aligned phys) (only : FlagsOnly flags)
    (virt : Addr) : pageAt 0 (leafEntry phys flags) virt =
      ⟨phys ||| (virt &&& 0xFFF), flags ||| PAGE_PRESENT⟩ := by
  have mask : ~~~offsetMask 0 = PAGE_MASK := by decide
  have offset : offsetMask 0 = 0xFFF := by decide
  have above : (PAGE_PRESENT ||| PAGE_WRITE ||| PAGE_USER) &&& PAGE_MASK = 0 := by decide
  have one : PAGE_PRESENT &&& PAGE_MASK = 0 := by decide
  have oneFlag : PAGE_PRESENT &&& (PAGE_PRESENT ||| PAGE_WRITE ||| PAGE_USER) = PAGE_PRESENT := by
    decide
  have noFlags : flags &&& PAGE_MASK = 0 := by
    rw [← only, BitVec.and_assoc, above]
    exact BitVec.and_zero
  have noAddr : phys &&& (PAGE_PRESENT ||| PAGE_WRITE ||| PAGE_USER) = 0 :=
    aligned.and_low (by decide)
  have entry : leafEntry phys flags = phys ||| flags ||| PAGE_PRESENT := by
    rw [leafEntry, aligned]
  unfold pageAt
  rw [entry, mask, offset]
  congr 1
  · rw [BitVec.and_or_distrib_right, BitVec.and_or_distrib_right, aligned, noFlags, one]
    simp
  · rw [BitVec.and_or_distrib_right, BitVec.and_or_distrib_right, noAddr, only, oneFlag]
    simp

theorem leafEntry_translates {phys flags : Addr} (aligned : Aligned phys)
    (only : FlagsOnly flags) (virt : Addr) :
    (if leafEntry phys flags &&& PAGE_PRESENT = 0 then none
      else some (pageAt 0 (leafEntry phys flags) virt)) =
        some ⟨phys ||| (virt &&& 0xFFF), flags ||| PAGE_PRESENT⟩ := by
  rw [if_neg (leafEntry_present phys flags), pageAt_leafEntry aligned only]

section Statement

variable {vm : Vm} {root virt : Addr} (tree : PageTables vm.toMemory root)
  (noGiant : NoGiant vm.tables root virt)

include tree noGiant

/-- `vmm_virt_to_phys` computes the translation. -/
theorem vmmVirtToPhys_translation :
    vmmVirtToPhys vm.toMemory root virt =
      ((translation vm.tables root virt).map Page.phys).getD 0 := by
  have atRoot : LeadsTo vm.tables root (indexOf virt) 3 root := .start
  have stop : ∀ {level table}, LeadsTo vm.tables root (indexOf virt) level table →
      vm.tables table (indexOf virt level) &&& PAGE_PRESENT = 0 →
      translation vm.tables root virt = none :=
    fun comes absent => translation_of_empty comes absent ⟨rfl, rfl⟩
  unfold vmmVirtToPhys
  rw [if_neg (tree.nonnull atRoot), ← indexOf_three]
  by_cases noPdp : vm.tables root (indexOf virt 3) &&& PAGE_PRESENT = 0
  · rw [nextLevel_absent noPdp, stop atRoot noPdp]
    rfl
  · have small := tree.small (indexOf virt 3) noPdp
    have atPdp := comes_next atRoot noPdp small
    rw [nextLevel_eq noPdp small]
    simp only [if_neg (tree.nonnull atPdp)]
    rw [← indexOf_two]
    generalize vm.tables root (indexOf virt 3) &&& PAGE_MASK = pdp at atPdp ⊢
    by_cases noPd : vm.tables pdp (indexOf virt 2) &&& PAGE_PRESENT = 0
    · rw [nextLevel_absent noPd, stop atPdp noPd]
      rfl
    · have small := noGiant pdp atPdp noPd
      rw [← indexOf_two] at small
      have atPd := comes_next atPdp noPd small
      rw [nextLevel_eq noPd small]
      simp only [if_neg (tree.nonnull atPd)]
      rw [← indexOf_one]
      generalize vm.tables pdp (indexOf virt 2) &&& PAGE_MASK = pd at atPd ⊢
      by_cases absent : vm.tables pd (indexOf virt 1) &&& PAGE_PRESENT = 0
      · rw [if_pos absent, stop atPd absent]
        rfl
      · rw [if_neg absent]
        by_cases huge : vm.tables pd (indexOf virt 1) &&& PAGE_HUGE = 0
        · have atPt := comes_next atPd absent huge
          rw [if_neg (not_not.mpr huge), if_neg (tree.nonnull atPt), ← indexOf_zero]
          generalize vm.tables pd (indexOf virt 1) &&& PAGE_MASK = pt at atPt ⊢
          by_cases unmapped : vm.tables pt (indexOf virt 0) &&& PAGE_PRESENT = 0
          · rw [if_pos unmapped, stop atPt unmapped]
            rfl
          · have leaf : slotsOf vm.tables 0 pt (indexOf virt 0) =
                .leaf (vm.tables pt (indexOf virt 0)) := slotAt_bottom unmapped
            rw [if_neg unmapped, translation, atPt.walk_eq, walk_of_leaf leaf]
            rfl
        · have leaf : slotsOf vm.tables 1 pd (indexOf virt 1) =
              .leaf (vm.tables pd (indexOf virt 1)) := slotAt_huge absent huge
          rw [if_pos huge, translation, atPd.walk_eq, walk_of_leaf leaf]
          rfl

/-- Mapping a page is a point update of the translation, unless there is no memory. -/
theorem vmmMapPage_pointUpdate {phys flags : Addr} (aligned : Aligned phys)
    (only : FlagsOnly flags) :
    Leads (vmmMapPage root virt phys flags)
      (fun _ after => (translation after.tables root = translation vm.tables root ∧
          RanOut vm after) ∨
        Updates (translation vm.tables root) (translation after.tables root) virt fun other =>
          some ⟨phys ||| (other &&& 0xFFF), flags ||| PAGE_PRESENT⟩) vm := by
  apply (vmmMapPage_updates tree noGiant phys flags).mono
  intro _ after outcome
  rcases outcome with ⟨expands, ranOut⟩ | ⟨grown, pt, expands, comes, rfl⟩
  · exact Or.inl ⟨funext expands.same, ranOut⟩
  · right
    intro other
    rw [updates_write expands comes other]
    simp only [leafEntry_translates aligned only]

/-- Unmapping removes a page.  A huge page takes a frame, and stays if there is none. -/
theorem vmmUnmapPage_pointUpdate :
    Leads (vmmUnmapPage root virt)
      (fun _ after =>
        (¬ MapsHuge vm.tables root virt → after.bitmap = vm.bitmap ∧
          Updates (translation vm.tables root) (translation after.tables root) virt
            fun _ => none) ∧
        (MapsHuge vm.tables root virt →
          ((∀ i, nextFrame vm.bitmap = some i → frameAddr i = 0) ∧
            translation after.tables root = translation vm.tables root) ∨
          ∃ i, nextFrame vm.bitmap = some i ∧ frameAddr i ≠ 0 ∧
            after.bitmap = assign vm.bitmap i true ∧
            Updates (translation vm.tables root) (translation after.tables root) virt
              fun _ => none)) vm := by
  apply (vmmUnmapPage_updates tree noGiant).mono
  intro _ after outcome
  cases outcome with
  | stuck _ huge expands full =>
      exact ⟨fun small => absurd huge small, fun _ => Or.inl ⟨full, funext expands.same⟩⟩
  | split grown pt i huge expands comes search nonzero taken =>
      refine ⟨fun small => absurd huge small, fun _ => Or.inr ⟨i, search, nonzero, taken, ?_⟩⟩
      exact updates_write expands comes
  | cleared pt small comes =>
      refine ⟨fun _ => ⟨rfl, ?_⟩, fun huge => absurd huge small⟩
      exact updates_write (.refl tree) comes
  | absent small unmapped =>
      refine ⟨fun _ => ⟨rfl, fun other => ?_⟩, fun huge => absurd huge small⟩
      split
      · next same => exact unmapped other same
      · rfl

end Statement

/-- Mapping and unmapping are point updates of the translation, and
`vmm_virt_to_phys` computes it. -/
theorem mapping_pointUpdate (vm : Vm) (root virt : Addr) (tree : PageTables vm.toMemory root)
    (noGiant : NoGiant vm.tables root virt) :
    (∀ phys flags, Aligned phys → FlagsOnly flags →
      Leads (vmmMapPage root virt phys flags)
        (fun _ after => (translation after.tables root = translation vm.tables root ∧
            RanOut vm after) ∨
          Updates (translation vm.tables root) (translation after.tables root) virt fun other =>
            some ⟨phys ||| (other &&& 0xFFF), flags ||| PAGE_PRESENT⟩) vm) ∧
    Leads (vmmUnmapPage root virt)
      (fun _ after =>
        (¬ MapsHuge vm.tables root virt → after.bitmap = vm.bitmap ∧
          Updates (translation vm.tables root) (translation after.tables root) virt
            fun _ => none) ∧
        (MapsHuge vm.tables root virt →
          ((∀ i, nextFrame vm.bitmap = some i → frameAddr i = 0) ∧
            translation after.tables root = translation vm.tables root) ∨
          ∃ i, nextFrame vm.bitmap = some i ∧ frameAddr i ≠ 0 ∧
            after.bitmap = assign vm.bitmap i true ∧
            Updates (translation vm.tables root) (translation after.tables root) virt
              fun _ => none)) vm ∧
    vmmVirtToPhys vm.toMemory root virt =
      ((translation vm.tables root virt).map Page.phys).getD 0 :=
  ⟨fun _ _ aligned only => vmmMapPage_pointUpdate tree noGiant aligned only,
    vmmUnmapPage_pointUpdate tree noGiant, vmmVirtToPhys_translation tree noGiant⟩

/-- A kernel page, mapped to the second 2 MB of memory. -/
theorem mapping_pointUpdate_boot :
    Leads (vmmMapPage smallImage.pml4 0x1000 0x200000 (PAGE_WRITE ||| PAGE_USER))
      (fun _ after =>
        (translation after.tables smallImage.pml4 =
            translation (bootVm smallImage [] fun _ _ => 0).tables smallImage.pml4 ∧
          RanOut (bootVm smallImage [] fun _ _ => 0) after) ∨
        Updates (translation (bootVm smallImage [] fun _ _ => 0).tables smallImage.pml4)
          (translation after.tables smallImage.pml4) 0x1000 fun other =>
            some ⟨0x200000 ||| (other &&& 0xFFF), PAGE_WRITE ||| PAGE_USER ||| PAGE_PRESENT⟩)
      (bootVm smallImage [] fun _ _ => 0) := by
  have placed := (bootVm_started smallImage [] fun _ _ => 0).placed
  have point := mapping_pointUpdate (bootVm smallImage [] fun _ _ => 0) smallImage.pml4 0x1000
    (placed.pageTables smallImage.place_pml4) (placed.noGiant smallImage.place_pml4 0x1000)
  exact point.1 0x200000 (PAGE_WRITE ||| PAGE_USER) (by decide) (by decide)

end Notux.Vmm
