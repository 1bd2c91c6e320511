import Notux.Store.Radix
import Notux.Vmm.Mapping
import Mathlib.Data.Finset.Union

/-!
# What the page tables mean

The translation of an address by the four levels of tables, with huge pages of
2 MB and of 1 GB: a physical address, and the flags of the entry that maps it.
The tables of a root form a tree when none of them has two places and none is a
frame the allocator still has to give.  A table that is added to the tree where
nothing was mapped, or that repeats a huge page, leaves every translation as it
was.
-/

namespace Notux.Vmm

open Notux.Store

/-! ## Translation -/

/-- The bits of an address inside a page that an entry of the level maps. -/
def offsetMask (level : Nat) : Addr := BitVec.ofNat 64 (2 ^ (12 + 9 * level) - 1)

/-- The index of an address at a level. -/
def indexOf (virt : Addr) (level : Nat) : Fin 512 :=
  ⟨((virt >>> (12 + 9 * level)) &&& 0x1FF).toNat, idx_lt _⟩

/-- How an entry reads at a level.  There are no huge pages at the level of the
root. -/
def slotAt (level : Nat) (entry : Addr) : Slot Addr Addr :=
  if entry &&& PAGE_PRESENT = 0 then .empty
  else if level = 0 then .leaf entry
  else if entry &&& PAGE_HUGE ≠ 0 then (if level = 3 then .empty else .leaf entry)
  else .next (entry &&& PAGE_MASK)

/-- The slots of the tables in memory. -/
def slotsOf (tables : Addr → Nat → Addr) : Slots Addr Addr (Fin 512) :=
  fun level table i => slotAt level (tables table i)

/-- Where an address is mapped, and the flags of its page. -/
structure Page where
  phys : Addr
  flags : Addr
deriving DecidableEq

/-- What an entry of a level makes of an address. -/
def pageAt (level : Nat) (entry virt : Addr) : Page where
  phys := (entry &&& ~~~offsetMask level) ||| (virt &&& offsetMask level)
  flags := entry &&& (PAGE_PRESENT ||| PAGE_WRITE ||| PAGE_USER)

/-- The translation of an address. -/
def translation (tables : Addr → Nat → Addr) (root virt : Addr) : Option Page :=
  (walk (slotsOf tables) 3 root (indexOf virt)).map fun (level, entry) => pageAt level entry virt

/-- A walk of the indices comes to a table at a level. -/
abbrev LeadsTo (tables : Addr → Nat → Addr) (root : Addr) (index : Nat → Fin 512) :
    Nat → Addr → Prop :=
  Comes (slotsOf tables) 3 root index

/-- The tables of a root are a tree of frames that are in use, and the root holds no
huge page. -/
structure PageTables (memory : Memory) (root : Addr) : Prop where
  unshared : Unshared (slotsOf memory.tables) 3 root
  nonnull : ∀ {index level table}, LeadsTo memory.tables root index level table → table ≠ 0
  inUse : ∀ {index level table}, LeadsTo memory.tables root index level table →
    ∀ i < MAX_PAGES, memory.bitmap i = false → table ≠ frameAddr i
  small : ∀ i : Fin 512, memory.tables root i &&& PAGE_PRESENT ≠ 0 →
    memory.tables root i &&& PAGE_HUGE = 0

/-- No 1 GB entry maps the address. -/
def NoGiant (tables : Addr → Nat → Addr) (root virt : Addr) : Prop :=
  ∀ table, LeadsTo tables root (indexOf virt) 2 table →
    tables table (pdpIdx virt) &&& PAGE_PRESENT ≠ 0 → tables table (pdpIdx virt) &&& PAGE_HUGE = 0

/-! ## Entries -/

section

variable {level : Nat} {entry : Addr}

theorem slotAt_absent (absent : entry &&& PAGE_PRESENT = 0) : slotAt level entry = .empty :=
  if_pos absent

theorem slotAt_bottom (present : entry &&& PAGE_PRESENT ≠ 0) : slotAt 0 entry = .leaf entry := by
  rw [slotAt, if_neg present, if_pos rfl]

theorem slotAt_next (present : entry &&& PAGE_PRESENT ≠ 0) (small : entry &&& PAGE_HUGE = 0) :
    slotAt (level + 1) entry = .next (entry &&& PAGE_MASK) := by
  rw [slotAt, if_neg present, if_neg (Nat.succ_ne_zero level), if_neg (not_not.mpr small)]

theorem slotAt_huge (present : entry &&& PAGE_PRESENT ≠ 0) (huge : entry &&& PAGE_HUGE ≠ 0) :
    slotAt 1 entry = .leaf entry := by
  rw [slotAt, if_neg present, if_neg (by decide), if_pos huge, if_neg (by decide)]

theorem slotAt_tableEntry {table : Addr} (aligned : Aligned table) :
    slotAt (level + 1) (tableEntry table) = .next table := by
  rw [slotAt_next (tableEntry_present table) (tableEntry_not_huge aligned),
    tableEntry_mask aligned]

theorem slotAt_bottom_ne_next (below : Addr) : slotAt 0 entry ≠ .next below := by
  by_cases absent : entry &&& PAGE_PRESENT = 0
  · rw [slotAt_absent absent]
    exact nofun
  · rw [slotAt_bottom absent]
    exact nofun

end

theorem indexOf_three (virt : Addr) : (indexOf virt 3 : Nat) = pml4Idx virt := rfl

theorem indexOf_two (virt : Addr) : (indexOf virt 2 : Nat) = pdpIdx virt := rfl

theorem indexOf_one (virt : Addr) : (indexOf virt 1 : Nat) = pdIdx virt := rfl

theorem indexOf_zero (virt : Addr) : (indexOf virt 0 : Nat) = ptIdx virt := rfl

instance (virt other : Addr) : Decidable (SamePage virt other) :=
  inferInstanceAs (Decidable (_ ∧ _))

/-- Addresses of one page are the ones that have all indices in common. -/
theorem samePage_iff_agree (virt other : Addr) :
    SamePage virt other ↔ Agree 3 0 (indexOf virt) (indexOf other) := by
  constructor
  · rintro ⟨path, last⟩ j - bound
    simp only [tablePath, List.cons.injEq, and_true] at path
    obtain ⟨first, second, third⟩ := path
    apply Fin.ext
    obtain rfl | rfl | rfl | rfl : j = 0 ∨ j = 1 ∨ j = 2 ∨ j = 3 := by omega
    · exact last.symm
    · exact third.symm
    · exact second.symm
    · exact first.symm
  · intro agree
    have same : ∀ j ≤ 3, (indexOf other j : Nat) = indexOf virt j := fun j bound =>
      congrArg Fin.val (agree j (Nat.zero_le j) bound)
    have first : pml4Idx other = pml4Idx virt := same 3 (by omega)
    have second : pdpIdx other = pdpIdx virt := same 2 (by omega)
    have third : pdIdx other = pdIdx virt := same 1 (by omega)
    have last : ptIdx other = ptIdx virt := same 0 (by omega)
    unfold SamePage tablePath
    rw [first, second, third, last]
    exact ⟨rfl, rfl⟩

/-- A small page maps an address as its huge page did. -/
theorem pageAt_smallPages (pde virt : Addr) :
    pageAt 0 (smallPages pde (ptIdx virt)) virt = pageAt 1 pde virt := by
  have small : offsetMask 0 = 0xFFF := by decide
  have huge : offsetMask 1 = 0x1FFFFF := by decide
  have keeps : (PAGE_PRESENT ||| PAGE_WRITE ||| PAGE_USER) &&&
      (PAGE_PRESENT ||| PAGE_WRITE ||| PAGE_USER) = PAGE_PRESENT ||| PAGE_WRITE ||| PAGE_USER := by
    decide
  have mask : HUGE_MASK &&& (PAGE_PRESENT ||| PAGE_WRITE ||| PAGE_USER) = 0 := by decide
  have page : (0x1FF000 : Addr) &&& (PAGE_PRESENT ||| PAGE_WRITE ||| PAGE_USER) = 0 := by decide
  have apart : (pde &&& HUGE_MASK) &&& (virt &&& 0x1FF000) = 0 := by
    have masks : HUGE_MASK &&& (0x1FF000 : Addr) = 0 := by decide
    calc (pde &&& HUGE_MASK) &&& (virt &&& 0x1FF000)
        = (pde &&& virt) &&& (HUGE_MASK &&& 0x1FF000) := by ac_rfl
      _ = 0 := by rw [masks]; exact BitVec.and_zero
  unfold pageAt
  congr 1
  · rw [small, huge]
    exact smallPages_translate pde virt
  · rw [smallPages, smallPage_offset, BitVec.add_eq_or_of_and_eq_zero _ _ apart,
      BitVec.and_or_distrib_right, BitVec.and_or_distrib_right,
      BitVec.and_assoc pde HUGE_MASK, mask, BitVec.and_assoc virt, page,
      BitVec.and_assoc pde _ (PAGE_PRESENT ||| PAGE_WRITE ||| PAGE_USER), keeps]
    simp

/-! ## Trees of places -/

/-- The indices of a walk from the root down to a level. -/
def indicesTo (index : Nat → Fin 512) (level : Nat) : List Nat :=
  (List.range (3 - level)).map fun j => (index (3 - j) : Nat)

theorem indicesTo_succ (index : Nat → Fin 512) {level : Nat} (bound : level + 1 ≤ 3) :
    indicesTo index level = indicesTo index (level + 1) ++ [(index (level + 1) : Nat)] := by
  unfold indicesTo
  have length : 3 - level = 3 - (level + 1) + 1 := by omega
  have last : 3 - (3 - (level + 1)) = level + 1 := by omega
  rw [length, List.range_succ, List.map_append, List.map_singleton, last]

theorem agree_of_indicesTo {index other : Nat → Fin 512} {level : Nat}
    (same : indicesTo index level = indicesTo other level) : Agree 3 (level + 1) index other := by
  intro j above bound
  have member : 3 - j ∈ List.range (3 - level) := List.mem_range.mpr (by omega)
  have value := List.map_inj_left.mp same (3 - j) member
  have place : 3 - (3 - j) = j := by omega
  rw [place] at value
  exact Fin.ext value.symm

section Places

variable {memory : Memory} {place : Addr → Option (List Nat)} (placed : Placed memory place)
  {root : Addr} (isRoot : place root = some [])

include placed isRoot

/-- A walk comes to tables at the places it spells. -/
theorem Placed.place_of_leadsTo {index : Nat → Fin 512} {level : Nat} {table : Addr}
    (comes : LeadsTo memory.tables root index level table) :
    place table = some (indicesTo index level) := by
  induction comes with
  | start => exact isRoot
  | @next level table below comes leads ih =>
      have bound := comes.le
      unfold slotsOf slotAt at leads
      split at leads
      · cases leads
      · next present =>
        rw [if_neg (Nat.succ_ne_zero level)] at leads
        split at leads
        · split at leads <;> cases leads
        · next small =>
          cases leads
          rw [indicesTo_succ index bound]
          have short : (indicesTo index (level + 1)).length < 3 := by
            rw [indicesTo, List.length_map, List.length_range]
            omega
          exact placed.child ih short _ present (not_not.mp small)

/-- Tables with places are a tree. -/
theorem Placed.pageTables : PageTables memory root where
  unshared := by
    intro index other level level' table first second
    have place₁ := placed.place_of_leadsTo isRoot first
    have place₂ := placed.place_of_leadsTo isRoot second
    rw [place₁] at place₂
    have same := Option.some.inj place₂
    have levels : level = level' := by
      have lengths := congrArg List.length same
      simp only [indicesTo, List.length_map, List.length_range] at lengths
      have bound := first.le
      have bound' := second.le
      omega
    subst levels
    exact ⟨rfl, agree_of_indicesTo same⟩
  nonnull comes := placed.ne_zero (placed.place_of_leadsTo isRoot comes)
  inUse comes i bound free := by
    obtain ⟨j, bound', -, taken, rfl⟩ := placed.used (placed.place_of_leadsTo isRoot comes)
    intro same
    rw [frameAddr_inj bound' bound same, free] at taken
    cases taken
  small i := placed.small isRoot (by decide) i

theorem Placed.noGiant (virt : Addr) : NoGiant memory.tables root virt := by
  intro table comes
  apply placed.small (placed.place_of_leadsTo isRoot comes)
  simp [indicesTo]

end Places

/-! ## Adding a table -/

/-- The next frame may be hung behind the entry of an address: as an empty table where
nothing is, or as a table that repeats a huge page. -/
structure Adds (vm : Vm) (root virt : Addr) (level : Nat) (table : Addr) (i : Nat)
    (entries : Nat → Addr) : Prop where
  tree : PageTables vm.toMemory root
  comes : LeadsTo vm.tables root (indexOf virt) (level + 1) table
  search : nextFrame vm.bitmap = some i
  nonzero : frameAddr i ≠ 0
  blank : (vm.tables table (indexOf virt (level + 1)) &&& PAGE_PRESENT = 0 ∧ ∀ j, entries j = 0) ∨
    (level = 0 ∧ vm.tables table (indexOf virt (level + 1)) &&& PAGE_PRESENT ≠ 0 ∧
      vm.tables table (indexOf virt (level + 1)) &&& PAGE_HUGE ≠ 0 ∧
      entries = smallPages (vm.tables table (indexOf virt (level + 1))))

/-- The machine after the frame was hung there. -/
def Vm.add (vm : Vm) (table : Addr) (idx : Nat) (i : Nat) (entries : Nat → Addr) : Vm :=
  { vm.take i with tables := attached vm.tables table idx (frameAddr i) entries }

namespace Adds

variable {vm : Vm} {root virt : Addr} {level : Nat} {table : Addr} {i : Nat}
  {entries : Nat → Addr} (adds : Adds vm root virt level table i entries)

include adds

theorem fresh {index : Nat → Fin 512} {k : Nat} {t : Addr}
    (comes : LeadsTo vm.tables root index k t) : t ≠ frameAddr i := by
  obtain ⟨bound, free⟩ := nextFrame_bound adds.search
  exact adds.tree.inUse comes i bound free

theorem after_of_ne {t : Addr} {j : Nat} (old : t ≠ frameAddr i)
    (differ : t ≠ table ∨ j ≠ indexOf virt (level + 1)) :
    (vm.add table (indexOf virt (level + 1)) i entries).tables t j = vm.tables t j := by
  by_cases same : t = table
  · subst same
    have other := differ.resolve_left (not_not.mpr rfl)
    simp [Vm.add, attached, other, old]
  · simp [Vm.add, attached, same, old]

theorem after_new (j : Nat) :
    (vm.add table (indexOf virt (level + 1)) i entries).tables (frameAddr i) j = entries j := by
  have differ := (adds.fresh adds.comes).symm
  simp [Vm.add, attached, differ]

omit adds in
theorem after_entry :
    (vm.add table (indexOf virt (level + 1)) i entries).tables table (indexOf virt (level + 1)) =
      tableEntry (frameAddr i) :=
  Attaches.attached_entry

theorem changes : Changes (slotsOf vm.tables)
    (slotsOf (vm.add table (indexOf virt (level + 1)) i entries).tables) 3 root (indexOf virt)
    (level + 1) table (frameAddr i) where
  unshared := adds.tree.unshared
  comes := adds.comes
  unreached comes := adds.fresh comes rfl
  elsewhere := by
    intro k t j old differ
    unfold slotsOf
    rw [adds.after_of_ne old (differ.imp_right fun ne same => ne (Fin.ext same))]

theorem leads {other : Nat → Fin 512} (agree : Agree 3 (level + 1) (indexOf virt) other) :
    slotsOf (vm.add table (indexOf virt (level + 1)) i entries).tables (level + 1) table
      (other (level + 1)) = .next (frameAddr i) := by
  have bound := adds.comes.le
  rw [agree (level + 1) (Nat.le_refl _) bound]
  unfold slotsOf
  rw [after_entry, slotAt_tableEntry (aligned_frameAddr i)]

theorem ends (j : Fin 512) (below : Addr) :
    slotsOf (vm.add table (indexOf virt (level + 1)) i entries).tables level (frameAddr i) j ≠
      .next below := by
  unfold slotsOf
  rw [adds.after_new]
  rcases adds.blank with ⟨-, zero⟩ | ⟨bottom, -⟩
  · rw [zero, slotAt_absent (by decide)]
    exact nofun
  · rw [bottom]
    exact slotAt_bottom_ne_next below

/-- The tables a walk comes to afterwards. -/
theorem comes_after {index : Nat → Fin 512} {k : Nat} {t : Addr}
    (comes : LeadsTo (vm.add table (indexOf virt (level + 1)) i entries).tables root index k t) :
    LeadsTo vm.tables root index k t ∨ (t = frameAddr i ∧ k = level) := by
  rcases adds.changes.comes_attached (fun _ => adds.leads) adds.ends comes with
    old | ⟨new, place, -⟩
  · exact Or.inl old
  · exact Or.inr ⟨new, Nat.succ.inj place⟩

theorem comes_new : LeadsTo (vm.add table (indexOf virt (level + 1)) i entries).tables root
    (indexOf virt) level (frameAddr i) := by
  have agree : Agree 3 (level + 1) (indexOf virt) (indexOf virt) := fun _ _ _ => rfl
  exact (adds.changes.comes_of_agree agree).next (adds.leads agree)

/-- No translation changes. -/
theorem translation_after (other : Addr) :
    translation (vm.add table (indexOf virt (level + 1)) i entries).tables root other =
      translation vm.tables root other := by
  unfold translation
  by_cases agree : Agree 3 (level + 1) (indexOf virt) (indexOf other)
  · have bound := adds.comes.le
    have before := (adds.comes.transport fun j above le => agree j (by omega) le).walk_eq
    have same := agree (level + 1) (Nat.le_refl _) bound
    rw [before, adds.changes.walk_of_agree agree, walk_of_next (adds.leads agree)]
    rcases adds.blank with ⟨absent, zero⟩ | ⟨bottom, present, huge, copies⟩
    · rw [walk_of_empty, walk_of_empty]
      · unfold slotsOf
        rw [same, slotAt_absent absent]
      · unfold slotsOf
        rw [adds.after_new, zero, slotAt_absent (by decide)]
    · subst bottom copies
      have leaf : slotsOf vm.tables 1 table (indexOf other 1) =
          .leaf (vm.tables table (indexOf virt 1)) := by
        unfold slotsOf
        rw [same, slotAt_huge present huge]
      have small : slotsOf (vm.add table (indexOf virt 1) i
          (smallPages (vm.tables table (indexOf virt 1)))).tables 0 (frameAddr i)
            (indexOf other 0) =
          .leaf (smallPages (vm.tables table (indexOf virt 1)) (indexOf other 0)) := by
        unfold slotsOf
        rw [adds.after_new, slotAt_bottom (smallPages_present present _)]
      rw [walk_of_leaf leaf, walk_of_leaf small]
      exact congrArg some (pageAt_smallPages _ other)
  · rw [adds.changes.walk_of_not_agree agree]

/-- The tree has one more table. -/
theorem tree_after :
    PageTables (vm.add table (indexOf virt (level + 1)) i entries).toMemory root where
  unshared := adds.changes.unshared_attached (fun _ => adds.leads) adds.ends
  nonnull comes := by
    rcases adds.comes_after comes with old | ⟨rfl, -⟩
    · exact adds.tree.nonnull old
    · exact adds.nonzero
  inUse comes j bound free := by
    have before : vm.bitmap j = false := by
      by_contra taken
      have still : (vm.take i).bitmap j = true := Vm.take_bitmap (Bool.eq_true_of_not_eq_false taken)
      change (vm.take i).bitmap j = false at free
      rw [free] at still
      cases still
    rcases adds.comes_after comes with old | ⟨rfl, -⟩
    · exact adds.tree.inUse old j bound before
    · intro same
      have bound' := (nextFrame_bound adds.search).1
      rw [← frameAddr_inj bound' bound same] at free
      have marked : (vm.add table (indexOf virt (level + 1)) i entries).bitmap i = true :=
        assign_self
      rw [marked] at free
      cases free
  small j present := by
    have atRoot : LeadsTo vm.tables root (indexOf virt) 3 root := .start
    have old := adds.fresh atRoot
    by_cases differ : root ≠ table ∨ (j : Nat) ≠ indexOf virt (level + 1)
    · change (vm.add table (indexOf virt (level + 1)) i entries).tables root j &&& _ ≠ 0 at present
      change (vm.add table (indexOf virt (level + 1)) i entries).tables root j &&& _ = 0
      rw [adds.after_of_ne old differ] at present ⊢
      exact adds.tree.small j present
    · obtain ⟨rfl, same⟩ := not_or.mp differ |>.imp not_not.mp not_not.mp
      change (vm.add root (indexOf virt (level + 1)) i entries).tables root j &&& _ = 0
      rw [same, after_entry]
      exact tableEntry_not_huge (aligned_frameAddr i)

/-- There is no new huge page of 1 GB. -/
theorem noGiant_after {other : Addr} (noGiant : NoGiant vm.tables root other) :
    NoGiant (vm.add table (indexOf virt (level + 1)) i entries).tables root other := by
  intro t comes present
  rcases adds.comes_after comes with old | ⟨rfl, rfl⟩
  · by_cases differ : t ≠ table ∨ pdpIdx other ≠ indexOf virt (level + 1)
    · rw [adds.after_of_ne (adds.fresh old) differ] at present ⊢
      exact noGiant t old present
    · obtain ⟨rfl, same⟩ := not_or.mp differ |>.imp not_not.mp not_not.mp
      rw [same, after_entry]
      exact tableEntry_not_huge (aligned_frameAddr i)
  · rw [adds.after_new] at present ⊢
    rcases adds.blank with ⟨-, zero⟩ | ⟨bottom, -⟩
    · rw [zero]
      decide
    · cases bottom

/-- The tables a walk came to stay. -/
theorem comes_kept {index : Nat → Fin 512} {k : Nat} {t : Addr}
    (comes : LeadsTo vm.tables root index k t) :
    LeadsTo (vm.add table (indexOf virt (level + 1)) i entries).tables root index k t := by
  induction comes with
  | start => exact .start
  | @next k t below comes leads ih =>
      apply Comes.next ih
      rw [adds.changes.elsewhere (adds.fresh comes), leads]
      by_contra here
      obtain ⟨rfl, same⟩ := not_or.mp here |>.imp not_not.mp not_not.mp
      unfold slotsOf at leads
      rw [same] at leads
      rcases adds.blank with ⟨absent, -⟩ | ⟨-, present, huge, -⟩
      · rw [slotAt_absent absent] at leads
        cases leads
      · rw [slotAt, if_neg present, if_neg (Nat.succ_ne_zero k), if_pos huge] at leads
        split at leads <;> cases leads

end Adds

/-! ## The tables that are not there -/

/-- The indices on the way to each table that some addresses lack. -/
def lacking (tables : Addr → Nat → Addr) (root : Addr) (virts : List Addr) :
    Finset (List Nat) :=
  virts.toFinset.biUnion fun virt =>
    ((Finset.range 3).filter fun level =>
      reach (slotsOf tables) 3 root (indexOf virt) (3 - level) = none).image
        (indicesTo (indexOf virt))

theorem mem_lacking {tables : Addr → Nat → Addr} {root : Addr} {virts : List Addr}
    {path : List Nat} : path ∈ lacking tables root virts ↔
      ∃ virt ∈ virts, ∃ level < 3, (∀ table, ¬ LeadsTo tables root (indexOf virt) level table) ∧
        indicesTo (indexOf virt) level = path := by
  have nowhere : ∀ {virt : Addr} {level : Nat}, level < 3 →
      (reach (slotsOf tables) 3 root (indexOf virt) (3 - level) = none ↔
        ∀ table, ¬ LeadsTo tables root (indexOf virt) level table) := by
    intro virt level bound
    have place : 3 - (3 - level) = level := by omega
    have reached := fun table =>
      @comes_iff_reach _ _ _ (slotsOf tables) _ root table (indexOf virt) _ (Nat.sub_le 3 level)
    rw [place] at reached
    rw [Option.eq_none_iff_forall_not_mem]
    exact forall_congr' fun table => not_congr (reached table).symm
  unfold lacking
  simp only [Finset.mem_biUnion, List.mem_toFinset, Finset.mem_image, Finset.mem_filter,
    Finset.mem_range]
  constructor
  · rintro ⟨virt, member, level, ⟨bound, none⟩, same⟩
    exact ⟨virt, member, level, bound, (nowhere bound).mp none, same⟩
  · rintro ⟨virt, member, level, bound, none, same⟩
    exact ⟨virt, member, level, ⟨bound, (nowhere bound).mpr none⟩, same⟩

/-- An address lacks three tables at most. -/
theorem card_lacking_le (tables : Addr → Nat → Addr) (root virt : Addr) :
    (lacking tables root [virt]).card ≤ 3 := by
  unfold lacking
  rw [List.toFinset_cons, List.toFinset_nil, insert_empty_eq, Finset.singleton_biUnion]
  calc _ ≤ _ := Finset.card_image_le
    _ ≤ (Finset.range 3).card := Finset.card_filter_le _ _
    _ = 3 := Finset.card_range 3

/-- An address with a page table lacks no table. -/
theorem lacking_eq_empty {tables : Addr → Nat → Addr} {root virt pt : Addr}
    (comes : LeadsTo tables root (indexOf virt) 0 pt) : lacking tables root [virt] = ∅ := by
  apply Finset.eq_empty_of_forall_notMem
  intro path member
  obtain ⟨other, isOne, level, bound, none, -⟩ := mem_lacking.mp member
  obtain rfl := List.mem_singleton.mp isOne
  obtain ⟨table, passes⟩ := comes.above (Nat.zero_le level) (Nat.le_of_lt bound)
  exact none table passes

theorem indicesTo_of_agree {index other : Nat → Fin 512} {level : Nat}
    (agree : Agree 3 (level + 1) index other) : indicesTo index level = indicesTo other level := by
  apply List.map_congr_left
  intro j member
  have bound := List.mem_range.mp member
  rw [agree (3 - j) (by omega) (by omega)]

/-- The table that is added is one that was lacking. -/
theorem Adds.lacking_after {vm : Vm} {root virt : Addr} {level : Nat} {table : Addr} {i : Nat}
    {entries : Nat → Addr} (adds : Adds vm root virt level table i entries) {virts : List Addr}
    (member : virt ∈ virts) :
    indicesTo (indexOf virt) level ∈ lacking vm.tables root virts ∧
      lacking (vm.add table (indexOf virt (level + 1)) i entries).tables root virts =
        (lacking vm.tables root virts).erase (indicesTo (indexOf virt) level) := by
  have bound : level < 3 := adds.comes.le
  have before : ∀ t, ¬ LeadsTo vm.tables root (indexOf virt) level t := by
    intro t comes
    have new := (adds.comes_kept comes).unique adds.comes_new
    exact adds.fresh comes new
  constructor
  · exact mem_lacking.mpr ⟨virt, member, level, bound, before, rfl⟩
  · ext path
    rw [Finset.mem_erase, mem_lacking, mem_lacking]
    constructor
    · rintro ⟨other, isOne, level', bound', none, rfl⟩
      constructor
      · intro same
        have lengths := congrArg List.length same
        simp only [indicesTo, List.length_map, List.length_range] at lengths
        obtain rfl : level' = level := by omega
        exact none _ (adds.comes_new.transport (agree_of_indicesTo same.symm))
      · exact ⟨other, isOne, level', bound', fun t comes => none t (adds.comes_kept comes), rfl⟩
    · rintro ⟨differ, other, isOne, level', bound', none, rfl⟩
      refine ⟨other, isOne, level', bound', fun t comes => ?_, rfl⟩
      rcases adds.changes.comes_attached (fun _ => adds.leads) adds.ends comes with
        old | ⟨-, place, agree⟩
      · exact none t old
      · obtain rfl := Nat.succ.inj place
        exact differ (indicesTo_of_agree agree).symm

/-! ## Writing an entry -/

section Writing

variable {vm : Vm} {root virt pt entry : Addr} (tree : PageTables vm.toMemory root)
  (comes : LeadsTo vm.tables root (indexOf virt) 0 pt)

include tree comes

theorem write_changes : Changes (slotsOf vm.tables) (slotsOf (vm.write root pt virt entry).tables) 3
    root (indexOf virt) 0 pt 0 where
  unshared := tree.unshared
  comes := comes
  unreached comes := tree.nonnull comes rfl
  elsewhere := by
    intro level t j _ differ
    unfold slotsOf
    congr 1
    by_cases same : t = pt
    · subst same
      have other : (j : Nat) ≠ ptIdx virt := fun equal =>
        differ.resolve_left (not_not.mpr rfl) (Fin.ext equal)
      simp [Vm.write, other]
    · simp [Vm.write, same]

theorem write_tree : PageTables (vm.write root pt virt entry).toMemory root where
  unshared := (write_changes tree comes).unshared_bottom rfl
  nonnull comes' := tree.nonnull ((write_changes tree comes).comes_bottom rfl comes')
  inUse comes' := tree.inUse ((write_changes tree comes).comes_bottom rfl comes')
  small := by
    have atRoot : LeadsTo vm.tables root (indexOf virt) 3 root := .start
    have notRoot : root ≠ pt := by
      rintro rfl
      have level := (tree.unshared atRoot comes).1
      omega
    intro j present
    change (vm.write root pt virt entry).tables root j &&& _ ≠ 0 at present
    simp only [Vm.write, assign_of_ne notRoot] at present ⊢
    exact tree.small j present

theorem write_noGiant {other : Addr} (noGiant : NoGiant vm.tables root other) :
    NoGiant (vm.write root pt virt entry).tables root other := by
  intro t comes' present
  have before := (write_changes tree comes).comes_bottom rfl comes'
  have notPt : t ≠ pt := by
    rintro rfl
    have level := (tree.unshared before comes).1
    omega
  simp only [Vm.write, assign_of_ne notPt] at present ⊢
  exact noGiant t before present

/-- The tables are the same ones. -/
theorem write_comes_iff {index : Nat → Fin 512} {level : Nat} {table : Addr} :
    LeadsTo (vm.write root pt virt entry).tables root index level table ↔
      LeadsTo vm.tables root index level table := by
  constructor
  · exact (write_changes tree comes).comes_bottom rfl
  · intro comes'
    induction comes' with
    | start => exact .start
    | @next level table below above leads ih =>
        apply Comes.next ih
        have notPt : table ≠ pt := by
          rintro rfl
          have level := (tree.unshared above comes).1
          omega
        unfold slotsOf at leads ⊢
        simp only [Vm.write, assign_of_ne notPt]
        exact leads

theorem write_lacking (virts : List Addr) :
    lacking (vm.write root pt virt entry).tables root virts = lacking vm.tables root virts := by
  ext path
  simp only [mem_lacking, write_comes_iff tree comes]

/-- The entry maps the addresses of its page, and no others. -/
theorem write_translation (other : Addr) :
    translation (vm.write root pt virt entry).tables root other =
      if SamePage virt other then
        if entry &&& PAGE_PRESENT = 0 then none else some (pageAt 0 entry other)
      else translation vm.tables root other := by
  have changes := @write_changes _ _ _ _ entry tree comes
  unfold translation
  by_cases same : SamePage virt other
  · have agree := (samePage_iff_agree virt other).mp same
    have slot : slotsOf (vm.write root pt virt entry).tables 0 pt (indexOf other 0) =
        slotAt 0 entry := by
      unfold slotsOf
      rw [agree 0 (Nat.le_refl _) (by omega), indexOf_zero]
      simp [Vm.write]
    rw [if_pos same, changes.walk_of_agree agree]
    by_cases absent : entry &&& PAGE_PRESENT = 0
    · rw [if_pos absent, walk_of_empty (slot.trans (slotAt_absent absent))]
      rfl
    · rw [if_neg absent, walk_of_leaf (slot.trans (slotAt_bottom absent))]
      rfl
  · have differ : ¬ Agree 3 0 (indexOf virt) (indexOf other) := fun agree =>
      same ((samePage_iff_agree virt other).mpr agree)
    rw [if_neg same, changes.walk_of_not_agree differ]

end Writing

end Notux.Vmm
