import Notux.Vmm.Tables

/-!
# Mapping and unmapping a page

Both calls first find or make the page table of the address, which no root
notices, and then write one entry of it.
-/

namespace Notux.Vmm

open Notux.Store

/-! ## Taking a frame -/

/-- The machine has grown, and so has the memory before each new frame. -/
structure Grows (before after : Vm) (place place' : Places) : Prop where
  memory : Grown before.toMemory after.toMemory place place'
  handed : ∀ snapshot ∈ after.handouts, snapshot ∈ before.handouts ∨
    ∃ places, Grown before.toMemory snapshot place places

theorem Grows.refl {vm : Vm} {place : Places} (placed : Placed vm.toMemory place) :
    Grows vm vm place place :=
  ⟨Grown.refl placed, fun _ member => Or.inl member⟩

theorem Grows.trans {before middle after : Vm} {place place' place'' : Places}
    (first : Grows before middle place place') (second : Grows middle after place' place'') :
    Grows before after place place'' := by
  constructor
  · exact first.memory.trans second.memory
  · intro snapshot member
    rcases second.handed snapshot member with old | ⟨places, grown⟩
    · exact first.handed snapshot old
    · exact Or.inr ⟨places, first.memory.trans grown⟩

/-- The machine after frame `i` was handed out. -/
def Vm.take (vm : Vm) (i : Nat) : Vm :=
  { vm with
    bitmap := assign vm.bitmap i true
    handouts := vm.toMemory :: vm.handouts }

theorem Vm.take_bitmap {vm : Vm} {i j : Nat} (taken : vm.bitmap j = true) :
    (vm.take i).bitmap j = true := by
  by_cases same : j = i
  · rw [same]
    exact assign_self
  · exact (assign_of_ne same).trans taken

theorem pmmAllocPage_spec (vm : Vm) :
    Leads pmmAllocPage
      (fun addr after =>
        (freeFrames vm.bitmap = 0 ∧ addr = 0 ∧ after = vm) ∨
          ∃ i, nextFrame vm.bitmap = some i ∧ addr = frameAddr i ∧ after = vm.take i) vm := by
  unfold pmmAllocPage
  rw [leads_bind, leads_get]
  cases search : nextFrame vm.bitmap with
  | none => exact Or.inl ⟨nextFrame_eq_none_iff.mp search, rfl, rfl⟩
  | some i => exact Or.inr ⟨i, rfl, rfl, rfl⟩

theorem nextFrame_bound {bitmap : Nat → Bool} {i : Nat} (search : nextFrame bitmap = some i) :
    i < MAX_PAGES ∧ bitmap i = false := by
  rcases clearBitFrom_eq_some search with ⟨below, clear⟩
  exact ⟨by omega, clear⟩

namespace Placed

variable {vm : Vm} {place : Places} (placed : Placed vm.toMemory place)

include placed

theorem next_ne_zero {i : Nat} (search : nextFrame vm.bitmap = some i) : i ≠ 0 := by
  intro zero
  have clear := (nextFrame_bound search).2
  rw [zero, placed.reserved] at clear
  cases clear

/-- The frame that is handed out next is no table. -/
theorem next_fresh {i : Nat} (search : nextFrame vm.bitmap = some i) :
    place (frameAddr i) = none := by
  rcases nextFrame_bound search with ⟨bound, clear⟩
  cases isAt : place (frameAddr i) with
  | none => rfl
  | some path =>
      rcases placed.used isAt with ⟨j, bound', -, taken, same⟩
      rw [frameAddr_inj bound bound' same, taken] at clear
      cases clear

/-- Taking a frame changes no table. -/
theorem grows_take (i : Nat) : Grows vm (vm.take i) place place := by
  constructor
  · exact Grown.of_agree placed (fun _ => rfl) rfl rfl rfl Vm.take_bitmap
  · intro snapshot member
    rcases List.mem_cons.mp member with rfl | old
    · exact Or.inr ⟨place, Grown.refl placed⟩
    · exact Or.inl old

end Placed

theorem freeFrames_pos {bitmap : Nat → Bool} {i : Nat} (search : nextFrame bitmap = some i) :
    freeFrames (assign bitmap i true) + 1 = freeFrames bitmap := by
  rcases nextFrame_bound search with ⟨bound, clear⟩
  exact freeFrames_take bound clear

/-- Frames that are known to be free. -/
theorem le_freeFrames {bitmap : Nat → Bool} {frames : List Nat} (distinct : frames.Nodup)
    (free : ∀ i ∈ frames, i < MAX_PAGES ∧ bitmap i = false) : frames.length ≤ freeFrames bitmap := by
  rw [← List.toFinset_card_of_nodup distinct]
  apply Finset.card_le_card
  intro i member
  rw [List.mem_toFinset] at member
  simpa using free i member

/-! ## One level down -/

/-- The outcome of going through an entry, adding a table where there is none:
the table was there, it was added, or there is no memory. -/
inductive Descends (before : Vm) (place : Places) (table : Addr) (level idx : Nat) :
    Addr → Vm → Prop where
  | found (leads : nextLevel (before.tables table idx) ≠ 0) :
      Descends before place table level idx (nextLevel (before.tables table idx)) before
  | added (next : Addr) (after : Vm) (place' : Places)
      (stops : nextLevel (before.tables table idx) = 0) (nonzero : next ≠ 0)
      (grows : Grows before after place place')
      (leads : nextLevel (after.tables table idx) = next)
      (empty : level < 2 → ∀ i, nextLevel (after.tables next i) = 0)
      (free : freeFrames after.bitmap + 1 = freeFrames before.bitmap)
      (gains : ∀ i, after.bitmap i = true → before.bitmap i = true ∨ frameAddr i = next) :
      Descends before place table level idx next after
  | failed (stops : nextLevel (before.tables table idx) = 0)
      (full : freeFrames before.bitmap = 0) :
      Descends before place table level idx 0 before

/-- A frame that was taken and put behind an entry. -/
theorem Descends.of_attached {vm after : Vm} {place : Places} {table : Addr} {path : List Nat}
    {idx i : Nat} {entries : Nat → Addr} (placed : Placed vm.toMemory place)
    (search : nextFrame vm.bitmap = some i)
    (attaches : Attaches vm.toMemory place table path idx (frameAddr i) entries)
    (isAfter : after =
      { vm.take i with tables := attached vm.tables table idx (frameAddr i) entries }) :
    Descends vm place table path.length idx (frameAddr i) after := by
  rcases nextFrame_bound search with ⟨bound, -⟩
  have grown : Grown vm.toMemory after.toMemory place
      (assign place (frameAddr i) (some (path ++ [idx]))) := by
    have taken : ∃ j < MAX_PAGES, j ≠ 0 ∧ after.bitmap j = true ∧ frameAddr i = frameAddr j := by
      subst isAfter
      exact ⟨i, bound, placed.next_ne_zero search, assign_self, rfl⟩
    have kept : ∀ {j}, vm.bitmap j = true → after.bitmap j = true := by
      subst isAfter
      exact Vm.take_bitmap
    exact attaches.grown placed (by rw [isAfter]) taken (by rw [isAfter]; rfl)
      (by rw [isAfter]; rfl) (by rw [isAfter]; rfl) kept
  have handed := (placed.grows_take i).handed
  subst isAfter
  apply Descends.added _ _ _ attaches.stops attaches.nonzero ⟨grown, handed⟩
  · show nextLevel (attached vm.tables table idx (frameAddr i) entries table idx) = frameAddr i
    rw [Attaches.attached_entry, nextLevel_tableEntry (aligned_frameAddr i)]
  · intro upper j
    show nextLevel (attached vm.tables table idx (frameAddr i) entries (frameAddr i) j) = 0
    rw [attaches.attached_new]
    rcases attaches.blank with ⟨-, empty⟩ | ⟨level, -⟩
    · rw [empty]
      exact nextLevel_absent (by decide)
    · omega
  · exact freeFrames_pos search
  · intro j taken
    by_cases same : j = i
    · exact Or.inr (by rw [same])
    · exact Or.inl ((assign_of_ne same).symm.trans taken)

section

variable {vm : Vm} {place : Places} {table : Addr} {path : List Nat} {idx : Nat}
  (placed : Placed vm.toMemory place) (isAt : place table = some path) (short : path.length < 3)

include placed isAt short

theorem newLevel_spec (absent : vm.tables table idx &&& PAGE_PRESENT = 0) :
    Leads (newLevel table idx) (Descends vm place table path.length idx) vm := by
  unfold newLevel
  rw [leads_bind]
  apply (pmmAllocPage_spec vm).mono
  intro addr after outcome
  rcases outcome with ⟨full, rfl, rfl⟩ | ⟨i, search, rfl, rfl⟩
  · rw [if_pos rfl]
    exact Descends.failed (nextLevel_absent absent) full
  · have nonzero := frameAddr_ne_zero (nextFrame_bound search).1 (placed.next_ne_zero search)
    rw [if_neg nonzero]
    apply @Descends.of_attached _ _ _ _ _ _ _ (fun _ => 0) placed search
    · exact
        { isAt, short
          fresh := placed.next_fresh search
          aligned := aligned_frameAddr i
          nonzero
          blank := Or.inl ⟨absent, fun _ => rfl⟩ }
    · rfl

theorem splitHugePde_spec (level : path.length = 2)
    (present : vm.tables table idx &&& PAGE_PRESENT ≠ 0)
    (huge : vm.tables table idx &&& PAGE_HUGE ≠ 0) :
    Leads (splitHugePde table idx) (Descends vm place table path.length idx) vm := by
  unfold splitHugePde
  rw [leads_bind, leads_get]
  dsimp only
  rw [if_neg present, if_neg huge, leads_bind]
  apply (pmmAllocPage_spec vm).mono
  intro addr after outcome
  rcases outcome with ⟨full, rfl, rfl⟩ | ⟨i, search, rfl, rfl⟩
  · rw [if_pos rfl]
    exact Descends.failed (nextLevel_huge huge) full
  · have nonzero := frameAddr_ne_zero (nextFrame_bound search).1 (placed.next_ne_zero search)
    rw [if_neg nonzero]
    apply @Descends.of_attached _ _ _ _ _ _ _ (smallPages (vm.tables table idx)) placed search
    · exact
        { isAt, short
          fresh := placed.next_fresh search
          aligned := aligned_frameAddr i
          nonzero
          blank := Or.inr ⟨level, present, huge, rfl⟩ }
    · rfl

omit short in
theorem getNextLevel_spec (upper : path.length < 2) :
    Leads (getNextLevel table idx) (Descends vm place table path.length idx) vm := by
  unfold getNextLevel
  rw [leads_bind, leads_get]
  by_cases absent : vm.tables table idx &&& PAGE_PRESENT = 0
  · rw [if_neg (not_not.mpr absent)]
    exact newLevel_spec placed isAt (by omega) absent
  · rw [if_pos absent]
    exact Descends.found (placed.nextLevel_of_upper isAt upper absent)

omit short in
theorem mapTable_spec (level : path.length = 2) :
    Leads (mapTable table idx) (Descends vm place table path.length idx) vm := by
  unfold mapTable
  rw [leads_bind, leads_get]
  dsimp only
  by_cases absent : vm.tables table idx &&& PAGE_PRESENT = 0
  · rw [if_neg (not_not.mpr absent)]
    exact newLevel_spec placed isAt (by omega) absent
  · rw [if_pos absent]
    by_cases small : vm.tables table idx &&& PAGE_HUGE = 0
    · rw [if_neg (not_not.mpr small)]
      have next := placed.ne_zero (placed.child isAt (by omega) idx absent small)
      have same : nextLevel (vm.tables table idx) = vm.tables table idx &&& PAGE_MASK := by
        rw [nextLevel, if_pos absent, if_neg (not_not.mpr small)]
      rw [leads_pure, ← same]
      apply Descends.found
      rwa [same]
    · rw [if_pos small]
      exact splitHugePde_spec placed isAt (by omega) level absent small

end

/-! ## The whole walk -/

theorem follow_singleton (tables : Addr → Nat → Addr) (table : Addr) (i : Nat) :
    follow tables table [i] = nextLevel (tables table i) := by
  unfold follow
  split
  · rename_i stops
    rw [stops]
  · rfl

theorem follow_concat {tables : Addr → Nat → Addr} {table : Addr} {path : List Nat}
    (leads : follow tables table path ≠ 0) (i : Nat) :
    follow tables table (path ++ [i]) = nextLevel (tables (follow tables table path) i) := by
  rw [follow_append leads, follow_singleton]

/-- How many tables a walk lacks. -/
def missing (tables : Addr → Nat → Addr) : Addr → List Nat → Nat
  | _, [] => 0
  | table, i :: rest =>
      if nextLevel (tables table i) = 0 then rest.length + 1
      else missing tables (nextLevel (tables table i)) rest

theorem missing_append (tables : Addr → Nat → Addr) (table : Addr) (path : List Nat) (i : Nat) :
    missing tables table (path ++ [i]) =
      missing tables table path + if follow tables table (path ++ [i]) = 0 then 1 else 0 := by
  induction path generalizing table with
  | nil =>
      rw [List.nil_append, follow_singleton, missing, missing, missing, List.length_nil,
        zero_add, zero_add]
  | cons j rest ih =>
      rw [List.cons_append, missing, missing, follow]
      by_cases stops : nextLevel (tables table j) = 0
      · rw [if_pos stops, if_pos stops, if_pos stops, if_pos rfl, List.length_append,
          List.length_singleton]
      · rw [if_neg stops, if_neg stops, if_neg stops]
        exact ih _

theorem missing_eq_zero_iff {tables : Addr → Nat → Addr} {table : Addr} {path : List Nat}
    (nonzero : table ≠ 0) : missing tables table path = 0 ↔ follow tables table path ≠ 0 := by
  induction path generalizing table with
  | nil => exact ⟨fun _ => nonzero, fun _ => rfl⟩
  | cons i rest ih =>
      rw [missing, follow]
      by_cases stops : nextLevel (tables table i) = 0
      · rw [if_pos stops, if_pos stops]
        simp
      · rw [if_neg stops, if_neg stops]
        exact ih stops

/-- A walk from a root has come down a path, adding the tables that were
missing. -/
structure Reached (before : Vm) (place : Places) (root : Addr) (path : List Nat) (current : Vm)
    (place' : Places) : Prop where
  grows : Grows before current place place'
  leads : follow current.tables root path ≠ 0
  free : freeFrames current.bitmap + missing before.tables root path = freeFrames before.bitmap
  gains : ∀ i, current.bitmap i = true → before.bitmap i = true ∨
    TableOf current.tables root (frameAddr i)
  inside : ∀ i ∈ path, i < 512
  old : follow before.tables root path ≠ 0 → current = before
  new : follow before.tables root path = 0 → path.length < 3 →
    ∀ i, nextLevel (current.tables (follow current.tables root path) i) = 0

namespace Reached

variable {before current : Vm} {place place' : Places} {root : Addr} {path : List Nat}

theorem start (placed : Placed before.toMemory place) (isRoot : place root = some []) :
    Reached before place root [] before place where
  grows := Grows.refl placed
  leads := placed.ne_zero isRoot
  free := by rw [missing, add_zero]
  gains _ taken := Or.inl taken
  inside _ member := absurd member List.not_mem_nil
  old _ := rfl
  new stops := absurd stops (placed.ne_zero isRoot)

theorem isAt (reached : Reached before place root path current place')
    (isRoot : place root = some []) (short : path.length ≤ 3) :
    place' (follow current.tables root path) = some path :=
  reached.grows.memory.placed.follow_place (reached.grows.memory.keeps isRoot)
    (by simpa using short) reached.leads

/-- The next entry leads on, or it had no table behind it before either. -/
theorem stops_before (reached : Reached before place root path current place')
    (isRoot : place root = some []) (placed : Placed before.toMemory place) {i : Nat}
    (stops : nextLevel (current.tables (follow current.tables root path) i) = 0) :
    follow before.tables root (path ++ [i]) = 0 := by
  by_cases led : follow before.tables root path = 0
  · exact follow_append_of_zero led (placed.ne_zero isRoot) [i]
  · have same := reached.old led
    subst same
    rw [follow_concat led, stops]

/-- One more level. -/
theorem step (reached : Reached before place root path current place')
    (isRoot : place root = some []) (placed : Placed before.toMemory place)
    (short : path.length < 3) {i : Nat} (small : i < 512) {next : Addr} {after : Vm}
    (descends : Descends current place' (follow current.tables root path) path.length i next after) :
    (next = 0 ∧ after = current ∧
        freeFrames before.bitmap < missing before.tables root (path ++ [i])) ∨
      (next ≠ 0 ∧ follow after.tables root (path ++ [i]) = next ∧
        ∃ place'', Reached before place root (path ++ [i]) after place'') := by
  have inside : ∀ j ∈ path ++ [i], j < 512 := by
    intro j member
    rcases List.mem_append.mp member with old | last
    · exact reached.inside j old
    · rwa [List.mem_singleton.mp last]
  cases descends with
  | found leads =>
      have led := follow_concat reached.leads i
      have before_led : follow before.tables root path ≠ 0 := by
        intro stops
        exact leads (reached.new stops short i)
      have same := reached.old before_led
      subst same
      refine Or.inr ⟨leads, led, place', reached.grows, by rwa [led], ?_, reached.gains,
        inside, fun _ => rfl, fun stops => absurd (led.symm.trans stops) leads⟩
      rw [missing_append, led, if_neg leads, add_zero]
      exact reached.free
  | added _ _ place'' stops nonzero grows leads empty free gains =>
      have isRoot' := reached.grows.memory.keeps isRoot
      have stayed := grows.memory.walks isRoot' (by omega) reached.leads
      have led : follow after.tables root (path ++ [i]) = next := by
        rw [follow_concat (by rw [stayed]; exact reached.leads), stayed, leads]
      have stopped := reached.stops_before isRoot placed stops
      refine Or.inr ⟨nonzero, led, place'', reached.grows.trans grows, by rwa [led], ?_, ?_, inside,
        fun was => absurd stopped was, ?_⟩
      · rw [missing_append, if_pos stopped]
        have := reached.free
        omega
      · intro j taken
        rcases gains j taken with old | new
        · rcases reached.gains j old with older | ⟨path', bound, inRange, nonzero', led'⟩
          · exact Or.inl older
          · refine Or.inr ⟨path', bound, inRange, ?_⟩
            rw [grows.memory.walks isRoot' bound nonzero']
            exact ⟨nonzero', led'⟩
        · refine Or.inr ⟨path ++ [i], ?_, inside, by rwa [led], led.trans new.symm⟩
          rw [List.length_append, List.length_singleton]
          omega
      · intro _ upper j
        rw [List.length_append, List.length_singleton] at upper
        rw [led]
        exact empty (by omega) j
  | failed stops full =>
      have stopped := reached.stops_before isRoot placed stops
      refine Or.inl ⟨rfl, rfl, ?_⟩
      rw [missing_append, if_pos stopped]
      have := reached.free
      omega

end Reached

theorem missing_le (tables : Addr → Nat → Addr) (root : Addr) (path : List Nat) (i : Nat) :
    missing tables root path ≤ missing tables root (path ++ [i]) := by
  rw [missing_append]
  exact Nat.le_add_right _ _

/-- The machine after one page-table entry was written for a root. -/
def Vm.write (vm : Vm) (root pt virt entry : Addr) : Vm :=
  { vm with
    tables := assign vm.tables pt (assign (vm.tables pt) (ptIdx virt) entry)
    written := ⟨root, pt, ptIdx virt⟩ :: vm.written }

/-- The outcome of a call that writes `entry` for an address: tables are added
until there is no memory for the next, or the entry of the page table is
written. -/
inductive Maps (before : Vm) (place : Places) (root virt entry : Addr) : Vm → Prop where
  | lacking (path : List Nat) (after : Vm) (place' : Places)
      (reached : Reached before place root path after place')
      (full : freeFrames before.bitmap < missing before.tables root (tablePath virt)) :
      Maps before place root virt entry after
  | written (grown : Vm) (place' : Places)
      (reached : Reached before place root (tablePath virt) grown place') :
      Maps before place root virt entry
        (grown.write root (follow grown.tables root (tablePath virt)) virt entry)

variable {vm : Vm} {place : Places} {root : Addr}

/-- `vmm_map_page` adds what is missing and writes the entry. -/
theorem vmmMapPage_spec (placed : Placed vm.toMemory place) (isRoot : place root = some [])
    (virt phys flags : Addr) :
    Leads (vmmMapPage root virt phys flags)
      (fun _ after => Maps vm place root virt (leafEntry phys flags) after) vm := by
  have atRoot := Reached.start placed isRoot
  have lack : ∀ {free : Nat}, free < missing vm.tables root [pml4Idx virt] →
      free < missing vm.tables root (tablePath virt) := fun less =>
    less.trans_le ((missing_le _ _ _ (pdpIdx virt)).trans (missing_le _ _ _ (pdIdx virt)))
  unfold vmmMapPage
  rw [if_neg (placed.ne_zero isRoot), leads_bind]
  apply (getNextLevel_spec placed isRoot (by simp)).mono
  intro pdp first descends
  rcases atRoot.step isRoot placed (by simp) (idx_lt _) descends with
    ⟨rfl, rfl, full⟩ | ⟨nonzero, led, places, atPdp⟩
  · rw [if_pos rfl]
    exact Maps.lacking _ _ _ atRoot (lack full)
  · rw [if_neg nonzero, leads_bind]
    have isPdp := atPdp.isAt isRoot (by simp)
    rw [led] at isPdp
    apply (getNextLevel_spec atPdp.grows.memory.placed isPdp (by simp)).mono
    intro pd second descends
    rw [← led] at descends
    rcases atPdp.step isRoot placed (by simp) (idx_lt _) descends with
      ⟨rfl, rfl, full⟩ | ⟨nonzero, led, places, atPd⟩
    · rw [if_pos rfl]
      exact Maps.lacking _ _ _ atPdp (full.trans_le (missing_le _ _ _ (pdIdx virt)))
    · rw [if_neg nonzero, leads_bind]
      have isPd := atPd.isAt isRoot (by simp)
      rw [led] at isPd
      apply (mapTable_spec atPd.grows.memory.placed isPd (by simp)).mono
      intro pt third descends
      rw [← led] at descends
      rcases atPd.step isRoot placed (by simp) (idx_lt _) descends with
        ⟨rfl, rfl, full⟩ | ⟨nonzero, led, places, atPt⟩
      · rw [if_pos rfl]
        exact Maps.lacking _ _ _ atPd full
      · rw [if_neg nonzero, ← led]
        exact Maps.written _ _ atPt

/-! ## One entry of a page table -/

/-- Two addresses of one page. -/
def SamePage (virt other : Addr) : Prop :=
  tablePath virt = tablePath other ∧ ptIdx virt = ptIdx other

/-- What an entry of a page table makes of an address. -/
def leafOf (entry virt : Addr) : Addr :=
  if entry &&& PAGE_PRESENT = 0 then 0 else (entry &&& PAGE_MASK) ||| (virt &&& 0xFFF)

/-- Where the walk arrives at a page table, its entry decides. -/
theorem vmmVirtToPhys_of_table {memory : Memory} {root virt : Addr} (nonzero : root ≠ 0)
    (leads : follow memory.tables root (tablePath virt) ≠ 0) :
    vmmVirtToPhys memory root virt =
      leafOf (memory.tables (follow memory.tables root (tablePath virt)) (ptIdx virt)) virt := by
  have split : tablePath virt = directoryPath virt ++ [pdIdx virt] := rfl
  have directory : follow memory.tables root (directoryPath virt) ≠ 0 := by
    intro stops
    rw [split] at leads
    exact leads (follow_append_of_zero stops nonzero _)
  rw [split, follow_concat directory] at leads ⊢
  rcases of_nextLevel_ne_zero leads with ⟨present, small, same⟩
  rw [vmmVirtToPhys_eq memory nonzero, if_neg directory]
  unfold translateIn
  rw [same] at leads ⊢
  simp only [if_neg present, if_neg (not_not.mpr small), if_neg leads]
  rfl

/-- Where the walk stops above the directory, nothing is mapped. -/
theorem vmmVirtToPhys_of_directory_zero {memory : Memory} {root virt : Addr} (nonzero : root ≠ 0)
    (stops : follow memory.tables root (directoryPath virt) = 0) :
    vmmVirtToPhys memory root virt = 0 := by
  rw [vmmVirtToPhys_eq memory nonzero, if_pos stops]

namespace Placed

variable {vm : Vm} {place : Places} (placed : Placed vm.toMemory place)

include placed

/-- Writing an entry of a page table leaves every table in its place. -/
theorem write (root : Addr) {pt : Addr} {path : List Nat} (isAt : place pt = some path)
    (level : path.length = 3) (virt entry : Addr) :
    Placed (vm.write root pt virt entry).toMemory place := by
  have other : ∀ {table : Addr} {path' : List Nat}, place table = some path' → path'.length < 3 →
      (vm.write root pt virt entry).tables table = vm.tables table := by
    intro table path' isTable short
    apply assign_of_ne
    intro same
    rw [same, isAt] at isTable
    rw [← Option.some.inj isTable] at short
    omega
  constructor
  · exact placed.used
  · intro table path' isTable short i
    rw [other isTable short]
    exact placed.child isTable short i
  · intro table path' isTable short i
    rw [other isTable (by omega)]
    exact placed.small isTable short i
  · exact placed.kernel
  · exact placed.reserved

/-- Walks do not read the entry. -/
theorem follow_write {root : Addr} {pt : Addr} {path : List Nat} (isAt : place pt = some path)
    (level : path.length = 3) {virt entry start : Addr} {path' rest : List Nat}
    (isStart : place start = some path') (short : path'.length + rest.length ≤ 3) :
    follow (vm.write root pt virt entry).tables start rest = follow vm.tables start rest := by
  apply follow_agree placed _ isStart short
  intro table path'' isTable upper
  apply assign_of_ne
  intro same
  rw [same, isAt] at isTable
  rw [← Option.some.inj isTable] at upper
  omega

/-- A write shows exactly at the addresses of the page, to the roots that come
through the same page table. -/
theorem translate_write {root : Addr} {pt virt entry : Addr} (isAt : place pt = some (tablePath virt))
    {other : Addr} (isRoot : place other = some []) (addr : Addr) :
    vmmVirtToPhys (vm.write root pt virt entry).toMemory other addr =
      if follow vm.tables other (tablePath addr) = pt ∧ ptIdx addr = ptIdx virt then
        leafOf entry addr
      else vmmVirtToPhys vm.toMemory other addr := by
  have nonzero := placed.ne_zero isRoot
  have sameWalk : ∀ path : List Nat, path.length ≤ 3 →
      follow (vm.write root pt virt entry).tables other path = follow vm.tables other path := by
    intro path short
    exact placed.follow_write isAt rfl isRoot (by simpa using short)
  by_cases stops : follow vm.tables other (directoryPath addr) = 0
  · have table : follow vm.tables other (tablePath addr) = 0 :=
      follow_append_of_zero stops nonzero [pdIdx addr]
    have notHere : ¬ (follow vm.tables other (tablePath addr) = pt ∧ ptIdx addr = ptIdx virt) := by
      rw [table]
      exact fun here => placed.ne_zero isAt here.1.symm
    rw [if_neg notHere, vmmVirtToPhys_of_directory_zero nonzero stops]
    apply vmmVirtToPhys_of_directory_zero nonzero
    rw [sameWalk _ (by simp [directoryPath]), stops]
  · by_cases here : follow vm.tables other (tablePath addr) = pt ∧ ptIdx addr = ptIdx virt
    · have leads : follow (vm.write root pt virt entry).tables other (tablePath addr) ≠ 0 := by
        rw [sameWalk _ (by simp [tablePath]), here.1]
        exact placed.ne_zero isAt
      rw [if_pos here, vmmVirtToPhys_of_table nonzero leads, sameWalk _ (by simp [tablePath]),
        here.1, here.2]
      congr 1
      simp [Vm.write]
    · rw [if_neg here, vmmVirtToPhys_eq _ nonzero, vmmVirtToPhys_eq _ nonzero,
        sameWalk _ (by simp [directoryPath]), if_neg stops, if_neg stops]
      have isPd := placed.follow_place isRoot (by simp [directoryPath]) stops
      apply translateIn_agree placed isPd rfl
      · apply congrFun
        apply assign_of_ne
        intro same
        rw [same, isAt] at isPd
        exact absurd (congrArg List.length (Option.some.inj isPd)) (by simp [tablePath, directoryPath])
      · intro table isTable entryAt
        by_cases same : table = pt
        · have walked : follow vm.tables other (tablePath addr) = pt := by
            rw [← same]
            exact (follow_concat stops _).trans entryAt
          have notIdx : ptIdx addr ≠ ptIdx virt := fun idx => here ⟨walked, idx⟩
          subst same
          simp [Vm.write, notIdx]
        · apply congrFun
          exact assign_of_ne same

end Placed

/-! ## Unmapping -/

theorem SamePage.translate_zero {memory : Memory} {root virt : Addr} (nonzero : root ≠ 0)
    (absent : ∀ pd, pd = follow memory.tables root (directoryPath virt) → pd ≠ 0 →
      memory.tables pd (pdIdx virt) &&& PAGE_PRESENT = 0)
    {other : Addr} (same : SamePage virt other) : vmmVirtToPhys memory root other = 0 := by
  have directory : directoryPath other = directoryPath virt := by
    have := same.1
    simp only [tablePath, List.cons.injEq] at this
    simp [directoryPath, this]
  have entry : pdIdx other = pdIdx virt := by
    have := same.1
    simp only [tablePath, List.cons.injEq] at this
    exact this.2.2.1.symm
  rw [vmmVirtToPhys_eq memory nonzero, directory]
  by_cases stops : follow memory.tables root (directoryPath virt) = 0
  · rw [if_pos stops]
  · rw [if_neg stops]
    unfold translateIn
    simp only [entry, if_pos (absent _ rfl stops)]

/-- `vmm_unmap_page` clears the entry, or finds nothing mapped at the page. -/
theorem vmmUnmapPage_spec (placed : Placed vm.toMemory place) (isRoot : place root = some [])
    (virt : Addr) :
    Leads (vmmUnmapPage root virt)
      (fun _ after => Maps vm place root virt 0 after ∨
        (after = vm ∧ ∀ other, SamePage virt other → vmmVirtToPhys vm.toMemory root other = 0))
      vm := by
  have nonzero := placed.ne_zero isRoot
  unfold vmmUnmapPage
  rw [if_neg nonzero, leads_bind, leads_get]
  dsimp only
  by_cases noPdp : nextLevel (vm.tables root (pml4Idx virt)) = 0
  · rw [if_pos noPdp]
    refine Or.inr ⟨rfl, fun other same => same.translate_zero nonzero ?_⟩
    intro pd isPd led
    rw [directoryPath, follow, if_pos noPdp] at isPd
    exact absurd isPd led
  · rw [if_neg noPdp]
    by_cases noPd : nextLevel (vm.tables (nextLevel (vm.tables root (pml4Idx virt))) (pdpIdx virt)) = 0
    · rw [if_pos noPd]
      refine Or.inr ⟨rfl, fun other same => same.translate_zero nonzero ?_⟩
      intro pd isPd led
      rw [directoryPath, follow, if_neg noPdp, follow, if_pos noPd] at isPd
      exact absurd isPd led
    · rw [if_neg noPd, leads_bind]
      have directory : follow vm.tables root (directoryPath virt) =
          nextLevel (vm.tables (nextLevel (vm.tables root (pml4Idx virt))) (pdpIdx virt)) := by
        rw [directoryPath, follow, if_neg noPdp, follow_singleton]
      have isPd := @Placed.follow_place _ _ placed _ _ isRoot (directoryPath virt)
        (by simp [directoryPath]) (by rwa [directory])
      rw [← directory] at noPd ⊢
      have atPd : Reached vm place root (directoryPath virt) vm place :=
        { grows := Grows.refl placed
          leads := noPd
          free := by rw [(missing_eq_zero_iff nonzero).mpr noPd, add_zero]
          gains := fun _ taken => Or.inl taken
          inside := by
            intro i member
            simp only [directoryPath, List.mem_cons, List.not_mem_nil, or_false] at member
            rcases member with rfl | rfl <;> exact idx_lt _
          old := fun _ => rfl
          new := fun stops => absurd stops noPd }
      have finish : ∀ pt after, Descends vm place (follow vm.tables root (directoryPath virt)) 2
          (pdIdx virt) pt after →
          Leads (if pt = 0 then pure () else writePte root pt virt 0)
            (fun _ after => Maps vm place root virt 0 after ∨
              (after = vm ∧ ∀ other, SamePage virt other →
                vmmVirtToPhys vm.toMemory root other = 0)) after := by
        intro pt after descends
        rcases atPd.step isRoot placed (by simp [directoryPath]) (idx_lt _) descends with
          ⟨rfl, rfl, full⟩ | ⟨nonzero, led, places, atPt⟩
        · rw [if_pos rfl]
          exact Or.inl (Maps.lacking _ _ _ atPd full)
        · rw [if_neg nonzero, ← led]
          exact Or.inl (Maps.written _ _ atPt)
      unfold unmapTable
      rw [leads_bind, leads_get]
      dsimp only
      by_cases small : vm.tables (follow vm.tables root (directoryPath virt)) (pdIdx virt) &&&
          PAGE_HUGE = 0
      · rw [if_neg (not_not.mpr small)]
        by_cases absent : vm.tables (follow vm.tables root (directoryPath virt)) (pdIdx virt) &&&
            PAGE_PRESENT = 0
        · rw [if_pos absent, leads_pure, if_pos rfl]
          refine Or.inr ⟨rfl, fun other same => same.translate_zero nonzero ?_⟩
          intro pd isPd' _
          rw [isPd']
          exact absent
        · rw [if_neg absent, leads_pure]
          have next := placed.ne_zero (placed.child isPd (by simp [directoryPath]) _ absent small)
          have same : nextLevel
              (vm.tables (follow vm.tables root (directoryPath virt)) (pdIdx virt)) =
              vm.tables (follow vm.tables root (directoryPath virt)) (pdIdx virt) &&& PAGE_MASK := by
            rw [nextLevel, if_pos absent, if_neg (not_not.mpr small)]
          apply finish
          rw [← same]
          exact Descends.found (by rwa [same])
      · rw [if_pos small]
        by_cases absent : vm.tables (follow vm.tables root (directoryPath virt)) (pdIdx virt) &&&
            PAGE_PRESENT = 0
        · unfold splitHugePde
          rw [leads_bind, leads_get]
          dsimp only
          rw [if_pos absent, leads_pure, if_pos rfl]
          refine Or.inr ⟨rfl, fun other same => same.translate_zero nonzero ?_⟩
          intro pd isPd' _
          rw [isPd']
          exact absent
        · exact (splitHugePde_spec placed isPd (by simp [directoryPath]) rfl absent small).mono finish

end Notux.Vmm
