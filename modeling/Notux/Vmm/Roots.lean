import Notux.Vmm.Mapping

/-!
# New roots

`create_user_pml4` builds a root out of frames nobody else uses: the first page
directory pointer table and its four directories are copies, everything below
them and behind the other entries of the kernel's root is shared.
-/

namespace Notux.Vmm

open Notux.Store

/-! ## Writing a whole table -/

/-- The entries suit a table at a place: what they lead to has the place below. -/
def Fits (place : Places) (path : List Nat) (entries : Nat → Addr) : Prop :=
  ∀ i, path.length < 3 → entries i &&& PAGE_PRESENT ≠ 0 →
    (path.length < 2 → entries i &&& PAGE_HUGE = 0) ∧
      (entries i &&& PAGE_HUGE = 0 → place (entries i &&& PAGE_MASK) = some (path ++ [i]))

theorem fits_zero (place : Places) (path : List Nat) : Fits place path fun _ => 0 := by
  intro i _ present
  exact absurd (show (0 : Addr) &&& PAGE_PRESENT = 0 by decide) present

theorem Placed.fits {memory : Memory} {place : Places} (placed : Placed memory place)
    {table : Addr} {path : List Nat} (isAt : place table = some path) :
    Fits place path (memory.tables table) := by
  intro i short present
  exact ⟨fun upper => placed.small isAt upper i present,
    fun small => placed.child isAt short i present small⟩

theorem Fits.mono {place place' : Places} {path : List Nat} {entries : Nat → Addr}
    (fits : Fits place path entries)
    (keeps : ∀ {table path}, place table = some path → place' table = some path) :
    Fits place' path entries := fun i short present =>
  ⟨(fits i short present).1, fun small => keeps ((fits i short present).2 small)⟩

/-- One more entry that suits the place. -/
theorem Fits.update {place : Places} {path : List Nat} {entries : Nat → Addr}
    (fits : Fits place path entries) {idx : Nat} {next : Addr} (aligned : Aligned next)
    (isAt : place next = some (path ++ [idx])) :
    Fits place path (assign entries idx (tableEntry next)) := by
  intro i short present
  by_cases same : i = idx
  · subst same
    rw [assign_self, tableEntry_mask aligned]
    exact ⟨fun _ => tableEntry_not_huge aligned, fun _ => isAt⟩
  · rw [assign_of_ne same] at present ⊢
    exact fits i short present

/-- A table is written, at its place or at a place of its own. -/
theorem Placed.setTable {memory after : Memory} {place : Places} (placed : Placed memory place)
    {table : Addr} {path : List Nat} {entries : Nat → Addr}
    (isAt : place table = none ∨ place table = some path) (fits : Fits place path entries)
    (used : ∃ i < MAX_PAGES, i ≠ 0 ∧ memory.bitmap i = true ∧ table = frameAddr i)
    (tables : after.tables = assign memory.tables table entries)
    (bitmap : after.bitmap = memory.bitmap) (kernelPml4 : after.kernelPml4 = memory.kernelPml4) :
    Placed after (assign place table (some path)) := by
  have keeps : ∀ {other : Addr} {path' : List Nat}, place other = some path' →
      assign place table (some path) other = some path' := by
    intro other path' isOther
    by_cases same : other = table
    · subst same
      rcases isAt with none | some
      · rw [none] at isOther
        cases isOther
      · rw [assign_self, ← isOther, some]
    · rw [assign_of_ne same, isOther]
  have suits : ∀ {other : Addr} {path' : List Nat},
      assign place table (some path) other = some path' →
        Fits place path' (after.tables other) := by
    intro other path' isOther
    rw [tables]
    by_cases same : other = table
    · subst same
      rw [assign_self] at isOther ⊢
      rwa [← Option.some.inj isOther]
    · rw [assign_of_ne same] at isOther ⊢
      exact placed.fits isOther
  constructor
  · intro other path' isOther
    rw [bitmap]
    by_cases same : other = table
    · rw [same]
      exact used
    · rw [assign_of_ne same] at isOther
      exact placed.used isOther
  · intro other path' isOther short i present small
    exact keeps ((suits isOther i short present).2 small)
  · intro other path' isOther upper i present
    exact (suits isOther i (by omega) present).1 upper
  · rw [kernelPml4]
    exact keeps placed.kernel
  · rw [bitmap]
    exact placed.reserved

/-! ## Building -/

/-- The machine with a whole table written. -/
def Vm.fill (vm : Vm) (table : Addr) (entries : Nat → Addr) : Vm :=
  { vm with tables := assign vm.tables table entries }

theorem leads_fillTable {table : Addr} {entries : Nat → Addr} {Q : PUnit → Vm → Prop} {vm : Vm} :
    Leads (fillTable table entries) Q vm ↔ Q ⟨⟩ (vm.fill table entries) :=
  Iff.rfl

theorem leads_zeroTable {table : Addr} {Q : PUnit → Vm → Prop} {vm : Vm} :
    Leads (zeroTable table) Q vm ↔ Q ⟨⟩ (vm.fill table fun _ => 0) :=
  Iff.rfl

theorem leads_setEntry {table entry : Addr} {idx : Nat} {Q : PUnit → Vm → Prop} {vm : Vm} :
    Leads (setEntry table idx entry) Q vm ↔
      Q ⟨⟩ (vm.fill table (assign (vm.tables table) idx entry)) :=
  Iff.rfl

theorem Vm.fill_self (vm : Vm) (table : Addr) (entries : Nat → Addr) :
    (vm.fill table entries).tables table = entries :=
  assign_self

theorem Vm.fill_of_ne (vm : Vm) {table other : Addr} (differ : other ≠ table)
    (entries : Nat → Addr) : (vm.fill table entries).tables other = vm.tables other :=
  assign_of_ne differ

/-- Frames of one's own are taken and written to; all tables that have a place
stay as they are. -/
structure Builds (before current : Vm) (place place' : Places) : Prop where
  placed : Placed current.toMemory place'
  grows : Grows before current place place
  keeps : ∀ {table path}, place table = some path → place' table = some path
  agree : ∀ {table path}, place table = some path → current.tables table = before.tables table

namespace Builds

variable {before current : Vm} {place place' : Places}

theorem start (placed : Placed before.toMemory place) : Builds before before place place :=
  ⟨placed, Grows.refl placed, fun isAt => isAt, fun _ => rfl⟩

/-- The finished tables. -/
theorem finish (builds : Builds before current place place') : Grows before current place place' where
  memory := { builds.grows.memory with placed := builds.placed, keeps := builds.keeps }
  handed := builds.grows.handed

/-- A frame is taken. -/
theorem take (builds : Builds before current place place') (i : Nat) :
    Builds before (current.take i) place place' where
  placed := (builds.placed.grows_take i).memory.placed
  grows := builds.grows.trans (builds.grows.memory.placed.grows_take i)
  keeps := builds.keeps
  agree := builds.agree

/-- A table that has no place of old is of one's own. -/
theorem mine (builds : Builds before current place place') {table : Addr}
    (fresh : place' table = none) : place table = none := by
  cases isAt : place table with
  | none => rfl
  | some path =>
      rw [builds.keeps isAt] at fresh
      cases fresh

/-- A table of one's own is written. -/
theorem fill (builds : Builds before current place place') {table : Addr} {path : List Nat}
    {entries : Nat → Addr} (mine : place table = none)
    (isAt : place' table = none ∨ place' table = some path) (fits : Fits place' path entries)
    (used : ∃ i < MAX_PAGES, i ≠ 0 ∧ current.bitmap i = true ∧ table = frameAddr i) :
    Builds before (current.fill table entries) place
      (assign place' table (some path)) := by
  have ne : ∀ {other : Addr} {path' : List Nat}, place other = some path' → other ≠ table := by
    intro other path' isOther same
    rw [same, mine] at isOther
    cases isOther
  have agree : ∀ {other : Addr} {path' : List Nat}, place other = some path' →
      (current.fill table entries).tables other = current.tables other := fun isOther =>
    current.fill_of_ne (ne isOther) entries
  have grown : Grown current.toMemory (current.fill table entries).toMemory place place :=
    Grown.of_agree builds.grows.memory.placed agree rfl rfl rfl fun taken => taken
  constructor
  · exact builds.placed.setTable isAt fits used rfl rfl rfl
  · exact builds.grows.trans ⟨grown, fun _ member => Or.inl member⟩
  · intro other path' isOther
    rw [assign_of_ne (ne isOther), builds.keeps isOther]
  · intro other path' isOther
    rw [agree isOther, builds.agree isOther]

/-- A table of one's own that has its place is written again. -/
theorem refill (builds : Builds before current place place') {table : Addr} {path : List Nat}
    {entries : Nat → Addr} (mine : place table = none) (isAt : place' table = some path)
    (fits : Fits place' path entries) : Builds before (current.fill table entries) place place' := by
  have built := builds.fill mine (Or.inr isAt) fits (builds.placed.used isAt)
  rwa [← isAt, assign_eq_self] at built

end Builds

/-! ## Copying the directories -/

/-- A root and its first pointer table are in place, and some directories of
the kernel have been copied. -/
structure Copying (before current : Vm) (place place' : Places) (kernelPdp root pdp : Addr)
    (done : List Nat) : Prop where
  builds : Builds before current place place'
  rootMine : place root = none
  rootAt : place' root = some []
  pdpMine : place pdp = none
  pdpAt : place' pdp = some [0]
  rootEntries : current.tables root = assign (fun _ => 0) 0 (tableEntry pdp)
  copied : ∀ idx ∈ done, ∃ pd, place pd = none ∧ place' pd = some [0, idx] ∧
    current.tables pdp idx = tableEntry pd ∧
      current.tables pd = before.tables (nextLevel (before.tables kernelPdp idx))
  rest : ∀ idx, idx ∉ done → current.tables pdp idx = 0
  free : freeFrames current.bitmap + (2 + done.length) = freeFrames before.bitmap
  gains : ∀ i, current.bitmap i = true → before.bitmap i = true ∨
    ∃ path, place' (frameAddr i) = some path ∧ place (frameAddr i) = none ∧
      (path = [] ∧ frameAddr i = root ∨ path = [0] ∧ frameAddr i = pdp ∨
        ∃ idx ∈ done, path = [0, idx] ∧ current.tables pdp idx = tableEntry (frameAddr i))

/-- The loop body copies one directory, or there is no memory. -/
theorem copyDirectory_spec {before current : Vm} {place place' : Places}
    {kernelPdp root pdp : Addr} {done : List Nat}
    (copying : Copying before current place place' kernelPdp root pdp done)
    (kernelAt : place kernelPdp = some [0]) {idx : Nat} (new : idx ∉ done)
    (leads : nextLevel (before.tables kernelPdp idx) ≠ 0) :
    Leads (copyDirectory pdp kernelPdp idx)
      (fun success after =>
        (success = false ∧ freeFrames current.bitmap = 0 ∧ after = current) ∨
          (success = true ∧ ∃ place'', Copying before after place place'' kernelPdp root pdp
            (idx :: done))) current := by
  rcases of_nextLevel_ne_zero leads with ⟨present, small, masked⟩
  have kernelSame := copying.builds.agree kernelAt
  unfold copyDirectory
  rw [leads_bind, leads_get]
  dsimp only
  rw [kernelSame, if_neg present, if_neg (by rwa [← masked]), leads_bind]
  apply (pmmAllocPage_spec current).mono
  intro addr after outcome
  rcases outcome with ⟨full, rfl, rfl⟩ | ⟨i, search, rfl, rfl⟩
  · rw [if_pos rfl]
    exact Or.inl ⟨rfl, full, rfl⟩
  · have nonzero := frameAddr_ne_zero (nextFrame_bound search).1
      (copying.builds.placed.next_ne_zero search)
    have fresh := copying.builds.placed.next_fresh search
    have mine := copying.builds.mine fresh
    have aligned := aligned_frameAddr i
    have neRoot : root ≠ frameAddr i := by
      intro same
      have isAt := copying.rootAt
      rw [same, fresh] at isAt
      cases isAt
    have nePdp : pdp ≠ frameAddr i := by
      intro same
      have isAt := copying.pdpAt
      rw [same, fresh] at isAt
      cases isAt
    have neRootPdp : root ≠ pdp := by
      intro same
      have isAt := copying.rootAt
      rw [same, copying.pdpAt] at isAt
      cases isAt
    rw [if_neg nonzero]
    show _ ∨ _
    refine Or.inr ⟨rfl, ?_⟩
    generalize isPlace : assign place' (frameAddr i) (some [0, idx]) = place''
    have first : Builds before ((current.take i).fill (frameAddr i) fun _ => 0) place place'' := by
      rw [← isPlace]
      apply (copying.builds.take i).fill mine (Or.inl fresh) (fits_zero _ _)
      exact ⟨i, (nextFrame_bound search).1, copying.builds.placed.next_ne_zero search,
        assign_self, rfl⟩
    have keeps : ∀ {table : Addr} {path : List Nat}, place' table = some path →
        place'' table = some path := by
      intro table path isAt
      rw [← isPlace, assign_of_ne, isAt]
      intro same
      rw [same, fresh] at isAt
      cases isAt
    have newAt : place'' (frameAddr i) = some [0, idx] := by
      rw [← isPlace, assign_self]
    have pdpTable : ((current.take i).fill (frameAddr i) fun _ => 0).tables pdp =
        current.tables pdp := Vm.fill_of_ne _ nePdp _
    have second := first.refill copying.pdpMine (keeps copying.pdpAt)
      ((first.placed.fits (keeps copying.pdpAt)).update aligned newAt)
    have kernelFits : Fits place'' [0, idx]
        (before.tables (nextLevel (before.tables kernelPdp idx))) := by
      have placedBefore := copying.builds.grows.memory.placed
      have isAt : place (nextLevel (current.tables kernelPdp idx)) = some [0, idx] := by
        apply placedBefore.nextLevel_eq kernelAt (by simp)
        rwa [kernelSame]
      rw [kernelSame] at isAt
      rw [← copying.builds.agree isAt]
      exact (copying.builds.placed.fits (copying.builds.keeps isAt)).mono keeps
    have kernelAt' : place (before.tables kernelPdp idx &&& PAGE_MASK) = some [0, idx] := by
      have placedBefore := copying.builds.grows.memory.placed
      rw [← masked, ← kernelSame]
      apply placedBefore.nextLevel_eq kernelAt (by simp)
      rwa [kernelSame]
    have third := second.refill mine newAt kernelFits
    have copied : (((current.take i).fill (frameAddr i) fun _ => 0).fill pdp
        (assign (((current.take i).fill (frameAddr i) fun _ => 0).tables pdp) idx
          (tableEntry (frameAddr i)))).tables (before.tables kernelPdp idx &&& PAGE_MASK) =
        before.tables (nextLevel (before.tables kernelPdp idx)) := by
      rw [second.agree kernelAt', masked]
    show ∃ place'', Copying before
      ((((current.take i).fill (frameAddr i) fun _ => 0).fill pdp
        (assign (((current.take i).fill (frameAddr i) fun _ => 0).tables pdp) idx
          (tableEntry (frameAddr i)))).fill (frameAddr i)
        ((((current.take i).fill (frameAddr i) fun _ => 0).fill pdp
          (assign (((current.take i).fill (frameAddr i) fun _ => 0).tables pdp) idx
            (tableEntry (frameAddr i)))).tables (before.tables kernelPdp idx &&& PAGE_MASK)))
      place place'' kernelPdp root pdp (idx :: done)
    rw [copied]
    generalize isAfter : Vm.fill (Vm.fill (Vm.fill (current.take i) (frameAddr i) fun _ => 0) pdp _)
      (frameAddr i) _ = after at third ⊢
    have atNew : after.tables (frameAddr i) =
        before.tables (nextLevel (before.tables kernelPdp idx)) := by
      rw [← isAfter, Vm.fill_self]
    have atPdp : after.tables pdp =
        assign (current.tables pdp) idx (tableEntry (frameAddr i)) := by
      rw [← isAfter, Vm.fill_of_ne _ nePdp, Vm.fill_self, pdpTable]
    have atOther : ∀ {table : Addr}, table ≠ frameAddr i → table ≠ pdp →
        after.tables table = current.tables table := by
      intro table first second
      rw [← isAfter, Vm.fill_of_ne _ first, Vm.fill_of_ne _ second, Vm.fill_of_ne _ first]
      rfl
    have bitmap : after.bitmap = assign current.bitmap i true := by
      rw [← isAfter]
      rfl
    refine ⟨place'', third, copying.rootMine, keeps copying.rootAt, copying.pdpMine,
      keeps copying.pdpAt, ?_, ?_, ?_, ?_, ?_⟩
    · rw [atOther neRoot neRootPdp, copying.rootEntries]
    · intro other member
      rcases List.mem_cons.mp member with rfl | old
      · refine ⟨frameAddr i, mine, newAt, ?_, atNew⟩
        rw [atPdp, assign_self]
      · rcases copying.copied other old with ⟨pd, pdMine, pdAt, entry, table⟩
        have neOther : other ≠ idx := fun same => new (same ▸ old)
        have neNew : pd ≠ frameAddr i := by
          intro same
          rw [same, fresh] at pdAt
          cases pdAt
        have nePdp' : pd ≠ pdp := by
          intro same
          rw [same, copying.pdpAt] at pdAt
          cases pdAt
        refine ⟨pd, pdMine, keeps pdAt, ?_, ?_⟩
        · rw [atPdp, assign_of_ne neOther, entry]
        · rw [atOther neNew nePdp', table]
    · intro other outside
      rw [List.mem_cons, not_or] at outside
      rw [atPdp, assign_of_ne outside.1, copying.rest other outside.2]
    · have less := freeFrames_pos search
      have sum := copying.free
      rw [bitmap, List.length_cons]
      omega
    · intro j taken
      by_cases same : j = i
      · subst same
        refine Or.inr ⟨[0, idx], newAt, mine, Or.inr (Or.inr ⟨idx, List.mem_cons_self, rfl, ?_⟩)⟩
        rw [atPdp, assign_self]
      · rw [bitmap, assign_of_ne same] at taken
        rcases copying.gains j taken with old | ⟨path, isAt, isMine, which⟩
        · exact Or.inl old
        · refine Or.inr ⟨path, keeps isAt, isMine, ?_⟩
          rcases which with atRoot | atPdp' | ⟨other, member, spelled, entry⟩
          · exact Or.inl atRoot
          · exact Or.inr (Or.inl atPdp')
          · refine Or.inr (Or.inr ⟨other, List.mem_cons_of_mem _ member, spelled, ?_⟩)
            rw [atPdp, assign_of_ne fun same : other = idx => new (by rwa [← same]), entry]

/-- The loop copies all directories, or memory runs out. -/
theorem copyDirectories_spec {before current : Vm} {place place' : Places}
    {kernelPdp root pdp : Addr} {done rest : List Nat}
    (copying : Copying before current place place' kernelPdp root pdp done)
    (kernelAt : place kernelPdp = some [0]) (distinct : (rest ++ done).Nodup)
    (leads : ∀ idx ∈ rest, nextLevel (before.tables kernelPdp idx) ≠ 0) :
    Leads (copyDirectories pdp kernelPdp rest)
      (fun success after =>
        (success = false ∧ freeFrames before.bitmap < 2 + (rest ++ done).length ∧
          ∃ place'', Builds before after place place'') ∨
          (success = true ∧ ∃ place'', Copying before after place place'' kernelPdp root pdp
            (rest.reverse ++ done))) current := by
  induction rest generalizing current place' done with
  | nil => exact Or.inr ⟨rfl, place', copying⟩
  | cons idx rest ih =>
      unfold copyDirectories
      rw [leads_bind]
      have new : idx ∉ done := by
        intro member
        have outside := (List.nodup_cons.mp distinct).1
        exact outside (List.mem_append_right rest member)
      apply (copyDirectory_spec copying kernelAt new (leads idx List.mem_cons_self)).mono
      intro success after outcome
      rcases outcome with ⟨rfl, full, rfl⟩ | ⟨rfl, place'', copied⟩
      · refine Or.inl ⟨rfl, ?_, place', copying.builds⟩
        have sum := copying.free
        rw [List.cons_append, List.length_cons, List.length_append]
        omega
      · have moved : (rest ++ idx :: done).Nodup :=
          (List.perm_middle.symm.nodup_iff).mp distinct
        apply (ih copied moved fun other member =>
          leads other (List.mem_cons_of_mem idx member)).mono
        intro success last outcome
        rcases outcome with ⟨rfl, full, built⟩ | ⟨rfl, final⟩
        · refine Or.inl ⟨rfl, ?_, built⟩
          rw [List.length_append, List.length_cons] at full
          rw [List.cons_append, List.length_cons, List.length_append]
          omega
        · refine Or.inr ⟨rfl, ?_⟩
          rwa [List.reverse_cons, List.append_assoc, List.singleton_append]

/-! ## The new root -/

/-- The addresses whose tables a new root has from the kernel. -/
def Inherited (virt : Addr) : Prop := pml4Idx virt ≠ 0 ∨ pdpIdx virt < 4

/-- A root that was just created. -/
structure NewRoot (before after : Vm) (place place' : Places) (root : Addr) : Prop where
  grows : Grows before after place place'
  fresh : place root = none
  isRoot : place' root = some []
  directory : ∀ virt, Inherited virt →
    (follow after.tables root (directoryPath virt) = 0 ↔
      follow before.tables before.kernelPml4 (directoryPath virt) = 0) ∧
    (follow after.tables root (directoryPath virt) ≠ 0 →
      after.tables (follow after.tables root (directoryPath virt)) =
        before.tables (follow before.tables before.kernelPml4 (directoryPath virt)))
  beyond : ∀ virt, ¬ Inherited virt → follow after.tables root (directoryPath virt) = 0
  agree : ∀ {table path}, place table = some path → after.tables table = before.tables table
  free : freeFrames after.bitmap + 6 = freeFrames before.bitmap
  gains : ∀ i, after.bitmap i = true → before.bitmap i = true ∨
    TableOf after.tables root (frameAddr i)

/-- The four directories of the kernel are in place. -/
def KernelDirectories (memory : Memory) : Prop :=
  ∀ idx < 4, follow memory.tables memory.kernelPml4 [0, idx] ≠ 0

theorem KernelDirectories.grown {before after : Memory} {place place' : Places}
    (directories : KernelDirectories before) (placed : Placed before place)
    (grown : Grown before after place place') : KernelDirectories after := by
  intro idx small
  rw [grown.kernelPml4, grown.walks placed.kernel (by simp) (directories idx small)]
  exact directories idx small

/-- The last step: the other entries of the kernel's root. -/
theorem Copying.newRoot {before current : Vm} {place place' : Places} {kernelPdp root pdp : Addr}
    (copying : Copying before current place place' kernelPdp root pdp [3, 2, 1, 0])
    (placed : Placed before.toMemory place)
    (isPdp : kernelPdp = nextLevel (before.tables before.kernelPml4 0)) (leads : kernelPdp ≠ 0)
    (directories : ∀ idx < 4, nextLevel (before.tables kernelPdp idx) ≠ 0) :
    ∃ place'', NewRoot before
      (current.fill root fun i =>
        if i = 0 then tableEntry pdp else before.tables before.kernelPml4 i) place place'' root := by
  have builds := copying.builds
  have alignedPdp : Aligned pdp := by
    rcases builds.placed.used copying.pdpAt with ⟨i, -, -, -, rfl⟩
    exact aligned_frameAddr i
  have nonzeroPdp := builds.placed.ne_zero copying.pdpAt
  have fits : Fits place' []
      fun i => if i = 0 then tableEntry pdp else before.tables before.kernelPml4 i := by
    have kernelFits : Fits place' [] (before.tables before.kernelPml4) :=
      (placed.fits placed.kernel).mono builds.keeps
    have updated := @Fits.update _ _ _ kernelFits 0 _ alignedPdp copying.pdpAt
    have same : (fun i => if i = 0 then tableEntry pdp else before.tables before.kernelPml4 i) =
        assign (before.tables before.kernelPml4) 0 (tableEntry pdp) := by
      funext i
      by_cases zero : i = 0
      · simp [zero]
      · simp [zero]
    rwa [same]
  have built := builds.refill copying.rootMine copying.rootAt fits
  have nePdp : pdp ≠ root := by
    intro same
    have isAt := copying.pdpAt
    rw [same, copying.rootAt] at isAt
    cases isAt
  generalize isAfter : (current.fill root fun i =>
    if i = 0 then tableEntry pdp else before.tables before.kernelPml4 i) = after at built ⊢
  have atRoot : ∀ i, after.tables root i =
      if i = 0 then tableEntry pdp else before.tables before.kernelPml4 i := by
    intro i
    rw [← isAfter, Vm.fill_self]
  have atOther : ∀ {table : Addr}, table ≠ root → after.tables table = current.tables table := by
    intro table differ
    rw [← isAfter, Vm.fill_of_ne _ differ]
  have toPdp : follow after.tables root [0] = pdp := by
    rw [follow_singleton, atRoot, if_pos rfl, nextLevel_tableEntry alignedPdp]
  have toDirectory : ∀ idx < 4, ∃ pd, pd ≠ 0 ∧ Aligned pd ∧ follow after.tables root [0, idx] = pd ∧
      current.tables pdp idx = tableEntry pd ∧
        after.tables pd = before.tables (nextLevel (before.tables kernelPdp idx)) := by
    intro idx small
    have member : idx ∈ [3, 2, 1, 0] := by
      simp only [List.mem_cons, List.not_mem_nil, or_false]
      omega
    rcases copying.copied idx member with ⟨pd, pdMine, pdAt, entry, table⟩
    have nePd : pd ≠ root := by
      intro same
      rw [same, copying.rootAt] at pdAt
      cases pdAt
    have aligned : Aligned pd := by
      rcases builds.placed.used pdAt with ⟨i, -, -, -, rfl⟩
      exact aligned_frameAddr i
    refine ⟨pd, builds.placed.ne_zero pdAt, aligned, ?_, entry, ?_⟩
    · have walk := @follow_concat _ _ [0] (by rwa [toPdp]) idx
      rw [toPdp] at walk
      rw [show [0, idx] = [0] ++ [idx] from rfl, walk, atOther nePdp, entry,
        nextLevel_tableEntry aligned]
    · rw [atOther nePd, table]
  have kernelWalk : ∀ i j, follow before.tables before.kernelPml4 [i, j] =
      if nextLevel (before.tables before.kernelPml4 i) = 0 then 0
      else nextLevel (before.tables (nextLevel (before.tables before.kernelPml4 i)) j) := by
    intro i j
    rw [follow, follow_singleton]
  refine ⟨place', built.finish, copying.rootMine, copying.rootAt, ?_, ?_, built.agree, ?_, ?_⟩
  · intro virt inherited
    rw [directoryPath, kernelWalk]
    by_cases first : pml4Idx virt = 0
    · have small : pdpIdx virt < 4 := by
        rcases inherited with upper | small
        · exact absurd first upper
        · exact small
      rcases toDirectory _ small with ⟨pd, nonzero, -, walk, -, table⟩
      rw [first, ← isPdp, if_neg leads, walk, table]
      exact ⟨⟨fun zero => absurd zero nonzero, fun zero => absurd zero (directories _ small)⟩,
        fun _ => rfl⟩
    · have entry := atRoot (pml4Idx virt)
      rw [if_neg first] at entry
      rw [follow, entry]
      by_cases stops : nextLevel (before.tables before.kernelPml4 (pml4Idx virt)) = 0
      · rw [if_pos stops, if_pos stops]
        exact ⟨Iff.rfl, fun zero => absurd rfl zero⟩
      · have isAt := placed.nextLevel_eq placed.kernel (by simp) stops
        rw [if_neg stops, if_neg stops, follow_singleton, built.agree isAt]
        refine ⟨Iff.rfl, fun next => ?_⟩
        exact built.agree (placed.nextLevel_eq isAt (by simp) next)
  · intro virt outside
    rw [Inherited, not_or, not_not] at outside
    have walk := @follow_concat _ _ [0] (by rwa [toPdp]) (pdpIdx virt)
    rw [directoryPath, outside.1, show [0, pdpIdx virt] = [0] ++ [pdpIdx virt] from rfl, walk,
      toPdp, atOther nePdp, copying.rest]
    · exact nextLevel_absent (by decide)
    · intro member
      simp only [List.mem_cons, List.not_mem_nil, or_false] at member
      omega
  · have sum := copying.free
    rw [← isAfter]
    exact sum
  · intro i taken
    have taken' : current.bitmap i = true := by
      rw [← isAfter] at taken
      exact taken
    rcases copying.gains i taken' with old | ⟨path, isAt, isMine, which⟩
    · exact Or.inl old
    · have nonzero := builds.placed.ne_zero isAt
      rcases which with ⟨-, same⟩ | ⟨-, same⟩ | ⟨idx, member, -, entry⟩
      · refine Or.inr ⟨[], by simp, by simp, ?_, same.symm⟩
        rw [follow, ← same]
        exact nonzero
      · refine Or.inr ⟨[0], by simp, by simp, ?_, ?_⟩
        · rwa [toPdp]
        · rw [toPdp, same]
      · have small : idx < 4 := by
          simp only [List.mem_cons, List.not_mem_nil, or_false] at member
          omega
        rcases toDirectory idx small with ⟨pd, nonzero', aligned, walk, entry', -⟩
        have samePd : pd = frameAddr i := by
          have masks := congrArg (fun e => e &&& PAGE_MASK) (entry'.symm.trans entry)
          simpa only [tableEntry_mask aligned, tableEntry_mask (aligned_frameAddr i)] using masks
        refine Or.inr ⟨[0, idx], by simp, ?_, ?_, ?_⟩
        · simp
          omega
        · rwa [walk]
        · rw [walk, samePd]

/-- `create_user_pml4` makes a new root, unless fewer than six frames are
free. -/
theorem createUserPml4_spec {vm : Vm} {place : Places} (placed : Placed vm.toMemory place)
    (directories : KernelDirectories vm.toMemory) :
    Leads createUserPml4
      (fun root after =>
        (root = 0 ∧ freeFrames vm.bitmap < 6 ∧ ∃ place', Builds vm after place place') ∨
          ∃ place', NewRoot vm after place place' root) vm := by
  have isKernel := placed.kernel
  have kernelWalk : ∀ idx < 4, nextLevel (vm.tables vm.kernelPml4 0) ≠ 0 ∧
      nextLevel (vm.tables (nextLevel (vm.tables vm.kernelPml4 0)) idx) ≠ 0 := by
    intro idx small
    have leads := directories idx small
    rw [follow] at leads
    by_cases stops : nextLevel (vm.tables vm.kernelPml4 0) = 0
    · rw [if_pos stops] at leads
      exact absurd rfl leads
    · rw [if_neg stops, follow_singleton] at leads
      exact ⟨stops, leads⟩
  have first := (kernelWalk 0 (by decide)).1
  rcases of_nextLevel_ne_zero first with ⟨present, -, masked⟩
  unfold createUserPml4
  rw [leads_bind]
  apply (pmmAllocPage_spec vm).mono
  intro root one outcome
  rcases outcome with ⟨full, rfl, rfl⟩ | ⟨i, search, rfl, rfl⟩
  · rw [if_pos rfl]
    exact Or.inl ⟨rfl, by omega, place, Builds.start placed⟩
  · have nonzero := frameAddr_ne_zero (nextFrame_bound search).1 (placed.next_ne_zero search)
    have rootMine := placed.next_fresh search
    have freeOne := freeFrames_pos search
    have builtOne : Builds vm ((vm.take i).fill (frameAddr i) fun _ => 0) place
        (assign place (frameAddr i) (some [])) := by
      apply ((Builds.start placed).take i).fill rootMine (Or.inl rootMine) (fits_zero _ _)
      exact ⟨i, (nextFrame_bound search).1, placed.next_ne_zero search, assign_self, rfl⟩
    rw [if_neg nonzero, leads_bind]
    generalize isOne : (vm.take i).fill (frameAddr i) (fun _ => 0) = one at builtOne
    rw [leads_zeroTable, isOne, leads_bind, leads_get]
    have kernelPml4 : one.kernelPml4 = vm.kernelPml4 := builtOne.grows.memory.kernelPml4
    have kernelTable : one.tables vm.kernelPml4 = vm.tables vm.kernelPml4 := builtOne.agree isKernel
    have bitmapOne : one.bitmap = assign vm.bitmap i true := by
      rw [← isOne]
      rfl
    dsimp only
    rw [kernelPml4, if_neg (placed.ne_zero isKernel), kernelTable, if_neg present,
      if_neg (by rwa [← masked]), leads_bind]
    apply (pmmAllocPage_spec one).mono
    intro pdp two outcome
    rcases outcome with ⟨full, rfl, rfl⟩ | ⟨j, search', rfl, rfl⟩
    · rw [if_pos rfl]
      refine Or.inl ⟨rfl, ?_, _, builtOne⟩
      rw [bitmapOne] at full
      omega
    · have nonzero' := frameAddr_ne_zero (nextFrame_bound search').1
        (builtOne.placed.next_ne_zero search')
      have pdpFresh := builtOne.placed.next_fresh search'
      have pdpMine := builtOne.mine pdpFresh
      have freeTwo := freeFrames_pos search'
      have neRoot : frameAddr j ≠ frameAddr i := by
        intro same
        rw [same, assign_self] at pdpFresh
        cases pdpFresh
      generalize isPlace : assign (assign place (frameAddr i) (some []))
        (frameAddr j) (some [0]) = places
      have builtTwo : Builds vm ((one.take j).fill (frameAddr j) fun _ => 0) place places := by
        rw [← isPlace]
        apply (builtOne.take j).fill pdpMine (Or.inl pdpFresh) (fits_zero _ _)
        exact ⟨j, (nextFrame_bound search').1, builtOne.placed.next_ne_zero search',
          assign_self, rfl⟩
      have rootAt : places (frameAddr i) = some [] := by
        rw [← isPlace, assign_of_ne neRoot.symm, assign_self]
      have pdpAt : places (frameAddr j) = some [0] := by
        rw [← isPlace, assign_self]
      have builtThree := builtTwo.refill rootMine rootAt
        ((builtTwo.placed.fits rootAt).update (aligned_frameAddr j) pdpAt)
      rw [if_neg nonzero', leads_bind, leads_zeroTable, leads_bind, leads_setEntry, leads_bind]
      generalize isThree : Vm.fill ((one.take j).fill (frameAddr j) fun _ => 0) (frameAddr i) _ =
        three at builtThree ⊢
      have bitmapThree : three.bitmap = assign one.bitmap j true := by
        rw [← isThree]
        rfl
      have rootOne : one.tables (frameAddr i) = fun _ => 0 := by
        rw [← isOne, Vm.fill_self]
      have copying : Copying vm three place places (nextLevel (vm.tables vm.kernelPml4 0))
          (frameAddr i) (frameAddr j) [] := by
        refine ⟨builtThree, rootMine, rootAt, pdpMine, pdpAt, ?_, ?_, ?_, ?_, ?_⟩
        · rw [← isThree, Vm.fill_self, Vm.fill_of_ne _ neRoot.symm]
          show assign (one.tables (frameAddr i)) 0 _ = _
          rw [rootOne]
        · intro idx member
          cases member
        · intro idx _
          rw [← isThree, Vm.fill_of_ne _ neRoot, Vm.fill_self]
        · rw [bitmapThree, List.length_nil]
          rw [bitmapOne] at freeTwo ⊢
          omega
        · intro k taken
          rw [bitmapThree, bitmapOne] at taken
          by_cases second : k = j
          · rw [second]
            exact Or.inr ⟨[0], pdpAt, pdpMine, Or.inr (Or.inl ⟨rfl, rfl⟩)⟩
          · rw [assign_of_ne second] at taken
            by_cases first : k = i
            · rw [first]
              exact Or.inr ⟨[], rootAt, rootMine, Or.inl ⟨rfl, rfl⟩⟩
            · rw [assign_of_ne first] at taken
              exact Or.inl taken
      rw [← masked]
      have kernelAt := placed.nextLevel_eq isKernel (by simp) first
      apply (copyDirectories_spec copying kernelAt (by decide) fun idx member =>
        (kernelWalk idx (List.mem_range.mp member)).2).mono
      intro success last outcome
      rcases outcome with ⟨rfl, full, built⟩ | ⟨rfl, places', copied⟩
      · exact Or.inl ⟨rfl, full, built⟩
      · rw [if_pos rfl, leads_bind, leads_get]
        rcases copied.newRoot placed rfl first fun idx small => (kernelWalk idx small).2 with
          ⟨place'', newRoot⟩
        refine Or.inr ⟨place'', ?_⟩
        have entry : last.tables (frameAddr i) 0 = tableEntry (frameAddr j) := by
          rw [copied.rootEntries, assign_self]
        have kernelPml4' : last.kernelPml4 = vm.kernelPml4 := copied.builds.grows.memory.kernelPml4
        rw [← entry, ← copied.builds.agree isKernel, ← kernelPml4'] at newRoot
        exact newRoot

end Notux.Vmm
