import Notux.Vmm.Walk

/-!
# Adding page tables

What `get_next_level`, `split_huge_pde`, `vmm_map_page` and `vmm_unmap_page` do
to the walks from every root.
-/

namespace Notux.Vmm

open Notux.Store

/-- A place for every table. -/
abbrev Places := Addr → Option (List Nat)

/-- The memory has grown: nothing a root leads to or translates has changed, and
two roots do not meet in a new table unless they met before it. -/
structure Grown (before after : Memory) (place place' : Places) : Prop where
  placed : Placed after place'
  keeps : ∀ {table path}, place table = some path → place' table = some path
  walks : ∀ {root}, place root = some [] → ∀ {path : List Nat}, path.length ≤ 3 →
    follow before.tables root path ≠ 0 →
      follow after.tables root path = follow before.tables root path
  same : ∀ {root}, place root = some [] → ∀ virt,
    vmmVirtToPhys after root virt = vmmVirtToPhys before root virt
  apart : ∀ {first second}, place first = some [] → place second = some [] → first ≠ second →
    ∀ {path : List Nat}, path.length ≤ 3 → follow after.tables first path ≠ 0 →
      follow after.tables first path = follow after.tables second path →
        ∃ count, 0 < count ∧ follow before.tables first (path.take count) ≠ 0 ∧
          follow before.tables first (path.take count) =
            follow before.tables second (path.take count)
  fresh : ∀ {root}, place root = some [] → ∀ {path : List Nat}, path.length ≤ 3 →
    follow before.tables root path = 0 → follow after.tables root path ≠ 0 →
      place (follow after.tables root path) = none
  leaves : ∀ {pt path}, place pt = some path → path.length = 3 →
    after.tables pt = before.tables pt
  kernelPml4 : after.kernelPml4 = before.kernelPml4
  cr3 : after.cr3 = before.cr3
  written : after.written = before.written
  bitmap : ∀ {i}, before.bitmap i = true → after.bitmap i = true

namespace Grown

variable {before middle after : Memory} {place place' place'' : Places}

theorem refl (placed : Placed before place) : Grown before before place place where
  placed := placed
  keeps isAt := isAt
  walks _ _ _ _ := rfl
  same _ _ := rfl
  apart := by
    intro first second _ _ differ path _ leads meet
    cases path with
    | nil => exact absurd meet differ
    | cons i rest =>
        refine ⟨(i :: rest).length, Nat.succ_pos _, ?_⟩
        rw [List.take_length]
        exact ⟨leads, meet⟩
  fresh _ _ _ stops leads := absurd stops leads
  leaves _ _ := rfl
  kernelPml4 := rfl
  cr3 := rfl
  written := rfl
  bitmap taken := taken

theorem trans (first : Grown before middle place place')
    (second : Grown middle after place' place'') : Grown before after place place'' where
  placed := second.placed
  keeps isAt := second.keeps (first.keeps isAt)
  walks := by
    intro root isRoot path short leads
    have step := first.walks isRoot short leads
    rw [second.walks (first.keeps isRoot) short (by rwa [step]), step]
  same isRoot virt := (second.same (first.keeps isRoot) virt).trans (first.same isRoot virt)
  apart := by
    intro one other isRoot isRoot' differ path short leads meet
    rcases second.apart (first.keeps isRoot) (first.keeps isRoot') differ short leads meet with
      ⟨count, positive, leads, meet⟩
    rcases first.apart isRoot isRoot' differ
      (le_trans (List.length_take_le' count path) short) leads meet with
      ⟨count', positive', leads', meet'⟩
    refine ⟨min count' count, lt_min positive' positive, ?_⟩
    rw [List.take_take] at leads' meet'
    exact ⟨leads', meet'⟩
  fresh := by
    intro root isRoot path short stops leads
    by_cases led : follow middle.tables root path = 0
    · have new := second.fresh (first.keeps isRoot) short led leads
      cases isAt : place (follow after.tables root path) with
      | none => rfl
      | some path' =>
          rw [first.keeps isAt] at new
          cases new
    · rw [second.walks (first.keeps isRoot) short led]
      exact first.fresh isRoot short stops led
  leaves isAt level := (second.leaves (first.keeps isAt) level).trans (first.leaves isAt level)
  kernelPml4 := second.kernelPml4.trans first.kernelPml4
  cr3 := second.cr3.trans first.cr3
  written := second.written.trans first.written
  bitmap taken := second.bitmap (first.bitmap taken)

end Grown

/-! ## Memory outside the tables -/

theorem follow_agree {before : Memory} {place : Places} (placed : Placed before place)
    {tables : Addr → Nat → Addr}
    (agree : ∀ {table path}, place table = some path → path.length < 3 →
      tables table = before.tables table)
    {table : Addr} {path rest : List Nat} (isAt : place table = some path)
    (short : path.length + rest.length ≤ 3) :
    follow tables table rest = follow before.tables table rest := by
  induction rest generalizing table path with
  | nil => rfl
  | cons i rest ih =>
      simp only [List.length_cons] at short
      rw [follow, follow, agree isAt (by omega)]
      by_cases stops : nextLevel (before.tables table i) = 0
      · rw [if_pos stops, if_pos stops]
      · rw [if_neg stops, if_neg stops]
        apply ih (placed.nextLevel_eq isAt (by omega) stops)
        rw [List.length_append, List.length_singleton]
        omega

/-- A directory translates alike as long as it and the page table are alike. -/
theorem translateIn_agree {before : Memory} {place : Places} (placed : Placed before place)
    {tables : Addr → Nat → Addr} {pd virt : Addr} {path : List Nat}
    (isAt : place pd = some path) (level : path.length = 2)
    (entry : tables pd (pdIdx virt) = before.tables pd (pdIdx virt))
    (leaf : ∀ {pt}, place pt = some (path ++ [pdIdx virt]) →
      nextLevel (before.tables pd (pdIdx virt)) = pt →
        tables pt (ptIdx virt) = before.tables pt (ptIdx virt)) :
    translateIn tables pd virt = translateIn before.tables pd virt := by
  unfold translateIn
  simp only [entry]
  by_cases absent : before.tables pd (pdIdx virt) &&& PAGE_PRESENT = 0
  · rw [if_pos absent, if_pos absent]
  · by_cases huge : before.tables pd (pdIdx virt) &&& PAGE_HUGE = 0
    · have next := placed.child isAt (by omega) (pdIdx virt) absent huge
      rw [leaf next (by rw [nextLevel, if_pos absent, if_neg (not_not.mpr huge)])]
    · rw [if_neg absent, if_neg absent, if_pos huge, if_pos huge]

/-- Memory that agrees on all placed tables. -/
theorem Grown.of_agree {before after : Memory} {place : Places} (placed : Placed before place)
    (agree : ∀ {table path}, place table = some path → after.tables table = before.tables table)
    (kernelPml4 : after.kernelPml4 = before.kernelPml4) (cr3 : after.cr3 = before.cr3)
    (written : after.written = before.written)
    (bitmap : ∀ {i}, before.bitmap i = true → after.bitmap i = true) :
    Grown before after place place where
  placed :=
    { used := by
        intro table path isAt
        rcases placed.used isAt with ⟨i, bound, positive, taken, same⟩
        exact ⟨i, bound, positive, bitmap taken, same⟩
      child := by
        intro table path isAt
        rw [agree isAt]
        exact placed.child isAt
      small := by
        intro table path isAt
        rw [agree isAt]
        exact placed.small isAt
      kernel := by
        rw [kernelPml4]
        exact placed.kernel
      reserved := bitmap placed.reserved }
  keeps isAt := isAt
  walks := by
    intro root isRoot path short _
    exact follow_agree placed (fun isAt _ => agree isAt) isRoot (by simpa using short)
  same := by
    intro root isRoot virt
    rw [vmmVirtToPhys_eq _ (placed.ne_zero isRoot), vmmVirtToPhys_eq _ (placed.ne_zero isRoot),
      follow_agree placed (fun isAt _ => agree isAt) isRoot (by simp [directoryPath])]
    by_cases stops : follow before.tables root (directoryPath virt) = 0
    · rw [if_pos stops, if_pos stops]
    · rw [if_neg stops, if_neg stops]
      have isAt := placed.follow_place isRoot (by simp [directoryPath]) stops
      apply translateIn_agree placed isAt rfl
      · rw [agree isAt]
      · intro pt isPt _
        rw [agree isPt]
  apart := by
    intro first second isRoot isRoot' differ path short leads meet
    rw [follow_agree placed (fun isAt _ => agree isAt) isRoot (by simpa using short)] at leads meet
    rw [follow_agree placed (fun isAt _ => agree isAt) isRoot' (by simpa using short)] at meet
    exact (Grown.refl placed).apart isRoot isRoot' differ short leads meet
  fresh := by
    intro root isRoot path short stops leads
    rw [follow_agree placed (fun isAt _ => agree isAt) isRoot (by simpa using short)] at leads
    exact absurd stops leads
  leaves isAt _ := agree isAt
  kernelPml4 := kernelPml4
  cr3 := cr3
  written := written
  bitmap := bitmap

/-! ## A new table behind an entry -/

/-- The tables with a new one behind an entry. -/
def attached (tables : Addr → Nat → Addr) (table : Addr) (idx : Nat) (new : Addr)
    (entries : Nat → Addr) : Addr → Nat → Addr :=
  let filled := assign tables new entries
  assign filled table (assign (filled table) idx (tableEntry new))

/-- A new table may stand behind the entry: it is empty and the entry is absent,
or it repeats the huge page of the entry. -/
structure Attaches (memory : Memory) (place : Places) (table : Addr) (path : List Nat) (idx : Nat)
    (new : Addr) (entries : Nat → Addr) : Prop where
  isAt : place table = some path
  short : path.length < 3
  fresh : place new = none
  aligned : Aligned new
  nonzero : new ≠ 0
  blank : (memory.tables table idx &&& PAGE_PRESENT = 0 ∧ ∀ i, entries i = 0) ∨
    (path.length = 2 ∧ memory.tables table idx &&& PAGE_PRESENT ≠ 0 ∧
      memory.tables table idx &&& PAGE_HUGE ≠ 0 ∧ entries = smallPages (memory.tables table idx))

namespace Attaches

variable {memory : Memory} {place : Places} {table : Addr} {path : List Nat} {idx : Nat}
  {new : Addr} {entries : Nat → Addr} (attaches : Attaches memory place table path idx new entries)

include attaches

theorem ne : table ≠ new := by
  intro same
  have isAt := attaches.isAt
  rw [same, attaches.fresh] at isAt
  cases isAt

theorem ne_of_place {other : Addr} {path' : List Nat} (isAt : place other = some path') :
    other ≠ new := by
  intro same
  rw [same, attaches.fresh] at isAt
  cases isAt

omit attaches in
theorem attached_entry : attached memory.tables table idx new entries table idx = tableEntry new := by
  simp [attached]

theorem attached_of_ne {other : Addr} {i : Nat} (old : other ≠ new)
    (differ : other = table → i ≠ idx) :
    attached memory.tables table idx new entries other i = memory.tables other i := by
  by_cases same : other = table
  · subst same
    simp [attached, differ rfl, attaches.ne]
  · simp [attached, same, old]

theorem attached_new (i : Nat) : attached memory.tables table idx new entries new i = entries i := by
  simp [attached, attaches.ne.symm]

theorem stops : nextLevel (memory.tables table idx) = 0 := by
  rcases attaches.blank with ⟨absent, -⟩ | ⟨-, -, huge, -⟩
  · exact nextLevel_absent absent
  · exact nextLevel_huge huge

/-- Above the page tables the new table leads nowhere. -/
theorem follow_new (i : Nat) (rest : List Nat) (short : path.length < 2) :
    follow (attached memory.tables table idx new entries) new (i :: rest) = 0 := by
  rcases attaches.blank with ⟨-, empty⟩ | ⟨level, -⟩
  · rw [follow, attaches.attached_new, empty, if_pos (nextLevel_absent (by decide))]
  · omega

/-- A walk goes where it went, or it stopped at the entry and now ends in the
new table. -/
theorem follow_attached (placed : Placed memory place) {start : Addr} {path' rest : List Nat}
    (isAt : place start = some path') (short : path'.length + rest.length ≤ 3) :
    (follow (attached memory.tables table idx new entries) start rest =
        follow memory.tables start rest) ∨
      (follow memory.tables start rest = 0 ∧
        follow (attached memory.tables table idx new entries) start rest = new ∧
        ∃ init, rest = init ++ [idx] ∧ follow memory.tables start init = table) := by
  induction rest generalizing start path' with
  | nil => exact Or.inl rfl
  | cons i rest ih =>
      simp only [List.length_cons] at short
      by_cases here : start = table ∧ i = idx
      · rcases here with ⟨rfl, rfl⟩
        have samePath : path = path' := Option.some.inj (attaches.isAt.symm.trans isAt)
        have led : nextLevel (tableEntry new) ≠ 0 := by
          rw [nextLevel_tableEntry attaches.aligned]
          exact attaches.nonzero
        have stopped : follow memory.tables start (i :: rest) = 0 := by
          rw [follow, if_pos attaches.stops]
        rw [follow, attached_entry, if_neg led, nextLevel_tableEntry attaches.aligned,
          stopped]
        cases rest with
        | nil => exact Or.inr ⟨rfl, rfl, [], rfl, rfl⟩
        | cons j rest =>
            left
            apply attaches.follow_new j rest
            rw [samePath]
            simp only [List.length_cons] at short
            omega
      · have kept : attached memory.tables table idx new entries start i = memory.tables start i :=
          attaches.attached_of_ne (attaches.ne_of_place isAt) fun same other => here ⟨same, other⟩
        rw [follow, follow, kept]
        by_cases stops : nextLevel (memory.tables start i) = 0
        · rw [if_pos stops, if_pos stops]
          exact Or.inl rfl
        · rw [if_neg stops, if_neg stops]
          have next := placed.nextLevel_eq isAt (by omega) stops
          rcases ih next (by rw [List.length_append, List.length_singleton]; omega) with
            same | ⟨stopped, ends, init, spelled, led⟩
          · exact Or.inl same
          · refine Or.inr ⟨stopped, ends, i :: init, by rw [spelled, List.cons_append], ?_⟩
            rw [follow, if_neg stops, led]

/-- The entry translates as before. -/
theorem translateIn_entry {virt : Addr} (same : pdIdx virt = idx) :
    translateIn (attached memory.tables table idx new entries) table virt =
      translateIn memory.tables table virt := by
  unfold translateIn
  subst same
  simp only [attached_entry, if_neg (tableEntry_present new),
    if_neg (not_not.mpr (tableEntry_not_huge attaches.aligned)),
    tableEntry_mask attaches.aligned, if_neg attaches.nonzero, attaches.attached_new]
  rcases attaches.blank with ⟨absent, empty⟩ | ⟨-, present, huge, split⟩
  · have none : (0 : Addr) &&& PAGE_PRESENT = 0 := by decide
    rw [empty, if_pos none, if_pos absent]
  · rw [split, if_neg (smallPages_present present _), if_neg present, if_pos huge,
      smallPages_translate]

/-- No root notices the new table. -/
theorem translate_attached (placed : Placed memory place) {after : Memory}
    (tables : after.tables = attached memory.tables table idx new entries) {root : Addr}
    (isRoot : place root = some []) (virt : Addr) :
    vmmVirtToPhys after root virt = vmmVirtToPhys memory root virt := by
  rw [vmmVirtToPhys_eq _ (placed.ne_zero isRoot), vmmVirtToPhys_eq _ (placed.ne_zero isRoot), tables]
  rcases @Attaches.follow_attached _ _ _ _ _ _ _ attaches placed _ _ (directoryPath virt) isRoot
      (by simp [directoryPath]) with same | ⟨stopped, ends, init, spelled, led⟩
  · rw [same]
    by_cases stops : follow memory.tables root (directoryPath virt) = 0
    · rw [if_pos stops, if_pos stops]
    · rw [if_neg stops, if_neg stops]
      have isAt := placed.follow_place isRoot (by simp [directoryPath]) stops
      rw [List.nil_append] at isAt
      by_cases here : follow memory.tables root (directoryPath virt) = table ∧ pdIdx virt = idx
      · rw [here.1]
        exact attaches.translateIn_entry here.2
      · apply translateIn_agree placed isAt rfl
        · apply attaches.attached_of_ne (attaches.ne_of_place isAt)
          exact fun same other => here ⟨same, other⟩
        · intro pt isPt _
          apply attaches.attached_of_ne (attaches.ne_of_place isPt)
          intro same
          rw [same, attaches.isAt] at isPt
          have long := congrArg List.length (Option.some.inj isPt)
          have short := attaches.short
          simp [directoryPath] at long
          omega
  · rw [stopped, ends, if_pos rfl, if_neg attaches.nonzero]
    have level : path.length < 2 := by
      have short := congrArg List.length spelled
      rw [directoryPath, List.length_append, List.length_singleton] at short
      have nonzero : follow memory.tables root init ≠ 0 := by
        rw [led]
        exact placed.ne_zero attaches.isAt
      have isAt := @Placed.follow_place _ _ placed _ _ isRoot init
        (by simp only [List.length_nil, List.length_cons] at short ⊢; omega) nonzero
      rw [led, attaches.isAt] at isAt
      rw [Option.some.inj isAt, List.nil_append]
      simp only [List.length_cons, List.length_nil] at short
      omega
    rcases attaches.blank with ⟨-, empty⟩ | ⟨exact, -⟩
    · have none : (0 : Addr) &&& PAGE_PRESENT = 0 := by decide
      unfold translateIn
      simp only [attaches.attached_new, empty, if_pos none]
    · omega

/-- The memory with the new table in its place. -/
theorem grown (placed : Placed memory place) {after : Memory}
    (tables : after.tables = attached memory.tables table idx new entries)
    (taken : ∃ i < MAX_PAGES, i ≠ 0 ∧ after.bitmap i = true ∧ new = frameAddr i)
    (kernelPml4 : after.kernelPml4 = memory.kernelPml4) (cr3 : after.cr3 = memory.cr3)
    (written : after.written = memory.written)
    (bitmap : ∀ {i}, memory.bitmap i = true → after.bitmap i = true) :
    Grown memory after place (assign place new (some (path ++ [idx]))) where
  placed := by
    have old : ∀ {other : Addr} {path' : List Nat}, place other = some path' →
        assign place new (some (path ++ [idx])) other = some path' := by
      intro other path' isAt
      rw [assign_of_ne (attaches.ne_of_place isAt), isAt]
    constructor
    · intro other path' isAt
      by_cases same : other = new
      · rw [same]
        exact taken
      · rw [assign_of_ne same] at isAt
        rcases placed.used isAt with ⟨i, bound, positive, used, isFrame⟩
        exact ⟨i, bound, positive, bitmap used, isFrame⟩
    · intro other path' isAt short i present small
      rw [tables] at present small ⊢
      by_cases same : other = new
      · subst same
        rw [assign_self] at isAt
        rw [attaches.attached_new] at present
        rcases attaches.blank with ⟨-, empty⟩ | ⟨level, -⟩
        · rw [empty] at present
          exact absurd (by decide) present
        · rw [← Option.some.inj isAt, List.length_append, level] at short
          exact absurd short (by simp)
      · rw [assign_of_ne same] at isAt
        by_cases here : other = table ∧ i = idx
        · rcases here with ⟨rfl, rfl⟩
          rw [attached_entry, tableEntry_mask attaches.aligned, assign_self,
            Option.some.inj (attaches.isAt.symm.trans isAt)]
        · rw [attaches.attached_of_ne same fun first second => here ⟨first, second⟩]
            at present small ⊢
          exact old (placed.child isAt short i present small)
    · intro other path' isAt short i present
      rw [tables] at present ⊢
      by_cases same : other = new
      · subst same
        rw [assign_self] at isAt
        rw [attaches.attached_new] at present
        rcases attaches.blank with ⟨-, empty⟩ | ⟨level, -⟩
        · rw [empty] at present
          exact absurd (by decide) present
        · rw [← Option.some.inj isAt, List.length_append, level] at short
          exact absurd short (by simp)
      · rw [assign_of_ne same] at isAt
        by_cases here : other = table ∧ i = idx
        · rcases here with ⟨rfl, rfl⟩
          rw [attached_entry]
          exact tableEntry_not_huge attaches.aligned
        · rw [attaches.attached_of_ne same fun first second => here ⟨first, second⟩]
            at present ⊢
          exact placed.small isAt short i present
    · rw [kernelPml4]
      exact old placed.kernel
    · exact bitmap placed.reserved
  keeps := by
    intro other path' isAt
    rw [assign_of_ne (attaches.ne_of_place isAt), isAt]
  walks := by
    intro root isRoot path' short leads
    rw [tables]
    rcases @Attaches.follow_attached _ _ _ _ _ _ _ attaches placed _ _ path' isRoot
        (by simpa using short) with
      same | ⟨stopped, -⟩
    · exact same
    · exact absurd stopped leads
  same := attaches.translate_attached placed tables
  apart := by
    intro first second isRoot isRoot' differ path' short leads meet
    rw [tables] at leads meet
    have notNew : ∀ {root : Addr}, place root = some [] → follow memory.tables root path' ≠ new := by
      intro root isRoot same
      have isAt := @Placed.follow_place _ _ placed _ _ isRoot path' (by simpa using short)
        (by rw [same]; exact attaches.nonzero)
      rw [same, attaches.fresh] at isAt
      cases isAt
    rcases @Attaches.follow_attached _ _ _ _ _ _ _ attaches placed _ _ path' isRoot
        (by simpa using short) with
      same | ⟨-, ends, init, spelled, led⟩
    · rw [same] at leads meet
      rcases @Attaches.follow_attached _ _ _ _ _ _ _ attaches placed _ _ path' isRoot'
        (by simpa using short) with
        same' | ⟨-, ends', -⟩
      · rw [same'] at meet
        exact (Grown.refl placed).apart isRoot isRoot' differ short leads meet
      · rw [ends'] at meet
        exact absurd meet (notNew isRoot)
    · rcases @Attaches.follow_attached _ _ _ _ _ _ _ attaches placed _ _ path' isRoot'
        (by simpa using short) with
        same' | ⟨-, ends', init', spelled', led'⟩
      · rw [ends, same'] at meet
        exact absurd meet.symm (notNew isRoot')
      · have sameInit : init = init' := (List.append_inj' (spelled.symm.trans spelled') rfl).1
        subst sameInit
        refine ⟨init.length, ?_, ?_⟩
        · apply Nat.pos_of_ne_zero
          intro empty
          rw [List.length_eq_zero_iff.mp empty] at led led'
          exact differ (led.trans led'.symm)
        · rw [spelled, List.take_left, led, led']
          exact ⟨placed.ne_zero attaches.isAt, rfl⟩
  fresh := by
    intro root isRoot path' short stops leads
    rw [tables] at leads ⊢
    rcases @Attaches.follow_attached _ _ _ _ _ _ _ attaches placed _ _ path' isRoot
        (by simpa using short) with
      same | ⟨-, ends, -⟩
    · rw [same] at leads
      exact absurd stops leads
    · rw [ends]
      exact attaches.fresh
  leaves := by
    intro pt path' isPt level
    funext i
    rw [tables]
    apply attaches.attached_of_ne (attaches.ne_of_place isPt)
    intro same
    rw [same, attaches.isAt] at isPt
    have short := attaches.short
    rw [Option.some.inj isPt] at short
    omega
  kernelPml4 := kernelPml4
  cr3 := cr3
  written := written
  bitmap := bitmap

end Attaches

end Notux.Vmm
