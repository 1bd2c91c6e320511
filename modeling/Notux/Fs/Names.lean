import Notux.Fs.Removal
import Notux.Store.Naming
import Mathlib.Data.List.TakeWhile

/-!
# Names in a directory

A directory starts with its two dot entries, and no two entries in use have one name.  Then the
first entry with a name is the only one, entering a name that is free binds it, and clearing an
entry frees its name.
-/

namespace Notux.Fs

open Notux.Store Notux.Proc

/-! ## Names as they are stored -/

/-- What stands in a name field that a string has been copied to. -/
theorem ofFn_strncpy (name : List Byte) :
    List.ofFn (strncpy name) = name.take DIRSIZ ++ List.replicate (DIRSIZ - name.length) 0 := by
  apply List.ext_getElem?
  intro i
  rw [List.getElem?_append, List.getElem?_ofFn, List.length_take, List.getElem?_take,
    List.getElem?_replicate]
  unfold strncpy
  simp only [DIRSIZ]
  by_cases inside : i < 14
  · by_cases short : i < name.length
    · rw [dif_pos inside, if_pos (by omega), if_pos inside, List.getD_eq_getElem?_getD,
        List.getElem?_eq_getElem short]
      rfl
    · rw [dif_pos inside, if_neg (by omega), if_pos (by omega), List.getD_eq_getElem?_getD,
        List.getElem?_eq_none (by omega)]
      rfl
  · rw [dif_neg inside, if_neg (by omega), if_neg (by omega)]

/-- A string without zeroes is read back up to `DIRSIZ` bytes. -/
theorem cstr_strncpy {name : List Byte} (noNul : 0 ∉ name) :
    cstr (strncpy name) = name.take DIRSIZ := by
  have clean : ∀ byte ∈ name.take DIRSIZ, decide (byte ≠ 0) = true := by
    intro byte member
    apply decide_eq_true
    rintro rfl
    exact noNul (List.mem_of_mem_take member)
  unfold cstr
  rw [ofFn_strncpy, List.takeWhile_append_of_pos clean, List.takeWhile_replicate]
  simp

/-- Names that fit into an entry. -/
structure Fits (name : List Byte) : Prop where
  short : name.length ≤ DIRSIZ
  noNul : 0 ∉ name

theorem Fits.cstr {name : List Byte} (fits : Fits name) : cstr (strncpy name) = name := by
  rw [cstr_strncpy fits.noNul, List.take_of_length_le fits.short]

theorem fits_dots {name : List Byte} (isDots : IsDots name) : Fits name := by
  rcases isDots with rfl | rfl
  · exact ⟨by decide, by decide⟩
  · exact ⟨by decide, by decide⟩

/-! ## The entries in use -/

namespace Node

/-- The name of the entry at an offset. -/
def nameAt (node : Node) (off : Nat) : List Byte := cstr (node.dirent off).name

/-- The inode number of the entry at an offset. -/
def inumAt (node : Node) (off : Nat) : Nat := (node.dirent off).inum.toNat

/-- The entry at an offset is in use. -/
def Used (node : Node) (off : Nat) : Prop := node.IsEntry off ∧ (node.dirent off).inum ≠ 0

/-- The node is directory `i`: it consists of whole entries, starts with `.` and `..`, and has no
name in use twice. -/
structure Listed (node : Node) (i : Nat) : Prop where
  whole : DIRENT_SIZE ∣ node.size.toNat
  here : node.Used 0
  itself : node.inumAt 0 = i
  dot : node.nameAt 0 = [dot]
  above : node.Used DIRENT_SIZE
  dotdot : node.nameAt DIRENT_SIZE = [Fs.dot, Fs.dot]
  distinct : ∀ off other, node.Used off → node.Used other → node.nameAt off = node.nameAt other →
    off = other

variable {node : Node} {i off : Nat} {name : List Byte}

/-- Stored names fit. -/
theorem fits_nameAt (node : Node) (off : Nat) : Fits (node.nameAt off) := by
  unfold nameAt cstr
  constructor
  · apply (List.takeWhile_prefix _).length_le.trans
    rw [List.length_ofFn]
  · intro member
    have nonzero := List.mem_takeWhile_imp member
    exact absurd nonzero (by decide)

theorem names_iff : node.Names name off ↔
    (node.dirent off).inum ≠ 0 ∧ name.take DIRSIZ = node.nameAt off := by
  unfold Names namecmp nameAt
  rw [decide_eq_true_iff]

theorem lookup_used (found : node.lookup name = some off) :
    node.Used off ∧ node.nameAt off = name.take DIRSIZ := by
  have entry := mem_entries.mp (List.mem_of_find?_eq_some found)
  have names : node.Names name off := by simpa using List.find?_some found
  obtain ⟨inUse, same⟩ := names_iff.mp names
  exact ⟨⟨entry, inUse⟩, same.symm⟩

/-- A name that no entry has is not found. -/
theorem lookup_eq_none_iff :
    node.lookup name = none ↔ ∀ off, node.Used off → node.nameAt off ≠ name.take DIRSIZ := by
  constructor
  · intro absent off used same
    have none := List.find?_eq_none.mp absent off (mem_entries.mpr used.1)
    exact none (decide_eq_true (names_iff.mpr ⟨used.2, same.symm⟩))
  · intro absent
    apply lookup_eq_none
    intro off entry names
    obtain ⟨inUse, same⟩ := names_iff.mp names
    exact absent off ⟨entry, inUse⟩ same.symm

/-- Only the first bytes of a name count. -/
theorem lookup_congr {other : List Byte} (same : name.take DIRSIZ = other.take DIRSIZ) :
    node.lookup name = node.lookup other := by
  unfold lookup
  congr 1
  funext off
  apply decide_eq_decide.mpr
  rw [names_iff, names_iff, same]

/-- Where names are distinct, the entry with a name is the one that is found. -/
theorem Listed.lookup_eq (listed : node.Listed i) (used : node.Used off)
    (named : node.nameAt off = name.take DIRSIZ) : node.lookup name = some off := by
  cases found : node.lookup name with
  | none => exact absurd named (lookup_eq_none_iff.mp found off used)
  | some other =>
      obtain ⟨used', named'⟩ := lookup_used found
      rw [listed.distinct off other used used' (named.trans named'.symm)]

theorem Listed.lookup_dot (listed : node.Listed i) : node.lookup [Fs.dot] = some 0 :=
  listed.lookup_eq listed.here
    (listed.dot.trans (List.take_of_length_le (fits_dots (Or.inl rfl)).short).symm)

theorem Listed.lookup_dotdot (listed : node.Listed i) :
    node.lookup [Fs.dot, Fs.dot] = some DIRENT_SIZE :=
  listed.lookup_eq listed.above
    (listed.dotdot.trans (List.take_of_length_le (fits_dots (Or.inr rfl)).short).symm)

/-- A free name is not one of the dots. -/
theorem Listed.notDots (listed : node.Listed i) (absent : node.lookup name = none) :
    ¬ IsDots name := by
  rintro (rfl | rfl)
  · rw [listed.lookup_dot] at absent
    cases absent
  · rw [listed.lookup_dotdot] at absent
    cases absent

/-- Only the link count changes. -/
theorem Listed.withLinks (listed : node.Listed i) (nlink : BitVec 16) :
    ({ node with nlink } : Node).Listed i :=
  ⟨listed.whole, listed.here, listed.itself, listed.dot, listed.above, listed.dotdot,
    listed.distinct⟩

/-! ## The contents as a directory of names -/

/-- The inode number that a name leads to. -/
def answer (node : Node) (name : List Byte) : Option Nat := (node.lookup name).map node.inumAt

/-- The inode that a directory binds to a name that is not one of the dots. -/
def bound (node : Node) (name : List Byte) : Option Nat :=
  if name.length ≤ DIRSIZ ∧ ¬ IsDots name then node.answer name else none

theorem bound_of_lookup (short : Fits name) (notDots : ¬ IsDots name)
    (found : node.lookup name = some off) : node.bound name = some (node.inumAt off) := by
  unfold bound answer
  rw [if_pos ⟨short.short, notDots⟩, found]
  rfl

theorem bound_eq_none (absent : node.lookup name = none) : node.bound name = none := by
  unfold bound answer
  rw [absent]
  split <;> rfl

/-- What a node holds if it is a directory. -/
def directory (node : Node) : Option (Directory Nat (List Byte)) :=
  if node.type = T_DIR then some ⟨node.inumAt DIRENT_SIZE, node.bound⟩ else none

/-- A node with its links and names. -/
def item (node : Node) : Item Nat (List Byte) := ⟨node.nlink.toNat, node.directory⟩

theorem directory_of_dir (isDir : node.type = T_DIR) :
    node.directory = some ⟨node.inumAt DIRENT_SIZE, node.bound⟩ := if_pos isDir

theorem directory_of_file (isFile : node.type ≠ T_DIR) : node.directory = none := if_neg isFile

theorem item_of_dir (isDir : node.type = T_DIR) :
    node.item = ⟨node.nlink.toNat, some ⟨node.inumAt DIRENT_SIZE, node.bound⟩⟩ := by
  unfold item
  rw [directory_of_dir isDir]

theorem weight_directory (node : Node) :
    Directory.weight node.directory = if node.type = T_DIR then 1 else 0 := by
  unfold directory
  split <;> rfl

/-! ## Entering a name -/

section Enter

variable {de : Dirent} {other n : Nat}

theorem not_used_of_vacant (vacant : node.Vacant off) : ¬ node.Used off :=
  fun used => used.2 (vacant.2.2 used.1.2)

/-- An entry at the end makes the directory longer by that entry alone. -/
theorem isEntry_enter (vacant : node.Vacant off) (fits : off + DIRENT_SIZE ≤ MAXFILE * BSIZE) :
    (node.enter off de).IsEntry other ↔ node.IsEntry other ∨ other = off := by
  obtain ⟨aligned, below, -⟩ := vacant
  unfold IsEntry
  rw [size_enter node de fits]
  simp only [DIRENT_SIZE] at aligned ⊢
  omega

theorem whole_enter (aligned : DIRENT_SIZE ∣ off) (fits : off + DIRENT_SIZE ≤ MAXFILE * BSIZE)
    (whole : DIRENT_SIZE ∣ node.size.toNat) : DIRENT_SIZE ∣ (node.enter off de).size.toNat := by
  rw [size_enter node de fits]
  rcases max_choice node.size.toNat (off + DIRENT_SIZE) with isOld | isNew
  · rw [isOld]
    exact whole
  · rw [isNew]
    exact Nat.dvd_add aligned (Nat.dvd_refl _)

theorem nameAt_enter (aligned : DIRENT_SIZE ∣ off) (otherAligned : DIRENT_SIZE ∣ other) :
    (node.enter off de).nameAt other = if other = off then cstr de.name else node.nameAt other := by
  unfold nameAt
  rw [dirent_enter node de aligned otherAligned]
  split <;> rfl

theorem inumAt_enter (aligned : DIRENT_SIZE ∣ off) (otherAligned : DIRENT_SIZE ∣ other) :
    (node.enter off de).inumAt other = if other = off then de.inum.toNat else node.inumAt other := by
  unfold inumAt
  rw [dirent_enter node de aligned otherAligned]
  split <;> rfl

theorem used_enter (vacant : node.Vacant off) (fits : off + DIRENT_SIZE ≤ MAXFILE * BSIZE)
    (inUse : de.inum ≠ 0) : (node.enter off de).Used other ↔ node.Used other ∨ other = off := by
  unfold Used
  rw [isEntry_enter vacant fits]
  by_cases same : other = off
  · rw [same, dirent_enter node de vacant.1 vacant.1, if_pos rfl]
    exact iff_of_true ⟨Or.inr rfl, inUse⟩ (Or.inr rfl)
  · simp only [same, or_false]
    apply and_congr_right
    intro entry
    rw [dirent_enter node de vacant.1 entry.1, if_neg same]

/-- The inode number of a new entry. -/
theorem inum_naming (name : List Byte) (small : n < 2 ^ 16) :
    (Dirent.naming name n).inum.toNat = n := by
  change (BitVec.ofNat 16 n).toNat = n
  rw [BitVec.toNat_ofNat, Nat.mod_eq_of_lt small]

theorem inum_naming_ne (name : List Byte) (small : n < 2 ^ 16) (positive : 0 < n) :
    (Dirent.naming name n).inum ≠ 0 := by
  intro zero
  have number := inum_naming name small
  rw [zero] at number
  exact absurd number.symm (Nat.ne_of_gt positive)

variable (vacant : node.Vacant off) (fits : off + DIRENT_SIZE ≤ MAXFILE * BSIZE)
  (short : Fits name) (absent : node.lookup name = none) (small : n < 2 ^ 16) (positive : 0 < n)

include short absent in
theorem nameAt_ne_of_absent (used : node.Used other) : node.nameAt other ≠ name := by
  have differ := lookup_eq_none_iff.mp absent other used
  rwa [List.take_of_length_le short.short] at differ

include vacant fits short absent small positive

/-- No two entries get one name. -/
theorem distinct_enter (distinct : ∀ off other, node.Used off → node.Used other →
      node.nameAt off = node.nameAt other → off = other) {first second : Nat}
    (one : (node.enter off (.naming name n)).Used first)
    (two : (node.enter off (.naming name n)).Used second)
    (same : (node.enter off (.naming name n)).nameAt first =
      (node.enter off (.naming name n)).nameAt second) : first = second := by
  have inUse := inum_naming_ne name small positive
  rw [nameAt_enter vacant.1 one.1.1, nameAt_enter vacant.1 two.1.1] at same
  have named : cstr (Dirent.naming name n).name = name := short.cstr
  rw [used_enter vacant fits inUse] at one two
  by_cases isNew : first = off
  · by_cases isNew' : second = off
    · rw [isNew, isNew']
    · rw [if_pos isNew, if_neg isNew', named] at same
      exact absurd same.symm (nameAt_ne_of_absent short absent (two.resolve_right isNew'))
  · by_cases isNew' : second = off
    · rw [if_neg isNew, if_pos isNew', named] at same
      exact absurd same (nameAt_ne_of_absent short absent (one.resolve_right isNew))
    · rw [if_neg isNew, if_neg isNew'] at same
      exact distinct first second (one.resolve_right isNew) (two.resolve_right isNew') same

/-- A free name may be entered. -/
theorem Listed.enter (listed : node.Listed i) : (node.enter off (.naming name n)).Listed i := by
  have inUse := inum_naming_ne name small positive
  have first : (0 : Nat) ≠ off := fun same => not_used_of_vacant vacant (same ▸ listed.here)
  have second : DIRENT_SIZE ≠ off := fun same => not_used_of_vacant vacant (same ▸ listed.above)
  have zero : DIRENT_SIZE ∣ 0 := Nat.dvd_zero _
  constructor
  · exact whole_enter vacant.1 fits listed.whole
  · exact (used_enter vacant fits inUse).mpr (Or.inl listed.here)
  · rw [inumAt_enter vacant.1 zero, if_neg first]
    exact listed.itself
  · rw [nameAt_enter vacant.1 zero, if_neg first]
    exact listed.dot
  · exact (used_enter vacant fits inUse).mpr (Or.inl listed.above)
  · rw [nameAt_enter vacant.1 (Nat.dvd_refl _), if_neg second]
    exact listed.dotdot
  · intro one two
    exact distinct_enter vacant fits short absent small positive listed.distinct

/-- Looking up after a name has been entered. -/
theorem lookup_enter (listed : node.Listed i) (nm : List Byte) :
    (node.enter off (.naming name n)).lookup nm =
      if nm.take DIRSIZ = name then some off else node.lookup nm := by
  have listed' := listed.enter vacant fits short absent small positive
  have inUse := inum_naming_ne name small positive
  have named : cstr (Dirent.naming name n).name = name := short.cstr
  split
  · next same =>
    apply listed'.lookup_eq ((used_enter vacant fits inUse).mpr (Or.inr rfl))
    rw [nameAt_enter vacant.1 vacant.1, if_pos rfl, named, same]
  · next differ =>
    cases found : node.lookup nm with
    | none =>
        apply lookup_eq_none_iff.mpr
        intro other used
        rw [nameAt_enter vacant.1 used.1.1]
        rcases (used_enter vacant fits inUse).mp used with before | rfl
        · have apart : other ≠ off := fun same => not_used_of_vacant vacant (same ▸ before)
          rw [if_neg apart]
          exact lookup_eq_none_iff.mp found other before
        · rw [if_pos rfl, named]
          exact Ne.symm differ
    | some other =>
        obtain ⟨used, same⟩ := lookup_used found
        have apart : other ≠ off := fun equal => not_used_of_vacant vacant (equal ▸ used)
        apply listed'.lookup_eq ((used_enter vacant fits inUse).mpr (Or.inl used))
        rw [nameAt_enter vacant.1 used.1.1, if_neg apart, same]

/-- What names lead to after one has been entered. -/
theorem answer_enter (listed : node.Listed i) (nm : List Byte) :
    (node.enter off (.naming name n)).answer nm =
      if nm.take DIRSIZ = name then some n else node.answer nm := by
  unfold answer
  rw [lookup_enter vacant fits short absent small positive listed]
  split
  · rw [Option.map_some, inumAt_enter vacant.1 vacant.1, if_pos rfl, inum_naming name small]
  · cases found : node.lookup nm with
    | none => rfl
    | some other =>
        obtain ⟨used, -⟩ := lookup_used found
        have apart : other ≠ off := fun equal => not_used_of_vacant vacant (equal ▸ used)
        rw [Option.map_some, Option.map_some, inumAt_enter vacant.1 used.1.1, if_neg apart]

/-- What a directory binds after a name has been entered. -/
theorem bound_enter (listed : node.Listed i) (notDots : ¬ IsDots name) :
    (node.enter off (.naming name n)).bound = Function.update node.bound name (some n) := by
  funext nm
  unfold bound
  rw [answer_enter vacant fits short absent small positive listed, Function.update_apply]
  by_cases asked : nm.length ≤ DIRSIZ ∧ ¬ IsDots nm
  · rw [if_pos asked, if_pos asked, List.take_of_length_le asked.1]
  · have differ : nm ≠ name := by
      rintro rfl
      exact asked ⟨short.short, notDots⟩
    rw [if_neg asked, if_neg asked, if_neg differ]

/-- A directory as a node after a name has been entered. -/
theorem item_enter (listed : node.Listed i) (isDir : node.type = T_DIR) :
    (node.enter off (.naming name n)).item = ⟨node.nlink.toNat,
      some (Directory.rebind ⟨node.inumAt DIRENT_SIZE, node.bound⟩ name (some n))⟩ := by
  have second : DIRENT_SIZE ≠ off := fun same => not_used_of_vacant vacant (same ▸ listed.above)
  have isDir' : (node.enter off (.naming name n)).type = T_DIR := isDir
  rw [item_of_dir isDir', bound_enter vacant fits short absent small positive listed
    (listed.notDots absent), inumAt_enter vacant.1 (Nat.dvd_refl _), if_neg second]
  rfl

end Enter

/-! ## Clearing an entry -/

section Clear

variable {other : Nat}

theorem size_clear (used : node.Used off) : (node.enter off Dirent.zero).size = node.size :=
  if_neg (Nat.not_lt.mpr used.1.2)

theorem used_clear (used : node.Used off) :
    (node.enter off Dirent.zero).Used other ↔ node.Used other ∧ other ≠ off := by
  have entries : (node.enter off Dirent.zero).IsEntry other ↔ node.IsEntry other := by
    unfold IsEntry
    rw [size_clear used]
  unfold Used
  rw [entries]
  by_cases same : other = off
  · rw [same, dirent_enter node Dirent.zero used.1.1 used.1.1, if_pos rfl]
    exact iff_of_false (fun both => both.2 rfl) (fun both => both.2 rfl)
  · constructor
    · rintro ⟨entry, inUse⟩
      rw [dirent_enter node Dirent.zero used.1.1 entry.1, if_neg same] at inUse
      exact ⟨⟨entry, inUse⟩, same⟩
    · rintro ⟨⟨entry, inUse⟩, -⟩
      rw [dirent_enter node Dirent.zero used.1.1 entry.1, if_neg same]
      exact ⟨entry, inUse⟩

variable (listed : node.Listed i) (found : node.lookup name = some off)
  (notDots : ¬ IsDots (name.take DIRSIZ))

include listed found notDots

theorem clear_apart : off ≠ 0 ∧ off ≠ DIRENT_SIZE := by
  have named := (lookup_used found).2
  constructor
  · rintro rfl
    exact notDots (Or.inl (named.symm.trans listed.dot))
  · rintro rfl
    exact notDots (Or.inr (named.symm.trans listed.dotdot))

/-- An entry that is not one of the dots may be cleared. -/
theorem Listed.clear : (node.enter off Dirent.zero).Listed i := by
  have used := (lookup_used found).1
  have apart := clear_apart listed found notDots
  have zero : DIRENT_SIZE ∣ 0 := Nat.dvd_zero _
  constructor
  · rw [size_clear used]
    exact listed.whole
  · exact (used_clear used).mpr ⟨listed.here, apart.1.symm⟩
  · rw [inumAt_enter used.1.1 zero, if_neg apart.1.symm]
    exact listed.itself
  · rw [nameAt_enter used.1.1 zero, if_neg apart.1.symm]
    exact listed.dot
  · exact (used_clear used).mpr ⟨listed.above, apart.2.symm⟩
  · rw [nameAt_enter used.1.1 (Nat.dvd_refl _), if_neg apart.2.symm]
    exact listed.dotdot
  · intro first second one two same
    rw [nameAt_enter used.1.1 one.1.1, nameAt_enter used.1.1 two.1.1] at same
    rw [used_clear used] at one two
    rw [if_neg one.2, if_neg two.2] at same
    exact listed.distinct first second one.1 two.1 same

/-- Looking up after an entry has been cleared. -/
theorem lookup_clear (nm : List Byte) : (node.enter off Dirent.zero).lookup nm =
    if nm.take DIRSIZ = name.take DIRSIZ then none else node.lookup nm := by
  obtain ⟨used, named⟩ := lookup_used found
  have listed' := listed.clear found notDots
  split
  · next same =>
    apply lookup_eq_none_iff.mpr
    intro other still
    have aligned := still.1.1
    obtain ⟨before, apart⟩ := (used_clear used).mp still
    rw [nameAt_enter used.1.1 aligned, if_neg apart, same, ← named]
    exact fun equal => apart (listed.distinct other off before used equal)
  · next differ =>
    cases found' : node.lookup nm with
    | none =>
        apply lookup_eq_none_iff.mpr
        intro other still
        have aligned := still.1.1
        obtain ⟨before, apart⟩ := (used_clear used).mp still
        rw [nameAt_enter used.1.1 aligned, if_neg apart]
        exact lookup_eq_none_iff.mp found' other before
    | some other =>
        obtain ⟨used', named'⟩ := lookup_used found'
        have apart : other ≠ off := by
          rintro rfl
          exact differ (named'.symm.trans named)
        apply listed'.lookup_eq ((used_clear used).mpr ⟨used', apart⟩)
        rw [nameAt_enter used.1.1 used'.1.1, if_neg apart, named']

/-- What names lead to after an entry has been cleared. -/
theorem answer_clear (nm : List Byte) : (node.enter off Dirent.zero).answer nm =
    if nm.take DIRSIZ = name.take DIRSIZ then none else node.answer nm := by
  obtain ⟨used, named⟩ := lookup_used found
  unfold answer
  rw [lookup_clear listed found notDots]
  split
  · rfl
  · next differ =>
    cases found' : node.lookup nm with
    | none => rfl
    | some other =>
        obtain ⟨used', named'⟩ := lookup_used found'
        have apart : other ≠ off := by
          rintro rfl
          exact differ (named'.symm.trans named)
        rw [Option.map_some, Option.map_some, inumAt_enter used.1.1 used'.1.1, if_neg apart]

/-- What a directory binds after an entry has been cleared. -/
theorem bound_clear : (node.enter off Dirent.zero).bound =
    Function.update node.bound (name.take DIRSIZ) none := by
  funext nm
  unfold bound
  rw [answer_clear listed found notDots, Function.update_apply]
  by_cases asked : nm.length ≤ DIRSIZ ∧ ¬ IsDots nm
  · rw [if_pos asked, if_pos asked, List.take_of_length_le asked.1]
  · rw [if_neg asked, if_neg asked]
    split <;> rfl

/-- A directory as a node after an entry has been cleared. -/
theorem item_clear (isDir : node.type = T_DIR) :
    (node.enter off Dirent.zero).item = ⟨node.nlink.toNat,
      some (Directory.rebind ⟨node.inumAt DIRENT_SIZE, node.bound⟩ (name.take DIRSIZ) none)⟩ := by
  have used := (lookup_used found).1
  have apart := clear_apart listed found notDots
  have isDir' : (node.enter off Dirent.zero).type = T_DIR := isDir
  rw [item_of_dir isDir', bound_clear listed found notDots,
    inumAt_enter used.1.1 (Nat.dvd_refl _), if_neg apart.2.symm]
  rfl

end Clear

/-! ## A new directory -/

theorem not_used_newborn {type major minor : BitVec 16} :
    ¬ (newborn type major minor).Used off := by
  rintro ⟨⟨-, inside⟩, -⟩
  exact absurd inside (by simp [newborn, DIRENT_SIZE])

/-- A new directory starts with its dot entries and binds nothing. -/
theorem dotted_listed {n d : Nat} {major minor : BitVec 16} {new : Node} (smallSelf : n < 2 ^ 16)
    (smallUp : d < 2 ^ 16) (positive : 0 < n) (positiveUp : 0 < d)
    (dotted : Dotted n d (newborn T_DIR major minor) new) :
    new.Listed n ∧ new.type = T_DIR ∧ new.nlink = 1 ∧ new.inumAt DIRENT_SIZE = d ∧
      ∀ name, new.bound name = none := by
  obtain ⟨off, next, first, second, isNew⟩ := dotted
  have atStart : off = 0 := Nat.le_zero.mp first.2.1
  subst atStart
  have fits : 0 + DIRENT_SIZE ≤ MAXFILE * BSIZE := by decide
  have fits' : DIRENT_SIZE + DIRENT_SIZE ≤ MAXFILE * BSIZE := by decide
  have dotName : cstr (strncpy [Fs.dot]) = [Fs.dot] := (fits_dots (Or.inl rfl)).cstr
  have dotdotName : cstr (strncpy [Fs.dot, Fs.dot]) = [Fs.dot, Fs.dot] :=
    (fits_dots (Or.inr rfl)).cstr
  have selfInUse := inum_naming_ne [Fs.dot] smallSelf positive
  have upInUse := inum_naming_ne [Fs.dot, Fs.dot] smallUp positiveUp
  have single : ∀ o, ((newborn T_DIR major minor).enter 0 (.naming [Fs.dot] n)).Used o ↔ o = 0 := by
    intro o
    rw [used_enter first fits selfInUse]
    simp [not_used_newborn]
  have atSecond : next = DIRENT_SIZE := by
    have apart : next ≠ 0 := fun same => not_used_of_vacant second ((single next).mpr same)
    have below := second.2.1
    have aligned := second.1
    have nothing : (newborn T_DIR major minor).size.toNat = 0 := rfl
    rw [size_enter _ _ fits, nothing] at below
    simp only [DIRENT_SIZE] at below aligned ⊢
    omega
  subst atSecond
  have both : ∀ {o}, new.Used o ↔ o = 0 ∨ o = DIRENT_SIZE := by
    intro o
    rw [isNew, used_enter second fits' upInUse, single]
  have zero : DIRENT_SIZE ∣ 0 := Nat.dvd_zero _
  have apart : (0 : Nat) ≠ DIRENT_SIZE := by decide
  have selfName : new.nameAt 0 = [Fs.dot] := by
    rw [isNew, nameAt_enter second.1 zero, if_neg apart, nameAt_enter zero zero, if_pos rfl]
    exact dotName
  have upName : new.nameAt DIRENT_SIZE = [Fs.dot, Fs.dot] := by
    rw [isNew, nameAt_enter second.1 second.1, if_pos rfl]
    exact dotdotName
  have upInum : new.inumAt DIRENT_SIZE = d := by
    rw [isNew, inumAt_enter second.1 second.1, if_pos rfl, inum_naming _ smallUp]
  refine ⟨?_, by rw [isNew]; rfl, by rw [isNew]; rfl, upInum, ?_⟩
  · constructor
    · rw [isNew]
      exact whole_enter second.1 fits' (whole_enter first.1 fits (Nat.dvd_zero _))
    · exact both.mpr (Or.inl rfl)
    · rw [isNew, inumAt_enter second.1 zero, if_neg apart, inumAt_enter zero zero, if_pos rfl,
        inum_naming _ smallSelf]
    · exact selfName
    · exact both.mpr (Or.inr rfl)
    · exact upName
    · intro one two usedOne usedTwo same
      rcases both.mp usedOne with rfl | rfl <;> rcases both.mp usedTwo with rfl | rfl
      · rfl
      · rw [selfName, upName] at same
        exact absurd same (by decide)
      · rw [selfName, upName] at same
        exact absurd same (by decide)
      · rfl
  · intro name
    unfold bound answer
    split
    · next asked =>
      rw [lookup_eq_none_iff.mpr]
      · rfl
      · intro o used same
        rw [List.take_of_length_le asked.1] at same
        rcases both.mp used with rfl | rfl
        · exact asked.2 (Or.inl (same.symm.trans selfName))
        · exact asked.2 (Or.inr (same.symm.trans upName))
    · rfl

end Node

/-! ## Paths -/

/-- A path leads along entries. -/
theorem Files.walk_leads {files : Files} {parent : Bool} {fuel i d : Nat} {path rest : List Byte}
    (leads : files.walk parent fuel i path = some (d, rest)) : files.Leads i d := by
  induction fuel generalizing i path with
  | zero => cases leads
  | succ fuel ih =>
      unfold Files.walk at leads
      split at leads
      · split at leads
        · cases leads
        · obtain ⟨rfl, -⟩ := Prod.mk.inj (Option.some.inj leads)
          exact .refl
      · obtain ⟨node, found, turn⟩ := Option.bind_eq_some_iff.mp leads
        split at turn
        · cases turn
        · next isDir =>
          split at turn
          · obtain ⟨rfl, -⟩ := Prod.mk.inj (Option.some.inj turn)
            exact .refl
          · obtain ⟨off, isEntry, further⟩ := Option.bind_eq_some_iff.mp turn
            obtain ⟨used, -⟩ := Node.lookup_used isEntry
            exact .head ⟨node, off, found, not_not.mp isDir, used.1, used.2, rfl⟩ (ih further)

end Notux.Fs
