import Notux.Fs.Content

/-!
# Directories

A directory is a file of entries of sixteen bytes.  Looking up a name reads the
entries in order and changes nothing; entering a name replaces the first entry that
is not in use, or adds one at the end.
-/

namespace Notux.Fs

open Notux.Store Notux.Proc

/-! ## Entries of a node -/

/-- An offset at which a directory has an entry. -/
def Node.IsEntry (node : Node) (off : Nat) : Prop :=
  DIRENT_SIZE ∣ off ∧ off + DIRENT_SIZE ≤ node.size.toNat

/-- The entry at an offset is in use and has a name. -/
def Node.Names (node : Node) (name : List Byte) (off : Nat) : Prop :=
  (node.dirent off).inum ≠ 0 ∧ namecmp name (node.dirent off).name = true

instance (node : Node) (name : List Byte) (off : Nat) : Decidable (node.Names name off) :=
  inferInstanceAs (Decidable (_ ∧ _))

/-- The offsets of the entries, in order. -/
def Node.entries (node : Node) : List Nat :=
  (List.range (node.size.toNat / DIRENT_SIZE)).map (DIRENT_SIZE * ·)

/-- The offset of the first entry that has a name. -/
def Node.lookup (node : Node) (name : List Byte) : Option Nat :=
  node.entries.find? fun off => node.Names name off

theorem mem_entries {node : Node} {off : Nat} : off ∈ node.entries ↔ node.IsEntry off := by
  simp only [Node.entries, List.mem_map, List.mem_range, Node.IsEntry, DIRENT_SIZE]
  constructor
  · rintro ⟨k, inside, rfl⟩
    omega
  · rintro ⟨aligned, inside⟩
    exact ⟨off / 16, by omega, by omega⟩

theorem lookup_eq_none {node : Node} {name : List Byte}
    (absent : ∀ off, node.IsEntry off → ¬ node.Names name off) : node.lookup name = none := by
  apply List.find?_eq_none.mpr
  intro off member
  simpa using absent off (mem_entries.mp member)

theorem lookup_eq_some {node : Node} {name : List Byte} {off : Nat} (entry : node.IsEntry off)
    (names : node.Names name off)
    (first : ∀ other, node.IsEntry other → other < off → ¬ node.Names name other) :
    node.lookup name = some off := by
  cases found : node.lookup name with
  | none => exact absurd names (by simpa using List.find?_eq_none.mp found off (mem_entries.mpr entry))
  | some other =>
      have isOther : node.IsEntry other := mem_entries.mp (List.mem_of_find?_eq_some found)
      have namesOther : node.Names name other := by simpa using List.find?_some found
      have notEarlier : ¬ other < off := fun earlier => first other isOther earlier namesOther
      have notLater : ¬ off < other := by
        intro earlier
        have sorted : node.entries.Pairwise (· < ·) := by
          unfold Node.entries
          rw [List.pairwise_map]
          exact List.pairwise_lt_range.imp fun less => by simp only [DIRENT_SIZE]; omega
        obtain ⟨before, after, split, none⟩ := (List.find?_eq_some_iff_append.mp found).2
        rw [split, List.pairwise_append, List.pairwise_cons] at sorted
        have member : off ∈ before ++ other :: after := split ▸ mem_entries.mpr entry
        rcases List.mem_append.mp member with earlierOne | later
        · exact absurd names (by simpa using none off earlierOne)
        · rcases List.mem_cons.mp later with rfl | later
          · exact absurd earlier (Nat.lt_irrefl _)
          · exact absurd earlier (Nat.lt_asymm (sorted.2.1.1 off later))
      rw [Nat.le_antisymm (Nat.not_lt.mp notLater) (Nat.not_lt.mp notEarlier)]

/-- A directory with an entry stored at an offset. -/
def Node.enter (node : Node) (off : Nat) (de : Dirent) : Node :=
  { node with
    bytes := overwrite node.bytes off DIRENT_SIZE de.bytes
    size := if off + DIRENT_SIZE > node.size.toNat then BitVec.ofNat 32 (off + DIRENT_SIZE)
      else node.size }

theorem ofBytes_congr {bytes bytes' : Nat → Byte}
    (same : ∀ i < DIRENT_SIZE, bytes i = bytes' i) : Dirent.ofBytes bytes = Dirent.ofBytes bytes' := by
  ext1
  · change bytes 1 ++ bytes 0 = bytes' 1 ++ bytes' 0
    rw [same 0 (by decide), same 1 (by decide)]
  · funext i
    have small : 2 + (i : Nat) < DIRENT_SIZE := by
      have bound := i.isLt
      simp only [DIRSIZ, DIRENT_SIZE] at *
      omega
    exact same (2 + i) small

/-- Entries do not overlap. -/
theorem dirent_overwrite (node : Node) (size : BitVec 32) {off other : Nat} (de : Dirent)
    (aligned : DIRENT_SIZE ∣ off) (otherAligned : DIRENT_SIZE ∣ other) :
    ({ node with bytes := overwrite node.bytes off DIRENT_SIZE de.bytes, size } : Node).dirent
      other = if other = off then de else node.dirent other := by
  unfold Node.dirent
  by_cases same : other = off
  · rw [if_pos same, same]
    refine Eq.trans (ofBytes_congr fun i inside => ?_) de.ofBytes_bytes
    simp only [overwrite]
    rw [if_pos (by omega), Nat.add_sub_cancel_left]
  · rw [if_neg same]
    refine ofBytes_congr fun i inside => ?_
    simp only [overwrite]
    refine if_neg ?_
    simp only [DIRENT_SIZE] at *
    omega

theorem dirent_enter (node : Node) {off other : Nat} (de : Dirent)
    (aligned : DIRENT_SIZE ∣ off) (otherAligned : DIRENT_SIZE ∣ other) :
    (node.enter off de).dirent other = if other = off then de else node.dirent other :=
  dirent_overwrite node _ de aligned otherAligned

/-- The size of a directory after an entry has been stored. -/
theorem size_enter (node : Node) {off : Nat} (de : Dirent)
    (fits : off + DIRENT_SIZE ≤ MAXFILE * BSIZE) :
    (node.enter off de).size.toNat = max node.size.toNat (off + DIRENT_SIZE) := by
  have small : off + DIRENT_SIZE < 2 ^ 32 := Nat.lt_of_le_of_lt fits (by decide)
  simp only [Node.enter]
  split
  · rw [BitVec.toNat_ofNat, Nat.mod_eq_of_lt small]
    omega
  · omega

/-- An entry that may stand in a directory. -/
def EntryAllowed (g : Ghost) (d : Nat) (de : Dirent) : Prop :=
  de.inum.toNat ≠ 0 → de.inum.toNat < g.sb.ninodes ∧ (d ∈ g.pinned → de.inum.toNat ∈ g.pinned)

theorem EntriesSound.overwrite {g : Ghost} {d off : Nat} {node : Node} {size : BitVec 32}
    {de : Dirent} (entries : EntriesSound g d node) (allowed : EntryAllowed g d de)
    (aligned : DIRENT_SIZE ∣ off)
    (bound : size.toNat ≤ max node.size.toNat (off + DIRENT_SIZE))
    (below : off ≤ node.size.toNat)
    (whole : g.aligned → DIRENT_SIZE ∣ node.size.toNat → DIRENT_SIZE ∣ size.toNat) :
    EntriesSound g d
      { node with bytes := overwrite node.bytes off DIRENT_SIZE de.bytes, size } := by
  intro isDir
  obtain ⟨multiple, sound⟩ := entries isDir
  refine ⟨fun asked => whole asked (multiple asked), fun other otherAligned inside inUse => ?_⟩
  rw [dirent_overwrite node size de aligned otherAligned] at inUse ⊢
  by_cases same : other = off
  · rw [if_pos same] at inUse ⊢
    exact allowed inUse
  · rw [if_neg same] at inUse ⊢
    refine sound other otherAligned ?_ inUse
    simp only [DIRENT_SIZE] at *
    omega

/-! ## Reading entries -/

section Reading

variable {base : Set Nat} {world : FsWorld} {g : Ghost} {d : Nat} {dp : Slot}
  {P : Disk → Prop} {F : Stop → FsWorld → Prop}
  (sound : Sound base world g) (caches : Caches world dp d) (owns : g.Owns d)
  (isDir : (g.view d).type = T_DIR)

include sound caches owns isDir

theorem readDirent_spec {off : Nat} (below : off < (g.view d).size.toNat)
    {Q : Option Dirent → FsWorld → Prop}
    (whole : off + DIRENT_SIZE ≤ (g.view d).size.toNat →
      Q (some (((g.view d).node world.disk).dirent off)) world)
    (ragged : (g.view d).size.toNat < off + DIRENT_SIZE → Q none world) :
    (readDirent dp off).wp P F Q world := by
  have small := (sound.files d owns).small
  have bound : MAXFILE * BSIZE < 2 ^ 31 := by decide
  have notDevice : ¬ ((g.view d).node world.disk).type = T_DEV := by
    rw [node_type, isDir]
    decide
  have size : ((g.view d).node world.disk).size = (g.view d).size := rfl
  unfold readDirent
  rw [Prog.wp_bind]
  refine readi_spec sound caches owns (by decide) ?_
  unfold Node.read
  rw [if_neg notDevice, size, if_neg (by simp only [DIRENT_SIZE]; omega)]
  by_cases long : off + DIRENT_SIZE > (g.view d).size.toNat
  · rw [if_pos long]
    have short : ¬ toInt32 ((g.view d).size.toNat - off) = DIRENT_SIZE := by
      rw [toInt32_eq (by omega)]
      intro same
      have exact16 := Int.ofNat_inj.mp same
      omega
    dsimp only
    rw [if_neg short]
    exact ragged long
  · rw [if_neg long]
    have full : toInt32 DIRENT_SIZE = (DIRENT_SIZE : Int) := by decide
    dsimp only
    rw [if_pos full]
    have entry : Dirent.ofBytes (fun i =>
        (((g.view d).node world.disk).slice off DIRENT_SIZE).getD i 0) =
          ((g.view d).node world.disk).dirent off := by
      refine ofBytes_congr fun i inside => ?_
      simp [Node.slice, inside]
    rw [entry]
    exact whole (Nat.not_lt.mp long)

end Reading

/-! ## Looking up and entering names -/

/-- What `dirlookup` returns: a reference to the inode that an entry names, or nothing
if no entry has the name. -/
def Looked (base : Set Nat) (world : FsWorld) (g : Ghost) (node : Node) (name : List Byte) :
    Option (Slot × Nat) → FsWorld → Prop
  | none, after => after = world ∧ ∀ off, node.IsEntry off → ¬ node.Names name off
  | some (ip, off), after =>
      node.IsEntry off ∧ node.Names name off ∧
        Gets base (node.dirent off).inum.toNat world g ip after

/-- Where `dirlink` puts a new entry. -/
def Node.Vacant (node : Node) (off : Nat) : Prop :=
  DIRENT_SIZE ∣ off ∧ off ≤ node.size.toNat ∧
    (off + DIRENT_SIZE ≤ node.size.toNat → (node.dirent off).inum = 0)

section Names

variable {base : Set Nat} {world : FsWorld} {g : Ghost} {d : Nat} {dp : Slot}
  {P : Disk → Prop} {F : Stop → FsWorld → Prop} (accepts : Accepts F g.aligned)
  (sound : Sound base world g) (idle : g.Idle) (caches : Caches world dp d) (owns : g.Owns d)
  (isDir : (g.view d).type = T_DIR)

omit accepts in
include sound owns isDir in
/-- A directory of whole entries is never read partly. -/
theorem whole_entry (aligned : g.aligned) {off : Nat} (entry : DIRENT_SIZE ∣ off)
    (below : off < (g.view d).size.toNat) : off + DIRENT_SIZE ≤ (g.view d).size.toNat := by
  have multiple : DIRENT_SIZE ∣ (g.view d).size.toNat :=
    ((sound.files d owns).entries isDir).1 aligned
  simp only [DIRENT_SIZE] at *
  omega

include accepts sound idle caches owns isDir

theorem dirlookupLoop_spec {name : List Byte} {fuel off : Nat} (aligned : DIRENT_SIZE ∣ off)
    (enough : (g.view d).size.toNat < off + fuel * DIRENT_SIZE)
    (before : ∀ other, ((g.view d).node world.disk).IsEntry other → other < off →
      ¬ ((g.view d).node world.disk).Names name other) :
    (dirlookupLoop dp name fuel off).wp P F
      (fun found after => Looked base world g ((g.view d).node world.disk) name found after ∧
        found.map Prod.snd = ((g.view d).node world.disk).lookup name) world := by
  have nothing : (∀ other, ((g.view d).node world.disk).IsEntry other →
        ¬ ((g.view d).node world.disk).Names name other) →
      Looked base world g ((g.view d).node world.disk) name none world ∧
        (none : Option (Slot × Nat)).map Prod.snd = ((g.view d).node world.disk).lookup name :=
    fun absent => ⟨⟨rfl, absent⟩, (lookup_eq_none absent).symm⟩
  have atEnd : (g.view d).size.toNat ≤ off →
      ∀ other, ((g.view d).node world.disk).IsEntry other →
        ¬ ((g.view d).node world.disk).Names name other := by
    refine fun beyond other entry => before other entry ?_
    have inside := entry.2
    simp only [node_size, DIRENT_SIZE] at inside
    omega
  induction fuel generalizing off with
  | zero => exact nothing (atEnd (by omega))
  | succ fuel ih =>
      unfold dirlookupLoop getInode
      simp only [Prog.wp_bind, Prog.wp_getMem, Prog.wp_pure, caches.din sound]
      split
      · next below =>
        rw [Prog.wp_bind]
        refine readDirent_spec sound caches owns isDir below (fun whole => ?_) fun ragged => ?_
        · dsimp only
          split
          · next names =>
            rw [Prog.wp_bind]
            have inUse : (((g.view d).node world.disk).dirent off).inum.toNat ≠ 0 :=
              fun zero => names.1 (BitVec.eq_of_toNat_eq zero)
            have named := ((sound.files d owns).entries isDir).2 off aligned whole inUse
            exact (iget_spec accepts.benign sound idle named.1).mono fun ip after gets =>
              ⟨⟨⟨aligned, whole⟩, names, gets⟩,
                (lookup_eq_some ⟨aligned, whole⟩ names before).symm⟩
          · next differs =>
            refine ih (Nat.dvd_add aligned (Nat.dvd_refl _)) ?_ ?_ ?_
            · rw [Nat.succ_mul] at enough
              omega
            · intro other entry earlier
              by_cases same : other = off
              · exact same ▸ differs
              · refine before other entry ?_
                have otherAligned := entry.1
                simp only [DIRENT_SIZE] at *
                omega
            · intro beyond other entry
              by_cases same : other = off
              · exact same ▸ differs
              · refine before other entry ?_
                have inside := entry.2
                have otherAligned := entry.1
                simp only [node_size, DIRENT_SIZE] at *
                omega
        · refine (accepts.ragged (fun asked => ?_) world).1
          have whole := whole_entry sound owns isDir asked aligned below
          omega
      · next beyond => exact nothing (atEnd (Nat.not_lt.mp beyond))

/-- `dirlookup` finds the first entry that has the name. -/
theorem dirlookup_first {name : List Byte} :
    (dirlookup dp name).wp P F
      (fun found after => Looked base world g ((g.view d).node world.disk) name found after ∧
        found.map Prod.snd = ((g.view d).node world.disk).lookup name) world := by
  unfold dirlookup getInode
  simp only [Prog.wp_bind, Prog.wp_getMem, Prog.wp_pure, caches.din sound]
  rw [if_pos isDir]
  refine dirlookupLoop_spec accepts sound idle caches owns isDir (Nat.dvd_zero _) ?_
    fun other _ earlier => absurd earlier (Nat.not_lt_zero _)
  rw [Nat.zero_add, Nat.succ_mul]
  exact Nat.lt_div_mul_add (by decide)

omit idle in
theorem dirlinkLoop_spec {fuel off : Nat} (aligned : DIRENT_SIZE ∣ off)
    (inside : off ≤ (g.view d).size.toNat)
    (enough : (g.view d).size.toNat < off + fuel * DIRENT_SIZE) :
    (dirlinkLoop dp fuel off).wp P F
      (fun at_off after => after = world ∧ ((g.view d).node world.disk).Vacant at_off) world := by
  induction fuel generalizing off with
  | zero => omega
  | succ fuel ih =>
      unfold dirlinkLoop getInode
      simp only [Prog.wp_bind, Prog.wp_getMem, Prog.wp_pure, caches.din sound]
      split
      · next below =>
        rw [Prog.wp_bind]
        refine readDirent_spec sound caches owns isDir below (fun whole => ?_) fun ragged => ?_
        · dsimp only
          split
          · next free => exact ⟨rfl, aligned, inside, fun _ => free⟩
          · next used =>
            refine ih (Nat.dvd_add aligned (Nat.dvd_refl _)) whole ?_
            rw [Nat.succ_mul] at enough
            omega
        · refine (accepts.ragged (fun asked => ?_) world).2
          have whole := whole_entry sound owns isDir asked aligned below
          omega
      · next beyond =>
        refine ⟨rfl, aligned, inside, fun whole => ?_⟩
        simp only [node_size, DIRENT_SIZE] at whole
        omega

end Names

/-! ## Writing entries -/

/-- The number of blocks that storing an entry may take. -/
def enterCost (node : Node) (off : Nat) : Nat := if off + DIRENT_SIZE ≤ node.size.toNat then 0 else 3

section Entering

variable {base : Set Nat} {world : FsWorld} {g : Ghost} {d : Nat} {dp : Slot}
  {P : Disk → Prop} {F : Stop → FsWorld → Prop}
  (safe : ∀ world g, Sound base world g → P world.disk)
  (accepts : Accepts F g.aligned)
  (sound : Sound base world g) (idle : g.Idle) (caches : Caches world dp d) (owns : g.Owns d)
  (isDir : (g.view d).type = T_DIR)

include safe accepts sound idle caches owns isDir

/-- `writei` of one entry. -/
theorem writeEntry_spec {off : Nat} {de : Dirent} (aligned : DIRENT_SIZE ∣ off)
    (below : off ≤ (g.view d).size.toNat) (allowed : EntryAllowed g d de) :
    (writei dp de.bytes off DIRENT_SIZE).wp P F
      (fun r after => (r = -1 ∧ MAXFILE * BSIZE < off + DIRENT_SIZE) ∨
        (r = DIRENT_SIZE ∧ off + DIRENT_SIZE ≤ MAXFILE * BSIZE ∧
          ∃ g', Caches after dp d ∧ ∀ floor,
            Moves base floor (enterCost ((g.view d).node world.disk) off) world g
              (Function.update (g.files world.disk) d
                (some (((g.view d).node world.disk).enter off de))) g.held after g'))
      world := by
  obtain ⟨node, nodeEq⟩ : ∃ node, node = (g.view d).node world.disk := ⟨_, rfl⟩
  have size : node.size = (g.view d).size := by rw [nodeEq]; rfl
  have entries : EntriesSound g d node := nodeEq ▸ (sound.files d owns).entries
  have bound := (sound.files d owns).small
  have notDevice : ¬ node.type = T_DEV := by
    rw [nodeEq, node_type, isDir]
    decide
  have written : node.write de.bytes off DIRENT_SIZE =
      if off + DIRENT_SIZE > MAXFILE * BSIZE then (-1, node)
      else (toInt32 DIRENT_SIZE, node.enter off de) := by
    unfold Node.write
    have limit : MAXFILE * BSIZE < 2 ^ 31 := by decide
    rw [if_neg notDevice, if_neg (by rw [size]; simp only [DIRENT_SIZE]; omega)]
    rfl
  have whole : WholeEntries g d node de.bytes off DIRENT_SIZE := by
    intro m positive small last
    have all : m = DIRENT_SIZE := by
      simp only [DIRENT_SIZE, BSIZE] at *
      omega
    rw [all]
    exact entries.overwrite allowed aligned (Nat.le_max_left _ _) (size ▸ below)
      fun _ multiple => multiple
  have grown : EntriesSound g d (node.write de.bytes off DIRENT_SIZE).2 := by
    rw [written]
    split
    · exact entries
    · next fits =>
      have newSize := size_enter node de (Nat.not_lt.mp fits)
      refine entries.overwrite allowed aligned newSize.le (size ▸ below) fun _ multiple => ?_
      change DIRENT_SIZE ∣ (node.enter off de).size.toNat
      rw [newSize]
      rcases Nat.le_total node.size.toNat (off + DIRENT_SIZE) with less | more
      · rw [Nat.max_eq_right less]
        exact Nat.dvd_add aligned (Nat.dvd_refl _)
      · rw [Nat.max_eq_left more]
        exact multiple
  have cost : writeCost node off DIRENT_SIZE ≤ enterCost node off := by
    unfold writeCost enterCost blocksFor
    split
    · exact Nat.le_refl _
    · simp only [DIRENT_SIZE, BSIZE] at *
      omega
  rw [nodeEq] at whole grown
  refine (writei_spec safe caches (by decide) sound idle owns
    (fun _ world _ _ _ => accepts.benign _ world trivial) whole grown).mono ?_
  rintro r after ⟨result, g', cached, moves⟩
  rw [← nodeEq] at result moves ⊢
  rw [written] at result moves
  by_cases long : off + DIRENT_SIZE > MAXFILE * BSIZE
  · rw [if_pos long] at result
    exact Or.inl ⟨result, long⟩
  · rw [if_neg long] at result moves
    have full : toInt32 DIRENT_SIZE = (DIRENT_SIZE : Int) := by decide
    refine Or.inr ⟨result.trans full, Nat.not_lt.mp long, g', cached, fun floor => ?_⟩
    exact (moves floor).mono le_rfl cost

omit safe accepts idle in
/-- `isdirempty` reads entries up to the first in use. -/
theorem isdirempty_spec {fuel o : Nat} (aligned : DIRENT_SIZE ∣ o)
    (enough : (g.view d).size.toNat < o + fuel * DIRENT_SIZE) :
    (isdirempty dp fuel o).wp P F
      (fun empty after => after = world ∧ (empty = true →
        ∀ off, ((g.view d).node world.disk).IsEntry off → o ≤ off →
          (((g.view d).node world.disk).dirent off).inum = 0)) world := by
  have done : (g.view d).size.toNat ≤ o → ∀ off, ((g.view d).node world.disk).IsEntry off →
      o ≤ off → (((g.view d).node world.disk).dirent off).inum = 0 := by
    intro beyond off entry after
    have inside := entry.2
    simp only [node_size, DIRENT_SIZE] at inside
    omega
  induction fuel generalizing o with
  | zero => exact ⟨rfl, fun _ => done (by omega)⟩
  | succ fuel ih =>
      unfold isdirempty getInode
      simp only [Prog.wp_bind, Prog.wp_getMem, Prog.wp_pure, caches.din sound]
      split
      · next below =>
        rw [Prog.wp_bind]
        refine readDirent_spec sound caches owns isDir below (fun whole => ?_) fun ragged => ?_
        · dsimp only
          split
          · exact ⟨rfl, by rintro ⟨⟩⟩
          · next free =>
            refine (ih (Nat.dvd_add aligned (Nat.dvd_refl _)) ?_ ?_).mono ?_
            · rw [Nat.succ_mul] at enough
              omega
            · intro beyond off entry after
              have inside := entry.2
              simp only [node_size, DIRENT_SIZE] at inside beyond after
              omega
            · rintro empty _ ⟨rfl, rest⟩
              refine ⟨rfl, fun isEmpty off entry after => ?_⟩
              by_cases same : off = o
              · rw [same]
                exact not_not.mp free
              · refine rest isEmpty off entry ?_
                have offAligned := entry.1
                simp only [DIRENT_SIZE] at *
                omega
        · exact ⟨rfl, by rintro ⟨⟩⟩
      · next beyond => exact ⟨rfl, fun _ => done (Nat.not_lt.mp beyond)⟩

end Entering

end Notux.Fs
