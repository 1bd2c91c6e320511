import Notux.Mkfs.Operations

/-!
# What the image builder writes

Directories are lists of entries and files are lists of bytes.  The builder enters
names at the end of a directory and appends the binary piece by piece, so what it
leaves behind does not depend on the pieces.
-/

namespace Notux.Mkfs

open Notux.Store Notux.Fs Notux.Proc

/-! ## Directories and files -/

/-- A directory with the given entries. -/
def dirNode (nlink : BitVec 16) (entries : List Dirent) : Node where
  type := T_DIR
  major := 0
  minor := 0
  nlink := nlink
  size := BitVec.ofNat 32 (DIRENT_SIZE * entries.length)
  bytes := fun i => (entries[i / DIRENT_SIZE]?.map (·.bytes (i % DIRENT_SIZE))).getD 0

/-- A file with the given bytes. -/
def fileNode (bytes : List Byte) : Node where
  type := T_FILE
  major := 0
  minor := 0
  nlink := 1
  size := BitVec.ofNat 32 bytes.length
  bytes := fun i => bytes.getD i 0

theorem dirNode_nil : dirNode 1 [] = emptyNode T_DIR := rfl

theorem fileNode_nil : fileNode [] = emptyNode T_FILE := rfl

theorem size_dirNode {nlink : BitVec 16} {entries : List Dirent}
    (small : DIRENT_SIZE * entries.length < 2 ^ 32) :
    (dirNode nlink entries).size.toNat = DIRENT_SIZE * entries.length :=
  (BitVec.toNat_ofNat _ _).trans (Nat.mod_eq_of_lt small)

theorem size_fileNode {bytes : List Byte} (small : bytes.length < 2 ^ 32) :
    (fileNode bytes).size.toNat = bytes.length :=
  (BitVec.toNat_ofNat _ _).trans (Nat.mod_eq_of_lt small)

/-- Entering a name at the end of a directory. -/
theorem append_dirNode {nlink : BitVec 16} {entries : List Dirent} (de : Dirent)
    (small : DIRENT_SIZE * entries.length < 2 ^ 32) :
    append (dirNode nlink entries) ((List.range DIRENT_SIZE).map de.bytes) =
      dirNode nlink (entries ++ [de]) := by
  have size := @size_dirNode nlink _ small
  unfold append
  rw [size, List.length_map, List.length_range]
  ext1
  · rfl
  · rfl
  · rfl
  · rfl
  · simp only [dirNode, List.length_append, List.length_singleton, Nat.mul_add, Nat.mul_one]
  · funext i
    simp only [dirNode, Fs.overwrite]
    by_cases inside : DIRENT_SIZE * entries.length ≤ i ∧
        i < DIRENT_SIZE * entries.length + DIRENT_SIZE
    · have index : i / DIRENT_SIZE = entries.length := by
        simp only [DIRENT_SIZE] at *
        omega
      have offset : i - DIRENT_SIZE * entries.length = i % DIRENT_SIZE := by
        simp only [DIRENT_SIZE] at *
        omega
      have bound : i % DIRENT_SIZE < DIRENT_SIZE := Nat.mod_lt _ (by decide)
      rw [if_pos inside, offset, index, List.getElem?_append_right (Nat.le_refl _), Nat.sub_self]
      simp [List.getD, bound]
    · rw [if_neg inside]
      by_cases before : i / DIRENT_SIZE < entries.length
      · rw [List.getElem?_append_left before]
      · have beyond : entries.length + 1 ≤ i / DIRENT_SIZE := by
          simp only [DIRENT_SIZE] at *
          omega
        rw [List.getElem?_eq_none (by omega), List.getElem?_eq_none (by simpa using beyond)]

/-- Bytes added to the end of a file. -/
theorem append_fileNode {bytes : List Byte} (xp : List Byte) (small : bytes.length < 2 ^ 32) :
    append (fileNode bytes) xp = fileNode (bytes ++ xp) := by
  have size := size_fileNode small
  unfold append
  rw [size]
  ext1
  · rfl
  · rfl
  · rfl
  · rfl
  · simp only [fileNode, List.length_append]
  · funext i
    simp only [fileNode, Fs.overwrite, List.getD]
    by_cases before : i < bytes.length
    · rw [if_neg (by omega), List.getElem?_append_left before]
    · by_cases inside : i < bytes.length + xp.length
      · rw [if_pos (by omega), List.getElem?_append_right (by omega)]
      · rw [if_neg (by omega), List.getElem?_eq_none (by omega),
          List.getElem?_eq_none (by simp; omega)]

theorem dirent_dirNode {nlink : BitVec 16} {entries : List Dirent} {j : Nat}
    (inside : j < entries.length) :
    (dirNode nlink entries).dirent (DIRENT_SIZE * j) = entries[j] := by
  refine Eq.trans (ofBytes_congr fun i small => ?_) (entries[j]).ofBytes_bytes
  have index : (DIRENT_SIZE * j + i) / DIRENT_SIZE = j := by
    simp only [DIRENT_SIZE] at *
    omega
  have offset : (DIRENT_SIZE * j + i) % DIRENT_SIZE = i := by
    simp only [DIRENT_SIZE] at *
    omega
  simp only [dirNode, index, offset, List.getElem?_eq_getElem inside]
  rfl

/-- A directory of entries for inodes that exist may stand on the image. -/
theorem sane_dirNode {nlink : BitVec 16} {entries : List Dirent}
    (small : DIRENT_SIZE * entries.length < 2 ^ 32)
    (inRange : ∀ de ∈ entries, de.inum.toNat < NINODES) : Sane (dirNode nlink entries) := by
  intro _
  rw [size_dirNode small]
  refine ⟨Nat.dvd_mul_right _ _, ?_⟩
  rintro _ ⟨j, rfl⟩ inside
  have bound : j < entries.length := by
    simp only [DIRENT_SIZE] at inside
    omega
  rw [dirent_dirNode bound]
  exact inRange _ (List.getElem_mem bound)

theorem sane_fileNode (bytes : List Byte) : Sane (fileNode bytes) := by
  intro isDir
  cases isDir

/-! ## The files by inode number -/

/-- The first inode is the first of the list. -/
def table (nodes : List Node) : Files := fun i => if i = 0 then none else nodes[i - 1]?

theorem table_succ (nodes : List Node) (k : Nat) : table nodes (k + 1) = nodes[k]? := by
  unfold table
  rw [if_neg (Nat.succ_ne_zero k), Nat.add_sub_cancel]

theorem update_table {nodes : List Node} {k : Nat} (inside : k < nodes.length) (node : Node) :
    Function.update (table nodes) (k + 1) (some node) = table (nodes.set k node) := by
  funext i
  cases i with
  | zero => rfl
  | succ i =>
      by_cases same : i = k
      · subst same
        rw [Function.update_self, table_succ, List.getElem?_set_self inside]
      · have differ : i + 1 ≠ k + 1 := fun equal => same (Nat.succ.inj equal)
        rw [Function.update_of_ne differ, table_succ, table_succ,
          List.getElem?_set_ne (Ne.symm same)]

theorem extend_table (nodes : List Node) (node : Node) :
    Function.update (table nodes) (nodes.length + 1) (some node) = table (nodes ++ [node]) := by
  funext i
  cases i with
  | zero => rfl
  | succ i =>
      by_cases same : i = nodes.length
      · subst same
        rw [Function.update_self, table_succ, List.getElem?_append_right (Nat.le_refl _),
          Nat.sub_self]
        rfl
      · have differ : i + 1 ≠ nodes.length + 1 := fun equal => same (Nat.succ.inj equal)
        rw [Function.update_of_ne differ, table_succ, table_succ]
        by_cases before : i < nodes.length
        · rw [List.getElem?_append_left before]
        · rw [List.getElem?_eq_none (by omega), List.getElem?_eq_none (by simp; omega)]

/-- The image holds the listed files in so many blocks. -/
def Built (kernel : Kernel) (nodes : List Node) (blocks : Nat) (image : Image) : Prop :=
  ∃ g, Holds kernel (table nodes) blocks (nodes.length + 1) image g

/-- The entry for an inode under a name. -/
def entry (name : List Byte) (inum : Nat) : Dirent := ⟨BitVec.ofNat 16 inum, strncpy name⟩

theorem inum_entry (name : List Byte) {inum : Nat} (inRange : inum < NINODES) :
    (entry name inum).inum.toNat < NINODES := by
  change (BitVec.ofNat 16 inum).toNat < NINODES
  rw [BitVec.toNat_ofNat]
  exact Nat.lt_of_le_of_lt (Nat.mod_le _ _) inRange

section Built

variable {kernel : Kernel} {nodes : List Node} {blocks : Nat} {image : Image} {F : Prop}
  (mounted : Mounted kernel) (built : Built kernel nodes blocks image)

include mounted built

theorem ialloc_built (inRange : nodes.length + 1 < NINODES) {type : BitVec 16}
    (allocated : type ≠ 0) {Q : Nat → Image → Prop}
    (rest : ∀ image', Built kernel (nodes ++ [emptyNode type]) blocks image' →
      Q (nodes.length + 1) image') :
    Arrives (ialloc type) F Q image := by
  obtain ⟨g, holds⟩ := built
  apply ialloc_spec mounted holds inRange allocated
  intro image' g' after
  rw [extend_table] at after
  apply rest
  refine ⟨g', ?_⟩
  rwa [List.length_append]

theorem setNlink_built {k : Nat} {node : Node} (found : nodes[k]? = some node)
    {nlink : BitVec 16} {Q : Unit → Image → Prop}
    (rest : ∀ image', Built kernel (nodes.set k { node with nlink }) blocks image' →
      Q () image') :
    Arrives (setNlink (k + 1) nlink) F Q image := by
  obtain ⟨g, holds⟩ := built
  have inside := (List.getElem?_eq_some_iff.mp found).1
  apply setNlink_spec mounted holds ((table_succ nodes k).trans found)
  intro image' g' after
  rw [update_table inside] at after
  apply rest
  refine ⟨g', ?_⟩
  rwa [List.length_set]

/-- `iappend` adds bytes to a listed file. -/
theorem iappend_built {k : Nat} {node : Node} (found : nodes[k]? = some node) {xp : List Byte}
    (sane : Sane (append node xp))
    (full : FSSIZE + treeSize (dataBlocks node.size.toNat) <
      blocks + treeSize (dataBlocks (node.size.toNat + xp.length)) → F)
    (long : MAXFILE * BSIZE < node.size.toNat + xp.length → F) {Q : Unit → Image → Prop}
    (rest : ∀ image' blocks', Built kernel (nodes.set k (append node xp)) blocks' image' →
      blocks' + treeSize (dataBlocks node.size.toNat) =
        blocks + treeSize (dataBlocks (node.size.toNat + xp.length)) →
      node.size.toNat + xp.length ≤ MAXFILE * BSIZE → Q () image') :
    Arrives (iappend (k + 1) xp) F Q image := by
  obtain ⟨g, holds⟩ := built
  have inside := (List.getElem?_eq_some_iff.mp found).1
  refine iappend_spec mounted holds ((table_succ nodes k).trans found) sane full long ?_
  intro image' g' blocks' after count bound
  rw [update_table inside] at after
  refine rest image' blocks' ⟨g', ?_⟩ count bound
  rwa [List.length_set]

/-- `dirlink` enters a name at the end of a directory of one block. -/
theorem dirlink_built {k : Nat} {nlink : BitVec 16} {entries : List Dirent}
    (found : nodes[k]? = some (dirNode nlink entries)) (small : entries.length < 32)
    (inRange : ∀ de ∈ entries, de.inum.toNat < NINODES) {name : List Byte} {inum : Nat}
    (target : inum < NINODES) (full : entries = [] → FSSIZE ≤ blocks → F)
    {Q : Unit → Image → Prop}
    (rest : ∀ image', Built kernel
      (nodes.set k (dirNode nlink (entries ++ [entry name inum])))
      (blocks + if entries = [] then 1 else 0) image' → Q () image') :
    Arrives (dirlink (k + 1) name inum) F Q image := by
  have bound : DIRENT_SIZE * entries.length < 2 ^ 32 := by
    simp only [DIRENT_SIZE]
    omega
  have size := @size_dirNode nlink _ bound
  have length : ((List.range DIRENT_SIZE).map (entry name inum).bytes).length = DIRENT_SIZE := by
    simp
  have grown := @append_dirNode nlink _ (entry name inum) bound
  have one : dataBlocks (DIRENT_SIZE * entries.length + DIRENT_SIZE) = 1 := by
    unfold dataBlocks
    simp only [DIRENT_SIZE, BSIZE]
    omega
  have before : dataBlocks (DIRENT_SIZE * entries.length) = if entries = [] then 0 else 1 := by
    unfold dataBlocks
    split
    · next empty =>
      subst empty
      rfl
    · next some =>
      have positive := List.length_pos_of_ne_nil some
      simp only [DIRENT_SIZE, BSIZE]
      omega
  have first : treeSize 1 = 1 := rfl
  have nothing : treeSize 0 = 0 := rfl
  have fits : blocks ≤ FSSIZE := by
    obtain ⟨g, holds⟩ := built
    rw [← holds.freeblock]
    exact holds.building.freeblock_le
  rw [show dirlink (k + 1) name inum =
    iappend (k + 1) ((List.range DIRENT_SIZE).map (entry name inum).bytes) from rfl]
  refine iappend_built mounted built found ?_ ?_ ?_ ?_
  · rw [grown]
    refine sane_dirNode ?_ fun de member => ?_
    · rw [List.length_append]
      simp only [DIRENT_SIZE, List.length_singleton]
      omega
    · rcases List.mem_append.mp member with old | new
      · exact inRange de old
      · rw [List.mem_singleton.mp new]
        exact inum_entry name target
  · rw [length, size, one, before, first]
    split
    · next empty =>
      rw [nothing]
      exact fun tooLarge => full empty (by omega)
    · rw [first]
      intro tooLarge
      omega
  · rw [length, size]
    simp only [MAXFILE, NDINDIRECT, NDIRECT, NINDIRECT, BSIZE, DIRENT_SIZE]
    intro tooLarge
    omega
  · intro image' blocks' after count _
    rw [length, size, one, before, first] at count
    rw [grown] at after
    have same : blocks' = blocks + if entries = [] then 1 else 0 := by
      split at count
      · next empty =>
        rw [nothing] at count
        rw [if_pos empty]
        omega
      · next some =>
        rw [first] at count
        rw [if_neg some]
        omega
    exact rest image' (same ▸ after)

/-- `make_dir_under_root` adds a directory of two entries and enters it in the root. -/
theorem makeDirUnderRoot_built {nlink : BitVec 16} {entries : List Dirent}
    (found : nodes[0]? = some (dirNode nlink entries)) (some : entries ≠ [])
    (small : entries.length < 32) (inRange : ∀ de ∈ entries, de.inum.toNat < NINODES)
    (spare : nodes.length + 1 < NINODES) {name : List Byte} (room : blocks < FSSIZE)
    {Q : Nat → Image → Prop}
    (rest : ∀ image', Built kernel
      (nodes.set 0 (dirNode nlink (entries ++ [entry name (nodes.length + 1)])) ++
        [dirNode 2 [entry [46] (nodes.length + 1), entry [46, 46] 1]])
      (blocks + 1) image' → Q (nodes.length + 1) image') :
    Arrives (makeDirUnderRoot 1 name) F Q image := by
  have positive : 0 < nodes.length := (List.getElem?_eq_some_iff.mp found).1
  have last : ∀ node : Node, (nodes ++ [node])[nodes.length]? = Option.some node := by
    intro node
    simp
  have replace : ∀ node node' : Node,
      (nodes ++ [node]).set nodes.length node' = nodes ++ [node'] := by
    intro node node'
    simp
  unfold makeDirUnderRoot
  rw [arrives_bind]
  refine ialloc_built mounted built spare (by decide) fun image₁ built₁ => ?_
  rw [arrives_bind]
  rw [← dirNode_nil] at built₁
  refine dirlink_built mounted built₁ (last _) (by decide) (by simp) spare
    (fun _ tooLarge => absurd room (by omega)) fun image₂ built₂ => ?_
  rw [arrives_bind]
  rw [replace, List.nil_append, if_pos rfl] at built₂
  have self : ∀ de ∈ [entry [46] (nodes.length + 1)], de.inum.toNat < NINODES := by
    intro de member
    rw [List.mem_singleton.mp member]
    exact inum_entry _ spare
  refine dirlink_built mounted built₂ (last _) (by simp) self (by decide) nofun
    fun image₃ built₃ => ?_
  rw [arrives_bind]
  rw [replace, if_neg (by simp), Nat.add_zero] at built₃
  have rootFound : (nodes ++ [dirNode 1 ([entry [46] (nodes.length + 1)] ++
      [entry [46, 46] 1])])[0]? = Option.some (dirNode nlink entries) := by
    rw [List.getElem?_append_left positive]
    exact found
  refine dirlink_built mounted built₃ rootFound small inRange spare
    (fun empty => absurd empty some) fun image₄ built₄ => ?_
  rw [arrives_bind]
  rw [List.set_append_left _ _ positive, if_neg some, Nat.add_zero] at built₄
  have newFound : (nodes.set 0 (dirNode nlink (entries ++ [entry name (nodes.length + 1)])) ++
      [dirNode 1 ([entry [46] (nodes.length + 1)] ++ [entry [46, 46] 1])])[nodes.length]? =
        Option.some (dirNode 1 ([entry [46] (nodes.length + 1)] ++ [entry [46, 46] 1])) := by
    simp
  refine setNlink_built mounted built₄ newFound fun image₅ built₅ => ?_
  apply rest
  rw [List.set_append_right _ _ (by simp), List.length_set, Nat.sub_self] at built₅
  exact built₅

omit built in
/-- The pieces of a binary are appended one after the other. -/
theorem appendChunks_built {chunks : List (List Byte)} {k : Nat} {bytes : List Byte}
    (built : Built kernel nodes blocks image) (found : nodes[k]? = some (fileNode bytes))
    (bound : bytes.length ≤ MAXFILE * BSIZE)
    (full : FSSIZE + treeSize (dataBlocks bytes.length) <
      blocks + treeSize (dataBlocks (bytes.length + chunks.flatten.length)) → F)
    (long : MAXFILE * BSIZE < bytes.length + chunks.flatten.length → F)
    {Q : Unit → Image → Prop}
    (rest : ∀ image' blocks',
      Built kernel (nodes.set k (fileNode (bytes ++ chunks.flatten))) blocks' image' →
      blocks' + treeSize (dataBlocks bytes.length) =
        blocks + treeSize (dataBlocks (bytes.length + chunks.flatten.length)) → Q () image') :
    Arrives (appendChunks (k + 1) chunks) F Q image := by
  have limit : MAXFILE * BSIZE < 2 ^ 32 := by decide
  have inside := (List.getElem?_eq_some_iff.mp found).1
  induction chunks generalizing nodes blocks image bytes with
  | nil =>
      have same : nodes.set k (fileNode bytes) = nodes := by
        rw [← (List.getElem?_eq_some_iff.mp found).2]
        exact List.set_getElem_self inside
      refine rest image blocks ?_ ?_
      · rwa [List.flatten_nil, List.append_nil, same]
      · rfl
  | cons chunk chunks ih =>
      have size := size_fileNode (Nat.lt_of_le_of_lt bound limit)
      have grown := append_fileNode chunk (Nat.lt_of_le_of_lt bound limit)
      rw [List.flatten_cons] at full long rest
      rw [List.length_append, ← Nat.add_assoc] at full long rest
      have further : treeSize (dataBlocks (bytes.length + chunk.length)) ≤
          treeSize (dataBlocks (bytes.length + chunk.length + chunks.flatten.length)) :=
        treeSize_mono (dataBlocks_mono (Nat.le_add_right _ _))
      unfold appendChunks
      rw [arrives_bind]
      refine iappend_built mounted built found ?_ ?_ ?_ ?_
      · rw [grown]
        exact sane_fileNode _
      · rw [size]
        exact fun tooLarge => full (by omega)
      · rw [size]
        exact fun tooLarge => long (by omega)
      · intro image₁ blocks₁ built₁ count₁ bound₁
        rw [grown] at built₁
        rw [size] at count₁ bound₁
        have found₁ : (nodes.set k (fileNode (bytes ++ chunk)))[k]? =
            some (fileNode (bytes ++ chunk)) := List.getElem?_set_self inside
        refine ih built₁ found₁ ?_ ?_ ?_ ?_ ?_
        · rwa [List.length_append]
        · rw [List.length_append]
          exact fun tooLarge => full (by omega)
        · rwa [List.length_append]
        · intro image' blocks' after count
          rw [List.set_set, List.append_assoc] at after
          rw [List.length_append] at count
          exact rest image' blocks' after (by omega)
        · rwa [List.length_set]

end Built

/-! ## The blank image -/

/-- Before the first inode is allocated. -/
def blankGhost : Ghost where
  sb := sb
  view := fun _ => Dinode.zero
  tag := fun b => if b < nmeta then .metadata else .free
  held := 0
  detached := none
  dirty := none
  pinned := ∅
  aligned := True
  credit := 0

theorem dinodeAt_zero (k : Nat) : dinodeAt Buffer.zero k = Dinode.zero := by
  ext1 <;> simp [dinodeAt, Dinode.zero]

theorem Image.blank_disk {b : Nat} (notSuper : b ≠ 1) : Image.blank.disk b = Buffer.zero := by
  exact Function.update_of_ne (f := fun _ => Buffer.zero) notSuper superblockBlock

theorem Image.blank_super : Image.blank.disk 1 = superblockBlock := by
  change Function.update (fun _ => Buffer.zero) 1 superblockBlock 1 = superblockBlock
  rw [Function.update_self]

theorem Image.blank_inode {i : Nat} (inRange : i < NINODES) :
    onDisk sb Image.blank.bitmapped i = Dinode.zero := by
  have block := Mkfs.iblock_eq inRange
  have zero : Image.blank.bitmapped (iblock sb i) = Buffer.zero := by
    rw [bitmapped_of_notBitmap _ (Or.inl (iblock_sb inRange).1)]
    exact Image.blank_disk (by omega)
  rw [onDisk, zero, dinodeAt_zero]

theorem blankGhost_notOwns (i : Nat) : ¬ blankGhost.Owns i := fun owns => owns.allocated rfl

theorem blankGhost_free (b : Nat) : blankGhost.tag b = .free ↔ nmeta ≤ b := by
  change (if b < nmeta then Tag.metadata else Tag.free) = .free ↔ _
  split
  · simpa using (by omega : b < nmeta)
  · simpa using (by omega : nmeta ≤ b)

theorem blank_blocks : BlocksSound Image.blank.bitmapped blankGhost where
  marks b inside := by
    have bit := marked_bitmapped Image.blank inside
    change b < FSSIZE at inside
    change marked sb Image.blank.bitmapped b = true ↔ _
    rw [bit, ne_eq, blankGhost_free]
    change b < nmeta ↔ _
    omega
  metadata b := by
    change (if b < nmeta then Tag.metadata else Tag.free) = .metadata ↔ b < nmeta
    split <;> simp_all
  inside b used := by
    have low := (not_congr (blankGhost_free b)).mp used
    exact Nat.lt_trans (Nat.lt_of_not_le low) (by decide)
  points i p owns := absurd owns (blankGhost_notOwns i)
  owned b i p tag := by
    change (if b < nmeta then Tag.metadata else Tag.free) = .owned i p at tag
    split at tag <;> cases tag
  credit := Nat.zero_le _

theorem blank_sound {kernel : Kernel} (mounted : Mounted kernel) :
    Sound ∅ (Image.blank.world kernel) blankGhost where
  laid := ⟨by decide, by decide, by decide⟩
  sameSb := mounted.sb
  mounted := mounted.mounted
  cache := mounted.cache rfl
  store := by
    refine ⟨fun i inRange _ => ?_, fun i inRange _ _ => Image.blank_inode inRange⟩
    change Lags (onDisk sb Image.blank.bitmapped i) Dinode.zero
    rw [Image.blank_inode inRange]
    exact ⟨rfl, rfl, rfl, rfl, rfl, fun _ => Or.inl rfl⟩
  blocks := blank_blocks
  files i owns := absurd owns (blankGhost_notOwns i)
  pinned i member := by cases member
  base := Set.empty_subset _

/-- The blank image holds nothing. -/
theorem blank_built {kernel : Kernel} (mounted : Mounted kernel) :
    Built kernel [] nmeta Image.blank := by
  refine ⟨blankGhost, ?_, rfl, fun i owns => absurd owns (blankGhost_notOwns i), ?_, rfl, rfl, rfl⟩
  · refine ⟨blank_sound mounted, rfl, rfl, rfl, rfl, trivial, rfl, rfl, blankGhost_free,
      fun b => ?_, fun _ _ => rfl, fun b beyond => ?_, Image.blank_super⟩
    · change (if b < nmeta then Tag.metadata else Tag.free) ≠ .loose
      split <;> simp
    · change nmeta ≤ b at beyond
      have start : nmeta = 64 := rfl
      exact Image.blank_disk (by omega)
  · funext i
    have none : ¬ (i < blankGhost.sb.ninodes ∧ (blankGhost.view i).type ≠ 0) :=
      fun both => both.2 rfl
    unfold Ghost.files
    rw [if_neg none]
    cases i with
    | zero => rfl
    | succ i => rw [table_succ]; rfl

end Notux.Mkfs
